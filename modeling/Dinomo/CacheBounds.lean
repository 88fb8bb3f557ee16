import Dinomo.Promotion
import Mathlib.Tactic.Linarith

/-!
# The capacity of the adaptive cache

The shortcuts that make room for a promoted value are never the promoted key itself: its frequency is
above the sum of theirs.  With the key they free at least the size of a value, and a demoted value frees
at least two shortcuts, so the entries never count for more bytes than the capacity.  The sizes are
words and their ratio is a double, so this needs a capacity and a value size whose sum is a word, and a
value size that a double keeps.
-/

namespace Dinomo.AdaptiveHybridCache

open FixedSizedCache Nat

variable {κ ν : Type} [DecidableEq κ]

/-- The bytes the entries count for, as a number. -/
def bytes (c : AdaptiveHybridCache κ ν) : ℕ :=
  c.vMap.size * c.valueSize.toNat + c.sMap.size * c.shortcutSize.toNat

/-- The sizes and the cost for which the capacity bounds the entries. -/
structure Sized (c : AdaptiveHybridCache κ ν) : Prop where
  pos : 0 < c.shortcutSize.toNat
  capacity : c.shortcutSize.toNat ≤ c.maxCacheSizeInBytes.toNat
  twice : 2 * c.shortcutSize.toNat ≤ c.valueSize.toNat
  word : c.maxCacheSizeInBytes.toNat + c.valueSize.toNat < 2 ^ 64
  ratio : c.valueSize.toNat ≤ (c.shortcutsToEvict + 1) * c.shortcutSize.toNat
  cost : 1 ≤ c.missCost.toNat

/-- The entries count for no more bytes than the capacity. -/
structure Bounded (c : AdaptiveHybridCache κ ν) : Prop extends Sized c where
  bound : c.bytes ≤ c.maxCacheSizeInBytes.toNat

/-- The products of the miss cost with the hits of a key and with the least hits are words. -/
def HitsFit (c : AdaptiveHybridCache κ ν) (key : κ) : Prop :=
  (c.sMap.hitCounter key).toNat * c.missCost.toNat < 2 ^ 64 ∧
    c.sMap.cachePolicy.leastHits c.shortcutsToEvict * c.missCost.toNat < 2 ^ 64

instance (c : AdaptiveHybridCache κ ν) (key : κ) : Decidable (c.HitsFit key) :=
  inferInstanceAs (Decidable (_ ∧ _))

variable {c : AdaptiveHybridCache κ ν} {key : κ} {node : ListNode κ ν}

/-- The ratio of two sizes that doubles keep is the exact one. -/
theorem toNat_ceilRatio {v s : UInt64} (hs : 0 < s.toNat) (hle : s.toNat ≤ v.toNat) (hv : v.toNat < 2 ^ 53) :
    ((ceilRatio v s).toNat : ℤ) = ⌈(v.toNat / s.toNat : ℚ)⌉ := by
  have hceil : ⌈Rounding.round 53 (double v / double s)⌉ = ⌈(v.toNat / s.toNat : ℚ)⌉ := by
    rw [double, double, Rounding.round_natCast hv, Rounding.round_natCast (hle.trans_lt hv)]
    exact Rounding.ceil_round_div hs hv
  have hsq : (0 : ℚ) < s.toNat := by exact_mod_cast hs
  have hnonneg : 0 ≤ ⌈(v.toNat / s.toNat : ℚ)⌉ := Int.ceil_nonneg (by positivity)
  have hlt : ⌈(v.toNat / s.toNat : ℚ)⌉ ≤ (2 ^ 53 : ℕ) := by
    refine Int.ceil_le.mpr ?_
    have hdiv : (v.toNat / s.toNat : ℚ) ≤ v.toNat := div_le_self (by positivity) (by exact_mod_cast hs)
    exact hdiv.trans (by exact_mod_cast hv.le)
  have hsize : UInt64.size = 2 ^ 64 := rfl
  rw [ceilRatio, hceil, UInt64.toNat_ofNat_of_lt' (by omega)]
  exact Int.toNat_of_nonneg hnonneg

/-- A new cache with such sizes. -/
theorem sized_new {capacity v s cost : UInt64} (hs : 0 < s.toNat) (hcap : s.toNat ≤ capacity.toNat)
    (hv : 2 * s.toNat ≤ v.toNat) (hdouble : v.toNat < 2 ^ 53) (hword : capacity.toNat + v.toNat < 2 ^ 64)
    (hcost : 1 ≤ cost.toNat) : Sized (new capacity v s cost : AdaptiveHybridCache κ ν) := by
  have hratio := toNat_ceilRatio hs (by omega) hdouble
  have hsq : (0 : ℚ) < s.toNat := by exact_mod_cast hs
  have hmul : v.toNat ≤ (ceilRatio v s).toNat * s.toNat := by
    have hle := Int.le_ceil (v.toNat / s.toNat : ℚ)
    rw [← hratio, div_le_iff₀ hsq] at hle
    exact_mod_cast hle
  have hpos : 1 ≤ (ceilRatio v s).toNat := by
    rcases Nat.eq_zero_or_pos (ceilRatio v s).toNat with h | h
    · rw [h] at hmul
      omega
    · exact h
  refine ⟨hs, hcap, hv, hword, ?_, hcost⟩
  have hevict : (ceilRatio v s - 1).toNat + 1 = (ceilRatio v s).toNat := by
    rw [UInt64.toNat_sub_of_le _ _ (UInt64.le_iff_toNat_le.mpr (by simpa using hpos))]
    simp
    omega
  change v.toNat ≤ ((ceilRatio v s - 1).toNat + 1) * s.toNat
  rw [hevict]
  exact hmul

/-- The maps have a part in the bound through their sizes only. -/
theorem Sized.bounded (h : c.Sized) {v : FixedSizedCache κ (ListNode κ ν) (LruPolicy κ)}
    {s : FixedSizedCache κ (ListNode κ ν) (LfuPolicy κ)}
    (hle : v.size * c.valueSize.toNat + s.size * c.shortcutSize.toNat ≤ c.maxCacheSizeInBytes.toNat) :
    Bounded { c with vMap := v, sMap := s } := ⟨⟨h.pos, h.capacity, h.twice, h.word, h.ratio, h.cost⟩, hle⟩

/-- Within the capacity the word is the number. -/
theorem Sized.toNat_current (h : c.Sized) (hb : c.bytes ≤ c.maxCacheSizeInBytes.toNat) :
    c.currentCacheSizeInBytes.toNat = c.bytes := by
  have hpos := h.pos
  have htwice := h.twice
  have hmax := c.maxCacheSizeInBytes.toNat_lt
  have hv : c.vMap.size * c.valueSize.toNat ≤ c.bytes := Nat.le_add_right _ _
  have hs : c.sMap.size * c.shortcutSize.toNat ≤ c.bytes := Nat.le_add_left _ _
  have hvsize : c.vMap.size ≤ c.vMap.size * c.valueSize.toNat := Nat.le_mul_of_pos_right _ (by omega)
  have hssize : c.sMap.size ≤ c.sMap.size * c.shortcutSize.toNat := Nat.le_mul_of_pos_right _ hpos
  have hsize : UInt64.size = 2 ^ 64 := rfl
  have hsum : c.vMap.size * c.valueSize.toNat + c.sMap.size * c.shortcutSize.toNat = c.bytes := rfl
  rw [currentCacheSizeInBytes, UInt64.toNat_add, UInt64.toNat_mul, UInt64.toNat_mul,
    UInt64.toNat_ofNat_of_lt' (by omega), UInt64.toNat_ofNat_of_lt' (by omega),
    Nat.mod_eq_of_lt (by omega : c.vMap.size * c.valueSize.toNat < 2 ^ 64),
    Nat.mod_eq_of_lt (by omega : c.sMap.size * c.shortcutSize.toNat < 2 ^ 64), Nat.mod_eq_of_lt (by omega)]
  rfl

/-- A new value fits when it does as a number. -/
theorem Sized.value_fits_iff (h : c.Sized) (hb : c.bytes ≤ c.maxCacheSizeInBytes.toNat) :
    c.currentCacheSizeInBytes + c.valueSize ≤ c.maxCacheSizeInBytes ↔
      c.bytes + c.valueSize.toNat ≤ c.maxCacheSizeInBytes.toNat := by
  have hword := h.word
  rw [UInt64.le_iff_toNat_le, UInt64.toNat_add, h.toNat_current hb, mod_eq_of_lt (by omega)]

/-- A new shortcut fits when it does as a number. -/
theorem Sized.shortcut_fits_iff (h : c.Sized) (hb : c.bytes ≤ c.maxCacheSizeInBytes.toNat) :
    c.currentCacheSizeInBytes + c.shortcutSize ≤ c.maxCacheSizeInBytes ↔
      c.bytes + c.shortcutSize.toNat ≤ c.maxCacheSizeInBytes.toNat := by
  have hword := h.word
  have htwice := h.twice
  rw [UInt64.le_iff_toNat_le, UInt64.toNat_add, h.toNat_current hb, mod_eq_of_lt (by omega)]

/-- A shortcut that is admitted as fitting fits as a number. -/
theorem Sized.le_of_fits (h : c.Sized) (hb : c.bytes ≤ c.maxCacheSizeInBytes.toNat)
    (hadm : c.admission key = .fits) :
    c.bytes + c.valueSize.toNat - c.shortcutSize.toNat ≤ c.maxCacheSizeInBytes.toNat := by
  have hword := h.word
  have htwice := h.twice
  have hcur := h.toNat_current hb
  unfold admission at hadm
  split_ifs at hadm with hfit
  have hadd : (c.currentCacheSizeInBytes + c.valueSize).toNat = c.bytes + c.valueSize.toNat := by
    rw [UInt64.toNat_add, hcur, mod_eq_of_lt (by omega)]
  rw [UInt64.le_iff_toNat_le, UInt64.toNat_sub_of_le _ _ (UInt64.le_iff_toNat_le.mpr (by omega)), hadd] at hfit
  exact hfit

/-- The shortcuts that make room for a key with fitting hits are there, and the key is not one of them. -/
theorem Sized.admissible (h : c.Sized) (hfit : c.HitsFit key) (hnode : c.sMap.lookup key = some node) :
    c.Admissible key := by
  rw [admissible_iff]
  by_cases hroom : c.MakesRoom key
  · exact .inr (.inl hroom)
  refine .inr (.inr ?_)
  have hcost := h.cost
  have hcostlt := c.missCost.toNat_lt
  obtain ⟨f, hf⟩ := exists_frequency hnode
  have hhits : c.sMap.hitCounter key = f := by rw [hitCounter, hits_of_mem hf]; rfl
  obtain ⟨hkeyfit, hleastfit⟩ := hfit
  rw [hhits] at hkeyfit ⊢
  rw [hitsToStay]
  split_ifs with hlen
  · -- an evicted key's frequency is one of the summands
    have hmem : key ∈ (c.sMap.frequencies.take c.shortcutsToEvict).map Prod.snd :=
      not_not.mp fun hnot => hroom ⟨hlen, hnot⟩
    obtain ⟨x, hx, rfl⟩ := List.mem_map.mp hmem
    have hxf : x.1 = f := by
      have hmemx : (x.1, x.2) ∈ c.sMap.frequencies := List.mem_of_mem_take hx
      have hitsx := hits_of_mem hmemx
      rw [hits_of_mem hf] at hitsx
      exact (Option.some.inj hitsx).symm
    have hsummand : x.1.toNat ≤ c.sMap.cachePolicy.leastHits c.shortcutsToEvict :=
      List.single_le_sum (by simp) _ (List.mem_map.mpr ⟨x, hx, rfl⟩)
    rw [Nat.mod_eq_of_lt hleastfit, ← hxf]
    exact hsummand.trans (Nat.le_mul_of_pos_right _ hcost)
  · have hprod : f.toNat * 1 + c.missCost.toNat ≤ f.toNat * c.missCost.toNat + 1 ∨ f.toNat = 0 := by
      rcases Nat.eq_zero_or_pos f.toNat with hz | hpos
      · exact .inr hz
      · obtain ⟨a, ha⟩ := Nat.exists_eq_add_of_le' hcost
        obtain ⟨b, hb⟩ := Nat.exists_eq_add_of_le' hpos
        rw [ha, hb]
        exact .inl (by nlinarith)
    omega

/-- A promotion keeps the bound. -/
theorem Bounded.promote (h : c.Bounded) (hv : c.vMap.lookup key = none) (hnode : c.sMap.lookup key = some node)
    (hadm : c.Admissible key) (n : ListNode κ ν) {o : AdaptiveHybridCache κ ν} (ho : o.Bounded) :
    ∃ c', c.promote key n o = some c' ∧ c'.Bounded := by
  have hsizev := size_put_of_none hv n
  have hbound := h.bound
  cases hcase : c.admission key with
  | fits =>
    refine ⟨_, promote_fits hnode hcase n o, h.toSized.bounded ?_⟩
    have hfit := h.le_of_fits hbound hcase
    rw [bytes, ← size_erase hnode, add_mul, one_mul] at hfit
    rw [hsizev, add_mul, one_mul]
    omega
  | evicts =>
    obtain ⟨hlen, hkey⟩ := hadm hcase
    obtain ⟨s, hs, hprom⟩ := promote_evicts hnode hcase hlen hkey n o
    refine ⟨_, hprom, h.toSized.bounded ?_⟩
    have hratio := h.ratio
    rw [bytes, ← hs, add_mul _ _ c.shortcutSize.toNat] at hbound
    rw [hsizev, add_mul, one_mul]
    omega
  | refused => exact ⟨o, promote_refused hcase n o, ho⟩

/-- A value that is replaced keeps the bound. -/
theorem Bounded.replaceValue (h : c.Bounded) (hnode : c.vMap.lookup key = some node) (n : ListNode κ ν) :
    Bounded { c with vMap := (c.vMap.touch key).put key n } := by
  refine h.toSized.bounded ?_
  rw [size_put_of_lookup (c := c.vMap.touch key) hnode n]
  exact h.bound

/-- A shortcut that is used keeps the bound. -/
theorem Bounded.used (h : c.Bounded) (key : κ) : (c.used key).Bounded := h.toSized.bounded h.bound

/-- A shortcut that is replaced keeps the bound. -/
theorem Bounded.replaceShortcut (h : c.Bounded) (hnode : c.sMap.lookup key = some node) (n : ListNode κ ν) :
    Bounded { c with sMap := c.sMap.put key n } := by
  refine h.toSized.bounded ?_
  rw [size_put_of_lookup hnode n]
  exact h.bound

/-- A look-up is defined and keeps the bound. -/
theorem Bounded.find (h : c.Bounded) (copy : Option ν → ℕ → ℕ → ν)
    (hfit : c.sMap.lookup key ≠ none → (c.used key).HitsFit key) :
    ∃ r c', c.find key copy = some (r, c') ∧ c'.Bounded := by
  rcases hv : c.vMap.lookup key with - | node
  · rcases hs : c.sMap.lookup key with - | node
    · exact ⟨none, c, find_none hv hs copy, h⟩
    · have hadm := (h.used key).admissible (hfit (by simp [hs])) hs
      have hput := (h.used key).replaceShortcut hs { node with weight := node.weight + 1 }
      have hlookup := lookup_put (c.sMap.touch key) key key { node with weight := node.weight + 1 }
      rw [if_pos rfl] at hlookup
      obtain ⟨c', hc', hb⟩ := hput.promote hv hlookup (hadm.put hs _)
        { node with value := some (copy node.value node.valLen node.shortcut), weight := node.weight + 1 } hput
      refine ⟨some node.entry, c', ?_, hb⟩
      rw [find_shortcut hv hs copy rfl]
      exact Option.map_eq_some_iff.mpr ⟨c', hc', rfl⟩
  · exact ⟨_, _, find_value hv copy, h.replaceValue hv _⟩

/-- A key that the cache does not hold is stored within the bound. -/
theorem Bounded.insertNew (h : c.Bounded) {R : κ → CachedEntry ν → Prop} (hinv : c.Inv R none)
    (hv : c.vMap.lookup key = none) (hs : c.sMap.lookup key = none) (value : Option ν) (valLen shortcut : ℕ) :
    ∃ c', c.insertNew key value valLen shortcut = some c' ∧ c'.Bounded := by
  have hbound := h.bound
  have htwice := h.twice
  simp only [AdaptiveHybridCache.insertNew, h.value_fits_iff hbound, h.shortcut_fits_iff hbound]
  rw [bytes] at hbound ⊢
  split_ifs with hfits hfits' hsize
  · refine ⟨_, rfl, h.toSized.bounded ?_⟩
    rw [size_put_of_none hv, add_mul, one_mul]
    omega
  · refine ⟨_, rfl, h.toSized.bounded ?_⟩
    rw [size_put_of_none hs, add_mul, one_mul]
    omega
  · obtain ⟨evicted, v, hevict⟩ := lru_evict_isSome hsize
    obtain ⟨k, -, hk, rfl⟩ := evict_eq_some hevict
    have hkey := (hinv.values k evicted hk).1
    have hne : key ≠ evicted.key := by
      rintro rfl
      rw [hkey, hk] at hv
      cases hv
    have hweight := size_weightPut (hkey ▸ hinv.disjoint k evicted hk)
      { evicted with value := none } evicted.weight
    have hput := size_put_of_none (c := c.sMap.weightPut evicted.key
      { evicted with value := none } evicted.weight) (k := key)
      (by rw [lookup_weightPut, if_neg hne, hs])
    rw [hevict]
    refine ⟨_, rfl, h.toSized.bounded ?_⟩
    rw [← size_erase hk, add_mul, one_mul] at hbound
    rw [hput, hweight, add_mul, add_mul, one_mul]
    omega
  · -- no value is held and not one more shortcut fits, so there is a shortcut to evict
    have hsize : c.vMap.size = 0 := by simpa using hsize
    have hcapacity := h.capacity
    rw [hsize, zero_mul, zero_add] at hfits'
    have hpos : c.sMap.size ≠ 0 := by
      intro hz
      rw [hz, zero_mul, zero_add] at hfits'
      omega
    obtain ⟨evicted, s, hevict⟩ := lfu_evict_isSome hpos
    obtain ⟨k, -, hk, rfl⟩ := evict_eq_some hevict
    rw [hevict]
    refine ⟨_, rfl, h.toSized.bounded ?_⟩
    rw [size_put_of_none (by rw [lookup_erase, hs, ite_self]),
      size_erase hk]
    exact hbound

/-- An insertion is defined and keeps the bound. -/
theorem Bounded.insert (h : c.Bounded) {R : κ → CachedEntry ν → Prop} (hinv : c.Inv R none)
    (value : Option ν) (valLen shortcut : ℕ) (hfit : c.sMap.lookup key ≠ none → (c.used key).HitsFit key) :
    ∃ c', c.insert key value valLen shortcut = some c' ∧ c'.Bounded := by
  rcases hv : c.vMap.lookup key with - | node
  · rcases hs : c.sMap.lookup key with - | node
    · rw [insert_new hv hs]
      exact h.insertNew hinv hv hs value valLen shortcut
    · have hadm := (h.used key).admissible (hfit (by simp [hs])) hs
      have hput := (h.used key).replaceShortcut hs
        { key, value := none, valLen, shortcut, weight := node.weight + 1 }
      rw [insert_shortcut hv hs]
      exact (h.used key).promote hv hs hadm _ hput
  · exact ⟨_, insert_value hv, h.replaceValue hv _⟩

/-- The products of a call's hit counts with the miss cost are words, and a new miss cost is not zero. -/
def CallFits (c : AdaptiveHybridCache κ ν) : CacheCall κ ν → Prop
  | .insert key _ _ _ | .update key _ _ _ | .find key _ =>
    (c.sMap.lookup key).isSome → (c.used key).HitsFit key
  | .updateMissCost newMissCost => 1 ≤ newMissCost.toNat
  | .remove _ | .clear => True

instance (c : AdaptiveHybridCache κ ν) : ∀ e, Decidable (c.CallFits e)
  | .insert _ _ _ _ | .update _ _ _ _ | .find _ _ => inferInstanceAs (Decidable (_ → _))
  | .updateMissCost _ => inferInstanceAs (Decidable (_ ≤ _))
  | .remove _ | .clear => .isTrue trivial

/-- What the cache keeps between calls. -/
structure Consistent (c : AdaptiveHybridCache κ ν) : Prop where
  disjoint : ∀ k, c.vMap.lookup k = none ∨ c.sMap.lookup k = none
  bound : c.vMap.size * c.valueSize.toNat + c.sMap.size * c.shortcutSize.toNat ≤ c.maxCacheSizeInBytes.toNat
  noValue : ∀ k n, c.sMap.lookup k = some n → n.value = none
  frequency : ∀ k n, c.sMap.lookup k = some n → c.sMap.cachePolicy.hits k = some n.weight

/-- The invariant within the bound. -/
def BoundedInv (c : AdaptiveHybridCache κ ν) : Prop := c.Bounded ∧ c.Inv (fun _ _ => True) none

/-- The invariant within the bound makes the cache consistent. -/
theorem BoundedInv.consistent (h : c.BoundedInv) : c.Consistent where
  disjoint k := by
    rcases hk : c.vMap.lookup k with - | n
    · exact .inl rfl
    · exact .inr (h.2.disjoint k n hk)
  bound := h.1.bound
  noValue k n hn := (h.2.keys k n hn).2
  frequency k n hn := hits_of_mem (h.2.shortcuts k n (by simp) hn).1

/-- Every call is defined and keeps the invariant and the bound. -/
theorem BoundedInv.step (h : c.BoundedInv) {e : CacheCall κ ν} (hfit : c.CallFits e) :
    ∃ c', c.step e = some c' ∧ c'.BoundedInv := by
  obtain ⟨hb, hinv⟩ := h
  have hinsert : ∀ (key : κ) (value : Option ν) (valLen shortcut : ℕ),
      ((c.sMap.lookup key).isSome → (c.used key).HitsFit key) →
      ∃ c', c.insert key value valLen shortcut = some c' ∧ c'.BoundedInv := by
    intro key value valLen shortcut hfit
    obtain ⟨c', hc', hb'⟩ := hb.insert hinv value valLen shortcut
      fun hne => hfit (Option.isSome_iff_ne_none.mpr hne)
    exact ⟨c', hc', hb', hinv.insert hc' (fun _ _ _ _ => trivial) trivial fun _ _ _ _ => trivial⟩
  cases e with
  | insert key value valLen shortcut => exact hinsert key value valLen shortcut hfit
  | update key value valLen shortcut => exact hinsert key value valLen shortcut hfit
  | find key copy =>
    obtain ⟨r, c', hc', hb'⟩ := hb.find copy fun hne => hfit (Option.isSome_iff_ne_none.mpr hne)
    refine ⟨c', ?_, hb', hinv.find hc' fun _ _ _ _ => trivial⟩
    simp only [AdaptiveHybridCache.step, hc', Option.map_some]
  | remove key =>
    refine ⟨_, rfl, hb.toSized.bounded ?_, hinv.remove key⟩
    have hv := Nat.mul_le_mul_right c.valueSize.toNat (c.vMap.size_remove_le key)
    have hs := Nat.mul_le_mul_right c.shortcutSize.toNat (c.sMap.size_remove_le key)
    exact (Nat.add_le_add hv hs).trans hb.bound
  | clear => exact ⟨_, rfl, hb.toSized.bounded (by simp), .of_empty rfl rfl⟩
  | updateMissCost newMissCost =>
    exact ⟨_, rfl, ⟨⟨hb.pos, hb.capacity, hb.twice, hb.word, hb.ratio, hfit⟩, hb.bound⟩,
      ⟨hinv.disjoint, hinv.values, hinv.keys, hinv.shortcuts⟩⟩

/-- Every sequence of calls is defined and leaves the cache consistent. -/
theorem cache_consistent {capacity v s cost : UInt64} (hs : 0 < s.toNat) (hcap : s.toNat ≤ capacity.toNat)
    (hv : 2 * s.toNat ≤ v.toNat) (hdouble : v.toNat < 2 ^ 53) (hword : capacity.toNat + v.toNat < 2 ^ 64)
    (hcost : 1 ≤ cost.toNat) {calls : List (CacheCall κ ν)}
    (hfit : Transition.Guarded step CallFits (new capacity v s cost) calls) :
    ∃ c, Transition.run step (new capacity v s cost) calls = some c ∧ c.Consistent := by
  have hsized : Sized (new capacity v s cost : AdaptiveHybridCache κ ν) :=
    sized_new hs hcap hv hdouble hword hcost
  have hbytes : bytes (new capacity v s cost : AdaptiveHybridCache κ ν) = 0 := by simp [bytes, new]
  obtain ⟨c, hrun, hc⟩ := Transition.exists_run_of_guarded (P := BoundedInv) (fun _ _ h => h.step)
    ⟨⟨hsized, by rw [hbytes]; exact Nat.zero_le _⟩, .of_empty rfl rfl⟩ hfit
  exact ⟨c, hrun, hc.consistent⟩

/-- Four keys in the place of two values and a shortcut: one value is demoted. -/
theorem cache_consistent_demotion :
    ∃ c : AdaptiveHybridCache ℕ ℕ,
      Transition.run step (new 40 16 8 2)
        [.insert 0 (some 7) 1 64, .insert 1 (some 8) 1 128, .insert 2 (some 9) 1 192, .insert 3 (some 5) 1 256,
          .find 3 fun _ _ _ => 5] = some c ∧ c.Consistent :=
  cache_consistent (by decide) (by decide) (by decide) (by decide) (by decide) (by decide) (by decide +kernel)

/-- A capacity and a value size whose sum is no word, and a value size that a double does not keep. -/
theorem entries_exceed_capacity :
    (Transition.Guarded step CallFits (new 18446744073709551615 9223372036854775808 1 1 : AdaptiveHybridCache ℕ ℕ)
        [.insert 0 (some 0) 1 64, .insert 1 (some 0) 1 128] ∧
      (Transition.run step (new 18446744073709551615 9223372036854775808 1 1 : AdaptiveHybridCache ℕ ℕ)
        [.insert 0 (some 0) 1 64, .insert 1 (some 0) 1 128]).map
          (fun c => (c.bytes, c.maxCacheSizeInBytes.toNat)) = some (2 ^ 64, 2 ^ 64 - 1)) ∧
    Transition.Guarded step CallFits (new (2 ^ 60) (2 ^ 60 + 1) (2 ^ 59) 1 : AdaptiveHybridCache ℕ ℕ)
        [.insert 0 (some 0) 1 64, .insert 1 (some 0) 1 128, .find 0 fun _ _ _ => 0] ∧
      (Transition.run step (new (2 ^ 60) (2 ^ 60 + 1) (2 ^ 59) 1 : AdaptiveHybridCache ℕ ℕ)
        [.insert 0 (some 0) 1 64, .insert 1 (some 0) 1 128, .find 0 fun _ _ _ => 0]).map
          (fun c => (c.bytes, c.maxCacheSizeInBytes.toNat)) = some (2 ^ 60 + 1, 2 ^ 60) := by
  decide +kernel

end Dinomo.AdaptiveHybridCache
