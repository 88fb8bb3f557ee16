import Dinomo.AdaptiveCache
import Dinomo.Clht

/-!
# The miss cost and the promotion of shortcuts

A shortcut that does not fit as a value is promoted when its hits exceed the hits of the shortcuts that
make room for it, times the cost of a miss.  Where there are too few of those, the largest word stands
for their hits, and its product with the cost is a word again: the cost below zero.  A cost of zero lets
every shortcut pass.

`get` counts an index look-up for every key, but its reads only for a key that the index holds, and the
average of the two is the cost that `update_cache_miss_cost` installs.  Look-ups of keys that do not
exist bring it down to zero.
-/

namespace Dinomo

/-- `miss_cost_tracker`: the reads of the look-ups that found their key, and the number of look-ups. -/
structure MissCostTracker where
  first : UInt64
  second : UInt64

open MissCostTracker

namespace MissCostTracker

variable {α κ ν : Type} [DecidableEq κ]

/-- The counters after `update_cache_miss_cost`. -/
def zero : MissCostTracker := ⟨0, 0⟩

/-- One turn of the loop of `get`: the look-up in the index and, if it finds an address, the two reads of the log. -/
def miss (m : MissCostTracker) (x : Table α × Key) : MissCostTracker :=
  match x.1.get x.2 with
  | (none, _) => { m with second := m.second + 1 }
  | (some _, reads) => { first := m.first + .ofNat (reads + 2), second := m.second + 1 }

/-- `update_cache_miss_cost`. -/
def updateCacheMissCost (m : MissCostTracker) (c : AdaptiveHybridCache κ ν) :
    MissCostTracker × AdaptiveHybridCache κ ν :=
  (zero, if 0 < m.second then c.updateMissCost (m.first / m.second) else c)

/-- The reads that a look-up counts for. -/
def countedReads (x : Table α × Key) : ℕ :=
  match x.1.get x.2 with
  | (none, _) => 0
  | (some _, reads) => reads + 2

/-- The counters are the sum of the counted reads and the number of look-ups, as words. -/
theorem foldl_miss (history : List (Table α × Key)) (m : MissCostTracker) :
    history.foldl miss m =
      ⟨m.first + .ofNat (history.map countedReads).sum, m.second + .ofNat history.length⟩ := by
  induction history generalizing m with
  | nil => simp
  | cons x l ih =>
    have hmiss : m.miss x = ⟨m.first + .ofNat (countedReads x), m.second + 1⟩ := by
      unfold miss countedReads
      rcases x.1.get x.2 with ⟨- | v, reads⟩
      · simp
      · rfl
    rw [List.foldl_cons, ih, hmiss]
    simp only [List.map_cons, List.sum_cons, List.length_cons, UInt64.ofNat_add, UInt64.add_assoc, mk.injEq, true_and]
    rw [UInt64.add_comm 1]
    rfl

end MissCostTracker

namespace AdaptiveHybridCache

variable {α κ ν : Type} [DecidableEq κ]

/-- The cache after a history of index look-ups and the cost that comes from it. -/
def afterMisses (c : AdaptiveHybridCache κ ν) (history : List (Table α × Key)) : AdaptiveHybridCache κ ν :=
  ((history.foldl MissCostTracker.miss .zero).updateCacheMissCost c).2

/-- The cost of a miss after a history: the counted reads of a look-up on average. -/
def costAfter (c : AdaptiveHybridCache κ ν) (history : List (Table α × Key)) : ℕ :=
  if history.length % 2 ^ 64 = 0 then c.missCost.toNat
  else (history.map MissCostTracker.countedReads).sum % 2 ^ 64 / (history.length % 2 ^ 64)

/-- The hits with which a shortcut stays one if it does not fit as a value. -/
def hitsToStay (c : AdaptiveHybridCache κ ν) (cost : ℕ) : ℕ :=
  if c.shortcutsToEvict ≤ c.sMap.frequencies.length then
    c.sMap.cachePolicy.leastHits c.shortcutsToEvict * cost % 2 ^ 64
  else (2 ^ 64 - cost) % 2 ^ 64

/-- The shortcuts that make room are there, and a key is not one of them. -/
def MakesRoom (c : AdaptiveHybridCache κ ν) (key : κ) : Prop :=
  c.shortcutsToEvict ≤ c.sMap.frequencies.length ∧
    key ∉ (c.sMap.frequencies.take c.shortcutsToEvict).map Prod.snd

/-- A used shortcut fits as a value, or others make room for it, or it is not used enough for that. -/
def Promotable (c : AdaptiveHybridCache κ ν) (key : κ) (cost : ℕ) : Prop :=
  c.currentCacheSizeInBytes + c.valueSize - c.shortcutSize ≤ c.maxCacheSizeInBytes ∨ c.MakesRoom key ∨
    (c.sMap.hitCounter key).toNat ≤ c.hitsToStay cost

instance (c : AdaptiveHybridCache κ ν) (key : κ) : Decidable (c.MakesRoom key) :=
  inferInstanceAs (Decidable (_ ∧ _))

instance (c : AdaptiveHybridCache κ ν) (key : κ) (cost : ℕ) : Decidable (c.Promotable key cost) :=
  inferInstanceAs (Decidable (_ ∨ _ ∨ _))

variable {c : AdaptiveHybridCache κ ν} {key : κ} {node : ListNode κ ν}

/-- The hits to stay are the product the code compares with, where no others make room. -/
theorem toNat_aggregatedMinHits_mul (h : ¬c.MakesRoom key) :
    (c.sMap.aggregatedMinHits c.shortcutsToEvict * c.missCost).toNat = c.hitsToStay c.missCost.toNat := by
  have hpos : 0 < c.shortcutsToEvict := by
    refine Nat.pos_of_ne_zero fun hz => h ⟨by omega, ?_⟩
    simp [hz]
  rw [UInt64.toNat_mul, hitsToStay]
  split_ifs with hlen
  · have hmin : (c.sMap.aggregatedMinHits c.shortcutsToEvict).toNat = _ := LfuPolicy.toNat_sumMinHits hpos hlen
    rw [hmin, Nat.mod_mul_mod]
  · -- the largest word times the cost is the cost below zero
    have hmin : c.sMap.aggregatedMinHits c.shortcutsToEvict = 18446744073709551615 :=
      LfuPolicy.sumMinHits_of_lt (Nat.lt_of_not_le hlen)
    have hlt := c.missCost.toNat_lt
    rw [hmin]
    change 18446744073709551615 * c.missCost.toNat % 2 ^ 64 = _
    omega

/-- What a promotion evicts is there and is not the promoted key exactly when the key is promotable. -/
theorem admissible_iff : c.Admissible key ↔ c.Promotable key c.missCost.toNat := by
  by_cases hroom : c.MakesRoom key
  · exact ⟨fun _ => .inr (.inl hroom), fun _ _ => hroom⟩
  · have hbar := toNat_aggregatedMinHits_mul hroom
    unfold Admissible Promotable admission
    split_ifs with hfits hhits
    · simp [hfits]
    · rw [UInt64.lt_iff_toNat_lt, hbar] at hhits
      simp only [forall_const, hfits, false_or]
      exact ⟨fun h => (hroom h).elim, fun h => h.elim id fun h => absurd h (by omega)⟩
    · rw [UInt64.lt_iff_toNat_lt, hbar] at hhits
      simp only [false_imp_iff, true_iff]
      exact .inr (.inr (by omega))

/-- A promotion has a result exactly when the key is admissible. -/
theorem promote_isSome_iff (h : c.sMap.lookup key = some node) (n : ListNode κ ν) (o : AdaptiveHybridCache κ ν) :
    (c.promote key n o).isSome ↔ c.Admissible key := by
  constructor
  · intro hsome hadm
    simp only [promote, hadm] at hsome
    rcases hevict : c.sMap.evictMany c.shortcutsToEvict with - | s
    · simp [hevict] at hsome
    · obtain ⟨hlen, htaken⟩ := FixedSizedCache.evictMany_taken hevict
      refine ⟨hlen, fun hmem => ?_⟩
      simp [hevict, moveToValues, FixedSizedCache.remove, htaken key hmem] at hsome
  · intro hadm
    obtain ⟨c', hc'⟩ := promote_isSome h hadm n o
    simp [hc']

/-- A look-up of a shortcut has a result exactly when the used key is admissible. -/
theorem find_isSome_iff (hv : c.vMap.lookup key = none) (hs : c.sMap.lookup key = some node)
    (copy : Option ν → ℕ → ℕ → ν) : (c.find key copy).isSome ↔ (c.used key).Admissible key := by
  have hput := FixedSizedCache.lookup_put (c.sMap.touch key) key key { node with weight := node.weight + 1 }
  rw [if_pos rfl] at hput
  rw [find_shortcut hv hs copy rfl, Option.isSome_map, promote_isSome_iff hput]
  have hadm := admission_put (c := c.used key) hs { node with weight := node.weight + 1 }
  have hfreq : ((c.sMap.touch key).put key { node with weight := node.weight + 1 }).frequencies =
      (c.used key).sMap.frequencies := by
    rw [FixedSizedCache.frequencies, FixedSizedCache.cachePolicy_put_of_lookup (c := c.sMap.touch key) hs]
    rfl
  unfold Admissible
  rw [← hfreq, ← hadm]
  rfl

/-- The cost of a miss is a word. -/
theorem costAfter_lt (c : AdaptiveHybridCache κ ν) (history : List (Table α × Key)) :
    c.costAfter history < 2 ^ 64 := by
  unfold costAfter
  split_ifs
  · exact c.missCost.toNat_lt
  · exact (Nat.div_le_self _ _).trans_lt (Nat.mod_lt _ (by decide))

/-- The cost that is installed is the average of the counted reads. -/
theorem afterMisses_eq (c : AdaptiveHybridCache κ ν) (history : List (Table α × Key)) :
    c.afterMisses history = c.updateMissCost (.ofNat (c.costAfter history)) := by
  have hzero : 0 < UInt64.ofNat history.length ↔ ¬history.length % 2 ^ 64 = 0 := by
    rw [UInt64.lt_iff_toNat_lt, UInt64.toNat_ofNat']
    exact Nat.pos_iff_ne_zero
  have hquot : UInt64.ofNat (history.map countedReads).sum / .ofNat history.length =
      .ofNat ((history.map countedReads).sum % 2 ^ 64 / (history.length % 2 ^ 64)) := by
    have hlt := (Nat.div_le_self ((history.map countedReads).sum % 2 ^ 64)
      (history.length % 2 ^ 64)).trans_lt (Nat.mod_lt _ (by decide))
    rw [← UInt64.toNat_inj, UInt64.toNat_div, UInt64.toNat_ofNat', UInt64.toNat_ofNat', UInt64.toNat_ofNat',
      Nat.mod_eq_of_lt hlt]
  simp only [afterMisses, updateCacheMissCost, foldl_miss, zero,
    UInt64.zero_add, hzero, hquot, costAfter]
  split_ifs
  · simp [updateMissCost]
  · rfl

/-- After any history of misses, a use of a shortcut is defined exactly when the key is promotable at the cost. -/
theorem promotion_defined_iff (hv : c.vMap.lookup key = none) (hs : (c.sMap.lookup key).isSome)
    (history : List (Table α × Key)) :
    ((∀ copy, ((c.afterMisses history).find key copy).isSome) ∧
      ∀ value valLen shortcut, ((c.afterMisses history).insert key value valLen shortcut).isSome) ↔
    (c.used key).Promotable key (c.costAfter history) := by
  obtain ⟨node, hnode⟩ := Option.isSome_iff_exists.mp hs
  have hcost : ((c.afterMisses history).used key).missCost.toNat = c.costAfter history := by
    rw [afterMisses_eq]
    exact UInt64.toNat_ofNat_of_lt' (c.costAfter_lt history)
  have hkeep : ∀ k, (c.afterMisses history).vMap.lookup k = c.vMap.lookup k ∧
      (c.afterMisses history).sMap.lookup k = c.sMap.lookup k := fun k => by
    rw [afterMisses_eq]
    exact ⟨rfl, rfl⟩
  have hprom : ((c.afterMisses history).used key).Admissible key ↔
      (c.used key).Promotable key (c.costAfter history) := by
    rw [admissible_iff, hcost, afterMisses_eq]
    rfl
  rw [← hprom]
  have hfind := find_isSome_iff ((hkeep key).1.trans hv) ((hkeep key).2.trans hnode)
  have hinsert : ∀ value valLen shortcut, ((c.afterMisses history).insert key value valLen shortcut).isSome ↔
      ((c.afterMisses history).used key).Admissible key := fun value valLen shortcut => by
    rw [insert_shortcut ((hkeep key).1.trans hv) ((hkeep key).2.trans hnode)]
    exact promote_isSome_iff (c := (c.afterMisses history).used key) ((hkeep key).2.trans hnode) _ _
  constructor
  · rintro ⟨-, h⟩
    exact (hinsert none 0 0).mp (h none 0 0)
  · intro h
    exact ⟨fun copy => (hfind copy).mpr h, fun value valLen shortcut => (hinsert value valLen shortcut).mpr h⟩

/-- Two shortcuts in the room of one value: after a read of a key of the index, a look-up leaves them so. -/
theorem promotion_defined_after_found_read :
    ∃ c, Transition.run step (new 24 24 8 1 : AdaptiveHybridCache ℕ ℕ)
        [.insert 0 (some 5) 1 64, .insert 1 (some 6) 1 128] = some c ∧
      ∀ copy, ((c.afterMisses [((Table.create 3).putSeq ⟨7, some 192⟩, 7)]).find 0 copy).isSome := by
  have hrun : (Transition.run step (new 24 24 8 1 : AdaptiveHybridCache ℕ ℕ)
      [.insert 0 (some 5) 1 64, .insert 1 (some 6) 1 128]).map (fun c => decide (c.vMap.lookup 0 = none ∧
        (c.sMap.lookup 0).isSome ∧
        (c.used 0).Promotable 0 (c.costAfter [((Table.create 3).putSeq ⟨7, some 192⟩, 7)]))) = some true := by
    decide +kernel
  obtain ⟨c, hc, hdec⟩ := Option.map_eq_some_iff.mp hrun
  obtain ⟨hv, hs, hprom⟩ := of_decide_eq_true hdec
  exact ⟨c, hc, ((promotion_defined_iff hv hs _).mpr hprom).1⟩

/-- A read of a key that the index does not hold brings the cost to zero, and a look-up evicts its own key. -/
theorem absent_read_evicts_promoted :
    ((Transition.run step (new 24 24 8 1 : AdaptiveHybridCache ℕ ℕ)
      [.insert 0 (some 5) 1 64, .insert 1 (some 6) 1 128]).map fun c =>
      ((c.find 0 fun _ _ _ => 5).isSome, (c.afterMisses [(Table.create (α := ℕ) 3, 7)]).missCost,
        ((c.afterMisses [(Table.create (α := ℕ) 3, 7)]).find 0 fun _ _ _ => 5).isSome)) = some (true, 0, false) := by
  decide +kernel

end AdaptiveHybridCache

end Dinomo
