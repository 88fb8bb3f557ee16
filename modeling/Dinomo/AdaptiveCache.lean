import Dinomo.FixedSizedCache
import Dinomo.Library.Rounding
import Dinomo.Library.Transition
import Mathlib.Data.UInt

/-!
# The adaptive hybrid cache

An executor caches a key either with its value or with a shortcut, the address of its operation log.  A
shortcut that is used is promoted to a value when there is room, or when it is used more often than the
shortcuts that have to make room for it; a new key demotes the value that was used least recently.
Sizes, frequencies and costs are 64-bit words.

An eviction from an empty map and the use of a node that an eviction has freed have no result.  The item
that `remove` and `evict` read back after they erased it is taken to be the one that was erased.
-/

namespace Dinomo

open FixedSizedCache FixedSizedCache

/-- A cached key: its value, or none for a shortcut, with the length of the value and its address. -/
structure ListNode (κ ν : Type) where
  key : κ
  value : Option ν
  valLen : ℕ
  shortcut : ℕ
  weight : UInt64 := 1

/-- What a caller stores for a key, and what it gets back. -/
structure CachedEntry (ν : Type) where
  value : Option ν
  valLen : ℕ
  shortcut : ℕ
  deriving DecidableEq

/-- The entry a node holds. -/
def ListNode.entry {κ ν : Type} (n : ListNode κ ν) : CachedEntry ν := ⟨n.value, n.valLen, n.shortcut⟩

/-- The value entries and the shortcut entries of an executor. -/
structure AdaptiveHybridCache (κ ν : Type) [DecidableEq κ] where
  vMap : FixedSizedCache κ (ListNode κ ν) (LruPolicy κ)
  sMap : FixedSizedCache κ (ListNode κ ν) (LfuPolicy κ)
  maxCacheSizeInBytes : UInt64
  valueSize : UInt64
  shortcutSize : UInt64
  missCost : UInt64
  shortcutsPerValue : UInt64

/-- How a shortcut that is used becomes a value. -/
inductive Admission
  | fits
  | evicts
  | refused
  deriving DecidableEq

namespace AdaptiveHybridCache

/-- The conversion of a word to a double. -/
def double (n : UInt64) : ℚ := Rounding.round 53 n.toNat

/-- The ceiling of the ratio of two doubles. -/
def ceilRatio (valueSize shortcutSize : UInt64) : UInt64 :=
  .ofNat ⌈Rounding.round 53 (double valueSize / double shortcutSize)⌉.toNat

variable {κ ν : Type} [DecidableEq κ]

/-- An empty cache. -/
def new (maxCacheSize valueEntrySize shortcutEntrySize costPerMiss : UInt64) : AdaptiveHybridCache κ ν where
  vMap := .empty
  sMap := .empty
  maxCacheSizeInBytes := maxCacheSize
  valueSize := valueEntrySize
  shortcutSize := shortcutEntrySize
  missCost := costPerMiss
  shortcutsPerValue := ceilRatio valueEntrySize shortcutEntrySize

/-- The bytes the entries count for. -/
def currentCacheSizeInBytes (c : AdaptiveHybridCache κ ν) : UInt64 :=
  .ofNat c.vMap.size * c.valueSize + .ofNat c.sMap.size * c.shortcutSize

/-- The number of shortcuts that make room for a value, besides the one that is promoted. -/
def shortcutsToEvict (c : AdaptiveHybridCache κ ν) : ℕ := (c.shortcutsPerValue - 1).toNat

/-- Whether a shortcut becomes a value, and what makes room for it. -/
def admission (c : AdaptiveHybridCache κ ν) (key : κ) : Admission :=
  if c.currentCacheSizeInBytes + c.valueSize - c.shortcutSize ≤ c.maxCacheSizeInBytes then .fits
  else if c.sMap.aggregatedMinHits c.shortcutsToEvict * c.missCost < c.sMap.hitCounter key then .evicts
  else .refused

/-- Move a key from the shortcuts to the values; a key that is no longer there was freed. -/
def moveToValues (c : AdaptiveHybridCache κ ν) (key : κ) (node : ListNode κ ν) : Option (AdaptiveHybridCache κ ν) :=
  match c.sMap.remove key with
  | (none, _) => none
  | (some _, s) => some { c with sMap := s, vMap := c.vMap.put key node }

/-- Promote a shortcut as the given node, or leave the cache as given. -/
def promote (c : AdaptiveHybridCache κ ν) (key : κ) (node : ListNode κ ν)
    (otherwise : AdaptiveHybridCache κ ν) : Option (AdaptiveHybridCache κ ν) :=
  match c.admission key with
  | .fits => c.moveToValues key node
  | .evicts =>
    match c.sMap.evictMany c.shortcutsToEvict with
    | none => none
    | some s => ({ c with sMap := s } : AdaptiveHybridCache κ ν).moveToValues key node
  | .refused => some otherwise

/-- Look a key up; the callback reads the operation log of a shortcut. -/
def find (c : AdaptiveHybridCache κ ν) (key : κ) (copyCachedValue : Option ν → ℕ → ℕ → ν) :
    Option (Option (CachedEntry ν) × AdaptiveHybridCache κ ν) :=
  match c.vMap.get key with
  | (some node, v) =>
    some (some node.entry, { c with vMap := v.put key { node with weight := node.weight + 1 } })
  | (none, _) =>
    match c.sMap.get key with
    | (none, _) => some (none, c)
    | (some node, s) =>
      let node' := { node with weight := node.weight + 1 }
      let c := { c with sMap := s.put key node' }
      let remotelyReadValue := copyCachedValue node.value node.valLen node.shortcut
      (c.promote key { node' with value := some remotelyReadValue } c).map (some node.entry, ·)

/-- Store a key that the cache does not hold. -/
def insertNew (c : AdaptiveHybridCache κ ν) (key : κ) (value : Option ν) (valLen shortcut : ℕ) :
    Option (AdaptiveHybridCache κ ν) :=
  if c.currentCacheSizeInBytes + c.valueSize ≤ c.maxCacheSizeInBytes then
    some { c with vMap := c.vMap.put key { key, value, valLen, shortcut } }
  else
    let node : ListNode κ ν := { key, value := none, valLen, shortcut }
    if c.currentCacheSizeInBytes + c.shortcutSize ≤ c.maxCacheSizeInBytes then
      some { c with sMap := c.sMap.put key node }
    else if c.vMap.size ≠ 0 then
      match c.vMap.evict with
      | none => none
      | some (evicted, v) =>
        some { c with
          vMap := v
          sMap := (c.sMap.weightPut evicted.key { evicted with value := none } evicted.weight).put key node }
    else
      match c.sMap.evict with
      | none => none
      | some (_, s) => some { c with sMap := s.put key node }

/-- Store a key. -/
def insert (c : AdaptiveHybridCache κ ν) (key : κ) (value : Option ν) (valLen shortcut : ℕ) :
    Option (AdaptiveHybridCache κ ν) :=
  match c.vMap.get key with
  | (some node, v) =>
    some { c with vMap := v.put key { key, value, valLen, shortcut, weight := node.weight + 1 } }
  | (none, _) =>
    match c.sMap.get key with
    | (none, _) => c.insertNew key value valLen shortcut
    | (some node, s) =>
      let c := { c with sMap := s }
      -- a promoted node keeps the shortcut it has
      c.promote key { node with value, valLen, weight := node.weight + 1 }
        { c with sMap := s.put key { key, value := none, valLen, shortcut, weight := node.weight + 1 } }

/-- Store a key. -/
def update (c : AdaptiveHybridCache κ ν) (key : κ) (value : Option ν) (valLen shortcut : ℕ) :
    Option (AdaptiveHybridCache κ ν) := c.insert key value valLen shortcut

/-- Drop a key. -/
def remove (c : AdaptiveHybridCache κ ν) (key : κ) : AdaptiveHybridCache κ ν :=
  { c with vMap := (c.vMap.remove key).2, sMap := (c.sMap.remove key).2 }

/-- Drop every key. -/
def clear (c : AdaptiveHybridCache κ ν) : AdaptiveHybridCache κ ν := { c with vMap := .empty, sMap := .empty }

/-- Set the cost of a miss. -/
def updateMissCost (c : AdaptiveHybridCache κ ν) (newMissCost : UInt64) : AdaptiveHybridCache κ ν :=
  { c with missCost := newMissCost }

end AdaptiveHybridCache

/-- A call of the cache. -/
inductive CacheCall (κ ν : Type)
  | insert (key : κ) (value : Option ν) (valLen shortcut : ℕ)
  | update (key : κ) (value : Option ν) (valLen shortcut : ℕ)
  | find (key : κ) (copyCachedValue : Option ν → ℕ → ℕ → ν)
  | remove (key : κ)
  | clear
  | updateMissCost (newMissCost : UInt64)

namespace AdaptiveHybridCache

variable {κ ν : Type} [DecidableEq κ]

/-- Carry out a call. -/
def step (c : AdaptiveHybridCache κ ν) : CacheCall κ ν → Option (AdaptiveHybridCache κ ν)
  | .insert key value valLen shortcut => c.insert key value valLen shortcut
  | .update key value valLen shortcut => c.update key value valLen shortcut
  | .find key copyCachedValue => (c.find key copyCachedValue).map Prod.snd
  | .remove key => some (c.remove key)
  | .clear => some c.clear
  | .updateMissCost newMissCost => some (c.updateMissCost newMissCost)

/-- The cache with one more use of a shortcut. -/
def used (c : AdaptiveHybridCache κ ν) (key : κ) : AdaptiveHybridCache κ ν := { c with sMap := c.sMap.touch key }

section Calls

variable {c : AdaptiveHybridCache κ ν} {key : κ} {node : ListNode κ ν} {value : Option ν} {valLen shortcut : ℕ}

/-- The weight of a node has no part in its admission. -/
theorem admission_put (h : c.sMap.lookup key = some node) (n : ListNode κ ν) :
    admission { c with sMap := c.sMap.put key n } key = c.admission key := by
  have hpolicy := cachePolicy_put_of_lookup h n
  have hsize := size_put_of_lookup h n
  simp only [admission, currentCacheSizeInBytes, shortcutsToEvict, aggregatedMinHits,
    hitCounter, hpolicy, hsize]
  rfl

/-- A value is found. -/
theorem find_value (h : c.vMap.lookup key = some node) (copy : Option ν → ℕ → ℕ → ν) :
    c.find key copy =
      some (some node.entry,
        { c with vMap := (c.vMap.touch key).put key { node with weight := node.weight + 1 } }) := by
  simp only [find, get_of_some h]

/-- A shortcut is found and promoted, if it is admitted. -/
theorem find_shortcut (hv : c.vMap.lookup key = none) (h : c.sMap.lookup key = some node)
    (copy : Option ν → ℕ → ℕ → ν) {c₁ : AdaptiveHybridCache κ ν}
    (hc₁ : c₁ = { c with sMap := (c.sMap.touch key).put key { node with weight := node.weight + 1 } }) :
    c.find key copy =
      (c₁.promote key
        { node with value := some (copy node.value node.valLen node.shortcut), weight := node.weight + 1 } c₁).map
        (some node.entry, ·) := by
  subst hc₁
  simp only [find, get_of_none hv, get_of_some h]

/-- A key that the cache does not hold is not found. -/
theorem find_none (hv : c.vMap.lookup key = none) (h : c.sMap.lookup key = none)
    (copy : Option ν → ℕ → ℕ → ν) : c.find key copy = some (none, c) := by
  simp only [find, get_of_none hv, get_of_none h]

/-- A value is replaced. -/
theorem insert_value (h : c.vMap.lookup key = some node) :
    c.insert key value valLen shortcut =
      some { c with
        vMap := (c.vMap.touch key).put key { key, value, valLen, shortcut, weight := node.weight + 1 } } := by
  simp only [insert, get_of_some h]

/-- A shortcut is promoted, if it is admitted, and replaced otherwise. -/
theorem insert_shortcut (hv : c.vMap.lookup key = none) (h : c.sMap.lookup key = some node) :
    c.insert key value valLen shortcut =
      (c.used key).promote key { node with value, valLen, weight := node.weight + 1 }
        { c with
          sMap := (c.sMap.touch key).put key
            { key, value := none, valLen, shortcut, weight := node.weight + 1 } } := by
  simp only [insert, get_of_none hv, get_of_some h, used]

/-- A key that the cache does not hold is stored. -/
theorem insert_new (hv : c.vMap.lookup key = none) (h : c.sMap.lookup key = none) :
    c.insert key value valLen shortcut = c.insertNew key value valLen shortcut := by
  simp only [insert, get_of_none hv, get_of_none h]

/-- A shortcut that fits is moved. -/
theorem promote_fits (h : c.sMap.lookup key = some node) (hadm : c.admission key = .fits) (n : ListNode κ ν)
    (o : AdaptiveHybridCache κ ν) :
    c.promote key n o = some { c with sMap := c.sMap.erase key, vMap := c.vMap.put key n } := by
  simp only [promote, hadm, moveToValues, FixedSizedCache.remove, h]

/-- A shortcut that is used more often than those that make room for it is moved. -/
theorem promote_evicts (h : c.sMap.lookup key = some node) (hadm : c.admission key = .evicts)
    (hlen : c.shortcutsToEvict ≤ c.sMap.frequencies.length)
    (hkey : key ∉ (c.sMap.frequencies.take c.shortcutsToEvict).map Prod.snd) (n : ListNode κ ν)
    (o : AdaptiveHybridCache κ ν) :
    ∃ s : FixedSizedCache κ (ListNode κ ν) (LfuPolicy κ), s.size + (c.shortcutsToEvict + 1) = c.sMap.size ∧
      c.promote key n o = some { c with sMap := s, vMap := c.vMap.put key n } := by
  obtain ⟨s, hs, hsize, hkeep⟩ := evictMany_spec hlen
  have hlookup : s.lookup key = some node := (hkeep key hkey).trans h
  refine ⟨s.erase key, ?_, ?_⟩
  · have := size_erase hlookup
    omega
  · simp only [promote, hadm, hs, moveToValues, FixedSizedCache.remove, hlookup]

/-- A shortcut that is not admitted stays. -/
theorem promote_refused (hadm : c.admission key = .refused) (n : ListNode κ ν) (o : AdaptiveHybridCache κ ν) :
    c.promote key n o = some o := by simp only [promote, hadm]

/-- The shortcuts that make room for a key are there, and it is not one of them. -/
def Admissible (c : AdaptiveHybridCache κ ν) (key : κ) : Prop :=
  c.admission key = .evicts →
    c.shortcutsToEvict ≤ c.sMap.frequencies.length ∧
      key ∉ (c.sMap.frequencies.take c.shortcutsToEvict).map Prod.snd

instance (c : AdaptiveHybridCache κ ν) (key : κ) : Decidable (c.Admissible key) :=
  inferInstanceAs (Decidable (_ → _))

/-- The item of a key has no part in what makes room for it. -/
theorem Admissible.put (h : c.Admissible key) (hnode : c.sMap.lookup key = some node) (n : ListNode κ ν) :
    Admissible { c with sMap := c.sMap.put key n } key := by
  intro hadm
  rw [admission_put hnode] at hadm
  have hfreq : (c.sMap.put key n).frequencies = c.sMap.frequencies := by
    rw [frequencies, cachePolicy_put_of_lookup hnode]
    rfl
  change c.shortcutsToEvict ≤ (c.sMap.put key n).frequencies.length ∧
    key ∉ ((c.sMap.put key n).frequencies.take c.shortcutsToEvict).map Prod.snd
  rw [hfreq]
  exact h hadm

/-- The promotion of an admissible key is defined. -/
theorem promote_isSome (h : c.sMap.lookup key = some node) (hadm : c.Admissible key) (n : ListNode κ ν)
    (o : AdaptiveHybridCache κ ν) : ∃ c', c.promote key n o = some c' := by
  cases hcase : c.admission key with
  | fits => exact ⟨_, promote_fits h hcase n o⟩
  | evicts =>
    obtain ⟨hlen, hkey⟩ := hadm hcase
    obtain ⟨s, -, hs⟩ := promote_evicts h hcase hlen hkey n o
    exact ⟨_, hs⟩
  | refused => exact ⟨o, promote_refused hcase n o⟩

end Calls

/--
The invariant of the maps.  `R` says which entries a key may have; a shortcut entry stands for one of
them.  The shortcut entry of the key in `skip` is in the middle of a call.
-/
structure Inv (R : κ → CachedEntry ν → Prop) (skip : Option κ) (c : AdaptiveHybridCache κ ν) : Prop where
  disjoint : ∀ k n, c.vMap.lookup k = some n → c.sMap.lookup k = none
  values : ∀ k n, c.vMap.lookup k = some n → n.key = k ∧ R k n.entry
  keys : ∀ k n, c.sMap.lookup k = some n → n.key = k ∧ n.value = none
  shortcuts : ∀ k n, skip ≠ some k → c.sMap.lookup k = some n →
    (n.weight, k) ∈ c.sMap.frequencies ∧ ∃ v, R k ⟨v, n.valLen, n.shortcut⟩

namespace Inv

variable {R R' : κ → CachedEntry ν → Prop} {skip : Option κ} {c : AdaptiveHybridCache κ ν} {key : κ}
variable {m : ListNode κ ν}

/-- The maps start empty. -/
theorem of_empty (hv : c.vMap = .empty) (hs : c.sMap = .empty) : Inv R none c where
  disjoint k n h := by simp [hv] at h
  values k n h := by simp [hv] at h
  keys k n h := by simp [hs] at h
  shortcuts k n _ h := by simp [hs] at h

/-- A value is used. -/
theorem touchValue (h : Inv R skip c) (key : κ) : Inv R skip { c with vMap := c.vMap.touch key } :=
  ⟨h.disjoint, h.values, h.keys, h.shortcuts⟩

/-- A key that is used among the shortcuts is in the middle of its call. -/
theorem touchShortcut (h : Inv R none c) (hnode : c.sMap.lookup key = some m) :
    Inv R (some key) { c with sMap := c.sMap.touch key } where
  disjoint := h.disjoint
  values := h.values
  keys := h.keys
  shortcuts k n hk hn := by
    obtain ⟨hfreq, hR⟩ := h.shortcuts k n (by simp) hn
    exact ⟨mem_frequencies_touch_of_ne hnode (by simpa [eq_comm] using hk) hfreq, hR⟩

/-- A key may be taken for one in the middle of its call. -/
theorem skipKey (h : Inv R none c) (key : κ) : Inv R (some key) c :=
  ⟨h.disjoint, h.values, h.keys, fun k n _ => h.shortcuts k n (by simp)⟩

/-- The key of a call may get other entries. -/
theorem mono (h : Inv R (some key) c) (hv : c.vMap.lookup key = none)
    (hR : ∀ k x, k ≠ key → R k x → R' k x) : Inv R' (some key) c where
  disjoint := h.disjoint
  values k n hn := by
    obtain ⟨hkey, hRn⟩ := h.values k n hn
    refine ⟨hkey, hR k _ ?_ hRn⟩
    rintro rfl
    simp [hv] at hn
  keys := h.keys
  shortcuts k n hk hn := by
    obtain ⟨hfreq, v, hRn⟩ := h.shortcuts k n hk hn
    exact ⟨hfreq, v, hR k _ (by simpa [eq_comm] using hk) hRn⟩

/-- Shortcuts may be dropped. -/
theorem within (h : Inv R skip c) {s : FixedSizedCache κ (ListNode κ ν) (LfuPolicy κ)}
    (hs : s.Within c.sMap) : Inv R skip { c with sMap := s } where
  disjoint k n hn := by
    rcases hk : s.lookup k with - | m
    · rfl
    · have := h.disjoint k n hn
      simp [hs.lookup k m hk] at this
  values := h.values
  keys k n hn := h.keys k n (hs.lookup k n hn)
  shortcuts k n hk hn := by
    obtain ⟨hfreq, hR⟩ := h.shortcuts k n hk (hs.lookup k n hn)
    exact ⟨hs.frequencies _ hfreq n hn, hR⟩

/-- The shortcut of the key in the middle of its call is dropped. -/
theorem eraseShortcut (h : Inv R (some key) c) : Inv R none { c with sMap := c.sMap.erase key } where
  disjoint := (h.within (within_erase c.sMap key)).disjoint
  values := h.values
  keys := (h.within (within_erase c.sMap key)).keys
  shortcuts k n _ hn := by
    have hk : k ≠ key := by
      rintro rfl
      simp [lookup_erase] at hn
    exact (h.within (within_erase c.sMap key)).shortcuts k n (by simpa [eq_comm] using hk) hn

/-- A key that has no shortcut gets a value. -/
theorem putValue (h : Inv R none c) (hs : c.sMap.lookup key = none) (hkey : m.key = key)
    (hR : ∀ k x, k ≠ key → R k x → R' k x) (hnode : R' key m.entry) :
    Inv R' none { c with vMap := c.vMap.put key m } where
  disjoint k n hn := by
    rw [lookup_put] at hn
    split_ifs at hn with hk
    · rw [hk, hs]
    · exact h.disjoint k n hn
  values k n hn := by
    rw [lookup_put] at hn
    split_ifs at hn with hk
    · cases hn
      exact ⟨hk ▸ hkey, hk ▸ hnode⟩
    · exact ⟨(h.values k n hn).1, hR k _ hk (h.values k n hn).2⟩
  keys := h.keys
  shortcuts k n hk hn := by
    obtain ⟨hfreq, v, hRn⟩ := h.shortcuts k n hk hn
    refine ⟨hfreq, v, hR k _ ?_ hRn⟩
    rintro rfl
    simp [hs] at hn

/-- A key that has no value gets a shortcut with its frequency as weight. -/
theorem putShortcut (h : Inv R skip c) (hskip : ∀ k, skip = some k → k = key) (hv : c.vMap.lookup key = none)
    {s : FixedSizedCache κ (ListNode κ ν) (LfuPolicy κ)}
    (hlookup : ∀ k, s.lookup k = if k = key then some m else c.sMap.lookup k)
    (hfreq : ∀ x ∈ c.sMap.frequencies, x.2 ≠ key → x ∈ s.frequencies)
    (hkey : m.key = key) (hvalue : m.value = none) (hweight : (m.weight, key) ∈ s.frequencies)
    (hR : ∀ k x, k ≠ key → R k x → R' k x) (hnode : ∃ v, R' key ⟨v, m.valLen, m.shortcut⟩) :
    Inv R' none { c with sMap := s } where
  disjoint k n hn := by
    have hk : k ≠ key := by
      rintro rfl
      simp [hv] at hn
    change s.lookup k = none
    rw [hlookup, if_neg hk]
    exact h.disjoint k n hn
  values k n hn := by
    refine ⟨(h.values k n hn).1, hR k _ ?_ (h.values k n hn).2⟩
    rintro rfl
    simp [hv] at hn
  keys k n hn := by
    change s.lookup k = some n at hn
    rw [hlookup] at hn
    split_ifs at hn with hk
    · cases hn
      exact ⟨hk ▸ hkey, hvalue⟩
    · exact h.keys k n hn
  shortcuts k n _ hn := by
    change s.lookup k = some n at hn
    rw [hlookup] at hn
    split_ifs at hn with hk
    · cases hn
      exact ⟨hk ▸ hweight, hk ▸ hnode⟩
    · obtain ⟨hmem, v, hRn⟩ := h.shortcuts k n (fun hs => hk (hskip k hs)) hn
      exact ⟨hfreq _ hmem hk, v, hR k _ hk hRn⟩

/-- A value is dropped. -/
theorem eraseValue (h : Inv R skip c) (k : κ) : Inv R skip { c with vMap := c.vMap.erase k } where
  disjoint k' n hn := by
    rw [lookup_erase] at hn
    split_ifs at hn
    exact h.disjoint k' n hn
  values k' n hn := by
    rw [lookup_erase] at hn
    split_ifs at hn
    exact h.values k' n hn
  keys := h.keys
  shortcuts := h.shortcuts

/-- A value that is evicted becomes a shortcut with its weight as frequency. -/
theorem demote (h : Inv R none c) {v : FixedSizedCache κ (ListNode κ ν) (LruPolicy κ)}
    (hevict : c.vMap.evict = some (m, v)) :
    Inv R none { c with
      vMap := v
      sMap := c.sMap.weightPut m.key { m with value := none } m.weight } := by
  obtain ⟨k, -, hk, rfl⟩ := evict_eq_some hevict
  obtain ⟨rfl, hR⟩ := h.values k m hk
  have hperm := perm_frequencies_weightPut (h.disjoint _ _ hk) { m with value := none } m.weight
  exact (h.eraseValue m.key).putShortcut (by simp) (by simp [lookup_erase])
    (fun k => lookup_weightPut _ _ _ _ _)
    (fun x hx _ => hperm.mem_iff.mpr (List.mem_cons_of_mem _ hx)) rfl rfl (hperm.mem_iff.mpr List.mem_cons_self)
    (fun _ _ _ hx => hx) ⟨m.value, hR⟩

/-- A key that the cache does not hold gets a shortcut of weight one. -/
theorem putNewShortcut (h : Inv R none c) (hv : c.vMap.lookup key = none) (hs : c.sMap.lookup key = none)
    (hkey : m.key = key) (hvalue : m.value = none) (hweight : m.weight = 1)
    (hR : ∀ k x, k ≠ key → R k x → R' k x) (hnode : ∃ v, R' key ⟨v, m.valLen, m.shortcut⟩) :
    Inv R' none { c with sMap := c.sMap.put key m } := by
  have hperm := perm_frequencies_put hs m
  exact h.putShortcut (by simp) hv (fun k => lookup_put _ _ _ _)
    (fun x hx _ => hperm.mem_iff.mpr (List.mem_cons_of_mem _ hx)) hkey hvalue
    (hweight ▸ hperm.mem_iff.mpr List.mem_cons_self) hR hnode

/-- A key in the middle of its call gets a shortcut again. -/
theorem putTouchedShortcut (h : Inv R (some key) c) (hv : c.vMap.lookup key = none) {n : ListNode κ ν}
    (hs : c.sMap.lookup key = some n) (hkey : m.key = key) (hvalue : m.value = none)
    (hweight : (m.weight, key) ∈ c.sMap.frequencies) (hR : ∀ k x, k ≠ key → R k x → R' k x)
    (hnode : ∃ v, R' key ⟨v, m.valLen, m.shortcut⟩) :
    Inv R' none { c with sMap := c.sMap.put key m } := by
  have hfreq : (c.sMap.put key m).frequencies = c.sMap.frequencies := by
    rw [frequencies, cachePolicy_put_of_lookup hs]
    rfl
  exact h.putShortcut (by simp) hv (fun k => lookup_put _ _ _ _)
    (fun x hx _ => hfreq ▸ hx) hkey hvalue (hfreq ▸ hweight) hR hnode

variable {c' : AdaptiveHybridCache κ ν}

/-- A key moves from the shortcuts to the values. -/
theorem moveToValues (h : Inv R (some key) c) (hkey : m.key = key) (hR : R key m.entry)
    (hmove : c.moveToValues key m = some c') : Inv R none c' := by
  simp only [AdaptiveHybridCache.moveToValues, FixedSizedCache.remove] at hmove
  split at hmove
  · cases hmove
  · next hremove =>
    split at hremove
    · cases hremove
    · cases hremove
      cases hmove
      exact h.eraseShortcut.putValue (by simp [lookup_erase]) hkey (fun _ _ _ hx => hx) hR

/-- A key in the middle of its call is promoted or keeps its shortcut. -/
theorem promote (h : Inv R (some key) c) (hkey : m.key = key)
    (hR : c.admission key ≠ .refused → R key m.entry) {o : AdaptiveHybridCache κ ν}
    (ho : Inv R none o) (hprom : c.promote key m o = some c') : Inv R none c' := by
  unfold AdaptiveHybridCache.promote at hprom
  split at hprom
  · next hadm => exact h.moveToValues hkey (hR (by simp [hadm])) hprom
  · next hadm =>
    split at hprom
    · cases hprom
    · next hevict =>
      exact (h.within (within_evictMany hevict)).moveToValues hkey (hR (by simp [hadm])) hprom
  · cases hprom
    exact ho

/-- A look-up keeps the invariant when a promoted key may have what the callback reads. -/
theorem find (h : Inv R none c) {copy : Option ν → ℕ → ℕ → ν}
    {r : Option (CachedEntry ν)} (hfind : c.find key copy = some (r, c'))
    (hR : ∀ n, c.vMap.lookup key = none → c.sMap.lookup key = some n → (c.used key).admission key ≠ .refused →
      R key ⟨some (copy none n.valLen n.shortcut), n.valLen, n.shortcut⟩) : Inv R none c' := by
  rcases hv : c.vMap.lookup key with - | node
  · rcases hs : c.sMap.lookup key with - | node
    · rw [find_none hv hs] at hfind
      cases hfind
      exact h
    · have htouch := h.touchShortcut hs
      have hused : (c.sMap.touch key).lookup key = some node := hs
      obtain ⟨hfreq, hentry⟩ := h.shortcuts key node (by simp) hs
      have hput := htouch.putTouchedShortcut (m := { node with weight := node.weight + 1 }) hv hused
        (h.keys key node hs).1 (h.keys key node hs).2 (mem_frequencies_touch hfreq)
        (fun _ _ _ hx => hx) hentry
      rw [find_shortcut hv hs copy rfl] at hfind
      obtain ⟨c₂, hprom, heq⟩ := Option.map_eq_some_iff.mp hfind
      cases heq
      refine (hput.skipKey key).promote
        (m := { node with value := some (copy node.value node.valLen node.shortcut), weight := node.weight + 1 })
        (h.keys key node hs).1 (fun hadm => ?_) hput hprom
      have hread := hR node hv hs (admission_put (c := c.used key) hs _ ▸ hadm)
      rwa [← (h.keys key node hs).2] at hread
  · rw [find_value hv] at hfind
    cases hfind
    exact (h.touchValue key).putValue (m := { node with weight := node.weight + 1 }) (h.disjoint key node hv)
      (h.values key node hv).1 (fun _ _ _ hx => hx) (h.values key node hv).2

/-- A key that the cache does not hold is stored. -/
theorem insertNew (h : Inv R none c) (hv : c.vMap.lookup key = none) (hs : c.sMap.lookup key = none)
    {value : Option ν} {valLen shortcut : ℕ}
    (hins : c.insertNew key value valLen shortcut = some c') (hR : ∀ k x, k ≠ key → R k x → R' k x)
    (hnew : R' key ⟨value, valLen, shortcut⟩) : Inv R' none c' := by
  simp only [AdaptiveHybridCache.insertNew] at hins
  split_ifs at hins
  · cases hins
    exact h.putValue hs rfl hR hnew
  · cases hins
    exact h.putNewShortcut hv hs rfl rfl rfl hR ⟨value, hnew⟩
  · split at hins
    · cases hins
    · next evicted v hevict =>
      cases hins
      obtain ⟨k, -, hk, rfl⟩ := evict_eq_some hevict
      have hne : key ≠ evicted.key := by
        rintro rfl
        rw [(h.values k evicted hk).1] at hv
        simp [hv] at hk
      refine (h.demote hevict).putNewShortcut ?_ ?_ rfl rfl rfl hR ⟨value, hnew⟩
      · simp [lookup_erase, hv]
      · simp [lookup_weightPut, hne, hs]
  · split at hins
    · cases hins
    · next s hevict =>
      cases hins
      obtain ⟨k, -, -, rfl⟩ := evict_eq_some hevict
      exact (h.within (within_erase _ k)).putNewShortcut hv
        (by simp [lookup_erase, hs]) rfl rfl rfl hR ⟨value, hnew⟩

/-- An insertion keeps the invariant when a promoted key may have the new value at its old shortcut. -/
theorem insert (h : Inv R none c) {value : Option ν} {valLen shortcut : ℕ}
    (hins : c.insert key value valLen shortcut = some c') (hR : ∀ k x, k ≠ key → R k x → R' k x)
    (hnew : R' key ⟨value, valLen, shortcut⟩)
    (hprom : ∀ n, c.vMap.lookup key = none → c.sMap.lookup key = some n →
      (c.used key).admission key ≠ .refused → R' key ⟨value, valLen, n.shortcut⟩) : Inv R' none c' := by
  rcases hv : c.vMap.lookup key with - | node
  · rcases hs : c.sMap.lookup key with - | node
    · rw [insert_new hv hs] at hins
      exact h.insertNew hv hs hins hR hnew
    · have htouch := h.touchShortcut hs
      obtain ⟨hfreq, -⟩ := h.shortcuts key node (by simp) hs
      have hput := htouch.putTouchedShortcut
        (m := { key, value := none, valLen, shortcut, weight := node.weight + 1 }) hv hs rfl rfl
        (mem_frequencies_touch hfreq) hR ⟨value, hnew⟩
      rw [insert_shortcut hv hs] at hins
      exact (htouch.mono hv hR).promote (m := { node with value, valLen, weight := node.weight + 1 })
        (h.keys key node hs).1 (hprom node hv hs) hput hins
  · rw [insert_value hv] at hins
    cases hins
    exact (h.touchValue key).putValue (m := { key, value, valLen, shortcut, weight := node.weight + 1 })
      (h.disjoint key node hv) rfl hR hnew

/-- A key is dropped. -/
theorem remove (h : Inv R none c) (key : κ) : Inv R none (c.remove key) := by
  have hvalue : Inv R none { c with vMap := (c.vMap.remove key).2 } := by
    unfold FixedSizedCache.remove
    split
    · exact h
    · exact h.eraseValue key
  unfold AdaptiveHybridCache.remove
  have hwithin : (c.sMap.remove key).2.Within c.sMap := by
    unfold FixedSizedCache.remove
    split
    · exact ⟨fun _ _ h => h, fun _ h _ _ => h⟩
    · exact within_erase _ _
  exact hvalue.within hwithin

end Inv

end AdaptiveHybridCache

end Dinomo
