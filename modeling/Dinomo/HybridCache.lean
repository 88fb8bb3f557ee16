import Dinomo.CacheCoherence

/-!
# The hybrid cache with a fixed ratio

The other cache of an executor: a fixed number of keys is cached with their values and a fixed number
with shortcuts.  A key that is stored or found becomes a value, the value that was used least recently
makes room for it and becomes a shortcut, and the shortcut that was used least recently makes room for
that one.  With no room for values every key is a shortcut; with no room for shortcuts a value that
makes room is dropped.

An eviction from an empty map has no result.
-/

namespace Dinomo

open FixedSizedCache Option

/-- A cached key: its value, or none for a shortcut, with the length of the value and its address. -/
structure HybridNode (κ ν : Type) extends CachedEntry ν where
  key : κ

/-- The node of a value that becomes a shortcut. -/
def HybridNode.demoted {κ ν : Type} (n : HybridNode κ ν) : HybridNode κ ν := { n with value := none }

/-- The value entries and the shortcut entries of an executor. -/
structure HybridCache (κ ν : Type) [DecidableEq κ] where
  vMap : FixedSizedCache κ (HybridNode κ ν) (LruPolicy κ)
  sMap : FixedSizedCache κ (HybridNode κ ν) (LruPolicy κ)
  maxValueCacheSizeInNums : ℕ
  maxShortcutCacheSizeInNums : ℕ

namespace FixedSizedCache

variable {κ ν : Type} [DecidableEq κ]

/-- Put an item in a map of limited size; the item that is evicted for it is returned. -/
def putWithin (m : FixedSizedCache κ ν (LruPolicy κ)) (limit : ℕ) (k : κ) (n : ν) :
    Option (Option ν × FixedSizedCache κ ν (LruPolicy κ)) :=
  if m.size + 1 ≤ limit then some (none, m.put k n)
  else
    match m.evict with
    | none => none
    | some (evicted, m') => some (some evicted, m'.put k n)

end FixedSizedCache

namespace HybridCache

variable {κ ν : Type} [DecidableEq κ]

/-- An empty cache. -/
def new (maxValueCacheSizeInNums maxShortcutCacheSizeInNums : ℕ) : HybridCache κ ν :=
  ⟨.empty, .empty, maxValueCacheSizeInNums, maxShortcutCacheSizeInNums⟩

/-- A shortcut becomes a value; the value that is evicted for it takes its place. -/
def promote (c : HybridCache κ ν) (key : κ) (node : HybridNode κ ν) : Option (HybridCache κ ν) :=
  let s := (c.sMap.remove key).2
  match c.vMap.putWithin c.maxValueCacheSizeInNums key node with
  | none => none
  | some (none, v) => some { c with vMap := v, sMap := s }
  | some (some evicted, v) => some { c with vMap := v, sMap := s.put evicted.key evicted.demoted }

/-- Look a key up; the callback reads the operation log of a shortcut. -/
def find (c : HybridCache κ ν) (key : κ) (copyCachedValue : Option ν → ℕ → ℕ → ν) :
    Option (Option (CachedEntry ν) × HybridCache κ ν) :=
  match c.vMap.get key with
  | (some node, v) => some (some node.toCachedEntry, { c with vMap := v })
  | (none, _) =>
    match c.sMap.get key with
    | (none, _) => some (none, c)
    | (some node, s) =>
      let c := { c with sMap := s }
      let remotelyReadValue := copyCachedValue node.value node.valLen node.shortcut
      if c.maxValueCacheSizeInNums ≠ 0 then
        (c.promote key { node with value := some remotelyReadValue }).map (some node.toCachedEntry, ·)
      else some (some node.toCachedEntry, c)

/-- Store a key that the cache does not hold. -/
def insertNew (c : HybridCache κ ν) (key : κ) (entry : CachedEntry ν) : Option (HybridCache κ ν) :=
  if c.maxValueCacheSizeInNums ≠ 0 ∧ c.maxShortcutCacheSizeInNums ≠ 0 then
    match c.vMap.putWithin c.maxValueCacheSizeInNums key ⟨entry, key⟩ with
    | none => none
    | some (none, v) => some { c with vMap := v }
    | some (some evicted, v) =>
      (c.sMap.putWithin c.maxShortcutCacheSizeInNums evicted.key evicted.demoted).map
        fun x => { c with vMap := v, sMap := x.2 }
  else if c.maxValueCacheSizeInNums ≠ 0 then
    (c.vMap.putWithin c.maxValueCacheSizeInNums key ⟨entry, key⟩).map fun x => { c with vMap := x.2 }
  else
    (c.sMap.putWithin c.maxShortcutCacheSizeInNums key ⟨{ entry with value := none }, key⟩).map
      fun x => { c with sMap := x.2 }

/-- Store a key. -/
def insert (c : HybridCache κ ν) (key : κ) (value : Option ν) (valLen shortcut : ℕ) : Option (HybridCache κ ν) :=
  match c.vMap.get key with
  | (some _, v) => some { c with vMap := v.put key ⟨⟨value, valLen, shortcut⟩, key⟩ }
  | (none, _) =>
    match c.sMap.get key with
    | (none, _) => c.insertNew key ⟨value, valLen, shortcut⟩
    | (some node, s) =>
      let c := { c with sMap := s }
      if c.maxValueCacheSizeInNums = 0 then
        some { c with sMap := s.put key ⟨⟨none, valLen, shortcut⟩, key⟩ }
      else c.promote key { node with value, valLen, shortcut }

/-- Store a key. -/
def update (c : HybridCache κ ν) (key : κ) (value : Option ν) (valLen shortcut : ℕ) : Option (HybridCache κ ν) :=
  c.insert key value valLen shortcut

/-- Drop a key. -/
def remove (c : HybridCache κ ν) (key : κ) : HybridCache κ ν :=
  { c with vMap := (c.vMap.remove key).2, sMap := (c.sMap.remove key).2 }

/-- Drop every key. -/
def clear (c : HybridCache κ ν) : HybridCache κ ν := { c with vMap := .empty, sMap := .empty }

/-- Carry out a call; the cost of a miss has no part here. -/
def step (c : HybridCache κ ν) : CacheCall κ ν → Option (HybridCache κ ν)
  | .insert key value valLen shortcut => c.insert key value valLen shortcut
  | .update key value valLen shortcut => c.update key value valLen shortcut
  | .find key copyCachedValue => (c.find key copyCachedValue).map Prod.snd
  | .remove key => some (c.remove key)
  | .clear => some c.clear
  | .updateMissCost _ => some c

end HybridCache

namespace FixedSizedCache

variable {κ ν : Type} [DecidableEq κ] {m : FixedSizedCache κ ν (LruPolicy κ)} {limit : ℕ} {k : κ}

/-- What an item that enters a map of limited size leaves there, and what it takes out. -/
structure PutWithin (m : FixedSizedCache κ ν (LruPolicy κ)) (limit : ℕ) (k : κ) (n : ν) (e : Option ν)
    (m' : FixedSizedCache κ ν (LruPolicy κ)) : Prop where
  size : m'.size ≤ limit
  lookup : ∀ k' x, m'.lookup k' = some x → k' = k ∧ x = n ∨ k' ≠ k ∧ m.lookup k' = some x
  evicted : ∀ x ∈ e, ∃ k', k' ≠ k ∧ m.lookup k' = some x ∧ m'.lookup k' = none

/-- A key that is not there enters a map with a limit above zero. -/
theorem putWithin_spec (hsize : m.size ≤ limit) (hlimit : limit ≠ 0) (hk : m.lookup k = none) (n : ν) :
    ∃ e m', m.putWithin limit k n = some (e, m') ∧ PutWithin m limit k n e m' := by
  unfold putWithin
  split_ifs with hfits
  · refine ⟨none, m.put k n, rfl, by rw [size_put_of_none hk]; exact hfits, fun k' x hx => ?_, by simp⟩
    rw [lookup_put] at hx
    split_ifs at hx with heq
    · exact .inl ⟨heq, (some.inj hx).symm⟩
    · exact .inr ⟨heq, hx⟩
  · obtain ⟨evicted, m', hevict⟩ := lru_evict_isSome (c := m) (by omega)
    obtain ⟨j, -, hj, rfl⟩ := evict_eq_some hevict
    have hjk : j ≠ k := by
      rintro rfl
      simp [hk] at hj
    have herase : (m.erase j).lookup k = none := by rw [lookup_erase, hk, ite_self]
    refine ⟨some evicted, (m.erase j).put k n, by simp only [hevict], ?_, fun k' x hx => ?_, ?_⟩
    · rw [size_put_of_none herase, size_erase hj]
      exact hsize
    · rw [lookup_put, lookup_erase] at hx
      split_ifs at hx with heq
      · exact .inl ⟨heq, (some.inj hx).symm⟩
      · exact .inr ⟨heq, hx⟩
    · rintro x hx
      obtain rfl := mem_some_iff.mp hx
      exact ⟨j, hjk, hj, by rw [lookup_put, if_neg hjk, lookup_erase, if_pos rfl]⟩

end FixedSizedCache

namespace HybridCache

variable {κ ν : Type} [DecidableEq κ]

/-- The invariant of the maps.  `R` says which entries a key may have; a shortcut entry stands for one of them. -/
structure Inv (R : κ → CachedEntry ν → Prop) (c : HybridCache κ ν) : Prop where
  limits : c.maxValueCacheSizeInNums ≠ 0 ∨ c.maxShortcutCacheSizeInNums ≠ 0
  valueBound : c.vMap.size ≤ c.maxValueCacheSizeInNums
  shortcutBound : c.sMap.size ≤ c.maxShortcutCacheSizeInNums
  disjoint : ∀ k n, c.vMap.lookup k = some n → c.sMap.lookup k = none
  values : ∀ k n, c.vMap.lookup k = some n → n.key = k ∧ R k n.toCachedEntry
  shortcuts : ∀ k n, c.sMap.lookup k = some n →
    n.key = k ∧ n.value = none ∧ ∃ v, R k ⟨v, n.valLen, n.shortcut⟩

namespace Inv

variable {R R' : κ → CachedEntry ν → Prop} {c : HybridCache κ ν} {key : κ} {m : HybridNode κ ν}
variable {v s : FixedSizedCache κ (HybridNode κ ν) (LruPolicy κ)}

/-- The maps start empty. -/
theorem of_empty (hlimits : c.maxValueCacheSizeInNums ≠ 0 ∨ c.maxShortcutCacheSizeInNums ≠ 0)
    (hv : c.vMap = .empty) (hs : c.sMap = .empty) : Inv R c where
  limits := hlimits
  valueBound := by simp [hv]
  shortcutBound := by simp [hs]
  disjoint k n h := by simp [hv] at h
  values k n h := by simp [hv] at h
  shortcuts k n h := by simp [hs] at h

/-- Entries may be dropped. -/
theorem within (h : Inv R c) (hvsize : v.size ≤ c.vMap.size) (hssize : s.size ≤ c.sMap.size)
    (hv : ∀ k n, v.lookup k = some n → c.vMap.lookup k = some n)
    (hs : ∀ k n, s.lookup k = some n → c.sMap.lookup k = some n) :
    Inv R { c with vMap := v, sMap := s } where
  limits := h.limits
  valueBound := hvsize.trans h.valueBound
  shortcutBound := hssize.trans h.shortcutBound
  disjoint k n hn := by
    rcases hk : s.lookup k with - | a
    · rfl
    · have hnone := h.disjoint k n (hv k n hn)
      simp [hs k a hk] at hnone
  values k n hn := h.values k n (hv k n hn)
  shortcuts k n hn := h.shortcuts k n (hs k n hn)

/-- A key is stored as a value; values may become shortcuts, and entries may be dropped. -/
theorem storeValue (h : Inv R c) (hvsize : v.size ≤ c.maxValueCacheSizeInNums)
    (hssize : s.size ≤ c.maxShortcutCacheSizeInNums)
    (hv : ∀ k n, v.lookup k = some n → k = key ∧ n = m ∨ k ≠ key ∧ c.vMap.lookup k = some n)
    (hs : ∀ k n, s.lookup k = some n → k ≠ key ∧
      (c.sMap.lookup k = some n ∨ ∃ a, c.vMap.lookup k = some a ∧ v.lookup k = none ∧ n = a.demoted))
    (hkey : m.key = key) (hR : ∀ k x, k ≠ key → R k x → R' k x) (hnode : R' key m.toCachedEntry) :
    Inv R' { c with vMap := v, sMap := s } where
  limits := h.limits
  valueBound := hvsize
  shortcutBound := hssize
  disjoint k n hn := by
    change v.lookup k = some n at hn
    rcases hk : s.lookup k with - | a
    · rfl
    · obtain ⟨hne, hm | ⟨_, -, hnone, -⟩⟩ := hs k a hk
      · obtain ⟨heq, -⟩ | ⟨-, hold⟩ := hv k n hn
        · exact (hne heq).elim
        · have hnone := h.disjoint k n hold
          simp [hm] at hnone
      · simp [hnone] at hn
  values k n hn := by
    obtain ⟨rfl, rfl⟩ | ⟨hne, hold⟩ := hv k n hn
    · exact ⟨hkey, hnode⟩
    · exact ⟨(h.values k n hold).1, hR k _ hne (h.values k n hold).2⟩
  shortcuts k n hn := by
    obtain ⟨hne, hold | ⟨a, ha, -, rfl⟩⟩ := hs k n hn
    · obtain ⟨hk, hvalue, w, hw⟩ := h.shortcuts k n hold
      exact ⟨hk, hvalue, w, hR k _ hne hw⟩
    · exact ⟨(h.values k a ha).1, rfl, a.value, hR k _ hne (h.values k a ha).2⟩

/-- A key that is no value is stored as a shortcut; shortcuts may be dropped. -/
theorem storeShortcut (h : Inv R c) (hkeyv : c.vMap.lookup key = none)
    (hssize : s.size ≤ c.maxShortcutCacheSizeInNums)
    (hs : ∀ k n, s.lookup k = some n → k = key ∧ n = m ∨ k ≠ key ∧ c.sMap.lookup k = some n)
    (hkey : m.key = key) (hvalue : m.value = none) (hR : ∀ k x, k ≠ key → R k x → R' k x)
    (hnode : ∃ w, R' key ⟨w, m.valLen, m.shortcut⟩) :
    Inv R' { c with sMap := s } where
  limits := h.limits
  valueBound := h.valueBound
  shortcutBound := hssize
  disjoint k n hn := by
    rcases hk : s.lookup k with - | a
    · rfl
    · obtain ⟨rfl, -⟩ | ⟨-, hold⟩ := hs k a hk
      · simp [hkeyv] at hn
      · have hnone := h.disjoint k n hn
        simp [hold] at hnone
  values k n hn := by
    refine ⟨(h.values k n hn).1, hR k _ ?_ (h.values k n hn).2⟩
    rintro rfl
    simp [hkeyv] at hn
  shortcuts k n hn := by
    obtain ⟨rfl, rfl⟩ | ⟨hne, hold⟩ := hs k n hn
    · exact ⟨hkey, hvalue, hnode⟩
    · obtain ⟨hk, hnone, w, hw⟩ := h.shortcuts k n hold
      exact ⟨hk, hnone, w, hR k _ hne hw⟩

/-- A shortcut becomes a value. -/
theorem promote (h : Inv R c) (hv : c.vMap.lookup key = none) {n : HybridNode κ ν}
    (hs : c.sMap.lookup key = some n) (hmax : c.maxValueCacheSizeInNums ≠ 0) (hkey : m.key = key)
    (hR : ∀ k x, k ≠ key → R k x → R' k x) (hnode : R' key m.toCachedEntry) :
    ∃ c', c.promote key m = some c' ∧ Inv R' c' := by
  obtain ⟨e, v, hput, hspec⟩ := putWithin_spec h.valueBound hmax hv m
  have hremove : (c.sMap.remove key).2 = c.sMap.erase key := by simp only [FixedSizedCache.remove, hs]
  have hsize := size_erase hs
  have hbound := h.shortcutBound
  rcases e with - | evicted
  · simp only [HybridCache.promote, hput, hremove]
    refine ⟨_, rfl, h.storeValue hspec.size (by omega) hspec.lookup (fun k n hn => ?_) hkey hR hnode⟩
    rw [lookup_erase] at hn
    split_ifs at hn with hne
    exact ⟨hne, .inl hn⟩
  · obtain ⟨k', hne, hold, hgone⟩ := hspec.evicted evicted rfl
    obtain ⟨rfl, -⟩ := h.values k' evicted hold
    have hnone : (c.sMap.erase key).lookup evicted.key = none := by
      rw [lookup_erase, if_neg hne]
      exact h.disjoint _ _ hold
    simp only [HybridCache.promote, hput, hremove]
    refine ⟨_, rfl, h.storeValue hspec.size ?_ hspec.lookup (fun k n hn => ?_) hkey hR hnode⟩
    · rw [size_put_of_none hnone]
      omega
    · rw [lookup_put, lookup_erase] at hn
      split_ifs at hn with heq hk
      · cases hn
        exact ⟨heq ▸ hne, .inr ⟨evicted, heq ▸ hold, heq ▸ hgone, rfl⟩⟩
      · exact ⟨hk, .inl hn⟩

/-- A look-up is defined and keeps the invariant when a promoted key may have what the callback reads. -/
theorem find (h : Inv R c) (key : κ) (copy : Option ν → ℕ → ℕ → ν)
    (hread : ∀ n, c.sMap.lookup key = some n → c.maxValueCacheSizeInNums ≠ 0 →
      R key ⟨some (copy none n.valLen n.shortcut), n.valLen, n.shortcut⟩) :
    ∃ r c', c.find key copy = some (r, c') ∧ Inv R c' := by
  rcases hv : c.vMap.lookup key with - | n
  · rcases hs : c.sMap.lookup key with - | n
    · exact ⟨none, c, by simp only [HybridCache.find, get_of_none hv, get_of_none hs], h⟩
    · obtain ⟨hkey, hvalue, -⟩ := h.shortcuts key n hs
      have htouch : Inv R { c with sMap := c.sMap.touch key } :=
        h.within le_rfl le_rfl (fun _ _ hn => hn) fun _ _ hn => hn
      by_cases hmax : c.maxValueCacheSizeInNums = 0
      · refine ⟨some n.toCachedEntry, _, ?_, htouch⟩
        simp only [HybridCache.find, get_of_none hv, get_of_some hs, hmax, ne_eq,
          not_true_eq_false, if_false]
      · obtain ⟨c', hc', hinv⟩ := htouch.promote (m := { n with value := some (copy n.value n.valLen n.shortcut) })
          hv hs hmax hkey (fun _ _ _ hx => hx) (by rw [hvalue]; exact hread n hs hmax)
        refine ⟨some n.toCachedEntry, c', ?_, hinv⟩
        simp only [HybridCache.find, get_of_none hv, get_of_some hs, ne_eq, hmax,
          not_false_eq_true, if_true, hc', map_some]
  · simp only [HybridCache.find, get_of_some hv]
    exact ⟨_, _, rfl, h.within le_rfl le_rfl (fun _ _ hn => hn) fun _ _ hn => hn⟩

/-- A key that the cache does not hold is stored. -/
theorem insertNew (h : Inv R c) (hv : c.vMap.lookup key = none) (hs : c.sMap.lookup key = none)
    {entry : CachedEntry ν} (hR : ∀ k x, k ≠ key → R k x → R' k x) (hnew : R' key entry) :
    ∃ c', c.insertNew key entry = some c' ∧ Inv R' c' := by
  have hkeep : ∀ k n, c.sMap.lookup k = some n → k ≠ key := by
    rintro k n hn rfl
    simp [hs] at hn
  unfold HybridCache.insertNew
  split_ifs with hboth hvalue
  · obtain ⟨e, v, hput, hspec⟩ := putWithin_spec h.valueBound hboth.1 hv ⟨entry, key⟩
    rcases e with - | evicted
    · simp only [hput]
      exact ⟨_, rfl, h.storeValue hspec.size h.shortcutBound hspec.lookup
        (fun k n hn => ⟨hkeep k n hn, .inl hn⟩) rfl hR hnew⟩
    · obtain ⟨k', hne, hold, hgone⟩ := hspec.evicted evicted rfl
      obtain ⟨rfl, -⟩ := h.values k' evicted hold
      obtain ⟨e', s, hput', hspec'⟩ := putWithin_spec h.shortcutBound hboth.2
        (h.disjoint _ _ hold) evicted.demoted
      simp only [hput, hput', map_some]
      refine ⟨_, rfl, h.storeValue hspec.size hspec'.size hspec.lookup (fun k n hn => ?_) rfl hR hnew⟩
      obtain ⟨rfl, rfl⟩ | ⟨-, hn⟩ := hspec'.lookup k n hn
      · exact ⟨hne, .inr ⟨evicted, hold, hgone, rfl⟩⟩
      · exact ⟨hkeep k n hn, .inl hn⟩
  · obtain ⟨e, v, hput, hspec⟩ := putWithin_spec h.valueBound hvalue hv ⟨entry, key⟩
    simp only [hput, map_some]
    exact ⟨_, rfl, h.storeValue hspec.size h.shortcutBound hspec.lookup
      (fun k n hn => ⟨hkeep k n hn, .inl hn⟩) rfl hR hnew⟩
  · have hmax : c.maxShortcutCacheSizeInNums ≠ 0 := h.limits.resolve_left hvalue
    obtain ⟨e, s, hput, hspec⟩ := putWithin_spec h.shortcutBound hmax hs
      ⟨{ entry with value := none }, key⟩
    simp only [hput, map_some]
    exact ⟨_, rfl, h.storeShortcut hv hspec.size hspec.lookup rfl rfl hR ⟨entry.value, hnew⟩⟩

/-- An insertion is defined and keeps the invariant. -/
theorem insert (h : Inv R c) {value : Option ν} {valLen shortcut : ℕ} (hR : ∀ k x, k ≠ key → R k x → R' k x)
    (hnew : R' key ⟨value, valLen, shortcut⟩) :
    ∃ c', c.insert key value valLen shortcut = some c' ∧ Inv R' c' := by
  rcases hv : c.vMap.lookup key with - | n
  · rcases hs : c.sMap.lookup key with - | n
    · simp only [HybridCache.insert, get_of_none hv, get_of_none hs]
      exact h.insertNew hv hs hR hnew
    · simp only [HybridCache.insert, get_of_none hv, get_of_some hs]
      have htouch : Inv R { c with sMap := c.sMap.touch key } :=
        h.within le_rfl le_rfl (fun _ _ hn => hn) fun _ _ hn => hn
      split_ifs with hmax
      · refine ⟨_, rfl, htouch.storeShortcut (m := ⟨⟨none, valLen, shortcut⟩, key⟩) hv ?_ (fun k a ha => ?_) rfl rfl hR
          ⟨value, hnew⟩⟩
        · rw [size_put_of_lookup (c := c.sMap.touch key) hs]
          exact h.shortcutBound
        · rw [lookup_put] at ha
          split_ifs at ha with hk
          · exact .inl ⟨hk, (some.inj ha).symm⟩
          · exact .inr ⟨hk, ha⟩
      · exact htouch.promote hv hs hmax (h.shortcuts key n hs).1 hR hnew
  · simp only [HybridCache.insert, get_of_some hv]
    refine ⟨_, rfl, h.storeValue (m := ⟨⟨value, valLen, shortcut⟩, key⟩) ?_ h.shortcutBound (fun k a ha => ?_)
      (fun k a ha => ?_) rfl hR hnew⟩
    · rw [size_put_of_lookup (c := c.vMap.touch key) hv]
      exact h.valueBound
    · rw [lookup_put] at ha
      split_ifs at ha with hk
      · exact .inl ⟨hk, (some.inj ha).symm⟩
      · exact .inr ⟨hk, ha⟩
    · refine ⟨?_, .inl ha⟩
      rintro rfl
      simp [h.disjoint k n hv] at ha

/-- A key is dropped. -/
theorem remove (h : Inv R c) (key : κ) : Inv R (c.remove key) :=
  h.within (c.vMap.size_remove_le key) (c.sMap.size_remove_le key)
    (fun _ _ => lookup_of_remove) fun _ _ => lookup_of_remove

end Inv

end HybridCache

/-- A hybrid cache with what was stored last for each key. -/
structure TrackedHybridCache (κ ν : Type) [DecidableEq κ] where
  cache : HybridCache κ ν
  latest : κ → Option (CachedEntry ν)

namespace TrackedHybridCache

variable {κ ν : Type} [DecidableEq κ]

/-- Carry out a call. -/
def step (t : TrackedHybridCache κ ν) (e : CacheCall κ ν) : Option (TrackedHybridCache κ ν) :=
  (t.cache.step e).map (⟨·, TrackedCache.record t.latest e⟩)

/-- A new cache, in which nothing has been stored. -/
def new (maxValueCacheSizeInNums maxShortcutCacheSizeInNums : ℕ) : TrackedHybridCache κ ν :=
  ⟨.new maxValueCacheSizeInNums maxShortcutCacheSizeInNums, fun _ => none⟩

/-- What the cache keeps between calls. -/
structure Consistent (t : TrackedHybridCache κ ν) : Prop where
  disjoint : ∀ k, t.cache.vMap.lookup k = none ∨ t.cache.sMap.lookup k = none
  valueBound : t.cache.vMap.size ≤ t.cache.maxValueCacheSizeInNums
  shortcutBound : t.cache.sMap.size ≤ t.cache.maxShortcutCacheSizeInNums
  entries : ∀ k n, t.cache.vMap.lookup k = some n ∨ t.cache.sMap.lookup k = some n →
    ∃ v, t.latest k = some ⟨v, n.valLen, n.shortcut⟩

/-- The callback of a look-up that promotes a shortcut reads the value that was stored with it. -/
def ReadsBack (t : TrackedHybridCache κ ν) : CacheCall κ ν → Prop
  | .find key copy => t.cache.maxValueCacheSizeInNums ≠ 0 → ∀ n ∈ t.cache.sMap.lookup key, ∀ x ∈ t.latest key,
    x.value = some (copy none n.valLen n.shortcut)
  | .insert _ _ _ _ | .update _ _ _ _ | .remove _ | .clear | .updateMissCost _ => True

instance [DecidableEq ν] (t : TrackedHybridCache κ ν) : ∀ e, Decidable (t.ReadsBack e)
  | .find _ _ => inferInstanceAs (Decidable (_ → ∀ n ∈ t.cache.sMap.lookup _, ∀ x ∈ t.latest _, _))
  | .insert _ _ _ _ | .update _ _ _ _ | .remove _ | .clear | .updateMissCost _ => .isTrue trivial

/-- The invariant of the maps, where `Q` relates what was stored last to the entries a key may have. -/
def Inv (Q : Option (CachedEntry ν) → CachedEntry ν → Prop) (t : TrackedHybridCache κ ν) : Prop :=
  t.cache.Inv fun k x => Q (t.latest k) x

/-- An entry has the length and the address that were stored last. -/
def SameAddress (o : Option (CachedEntry ν)) (x : CachedEntry ν) : Prop := ∃ v, o = some ⟨v, x.valLen, x.shortcut⟩

variable {Q : Option (CachedEntry ν) → CachedEntry ν → Prop} {t : TrackedHybridCache κ ν}

/-- A call is defined and keeps the invariant when a promoted key may have what the callback reads. -/
theorem Inv.step (hQ : ∀ x, Q (some x) x) (h : t.Inv Q) (e : CacheCall κ ν)
    (hread : ∀ key copy, e = .find key copy → ∀ n, t.cache.sMap.lookup key = some n →
      t.cache.maxValueCacheSizeInNums ≠ 0 →
        Q (t.latest key) ⟨some (copy none n.valLen n.shortcut), n.valLen, n.shortcut⟩) :
    ∃ t', t.step e = some t' ∧ t'.Inv Q := by
  have hinsert : ∀ (key : κ) (value : Option ν) (valLen shortcut : ℕ),
      ∃ c', t.cache.insert key value valLen shortcut = some c' ∧
        Inv Q ⟨c', Function.update t.latest key (some ⟨value, valLen, shortcut⟩)⟩ := by
    intro key value valLen shortcut
    change ∃ c', _ ∧ HybridCache.Inv (fun k x => Q (Function.update t.latest key (some ⟨value, valLen, shortcut⟩) k) x) c'
    refine HybridCache.Inv.insert h (fun k x hk hx => ?_) ?_
    · rwa [Function.update_of_ne hk]
    · rw [Function.update_self]
      exact hQ _
  cases e with
  | insert key value valLen shortcut =>
    obtain ⟨c', hc', hinv⟩ := hinsert key value valLen shortcut
    exact ⟨_, map_eq_some_iff.mpr ⟨c', hc', rfl⟩, hinv⟩
  | update key value valLen shortcut =>
    obtain ⟨c', hc', hinv⟩ := hinsert key value valLen shortcut
    exact ⟨_, map_eq_some_iff.mpr ⟨c', hc', rfl⟩, hinv⟩
  | find key copy =>
    obtain ⟨r, c', hc', hinv⟩ := HybridCache.Inv.find h key copy (hread key copy rfl)
    refine ⟨⟨c', t.latest⟩, ?_, hinv⟩
    simp only [TrackedHybridCache.step, HybridCache.step, hc', map_some, TrackedCache.record]
  | remove key => exact ⟨_, rfl, HybridCache.Inv.remove h key⟩
  | clear => exact ⟨_, rfl, .of_empty h.limits rfl rfl⟩
  | updateMissCost newMissCost => exact ⟨_, rfl, h⟩

/-- Every call is defined and leaves the entries with what was stored last, up to the values. -/
theorem Inv.step_sameAddress (h : t.Inv SameAddress) (e : CacheCall κ ν) :
    ∃ t', t.step e = some t' ∧ t'.Inv SameAddress :=
  h.step (fun x => ⟨x.value, rfl⟩) e fun key _ _ n hn _ => by
    obtain ⟨-, -, v, w, hw⟩ := h.shortcuts key n hn
    exact ⟨w, hw⟩

/-- A call whose callback reads what was stored leaves the entries with it, values included. -/
theorem Inv.step_eq (h : t.Inv fun o x => o = some x) {e : CacheCall κ ν} (hread : t.ReadsBack e) :
    ∃ t', t.step e = some t' ∧ t'.Inv fun o x => o = some x := by
  refine h.step (fun _ => rfl) e ?_
  rintro key copy rfl n hn hmax
  obtain ⟨-, -, v, hv⟩ := h.shortcuts key n hn
  rw [hv, ← hread hmax n hn _ hv]

/-- The invariant makes the cache consistent. -/
theorem Inv.consistent (h : t.Inv SameAddress) : t.Consistent where
  disjoint k := by
    rcases hk : t.cache.vMap.lookup k with - | n
    · exact .inl rfl
    · exact .inr (h.disjoint k n hk)
  valueBound := h.valueBound
  shortcutBound := h.shortcutBound
  entries k n hn := by
    rcases hn with hn | hn
    · exact (h.values k n hn).2
    · obtain ⟨-, -, v, w, hw⟩ := h.shortcuts k n hn
      exact ⟨w, hw⟩

/--
Every sequence of calls is defined and leaves the cache consistent; where the callbacks read what was
stored, the values too are those that were stored last.
-/
theorem hybrid_cache_consistent {maxValues maxShortcuts : ℕ} (hlimits : maxValues ≠ 0 ∨ maxShortcuts ≠ 0)
    (calls : List (CacheCall κ ν)) :
    ∃ t, Transition.run step (new maxValues maxShortcuts) calls = some t ∧ t.Consistent ∧
      (Transition.Guarded step ReadsBack (new maxValues maxShortcuts) calls →
        ∀ k n, t.cache.vMap.lookup k = some n → t.latest k = some n.toCachedEntry) := by
  have hnew : ∀ Q, Inv Q (new maxValues maxShortcuts : TrackedHybridCache κ ν) :=
    fun Q => .of_empty hlimits rfl rfl
  obtain ⟨t, hrun, hinv⟩ := Transition.exists_run (P := Inv SameAddress) (fun _ e h => h.step_sameAddress e)
    (hnew _) calls
  refine ⟨t, hrun, hinv.consistent, fun hread k n hn => ?_⟩
  have heq := Transition.invariant_of_guarded (P := Inv fun o x => o = some x) (fun s e s' h hok hs => by
    obtain ⟨s'', hs'', h''⟩ := h.step_eq hok
    rw [hs, Option.some.injEq] at hs''
    exact hs'' ▸ h'') (hnew _) hrun hread
  exact (heq.values k n hn).2

/-- One value and one shortcut: a look-up exchanges two keys. -/
theorem hybrid_cache_consistent_exchange :
    ∃ t : TrackedHybridCache ℕ ℕ,
      Transition.run step (new 1 1)
        [.insert 0 (some 5) 1 64, .insert 1 (some 6) 1 128, .find 0 fun _ _ _ => 5, .update 1 (some 7) 1 192,
          .insert 2 (some 8) 1 256] = some t ∧ t.Consistent ∧
      ∀ k n, t.cache.vMap.lookup k = some n → t.latest k = some n.toCachedEntry := by
  obtain ⟨t, hrun, hcons, hvalues⟩ := hybrid_cache_consistent
    (show (1 : ℕ) ≠ 0 ∨ (1 : ℕ) ≠ 0 from .inl (by decide))
    [CacheCall.insert (0 : ℕ) (some (5 : ℕ)) 1 64, .insert 1 (some 6) 1 128, .find 0 fun _ _ _ => 5, .update 1 (some 7) 1 192,
      .insert 2 (some 8) 1 256]
  exact ⟨t, hrun, hcons, hvalues (by decide +kernel)⟩

end TrackedHybridCache

end Dinomo
