import Mathlib.Data.List.Perm.Basic
import Dinomo.Clht

/-!
# What the index operations do to the stored map

The table is a partial map from nonzero keys to value words.  Every operation keeps the invariant that
each key sits once, in its own bin, so the operations are packaged on the subtype `Clht` of
well-formed tables.  The rules for looking a key up after an operation are stated for nonzero keys:
key `0` is the empty marker, and operations on it touch empty slots only.
-/

namespace Dinomo

open List Slot

variable {α : Type*} {k k' : Key}

/-- A key occupies a chain exactly when it is found there. -/
theorem mem_occupied {l : List (Slot α)} :
    k ∈ occupied l ↔ k ≠ 0 ∧ (findSlot l k).isSome := by
  simp only [occupied, findSlot, mem_filter, mem_map, decide_eq_true_eq, Option.isSome_map,
    List.find?_isSome]
  tauto

/-- `bucket_exists` finds exactly the keys that have a slot. -/
theorem bucketExists_eq (l : List (Slot α)) (k : Key) : bucketExists l k = (findSlot l k).isSome := by
  rw [Bool.eq_iff_iff]
  simp [bucketExists, findSlot]

/-- Changing the value word of a key is seen under that key only. -/
theorem findSlot_setFirst_val (l : List (Slot α)) (k k' : Key) (f : Option α → Option α) :
    findSlot (setFirst k (fun s => { s with val := f s.val }) l) k' =
      if k' = k then (findSlot l k).map f else findSlot l k' := by
  induction l with
  | nil => simp [setFirst, findSlot]
  | cons s l ih =>
    by_cases hs : s.key = k
    · by_cases hk : k' = k
      · simp [setFirst, findSlot, hs, hk]
      · simp [setFirst, findSlot, hs, hk, Ne.symm hk]
    · by_cases hs' : s.key = k'
      · have hk : ¬ k' = k := fun h => hs (hs'.trans h)
        simp [setFirst, findSlot, hs', hk]
      · simp only [findSlot] at ih
        simp only [setFirst, findSlot, hs, hs', if_false, List.find?_cons_of_neg, decide_false,
          Bool.false_eq_true, not_false_eq_true, ih]

/-- Changing the value word of a slot leaves the keys alone. -/
theorem occupied_setFirst_val (l : List (Slot α)) (k : Key) (f : Option α → Option α) :
    occupied (setFirst k (fun s => { s with val := f s.val }) l) = occupied l := by
  have h : (setFirst k (fun s => { s with val := f s.val }) l).map key = l.map key := by
    induction l with
    | nil => rfl
    | cons s l ih => by_cases hs : s.key = k <;> simp [setFirst, hs, ih]
  rw [occupied, h, occupied]

/-- Clearing a key hides no other key. -/
theorem findSlot_setFirst_clear_of_ne (l : List (Slot α)) (h0 : k' ≠ 0) (hk : k' ≠ k) :
    findSlot (setFirst k (fun s => { s with key := 0 }) l) k' = findSlot l k' := by
  induction l with
  | nil => simp [setFirst, findSlot]
  | cons s l ih =>
    by_cases hs : s.key = k
    · simp [setFirst, findSlot, hs, Ne.symm hk, Ne.symm h0]
    · by_cases hs' : s.key = k'
      · simp [setFirst, findSlot, hs', hk]
      · simp only [findSlot] at ih
        simp only [setFirst, findSlot, hs, hs', if_false, List.find?_cons_of_neg, decide_false,
          Bool.false_eq_true, not_false_eq_true, ih]

/-- Clearing a key removes one occurrence of it from the occupied keys. -/
theorem occupied_setFirst_clear (l : List (Slot α)) (h0 : k ≠ 0) :
    occupied (setFirst k (fun s => { s with key := 0 }) l) = (occupied l).erase k := by
  induction l with
  | nil => simp [setFirst, occupied]
  | cons s l ih =>
    simp only [occupied, ne_eq, decide_not] at ih
    by_cases hs : s.key = k
    · simp [setFirst, occupied, hs, h0]
    · by_cases hs0 : s.key = 0
      · simp [setFirst, occupied, hs0, Ne.symm h0, ih]
      · simp [setFirst, occupied, hs, hs0, ih]

/-- Clearing the empty marker changes nothing. -/
theorem setFirst_clear_zero (l : List (Slot α)) : setFirst 0 (fun s => { s with key := 0 }) l = l := by
  induction l with
  | nil => rfl
  | cons s l ih =>
    by_cases hs : s.key = 0
    · cases s
      simp_all [setFirst]
    · simp [setFirst, hs, ih]

/-- Filling the first empty slot. -/
theorem findSlot_setFirst_fill (l : List (Slot α)) (v : Option α) (h0 : k' ≠ 0)
    (hk : k' ≠ k) : findSlot (setFirst 0 (fun _ => ⟨k, v⟩) l) k' = findSlot l k' := by
  induction l with
  | nil => simp [setFirst, findSlot]
  | cons s l ih =>
    by_cases hs : s.key = 0
    · simp [setFirst, findSlot, hs, Ne.symm hk, Ne.symm h0]
    · by_cases hs' : s.key = k'
      · simp [setFirst, findSlot, hs', h0]
      · simp only [findSlot] at ih
        simp only [setFirst, findSlot, hs, hs', if_false, List.find?_cons_of_neg, decide_false,
          Bool.false_eq_true, not_false_eq_true, ih]

/-- Placing a pair hides no other key. -/
theorem findSlot_placeSlot_of_ne (l : List (Slot α)) (v : Option α) (h0 : k' ≠ 0)
    (hk : k' ≠ k) : findSlot (placeSlot l k v) k' = findSlot l k' := by
  rw [placeSlot]
  split_ifs
  · exact findSlot_setFirst_fill l v h0 hk
  · simp [findSlot, List.find?_append, empty, Ne.symm hk, Ne.symm h0]

/-- A pair placed in a chain without its key is found there. -/
theorem findSlot_placeSlot_self (l : List (Slot α)) (v : Option α)
    (habs : findSlot l k = none) : findSlot (placeSlot l k v) k = some v := by
  rw [placeSlot]
  split_ifs with he
  · induction l with
    | nil => simp [bucketExists] at he
    | cons s l ih =>
      have hs : s.key ≠ k := by
        rintro rfl
        simp [findSlot] at habs
      by_cases h0 : s.key = 0
      · simp [setFirst, findSlot, h0]
      · have habs' : findSlot l k = none := by simpa [findSlot, hs] using habs
        have he' : bucketExists l 0 = true := by simpa [bucketExists, h0] using he
        have := ih habs' he'
        simp only [findSlot] at this
        simp only [setFirst, findSlot, hs, h0, if_false, List.find?_cons_of_neg, decide_false,
          Bool.false_eq_true, not_false_eq_true, this]
  · have hnone : l.find? (fun s => s.key = k) = none := by simpa [findSlot] using habs
    simp [findSlot, List.find?_append, hnone]

/-- The pairs of a chain. -/
def pairs (l : List (Slot α)) : List (Slot α) := l.filter fun s => s.key ≠ 0

/-- The keys of the pairs occupy the chain. -/
theorem occupied_eq (l : List (Slot α)) : occupied l = (pairs l).map key := by
  rw [occupied, filter_map]
  rfl

/-- Placing a pair adds it to the others. -/
theorem pairs_placeSlot (l : List (Slot α)) (k : Key) (v : Option α) :
    (pairs (placeSlot l k v)).Perm (pairs [⟨k, v⟩] ++ pairs l) := by
  rw [placeSlot]
  split_ifs with he
  · induction l with
    | nil => simp [bucketExists] at he
    | cons s l ih =>
      by_cases h0 : s.key = 0
      · by_cases hk : k = 0 <;> simp [setFirst, pairs, h0, hk]
      · have he' : bucketExists l 0 = true := by simpa [bucketExists, h0] using he
        have hperm := ih he'
        simp only [pairs, setFirst, h0, if_false, ne_eq, not_false_eq_true, decide_true,
          filter_cons_of_pos] at hperm ⊢
        exact (hperm.cons s).trans perm_middle.symm
  · by_cases hk : k = 0
    · simp [pairs, hk, empty]
    · simp only [pairs, filter_append]
      refine perm_append_comm.trans (.append_right _ ?_)
      simp [hk, empty]

/-- Placing a pair adds its key to the occupied ones. -/
theorem occupied_placeSlot (l : List (Slot α)) (k : Key) (v : Option α) :
    (occupied (placeSlot l k v)).Perm ([k].filter (· ≠ 0) ++ occupied l) := by
  have hperm := (pairs_placeSlot l k v).map key
  rw [map_append, ← occupied_eq, ← occupied_eq, ← occupied_eq] at hperm
  exact hperm

namespace Table

/-- Bins are numbered below the number of buckets. -/
theorem hash_lt (t : Table α) (k : Key) : t.hash k < t.numBuckets := by
  have hpos : 0 < t.numBuckets := Nat.two_pow_pos _
  have hle : t.hash k ≤ t.numBuckets - 1 := Nat.and_le_right
  omega

variable {t : Table α} {k : Key}

/-- Replacing a chain by one with distinct keys of that bin keeps the table well formed. -/
theorem Wf.setBin (h : t.Wf) {b : ℕ} {l : List (Slot α)} (hnodup : (occupied l).Nodup)
    (hhome : ∀ k ∈ occupied l, t.hash k = b) : (t.setBin b l).Wf := by
  constructor
  · intro b'
    by_cases hb : b' = b
    · subst hb
      simpa [Table.setBin] using hnodup
    · simpa [Table.setBin, hb] using h.nodup b'
  · intro b' k hk
    by_cases hb : b' = b
    · subst hb
      exact hhome k (by simpa [Table.setBin] using hk)
    · exact h.home b' k (by simpa [Table.setBin, hb] using hk)

/-- Looking up after a chain was replaced. -/
theorem lookup_setBin (t : Table α) (b : ℕ) (l : List (Slot α)) (k : Key) :
    (t.setBin b l).lookup k = if t.hash k = b then findSlot l k else t.lookup k := by
  by_cases hb : t.hash k = b
  · subst hb
    simp [lookup, Table.setBin, hash, numBuckets]
  · have hsame : (t.setBin b l).lookup k = findSlot (Function.update t.table b l (t.hash k)) k := rfl
    rw [hsame, Function.update_of_ne hb, if_neg hb, lookup]

/-- A new table is well formed. -/
theorem wf_create (n : ℕ) : (create n : Table α).Wf := by
  constructor
  · intro b
    simp [create, newBucket, occupied, empty]
  · intro b k hk
    simp [create, newBucket, occupied, empty] at hk

/-- A new table holds no key. -/
theorem lookup_create (n : ℕ) (hk : k ≠ 0) : (create n : Table α).lookup k = none := by
  simp [lookup, create, newBucket, findSlot, empty, Ne.symm hk]

/-- Placing a key that has no slot keeps the table well formed. -/
theorem Wf.putSeq (h : t.Wf) {s : Slot α} (habs : s.key ≠ 0 → t.lookup s.key = none) :
    (t.putSeq s).Wf := by
  have hperm := occupied_placeSlot (t.table (t.hash s.key)) s.key s.val
  have hw : (t.setBin (t.hash s.key) (placeSlot (t.table (t.hash s.key)) s.key s.val)).Wf := by
    apply h.setBin
    · refine hperm.nodup_iff.mpr ?_
      by_cases hk : s.key = 0
      · simpa [hk] using h.nodup (t.hash 0)
      · have hnone : s.key ∉ occupied (t.table (t.hash s.key)) := by
          rw [mem_occupied]
          rintro ⟨-, hsome⟩
          have := habs hk
          rw [lookup] at this
          simp [this] at hsome
        simpa [hk, hnone] using h.nodup (t.hash s.key)
    · intro k hk
      rcases mem_append.mp (hperm.mem_iff.mp hk) with hk | hk
      · simp only [mem_filter, mem_singleton] at hk
        rw [hk.1]
      · exact h.home _ k hk
  exact ⟨hw.nodup, hw.home⟩

/-- What is found after a pair was placed. -/
theorem lookup_putSeq (t : Table α) {s : Slot α} (h0 : k ≠ 0)
    (habs : s.key ≠ 0 → t.lookup s.key = none) :
    (t.putSeq s).lookup k = if k = s.key then some s.val else t.lookup k := by
  have heq : (t.putSeq s).lookup k =
      (t.setBin (t.hash s.key) (placeSlot (t.table (t.hash s.key)) s.key s.val)).lookup k := rfl
  rw [heq, lookup_setBin]
  by_cases hk : k = s.key
  · subst hk
    simpa using findSlot_placeSlot_self _ s.val (habs h0)
  · rw [if_neg hk]
    by_cases hb : t.hash k = t.hash s.key
    · rw [if_pos hb, findSlot_placeSlot_of_ne _ s.val h0 hk, lookup, hb]
    · rw [if_neg hb]

/-- Copying distinct fresh keys into a table, one after the other. -/
theorem foldl_putSeq (es : List (Slot α)) (t : Table α) (hwf : t.Wf)
    (hnodup : (es.map key).Nodup) (h0 : ∀ s ∈ es, s.key ≠ 0)
    (habs : ∀ s ∈ es, t.lookup s.key = none) :
    (es.foldl putSeq t).Wf ∧
      ∀ k, k ≠ 0 → (es.foldl putSeq t).lookup k = (findSlot es k).or (t.lookup k) := by
  induction es generalizing t with
  | nil => exact ⟨hwf, fun k _ => by simp [findSlot]⟩
  | cons s es ih =>
    have hs : s.key ≠ 0 → t.lookup s.key = none := fun _ => habs s (by simp)
    simp only [map_cons, nodup_cons] at hnodup
    have habs' : ∀ x ∈ es, (t.putSeq s).lookup x.key = none := by
      intro x hx
      have hne : x.key ≠ s.key := by
        intro h
        exact hnodup.1 (h ▸ mem_map_of_mem hx)
      rw [lookup_putSeq t (h0 x (by simp [hx])) hs, if_neg hne]
      exact habs x (by simp [hx])
    obtain ⟨hwf', hlook⟩ := ih (t.putSeq s) (hwf.putSeq hs) hnodup.2 (fun x hx => h0 x (by simp [hx])) habs'
    refine ⟨hwf', fun k hk => ?_⟩
    rw [foldl_cons, hlook k hk, lookup_putSeq t hk hs]
    by_cases hks : s.key = k
    · have hnone : findSlot es k = none := by
        by_contra hsome
        have hmem := (mem_occupied (l := es)).mpr ⟨hk, Option.isSome_iff_ne_none.mpr hsome⟩
        exact hnodup.1 (hks ▸ (mem_filter.mp hmem).1)
      rw [hnone, if_pos hks.symm]
      simp [findSlot, hks]
    · simp [findSlot, hks, Ne.symm hks]

/-- The pairs of a well-formed table have distinct keys. -/
theorem Wf.entries_nodup (h : t.Wf) : (t.entries.map key).Nodup := by
  have hmap : t.entries.map key = (List.range t.numBuckets).flatMap (fun b => occupied (t.table b)) := by
    rw [entries, filter_flatMap, map_flatMap]
    congr 1
    funext b
    simp only [occupied, filter_map]
    rfl
  rw [hmap, nodup_flatMap]
  refine ⟨fun b _ => h.nodup b, List.Nodup.pairwise_of_forall_ne nodup_range ?_⟩
  intro b _ b' _ hne k hk hk'
  exact hne ((h.home b k hk).symm.trans (h.home b' k hk'))

/-- The pairs of a well-formed table are its map. -/
theorem Wf.findSlot_entries (h : t.Wf) (hk : k ≠ 0) :
    findSlot t.entries k = t.lookup k := by
  have hfilter : ∀ l : List (Slot α), findSlot (l.filter (fun s => s.key ≠ 0)) k = findSlot l k := by
    intro l
    rw [findSlot, List.find?_filter, findSlot]
    congr 2
    funext s
    by_cases hs : s.key = k <;> simp [hs, hk]
  rw [entries, hfilter]
  have hbins : ∀ bins : List ℕ, findSlot (bins.flatMap t.table) k =
      if t.hash k ∈ bins then t.lookup k else none := by
    intro bins
    induction bins with
    | nil => simp [findSlot]
    | cons b bins ih =>
      have hor : findSlot ((b :: bins).flatMap t.table) k =
          (findSlot (t.table b) k).or (findSlot (bins.flatMap t.table) k) := by
        simp only [flatMap_cons, findSlot, List.find?_append]
        cases (t.table b).find? (fun s => s.key = k) <;> simp
      rw [hor, ih]
      by_cases hb : t.hash k = b
      · subst hb
        have : findSlot (t.table (t.hash k)) k = t.lookup k := rfl
        rw [this]
        cases t.lookup k <;> simp
      · have hnone : findSlot (t.table b) k = none := by
          by_contra hsome
          exact hb (h.home b k (mem_occupied.mpr ⟨hk, Option.isSome_iff_ne_none.mpr hsome⟩))
        simp [hnone, hb]
  rw [hbins, if_pos (mem_range.mpr (t.hash_lt k))]

/-- Resizing keeps the table well formed and its map unchanged. -/
theorem Wf.resize (h : t.Wf) (n : ℕ) :
    (t.resize n).Wf ∧ ∀ k, k ≠ 0 → (t.resize n).lookup k = t.lookup k := by
  have h0 : ∀ s ∈ t.entries, s.key ≠ 0 := fun s hs => by simpa using (mem_filter.mp hs).2
  obtain ⟨hwf, hlook⟩ := foldl_putSeq t.entries (create n) (wf_create n) h.entries_nodup h0
    (fun s hs => lookup_create n (h0 s hs))
  refine ⟨hwf, fun k hk => ?_⟩
  rw [Table.resize, hlook k hk, lookup_create n hk, h.findSlot_entries hk, Option.or_none]

/-- So does the repeated resizing of `ht_status`. -/
theorem Wf.status (fuel : ℕ) (h : t.Wf) :
    (t.status fuel).Wf ∧ ∀ k, k ≠ 0 → (t.status fuel).lookup k = t.lookup k := by
  induction fuel generalizing t with
  | zero => exact ⟨h, fun _ _ => rfl⟩
  | succ fuel ih =>
    obtain ⟨hwf, hlook⟩ := h.resize t.statusSize
    rw [Table.status]
    split_ifs
    · obtain ⟨hwf', hlook'⟩ := ih hwf
      exact ⟨hwf', fun k hk => (hlook' k hk).trans (hlook k hk)⟩
    · exact ⟨hwf, hlook⟩

/-- The effect of `clht_put` on the table. -/
theorem Wf.put (h : t.Wf) (k : Key) (v : Option α) :
    (t.put k v).1.Wf ∧ ∀ k', k' ≠ 0 →
      (t.put k v).1.lookup k' = if k' = k then (t.lookup k).or (some v) else t.lookup k' := by
  rw [Table.put]
  split_ifs with he
  · refine ⟨h, fun k' hk' => ?_⟩
    rw [bucketExists_eq] at he
    obtain ⟨w, hw⟩ := Option.isSome_iff_exists.mp he
    have hw' : t.lookup k = some w := hw
    by_cases hk : k' = k <;> simp [hk, hw']
  · rw [bucketExists_eq, Bool.not_eq_true, Option.isSome_eq_false_iff, Option.isNone_iff_eq_none] at he
    have habs : t.lookup k = none := he
    have hwf : (t.putSeq ⟨k, v⟩).Wf := h.putSeq fun _ => habs
    have hlook : ∀ k', k' ≠ 0 → (t.putSeq ⟨k, v⟩).lookup k' =
        if k' = k then (t.lookup k).or (some v) else t.lookup k' := by
      intro k' hk'
      rw [t.lookup_putSeq hk' fun _ => habs, habs]
      rfl
    dsimp only
    split_ifs
    · obtain ⟨hwf', hlook'⟩ := hwf.status ((t.putSeq ⟨k, v⟩).entries.length + 1)
      exact ⟨hwf', fun k' hk' => (hlook' k' hk').trans (hlook k' hk')⟩
    · exact ⟨hwf, hlook⟩

/-- The effect of changing a value word in place. -/
theorem Wf.replaceVal (h : t.Wf) (k : Key) (f : Option α → Option α) :
    (t.replaceVal k f).1.Wf ∧ ∀ k',
      (t.replaceVal k f).1.lookup k' = if k' = k then (t.lookup k).map f else t.lookup k' := by
  constructor
  · apply h.setBin
    · simpa [occupied_setFirst_val] using h.nodup (t.hash k)
    · intro k' hk'
      exact h.home _ k' (by simpa [occupied_setFirst_val] using hk')
  · intro k'
    rw [Table.replaceVal, lookup_setBin, findSlot_setFirst_val]
    by_cases hk : k' = k
    · simp [hk, lookup]
    · by_cases hb : t.hash k' = t.hash k <;> simp [hk, hb, lookup]

/-- The effect of `clht_remove` on the table. -/
theorem Wf.remove (h : t.Wf) (k : Key) :
    (t.remove k).1.Wf ∧ ∀ k', k' ≠ 0 →
      (t.remove k).1.lookup k' = if k' = k then none else t.lookup k' := by
  by_cases h0 : k = 0
  · subst h0
    have hsame : (t.remove 0).1 = t.setBin (t.hash 0) (t.table (t.hash 0)) := by
      rw [Table.remove, setFirst_clear_zero]
    rw [hsame]
    refine ⟨h.setBin (h.nodup _) (h.home _), fun k' hk' => ?_⟩
    rw [lookup_setBin, if_neg hk']
    by_cases hb : t.hash k' = t.hash 0 <;> simp [hb, lookup]
  · have herase := occupied_setFirst_clear (t.table (t.hash k)) h0
    constructor
    · apply h.setBin
      · rw [herase]
        exact (h.nodup _).erase k
      · intro k' hk'
        rw [herase] at hk'
        exact h.home _ k' (mem_of_mem_erase hk')
    · intro k' hk'
      rw [Table.remove, lookup_setBin]
      by_cases hk : k' = k
      · subst hk
        simp only [if_true]
        by_contra hsome
        have hmem := mem_occupied.mpr ⟨hk', Option.isSome_iff_ne_none.mpr hsome⟩
        rw [herase, (h.nodup _).mem_erase_iff] at hmem
        exact hmem.1 rfl
      · rw [if_neg hk, findSlot_setFirst_clear_of_ne _ hk' hk]
        by_cases hb : t.hash k' = t.hash k <;> simp [hb, lookup]

end Table

/-- An index: a table in which each key sits once, in its own bin. -/
structure Clht (α : Type*) where
  ht : Table α
  wf : ht.Wf

namespace Clht

/-- `clht_create`. -/
def create (logBuckets : ℕ) : Clht α := ⟨Table.create logBuckets, Table.wf_create logBuckets⟩

/-- The value word of a key, if the key has a slot. -/
def lookup (h : Clht α) (k : Key) : Option (Option α) := h.ht.lookup k

/-- `clht_get`: the value of a key, with the same answer for a missing key and a null word. -/
def get (h : Clht α) (k : Key) : Option α := (h.lookup k).join

/-- `clht_put`. -/
def put (h : Clht α) (k : Key) (v : α) : Clht α × Bool :=
  (⟨(h.ht.put k (some v)).1, (h.wf.put k (some v)).1⟩, (h.ht.put k (some v)).2)

/-- `clht_update`. -/
def update (h : Clht α) (k : Key) (v : α) : Clht α × Option α :=
  (⟨(h.ht.update k v).1, (h.wf.replaceVal k _).1⟩, (h.ht.update k v).2)

/-- `clht_remove`. -/
def remove (h : Clht α) (k : Key) : Clht α × Option α :=
  (⟨(h.ht.remove k).1, (h.wf.remove k).1⟩, (h.ht.remove k).2)

/-- The index part of `clht_remove_indirect`: the word becomes what it points at. -/
def redirect (h : Clht α) (k : Key) (deref : Option α → Option α) : Clht α :=
  ⟨(h.ht.replaceVal k deref).1, (h.wf.replaceVal k deref).1⟩

variable {k k' : Key}

/-- A new index is empty. -/
theorem lookup_create (n : ℕ) (hk : k ≠ 0) : (create n : Clht α).lookup k = none :=
  Table.lookup_create n hk

/-- A new index answers no key. -/
theorem get_create (n : ℕ) (hk : k ≠ 0) : (create n : Clht α).get k = none := by
  rw [get, lookup_create n hk]
  rfl

/-- Insertion keeps an existing word and adds a missing one. -/
theorem lookup_put (h : Clht α) (k : Key) (v : α) (hk' : k' ≠ 0) :
    (h.put k v).1.lookup k' = if k' = k then (h.lookup k).or (some (some v)) else h.lookup k' :=
  (h.wf.put k (some v)).2 k' hk'

/-- Update overwrites an existing word and adds nothing. -/
theorem lookup_update (h : Clht α) (k : Key) (v : α) (k' : Key) :
    (h.update k v).1.lookup k' = if k' = k then (h.lookup k).map (fun _ => some v) else h.lookup k' :=
  (h.wf.replaceVal k (fun _ => some v)).2 k'

/-- Removal drops the key. -/
theorem lookup_remove (h : Clht α) (k : Key) (hk' : k' ≠ 0) :
    (h.remove k).1.lookup k' = if k' = k then none else h.lookup k' :=
  (h.wf.remove k).2 k' hk'

/-- Redirection changes the word of one key. -/
theorem lookup_redirect (h : Clht α) (k : Key) (deref : Option α → Option α) (k' : Key) :
    (h.redirect k deref).lookup k' = if k' = k then (h.lookup k).map deref else h.lookup k' :=
  (h.wf.replaceVal k deref).2 k'

/-- No slot holds a null word, so a key with a slot has a value. -/
def Full (h : Clht α) : Prop := ∀ k, k ≠ 0 → h.lookup k ≠ some none

variable {h : Clht α}

/-- Without null words, a slot and its word are the same thing. -/
theorem Full.lookup_eq (hf : h.Full) (hk : k ≠ 0) : h.lookup k = (h.get k).map some := by
  have hk' := hf k hk
  unfold get
  cases hl : h.lookup k with
  | none => rfl
  | some v =>
    cases v with
    | none => exact absurd hl hk'
    | some v => rfl

/-- A new index has no null words. -/
theorem full_create (n : ℕ) : (create n : Clht α).Full := fun k hk => by
  rw [lookup_create n hk]
  exact nofun

/-- The value of a key after an insertion. -/
theorem Full.get_put (hf : h.Full) (k : Key) (v : α) (hk' : k' ≠ 0) :
    (h.put k v).1.get k' = if k' = k then (h.get k).or (some v) else h.get k' := by
  rw [get, lookup_put _ _ _ hk']
  split_ifs with heq
  · subst heq
    rw [hf.lookup_eq hk']
    cases h.get k' <;> rfl
  · rfl

/-- The value of a key after an update. -/
theorem Full.get_update (hf : h.Full) (k : Key) (v : α) (hk' : k' ≠ 0) :
    (h.update k v).1.get k' = if k' = k then (h.get k).map (fun _ => v) else h.get k' := by
  rw [get, lookup_update]
  split_ifs with heq
  · subst heq
    rw [hf.lookup_eq hk']
    cases h.get k' <;> rfl
  · rfl

/-- The value of a key after a removal. -/
theorem get_remove (h : Clht α) (k : Key) (hk' : k' ≠ 0) :
    (h.remove k).1.get k' = if k' = k then none else h.get k' := by
  rw [get, lookup_remove _ _ hk']
  split_ifs <;> rfl

/-- The value of a key after a redirection. -/
theorem Full.get_redirect (hf : h.Full) (k : Key) (deref : Option α → Option α) (hk' : k' ≠ 0) :
    (h.redirect k deref).get k' = if k' = k then (h.get k).bind (fun v => deref (some v)) else h.get k' := by
  rw [get, lookup_redirect]
  split_ifs with heq
  · subst heq
    rw [hf.lookup_eq hk']
    cases h.get k' <;> rfl
  · rfl

/-- Insertions, updates and removals leave no null words. -/
theorem Full.put (hf : h.Full) (k : Key) (v : α) : (h.put k v).1.Full := by
  intro k' hk'
  rw [lookup_put _ _ _ hk']
  split_ifs with heq
  · subst heq
    rw [hf.lookup_eq hk']
    cases h.get k' <;> exact nofun
  · exact hf k' hk'

@[inherit_doc Full.put]
theorem Full.update (hf : h.Full) (k : Key) (v : α) : (h.update k v).1.Full := by
  intro k' hk'
  rw [lookup_update]
  split_ifs
  · cases h.lookup k <;> exact nofun
  · exact hf k' hk'

@[inherit_doc Full.put]
theorem Full.remove (hf : h.Full) (k : Key) : (h.remove k).1.Full := by
  intro k' hk'
  rw [lookup_remove _ _ hk']
  split_ifs
  · exact nofun
  · exact hf k' hk'

/-- A redirection to values leaves no null words. -/
theorem Full.redirect (hf : h.Full) (k : Key) {deref : Option α → Option α}
    (hd : ∀ v, h.get k = some v → deref (some v) ≠ none) : (h.redirect k deref).Full := by
  intro k' hk'
  rw [lookup_redirect]
  split_ifs with heq
  · subst heq
    rw [hf.lookup_eq hk']
    cases hg : h.get k' with
    | none => exact nofun
    | some v => simpa using hd v hg
  · exact hf k' hk'

end Clht

end Dinomo
