import Mathlib.Data.List.AList
import Mathlib.Data.List.Sort
import Mathlib.Algebra.GroupWithZero.Nat

/-!
# Caches with a replacement policy

The map of a cache holds its items; the policy orders their keys and names the next one to evict.  The
policy of the value entries evicts the least recently used key, the policy of the shortcut entries the
least frequently used one.  Both maps are built without a limit on the number of items, so a `put`
displaces nothing.
-/

namespace Dinomo

open List hiding beq_eq_decide

/-- A replacement policy: how the operations of a cache act on the order of its keys. -/
class CachePolicy (π : Type) (κ : outParam Type) [DecidableEq κ] where
  keys : π → List κ
  empty : π
  insert : π → κ → π
  touch : π → κ → π
  erase : π → κ → π
  replCandidate : π → Option κ
  keys_empty : keys empty = []
  perm_insert (q : π) (k : κ) : (keys (insert q k)).Perm (k :: keys q)
  perm_touch (q : π) (k : κ) : (keys (touch q k)).Perm (keys q)
  perm_erase (q : π) (k : κ) : (keys (erase q k)).Perm ((keys q).erase k)

open CachePolicy

/-- The keys in the order of their last use, the latest first. -/
structure LruPolicy (κ : Type) where
  lruQueue : List κ

/-- The keys in the order of their frequencies. -/
structure LfuPolicy (κ : Type) where
  frequencyStorage : List (UInt64 × κ)
  sorted : frequencyStorage.Pairwise fun x y => x.1 ≤ y.1

namespace LruPolicy

variable {κ : Type} [DecidableEq κ]

/-- A use moves the key to the front, and the key at the back is evicted. -/
instance : CachePolicy (LruPolicy κ) κ where
  keys q := q.lruQueue
  empty := ⟨[]⟩
  insert q k := ⟨k :: q.lruQueue⟩
  touch q k := if k ∈ q.lruQueue then ⟨k :: q.lruQueue.erase k⟩ else q
  erase q k := ⟨q.lruQueue.erase k⟩
  replCandidate q := q.lruQueue.getLast?
  keys_empty := rfl
  perm_insert _ _ := .refl _
  perm_touch q k := by
    split_ifs with h
    · exact (List.perm_cons_erase h).symm
    · exact .refl _
  perm_erase _ _ := .refl _

end LruPolicy

/-- An ordered insertion keeps the frequencies in order, wherever it stands among its equals. -/
theorem pairwise_orderedInsert {κ : Type} {r : UInt64 × κ → UInt64 × κ → Prop} [DecidableRel r]
    (hr : ∀ x y, r x y → x.1 ≤ y.1) (hnr : ∀ x y, ¬r x y → y.1 ≤ x.1) {x : UInt64 × κ}
    {l : List (UInt64 × κ)} (hl : l.Pairwise fun x y => x.1 ≤ y.1) :
    (l.orderedInsert r x).Pairwise fun x y => x.1 ≤ y.1 := by
  induction l with
  | nil => simp
  | cons y l ih =>
    obtain ⟨hy, hl⟩ := pairwise_cons.mp hl
    simp only [orderedInsert_cons]
    split_ifs with h
    · have hxy := hr x y h
      refine pairwise_cons.mpr ⟨fun z hz => ?_, pairwise_cons.mpr ⟨hy, hl⟩⟩
      rcases mem_cons.mp hz with rfl | hz
      · exact hxy
      · exact UInt64.le_trans hxy (hy z hz)
    · refine pairwise_cons.mpr ⟨fun z hz => ?_, ih hl⟩
      rcases mem_cons.mp ((perm_orderedInsert r x l).mem_iff.mp hz) with rfl | hz
      · exact hnr _ _ h
      · exact hy z hz

namespace LfuPolicy

variable {κ : Type} [DecidableEq κ]

/-- The frequency of a key. -/
def hits (q : LfuPolicy κ) (k : κ) : Option UInt64 :=
  (q.frequencyStorage.find? fun x => x.2 = k).map Prod.fst

/-- Place a key before the entries of its frequency. -/
def emplaceFront (q : LfuPolicy κ) (f : UInt64) (k : κ) : LfuPolicy κ where
  frequencyStorage := q.frequencyStorage.orderedInsert (fun x y => x.1 ≤ y.1) (f, k)
  sorted := pairwise_orderedInsert (fun _ _ h => h) (fun _ _ h => UInt64.le_of_lt (UInt64.not_le.mp h)) q.sorted

/-- Place a key behind the entries of its frequency. -/
def emplaceBack (q : LfuPolicy κ) (f : UInt64) (k : κ) : LfuPolicy κ where
  frequencyStorage := q.frequencyStorage.orderedInsert (fun x y => x.1 < y.1) (f, k)
  sorted := pairwise_orderedInsert (fun _ _ h => UInt64.le_of_lt h) (fun _ _ h => UInt64.not_lt.mp h) q.sorted

/-- Take a key out. -/
def eraseKey (q : LfuPolicy κ) (k : κ) : LfuPolicy κ where
  frequencyStorage := q.frequencyStorage.eraseP fun x => x.2 = k
  sorted := q.sorted.sublist List.eraseP_sublist

/-- A use counts one up and places the key behind the entries of its new frequency. -/
def touchKey (q : LfuPolicy κ) (k : κ) : LfuPolicy κ :=
  match q.hits k with
  | none => q
  | some f => (q.eraseKey k).emplaceBack (f + 1) k

/-- A key enters with a given frequency. -/
def weightInsert (q : LfuPolicy κ) (k : κ) (weight : UInt64) : LfuPolicy κ := q.emplaceBack weight k

/-- A key that is there gets a given frequency. -/
def weightTouch (q : LfuPolicy κ) (k : κ) (weight : UInt64) : LfuPolicy κ :=
  (q.eraseKey k).emplaceBack weight k

/-- The loop of `sumMinHits`: the number of entries passed and the sum of their frequencies. -/
def sumHits (numElements : ℕ) : List (UInt64 × κ) → ℕ → UInt64 → ℕ × UInt64
  | [], iterCounter, sum => (iterCounter, sum)
  | x :: l, iterCounter, sum =>
    if numElements = iterCounter + 1 then (iterCounter + 1, sum + x.1)
    else sumHits numElements l (iterCounter + 1) (sum + x.1)

/-- The sum of the given number of least frequencies, the largest word when there are fewer. -/
def sumMinHits (q : LfuPolicy κ) (numElements : ℕ) : UInt64 :=
  let (iterCounter, sum) := sumHits numElements q.frequencyStorage 0 0
  if iterCounter = numElements then sum else 18446744073709551615

/-- The sum of the least frequencies as a number. -/
def leastHits (q : LfuPolicy κ) (n : ℕ) : ℕ := ((q.frequencyStorage.take n).map fun x => x.1.toNat).sum

variable {n : ℕ} {q : LfuPolicy κ}

omit [DecidableEq κ] in
/-- The loop of `sumMinHits` stops behind the wanted number of entries when there are as many. -/
theorem sumHits_of_le {i : ℕ} {l : List (UInt64 × κ)} {t : UInt64} (hiter : i < n)
    (hlen : n ≤ i + l.length) :
    sumHits n l i t = (n, t + .ofNat ((l.take (n - i)).map fun x => x.1.toNat).sum) := by
  induction l generalizing i t with
  | nil => simp at hlen; omega
  | cons x l ih =>
    obtain ⟨m, rfl⟩ := Nat.exists_eq_add_of_lt hiter
    have htake : i + m + 1 - i = m + 1 := by omega
    simp only [htake, take_succ_cons, map_cons, sum_cons, UInt64.ofNat_add, UInt64.ofNat_toNat, sumHits]
    split_ifs with hstop
    · obtain rfl : m = 0 := by omega
      simp
    · have htake' : i + m + 1 - (i + 1) = m := by omega
      rw [ih (by omega) (by simp only [length_cons] at hlen; omega), htake', UInt64.add_assoc]

omit [DecidableEq κ] in
/-- The loop of `sumMinHits` passes every entry when there are fewer than wanted. -/
theorem sumHits_of_lt {i : ℕ} {l : List (UInt64 × κ)} {t : UInt64} (hlen : i + l.length < n) :
    (sumHits n l i t).1 = i + l.length := by
  induction l generalizing i t with
  | nil => rfl
  | cons x l ih =>
    simp only [length_cons] at hlen ⊢
    rw [sumHits, if_neg (by omega), ih (by omega)]
    omega

omit [DecidableEq κ] in
/-- Where there are as many entries as wanted, `sumMinHits` is the sum of the least frequencies as a word. -/
theorem toNat_sumMinHits (hpos : 0 < n) (hlen : n ≤ q.frequencyStorage.length) :
    (q.sumMinHits n).toNat = q.leastHits n % 2 ^ 64 := by
  simp [sumMinHits, sumHits_of_le hpos (by simpa using hlen), leastHits]

omit [DecidableEq κ] in
/-- Where there are fewer entries than wanted, `sumMinHits` is the largest word. -/
theorem sumMinHits_of_lt (hlen : q.frequencyStorage.length < n) :
    q.sumMinHits n = 18446744073709551615 := by
  have h := sumHits_of_lt (i := 0) (t := 0) (l := q.frequencyStorage) (n := n) (by omega)
  simp only [sumMinHits, h]
  exact if_neg (by omega)

omit [DecidableEq κ] in
/-- The entries after a placement at the front. -/
theorem perm_emplaceFront (q : LfuPolicy κ) (f : UInt64) (k : κ) :
    (q.emplaceFront f k).frequencyStorage.Perm ((f, k) :: q.frequencyStorage) := perm_orderedInsert _ _ _

omit [DecidableEq κ] in
/-- The entries after a placement at the back. -/
theorem perm_emplaceBack (q : LfuPolicy κ) (f : UInt64) (k : κ) :
    (q.emplaceBack f k).frequencyStorage.Perm ((f, k) :: q.frequencyStorage) := perm_orderedInsert _ _ _

/-- A key with a frequency is taken out with its entry. -/
theorem perm_eraseKey {k : κ} {f : UInt64} (h : q.hits k = some f) :
    q.frequencyStorage.Perm ((f, k) :: (q.eraseKey k).frequencyStorage) := by
  obtain ⟨x, hx, rfl⟩ := Option.map_eq_some_iff.mp h
  obtain ⟨hxk, l₁, l₂, hl, hl₁⟩ := List.find?_eq_some_iff_append.mp hx
  obtain rfl : x.2 = k := by simpa using hxk
  have herase : (q.eraseKey x.2).frequencyStorage = l₁ ++ l₂ := by
    change q.frequencyStorage.eraseP _ = _
    rw [hl, eraseP_append_right _ (by simpa using hl₁), eraseP_cons_of_pos (by simp)]
  rw [herase, hl]
  exact perm_middle

/-- The keys without the one taken out. -/
theorem map_eraseKey (q : LfuPolicy κ) (k : κ) :
    (q.eraseKey k).frequencyStorage.map Prod.snd = (q.frequencyStorage.map Prod.snd).erase k := by
  rw [erase_eq_eraseP, eraseP_map]
  change (q.frequencyStorage.eraseP _).map _ = _
  congr 2
  funext x
  simp [eq_comm, beq_eq_decide]

/-- The least frequently used key is evicted. -/
instance : CachePolicy (LfuPolicy κ) κ where
  keys q := q.frequencyStorage.map Prod.snd
  empty := ⟨[], .nil⟩
  insert q k := q.emplaceFront 1 k
  touch := touchKey
  erase := eraseKey
  replCandidate q := q.frequencyStorage.head?.map Prod.snd
  keys_empty := rfl
  perm_insert q k := (perm_emplaceFront q 1 k).map _
  perm_touch q k := by
    unfold touchKey
    split
    · exact .refl _
    · next f hf => exact ((perm_emplaceBack _ _ _).map _).trans ((perm_eraseKey hf).map Prod.snd).symm
  perm_erase q k := .of_eq (map_eraseKey q k)

end LfuPolicy

/-- A map of items whose keys are those of its policy. -/
structure FixedSizedCache (κ ν π : Type) [DecidableEq κ] [CachePolicy π κ] where
  cacheItemsMap : AList fun _ : κ => ν
  cachePolicy : π
  synced : (CachePolicy.keys cachePolicy).Perm cacheItemsMap.keys

namespace FixedSizedCache

variable {κ ν π : Type} [DecidableEq κ] [CachePolicy π κ]

/-- The cache without items. -/
def empty : FixedSizedCache κ ν π := ⟨∅, CachePolicy.empty, .of_eq CachePolicy.keys_empty⟩

/-- The item of a key. -/
def lookup (c : FixedSizedCache κ ν π) (k : κ) : Option ν := c.cacheItemsMap.lookup k

/-- The number of items. -/
def size (c : FixedSizedCache κ ν π) : ℕ := c.cacheItemsMap.keys.length

/-- Count a use of a key. -/
def touch (c : FixedSizedCache κ ν π) (k : κ) : FixedSizedCache κ ν π where
  cacheItemsMap := c.cacheItemsMap
  cachePolicy := CachePolicy.touch c.cachePolicy k
  synced := (CachePolicy.perm_touch _ _).trans c.synced

/-- Take a key out of the map and the policy. -/
def erase (c : FixedSizedCache κ ν π) (k : κ) : FixedSizedCache κ ν π where
  cacheItemsMap := c.cacheItemsMap.erase k
  cachePolicy := CachePolicy.erase c.cachePolicy k
  synced := by
    rw [AList.keys_erase]
    exact (CachePolicy.perm_erase _ _).trans (c.synced.erase k)

/-- Read an item and count the use. -/
def get (c : FixedSizedCache κ ν π) (k : κ) : Option ν × FixedSizedCache κ ν π :=
  match c.lookup k with
  | none => (none, c)
  | some v => (some v, c.touch k)

variable {k : κ} {c : FixedSizedCache κ ν π} {v : ν}

/-- The keys after an assignment to a key that is there. -/
theorem perm_keys_insert_of_mem {l : AList fun _ : κ => ν} (h : k ∈ l) (v : ν) :
    l.keys.Perm (l.insert k v).keys := by
  rw [AList.keys_insert]
  exact perm_cons_erase (AList.mem_keys.mp h)

/-- The keys after an assignment to a key that is not there. -/
theorem keys_insert_of_notMem {l : AList fun _ : κ => ν} (h : k ∉ l) (v : ν) :
    (l.insert k v).keys = k :: l.keys := by
  rw [AList.keys_insert, erase_of_not_mem (fun hk => h (AList.mem_keys.mpr hk))]

/-- Assign an item; a key that is there keeps its place in the policy. -/
def put (c : FixedSizedCache κ ν π) (k : κ) (v : ν) : FixedSizedCache κ ν π :=
  if h : k ∈ c.cacheItemsMap then
    { c with
      cacheItemsMap := c.cacheItemsMap.insert k v
      synced := c.synced.trans (perm_keys_insert_of_mem h v) }
  else
    { cacheItemsMap := c.cacheItemsMap.insert k v
      cachePolicy := CachePolicy.insert c.cachePolicy k
      synced := by
        rw [keys_insert_of_notMem h]
        exact (CachePolicy.perm_insert _ _).trans (c.synced.cons k) }

/-- Take an item out. -/
def remove (c : FixedSizedCache κ ν π) (k : κ) : Option ν × FixedSizedCache κ ν π :=
  match c.lookup k with
  | none => (none, c)
  | some v => (some v, c.erase k)

/-- Take out the item the policy names; there is none in an empty cache. -/
def evict (c : FixedSizedCache κ ν π) : Option (ν × FixedSizedCache κ ν π) :=
  match CachePolicy.replCandidate c.cachePolicy with
  | none => none
  | some k => (c.lookup k).map fun v => (v, c.erase k)

@[simp] theorem lookup_empty (k : κ) : (empty : FixedSizedCache κ ν π).lookup k = none := AList.lookup_empty k

@[simp] theorem size_empty : (empty : FixedSizedCache κ ν π).size = 0 := rfl

@[simp] theorem lookup_touch (c : FixedSizedCache κ ν π) (k k' : κ) : (c.touch k).lookup k' = c.lookup k' := rfl

@[simp] theorem size_touch (c : FixedSizedCache κ ν π) (k : κ) : (c.touch k).size = c.size := rfl

/-- A key has an item when it is in the map. -/
theorem mem_of_lookup (h : c.lookup k = some v) :
    k ∈ c.cacheItemsMap := AList.lookup_isSome.mp (by rw [lookup] at h; simp [h])

/-- A key has no item when it is not in the map. -/
theorem notMem_of_lookup (h : c.lookup k = none) : k ∉ c.cacheItemsMap :=
  AList.lookup_eq_none.mp h

/-- A key without an item is not found. -/
theorem get_of_none (h : c.lookup k = none) : c.get k = (none, c) := by
  simp only [get, h]

/-- A key with an item is found and used. -/
theorem get_of_some (h : c.lookup k = some v) :
    c.get k = (some v, c.touch k) := by simp only [get, h]

/-- The items after a key is taken out. -/
theorem lookup_erase (c : FixedSizedCache κ ν π) (k k' : κ) :
    (c.erase k).lookup k' = if k' = k then none else c.lookup k' := by
  split_ifs with h
  · rw [h]
    exact AList.lookup_erase k _
  · exact AList.lookup_erase_ne h

/-- A key that is taken out makes the map one smaller. -/
theorem size_erase (h : c.lookup k = some v) :
    (c.erase k).size + 1 = c.size := by
  have hmem := AList.mem_keys.mp (mem_of_lookup h)
  have hlen := length_erase_of_mem hmem
  have hpos := length_pos_of_mem hmem
  simp only [size, erase, AList.keys_erase]
  omega

/-- A removal makes the map no larger. -/
theorem size_remove_le (c : FixedSizedCache κ ν π) (k : κ) : (c.remove k).2.size ≤ c.size := by
  unfold remove
  split
  · exact le_rfl
  · next h =>
    have hsize := size_erase h
    change (c.erase k).size ≤ c.size
    omega

/-- What is there after a removal was there before. -/
theorem lookup_of_remove {k' : κ} (h : (c.remove k).2.lookup k' = some v) :
    c.lookup k' = some v := by
  unfold remove at h
  split at h
  · exact h
  · change (c.erase k).lookup k' = some v at h
    rw [lookup_erase] at h
    split_ifs at h
    exact h

/-- The items after an assignment. -/
theorem lookup_put (c : FixedSizedCache κ ν π) (k k' : κ) (v : ν) :
    (c.put k v).lookup k' = if k' = k then some v else c.lookup k' := by
  have hitems : (c.put k v).cacheItemsMap = c.cacheItemsMap.insert k v := by
    unfold put
    split <;> rfl
  rw [lookup, hitems]
  split_ifs with h
  · rw [h, AList.lookup_insert]
  · exact AList.lookup_insert_ne h

/-- An assignment to a key that is there keeps the policy. -/
theorem cachePolicy_put_of_lookup (h : c.lookup k = some v) (w : ν) :
    (c.put k w).cachePolicy = c.cachePolicy := by rw [put, dif_pos (mem_of_lookup h)]

/-- An assignment to a key that is not there inserts it in the policy. -/
theorem cachePolicy_put_of_none (h : c.lookup k = none) (w : ν) :
    (c.put k w).cachePolicy = insert c.cachePolicy k := by rw [put, dif_neg (notMem_of_lookup h)]

/-- An assignment to a key that is there keeps the size. -/
theorem size_put_of_lookup (h : c.lookup k = some v) (w : ν) :
    (c.put k w).size = c.size := by
  have hmem := mem_of_lookup h
  rw [put, dif_pos hmem]
  exact (perm_keys_insert_of_mem hmem w).length_eq.symm

/-- An assignment to a key that is not there makes the map one larger. -/
theorem size_put_of_none (h : c.lookup k = none) (w : ν) :
    (c.put k w).size = c.size + 1 := by
  have hmem := notMem_of_lookup h
  rw [put, dif_neg hmem]
  simp [size, keys_insert_of_notMem hmem w]

/-- The keys of the policy are distinct. -/
theorem nodup_keys (c : FixedSizedCache κ ν π) : (keys c.cachePolicy).Nodup :=
  c.synced.nodup_iff.mpr c.cacheItemsMap.keys_nodup

/-- The keys of the policy are those with an item. -/
theorem mem_keys_iff :
    k ∈ keys c.cachePolicy ↔ ∃ v, c.lookup k = some v := by
  rw [c.synced.mem_iff, ← AList.mem_keys, ← AList.lookup_isSome]
  exact Option.isSome_iff_exists

/-- An eviction takes out an item of the map. -/
theorem evict_eq_some {c' : FixedSizedCache κ ν π} (h : c.evict = some (v, c')) :
    ∃ k, replCandidate c.cachePolicy = some k ∧ c.lookup k = some v ∧ c' = c.erase k := by
  unfold evict at h
  split at h
  · cases h
  · next k hk =>
    obtain ⟨w, hw, heq⟩ := Option.map_eq_some_iff.mp h
    cases heq
    exact ⟨k, hk, hw, rfl⟩

/-- A cache whose policy names a key evicts. -/
theorem evict_of_candidate (h : replCandidate c.cachePolicy = some k)
    (hk : k ∈ keys c.cachePolicy) : ∃ v, c.evict = some (v, c.erase k) := by
  obtain ⟨v, hv⟩ := mem_keys_iff.mp hk
  exact ⟨v, by rw [evict, h]; simp [hv]⟩

/-- The policy has as many keys as the map. -/
theorem length_keys (c : FixedSizedCache κ ν π) : (keys c.cachePolicy).length = c.size :=
  c.synced.length_eq

/-- The values have a least recently used key unless there are none. -/
theorem lru_evict_isSome {c : FixedSizedCache κ ν (LruPolicy κ)} (h : c.size ≠ 0) :
    ∃ v c', c.evict = some (v, c') := by
  have hne : c.cachePolicy.lruQueue ≠ [] := by
    rintro hnil
    have hlen := c.length_keys
    change c.cachePolicy.lruQueue.length = c.size at hlen
    exact h (by rw [← hlen, hnil]; rfl)
  obtain ⟨v, hv⟩ := evict_of_candidate (c := c) (List.getLast?_eq_some_getLast hne) (getLast_mem hne)
  exact ⟨v, _, hv⟩

/-- Evict a number of items. -/
def evictMany : ℕ → FixedSizedCache κ ν π → Option (FixedSizedCache κ ν π)
  | 0, c => some c
  | n + 1, c =>
    match c.evict with
    | none => none
    | some (_, c) => evictMany n c

section Frequencies

/-- The frequencies of the keys, the least first. -/
def frequencies (c : FixedSizedCache κ ν (LfuPolicy κ)) : List (UInt64 × κ) := c.cachePolicy.frequencyStorage

/-- The frequency of a key. -/
def hitCounter (c : FixedSizedCache κ ν (LfuPolicy κ)) (k : κ) : UInt64 := (c.cachePolicy.hits k).getD 0

/-- The sum of a number of least frequencies. -/
def aggregatedMinHits (c : FixedSizedCache κ ν (LfuPolicy κ)) (n : ℕ) : UInt64 := c.cachePolicy.sumMinHits n

/-- Assign an item with a given frequency. -/
def weightPut (c : FixedSizedCache κ ν (LfuPolicy κ)) (k : κ) (v : ν) (weight : UInt64) :
    FixedSizedCache κ ν (LfuPolicy κ) :=
  if h : k ∈ c.cacheItemsMap then
    { cacheItemsMap := c.cacheItemsMap.insert k v
      cachePolicy := c.cachePolicy.weightTouch k weight
      synced := by
        rw [AList.keys_insert]
        exact ((LfuPolicy.perm_emplaceBack _ _ _).map Prod.snd).trans
          (.cons k (.trans (.of_eq (LfuPolicy.map_eraseKey _ _)) (c.synced.erase k))) }
  else
    { cacheItemsMap := c.cacheItemsMap.insert k v
      cachePolicy := c.cachePolicy.weightInsert k weight
      synced := by
        rw [keys_insert_of_notMem h]
        exact ((LfuPolicy.perm_emplaceBack _ _ _).map Prod.snd).trans (c.synced.cons k) }

variable {c : FixedSizedCache κ ν (LfuPolicy κ)} {k : κ} {f : UInt64} {v : ν} {x : UInt64 × κ}
  {c' : FixedSizedCache κ ν (LfuPolicy κ)} {n : ℕ}

/-- Every item has a frequency. -/
theorem exists_frequency (h : c.lookup k = some v) : ∃ f, (f, k) ∈ c.frequencies := by
  obtain ⟨x, hx, rfl⟩ := mem_map.mp (mem_keys_iff.mpr ⟨v, h⟩)
  exact ⟨x.1, hx⟩

/-- The frequency entry of a key is the one that is found. -/
theorem hits_of_mem (h : (f, k) ∈ c.frequencies) : c.cachePolicy.hits k = some f := by
  have hfind : (c.cachePolicy.frequencyStorage.find? fun x => x.2 = k).isSome :=
    List.find?_isSome.mpr ⟨(f, k), h, by simp⟩
  obtain ⟨x, hx⟩ := Option.isSome_iff_exists.mp hfind
  have hxk : x.2 = k := by simpa using List.find?_some hx
  have heq : x = (f, k) := inj_on_of_nodup_map c.nodup_keys (mem_of_find?_eq_some hx) h hxk
  rw [LfuPolicy.hits, hx, heq]
  rfl

/-- The frequencies after a use. -/
theorem perm_frequencies_touch (h : (f, k) ∈ c.frequencies) :
    (c.touch k).frequencies.Perm ((f + 1, k) :: (c.erase k).frequencies) := by
  change (c.cachePolicy.touchKey k).frequencyStorage.Perm _
  rw [LfuPolicy.touchKey, hits_of_mem h]
  exact LfuPolicy.perm_emplaceBack _ _ _

/-- A use counts one. -/
theorem mem_frequencies_touch (h : (f, k) ∈ c.frequencies) : (f + 1, k) ∈ (c.touch k).frequencies :=
  (perm_frequencies_touch h).mem_iff.mpr mem_cons_self

/-- The other keys keep their frequencies when one is taken out. -/
theorem mem_frequencies_erase (hx : x.2 ≠ k) (h : x ∈ c.frequencies) :
    x ∈ (c.erase k).frequencies := (mem_eraseP_of_neg (by simpa using hx)).mpr h

/-- The other keys keep their frequencies when one is used. -/
theorem mem_frequencies_touch_of_ne (hk : c.lookup k = some v) (hx : x.2 ≠ k)
    (h : x ∈ c.frequencies) : x ∈ (c.touch k).frequencies := by
  obtain ⟨f, hf⟩ := exists_frequency hk
  exact (perm_frequencies_touch hf).mem_iff.mpr (mem_cons_of_mem _ (mem_frequencies_erase hx h))

/-- A new key has frequency one and the others keep theirs. -/
theorem perm_frequencies_put (h : c.lookup k = none) (v : ν) :
    (c.put k v).frequencies.Perm ((1, k) :: c.frequencies) := by
  rw [frequencies, cachePolicy_put_of_none h]
  exact LfuPolicy.perm_emplaceFront _ _ _

/-- The items after an assignment with a frequency. -/
theorem lookup_weightPut (c : FixedSizedCache κ ν (LfuPolicy κ)) (k k' : κ) (v : ν) (w : UInt64) :
    (c.weightPut k v w).lookup k' = if k' = k then some v else c.lookup k' := by
  have hitems : (c.weightPut k v w).cacheItemsMap = c.cacheItemsMap.insert k v := by
    unfold weightPut
    split <;> rfl
  rw [lookup, hitems]
  split_ifs with h
  · rw [h, AList.lookup_insert]
  · exact AList.lookup_insert_ne h

/-- A key that enters with a weight has it as its frequency, and the others keep theirs. -/
theorem perm_frequencies_weightPut (h : c.lookup k = none) (v : ν) (w : UInt64) :
    (c.weightPut k v w).frequencies.Perm ((w, k) :: c.frequencies) := by
  rw [weightPut, dif_neg (notMem_of_lookup h)]
  exact LfuPolicy.perm_emplaceBack _ _ _

/-- A key that enters with a weight makes the map one larger. -/
theorem size_weightPut (h : c.lookup k = none) (v : ν) (w : UInt64) :
    (c.weightPut k v w).size = c.size + 1 := by
  have hmem := notMem_of_lookup h
  rw [weightPut, dif_neg hmem]
  simp [size, keys_insert_of_notMem hmem v]

/-- An eviction takes out the first entry. -/
theorem frequencies_evict (h : c.evict = some (v, c')) :
    ∃ x, c.frequencies = x :: c'.frequencies ∧ c.lookup x.2 = some v ∧ c' = c.erase x.2 := by
  obtain ⟨k, hk, hv, rfl⟩ := evict_eq_some h
  obtain ⟨x, hx, rfl⟩ := Option.map_eq_some_iff.mp hk
  obtain ⟨l, hl⟩ := List.head?_eq_some_iff.mp hx
  refine ⟨x, ?_, hv, rfl⟩
  change c.cachePolicy.frequencyStorage = x :: c.cachePolicy.frequencyStorage.eraseP _
  rw [hl, eraseP_cons_of_pos (by simp)]

/-- A cache with a frequency evicts its first key. -/
theorem evict_isSome {l : List (UInt64 × κ)} (h : c.frequencies = x :: l) :
    ∃ v, c.evict = some (v, c.erase x.2) := by
  change c.cachePolicy.frequencyStorage = x :: l at h
  refine evict_of_candidate ?_ ?_
  · change c.cachePolicy.frequencyStorage.head?.map Prod.snd = _
    rw [h]
    rfl
  · change x.2 ∈ c.cachePolicy.frequencyStorage.map Prod.snd
    rw [h]
    exact mem_cons_self

/-- The shortcuts have a least frequently used key unless there are none. -/
theorem lfu_evict_isSome (h : c.size ≠ 0) : ∃ v c', c.evict = some (v, c') := by
  have hlen := c.length_keys
  change (c.frequencies.map Prod.snd).length = c.size at hlen
  rw [length_map] at hlen
  obtain ⟨x, l, hl⟩ := exists_cons_of_length_pos (by omega : 0 < c.frequencies.length)
  obtain ⟨v, hv⟩ := evict_isSome hl
  exact ⟨v, _, hv⟩

/-- As many evictions as there are entries are defined; they take out the least frequencies. -/
theorem evictMany_spec (h : n ≤ c.frequencies.length) :
    ∃ c', c.evictMany n = some c' ∧ c'.size + n = c.size ∧
      ∀ k, k ∉ (c.frequencies.take n).map Prod.snd → c'.lookup k = c.lookup k := by
  induction n generalizing c with
  | zero => exact ⟨c, rfl, rfl, fun _ _ => rfl⟩
  | succ n ih =>
    obtain ⟨x, l, hl⟩ := exists_cons_of_length_pos (by omega : 0 < c.frequencies.length)
    obtain ⟨v, hv⟩ := evict_isSome hl
    obtain ⟨y, hy, hlookup, -⟩ := frequencies_evict hv
    obtain ⟨rfl, rfl⟩ : x = y ∧ l = (c.erase x.2).frequencies := by
      rw [hl] at hy
      exact List.cons.inj hy
    obtain ⟨c', hc', hsize, hkeep⟩ := ih (c := c.erase x.2) (by rw [hl] at h; simpa using h)
    refine ⟨c', by simp only [evictMany, hv, hc'], ?_, fun k hk => ?_⟩
    · have := size_erase hlookup
      omega
    · rw [hl] at hk
      simp only [take_succ_cons, map_cons, mem_cons, not_or] at hk
      rw [hkeep k hk.2, lookup_erase, if_neg hk.1]

/-- A cache from which items have been taken out. -/
structure Within (c' c : FixedSizedCache κ ν (LfuPolicy κ)) : Prop where
  lookup : ∀ k v, c'.lookup k = some v → c.lookup k = some v
  frequencies : ∀ x ∈ c.frequencies, ∀ v, c'.lookup x.2 = some v → x ∈ c'.frequencies

/-- An item is taken out. -/
theorem within_erase (c : FixedSizedCache κ ν (LfuPolicy κ)) (k : κ) : Within (c.erase k) c where
  lookup k' v h := by
    rw [lookup_erase] at h
    split_ifs at h
    exact h
  frequencies x hx v h := by
    rw [lookup_erase] at h
    split_ifs at h with hxk
    exact mem_frequencies_erase hxk hx

theorem Within.trans {c₁ c₂ c₃ : FixedSizedCache κ ν (LfuPolicy κ)} (h : Within c₁ c₂) (h' : Within c₂ c₃) :
    Within c₁ c₃ where
  lookup k v hv := h'.lookup k v (h.lookup k v hv)
  frequencies x hx v hv := h.frequencies x (h'.frequencies x hx v (h.lookup _ v hv)) v hv

/-- Evictions take items out. -/
theorem within_evictMany (h : c.evictMany n = some c') :
    Within c' c := by
  induction n generalizing c with
  | zero =>
    cases h
    exact ⟨fun _ _ h => h, fun _ h _ _ => h⟩
  | succ n ih =>
    unfold evictMany at h
    split at h
    · cases h
    · next hevict =>
      obtain ⟨x, -, -, rfl⟩ := frequencies_evict hevict
      exact (ih h).trans (within_erase c x.2)

/-- Evictions that are defined find as many entries, and take out the keys of the least frequencies. -/
theorem evictMany_taken (h : c.evictMany n = some c') :
    n ≤ c.frequencies.length ∧ ∀ k ∈ (c.frequencies.take n).map Prod.snd, c'.lookup k = none := by
  induction n generalizing c with
  | zero => simp
  | succ n ih =>
    unfold evictMany at h
    split at h
    · cases h
    · next hevict =>
      obtain ⟨x, hx, -, rfl⟩ := frequencies_evict hevict
      obtain ⟨hlen, htaken⟩ := ih h
      refine ⟨by rw [hx]; simpa using hlen, fun k hk => ?_⟩
      rw [hx, take_succ_cons, map_cons, mem_cons] at hk
      rcases hk with rfl | hk
      · -- what the first eviction took out does not come back
        rcases hlookup : c'.lookup x.2 with - | v
        · rfl
        · have := (within_evictMany h).lookup x.2 v hlookup
          simp [lookup_erase] at this
      · exact htaken k hk

end Frequencies

end FixedSizedCache

end Dinomo
