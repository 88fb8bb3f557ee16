import Mathlib.Data.List.Nodup
import Mathlib.Data.Nat.Log
import Mathlib.Logic.Function.Basic
import Dinomo.LogBlocks

/-!
# The index: the resizable cache-line hash table

`clht_lb_res.c` under its locks, one operation at a time.  A bin is a chain of buckets with three
key/value slots each, kept as the flat list of the slots in chain order.  Key `0` marks an empty
slot.  Removing a key only clears the key of its slot, so an empty slot may hold a stale value.
A value word is an `Option`: `none` is the word `0`.

The fields used only for garbage collection of old tables, the lock words and the statistics that
`ht_status` prints are left out.
-/

namespace Dinomo

/-- One key/value pair of a bucket. -/
structure Slot (α : Type*) where
  key : Key
  val : Option α
deriving DecidableEq, Repr

variable {α : Type*}

/-- An empty slot of a new bucket. -/
def Slot.empty : Slot α := ⟨0, none⟩

/-- The three slots of a new bucket. -/
def newBucket : List (Slot α) := [.empty, .empty, .empty]

/-- The value word of the first slot that holds a key. -/
def findSlot (l : List (Slot α)) (k : Key) : Option (Option α) :=
  (l.find? (fun s => s.key = k)).map Slot.val

/-- `bucket_exists`. -/
def bucketExists (l : List (Slot α)) (k : Key) : Bool := l.any (fun s => s.key = k)

/-- Change the first slot that holds a key. -/
def setFirst (k : Key) (f : Slot α → Slot α) : List (Slot α) → List (Slot α)
  | [] => []
  | s :: l => if s.key = k then f s :: l else s :: setFirst k f l

/-- Place a pair in the first empty slot of a chain, or in the first slot of a new bucket. -/
def placeSlot (l : List (Slot α)) (k : Key) (v : Option α) : List (Slot α) :=
  if bucketExists l 0 then setFirst 0 (fun _ => ⟨k, v⟩) l else l ++ [⟨k, v⟩, .empty, .empty]

/-- The keys that occupy the slots of a chain. -/
def occupied (l : List (Slot α)) : List Key := (l.map Slot.key).filter (· ≠ 0)

/-- `clht_hashtable_t`: the number of buckets is a power of two. -/
structure Table (α : Type*) where
  logBuckets : ℕ
  table : ℕ → List (Slot α)
  numExpands : ℕ

namespace Table

/-- `num_buckets`. -/
def numBuckets (t : Table α) : ℕ := 2 ^ t.logBuckets

/-- `clht_hash`: the low bits of the key. -/
def hash (t : Table α) (k : Key) : ℕ := k &&& (t.numBuckets - 1)

/-- `clht_hashtable_create`. -/
def create (logBuckets : ℕ) : Table α := ⟨logBuckets, fun _ => newBucket, 0⟩

/-- The slot word stored for a key. -/
def lookup (t : Table α) (k : Key) : Option (Option α) := findSlot (t.table (t.hash k)) k

/-- The buckets of a chain that are read until a key is found or the chain ends. -/
def bucketReads (l : List (Slot α)) (k : Key) : ℕ := min (l.findIdx fun s => s.key = k) (l.length - 1) / 3 + 1

/-- `clht_get`: the value word of a key and the remote reads: the header, the root and the buckets. -/
def get (t : Table α) (k : Key) : Option α × ℕ :=
  ((t.lookup k).join, 2 + bucketReads (t.table (t.hash k)) k)

/-- Replace the chain of one bin. -/
def setBin (t : Table α) (b : ℕ) (l : List (Slot α)) : Table α :=
  { t with table := Function.update t.table b l }

/-- `clht_put_seq`: place a pair in its bin, without looking for the key. -/
def putSeq (t : Table α) (s : Slot α) : Table α :=
  let l := t.table (t.hash s.key)
  { t.setBin (t.hash s.key) (placeSlot l s.key s.val) with
    numExpands := if bucketExists l 0 then t.numExpands else t.numExpands + 1 }

/-- The occupied slots in the order in which `bucket_cpy` visits them. -/
def entries (t : Table α) : List (Slot α) :=
  ((List.range t.numBuckets).flatMap t.table).filter (fun s => s.key ≠ 0)

/-- `ht_resize_pes`: copy every pair into a new table. -/
def resize (t : Table α) (logBuckets : ℕ) : Table α := t.entries.foldl putSeq (create logBuckets)

/-- The size `ht_status` chooses: an eighth below 5% occupancy, else the least power of two that is at
least twice the old size and brings the occupancy to about 40%. -/
def statusSize (t : Table α) : ℕ :=
  let size := t.entries.length
  if 0 < size ∧ 100 * size < 5 * (3 * t.numBuckets) then t.logBuckets - 3
  else t.logBuckets + max 1 (Nat.clog 2 (100 * size / (40 * (3 * t.numBuckets))))

/-- `ht_status(h, 1, 0)`: resize, and again while the new table already has too many expansions.
A repetition needs a pair for each bucket and doubles the table, so the number of pairs bounds the
number of repetitions. -/
def status : ℕ → Table α → Table α
  | 0, t => t
  | fuel + 1, t =>
    let t' := t.resize t.statusSize
    if t'.numBuckets ≤ t'.numExpands then status fuel t' else t'

/-- `clht_put`: refuse a key that exists, else place it, and resize when expansions reach the limit. -/
def put (t : Table α) (k : Key) (v : Option α) : Table α × Bool :=
  if bucketExists (t.table (t.hash k)) k then (t, false)
  else
    let t' := t.putSeq ⟨k, v⟩
    if t.numExpands < t'.numExpands ∧ t'.numBuckets ≤ t'.numExpands then
      (status (t'.entries.length + 1) t', true)
    else (t', true)

/-- Change the value word of the first slot that holds a key; the old word is returned. -/
def replaceVal (t : Table α) (k : Key) (f : Option α → Option α) : Table α × Option α :=
  (t.setBin (t.hash k) (setFirst k (fun s => { s with val := f s.val }) (t.table (t.hash k))),
    (t.lookup k).join)

/-- `clht_update`: overwrite the value of a key that exists and return the old one. -/
def update (t : Table α) (k : Key) (v : α) : Table α × Option α := t.replaceVal k (fun _ => some v)

/-- `clht_remove`: clear the key of its slot, leaving the value word, and return the value. -/
def remove (t : Table α) (k : Key) : Table α × Option α :=
  (t.setBin (t.hash k) (setFirst k (fun s => { s with key := 0 }) (t.table (t.hash k))),
    (t.lookup k).join)

/-- Every bin holds distinct keys, each in the bin it hashes to. -/
structure Wf (t : Table α) : Prop where
  nodup : ∀ b, (occupied (t.table b)).Nodup
  home : ∀ b, ∀ k ∈ occupied (t.table b), t.hash k = b

end Table

end Dinomo
