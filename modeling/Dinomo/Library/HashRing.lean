import Mathlib.Data.List.Sort
import Mathlib.Data.List.Dedup
import Mathlib.Data.List.Infix
import Mathlib.Data.List.Rotate

/-!
# Consistent hashing

A ring is a map from hashes to values, ordered by hash.  A hash is served by the first entry at or
after it, with the first entry of the ring after the last; `walk` lists the entries of the ring in that
order.  An insertion keeps an entry that is already at the hash.
-/

namespace Dinomo

open List

/-- A map from hashes to values, ordered by hash. -/
structure HashRing (H N : Type*) [LinearOrder H] where
  nodes : List (H × N)
  sorted : nodes.Pairwise fun x y => x.1 < y.1

namespace HashRing

variable {H N : Type*} [LinearOrder H]

/-- The ring without entries. -/
def empty : HashRing H N := ⟨[], .nil⟩

/-- The entries from the first at or after a hash, round to the one before it. -/
def walk (r : HashRing H N) (h : H) : List (H × N) :=
  r.nodes.filter (fun x => h ≤ x.1) ++ r.nodes.filter (fun x => x.1 < h)

/-- The value that serves a hash. -/
def find (r : HashRing H N) (h : H) : Option N := (r.walk h).head?.map Prod.snd

/-- The value behind the entry that serves a hash. -/
def next (r : HashRing H N) (h : H) : Option N := ((r.walk h).rotate 1).head?.map Prod.snd

/-- The entry of a hash, if there is one. -/
def get (r : HashRing H N) (h : H) : Option N := (r.nodes.find? fun x => x.1 = h).map Prod.snd

/-- Place an entry in an ordered list; an entry at the same hash stays. -/
def insertNodes (h : H) (n : N) : List (H × N) → List (H × N)
  | [] => [(h, n)]
  | x :: l => if h < x.1 then (h, n) :: x :: l else if h = x.1 then x :: l else x :: insertNodes h n l

/-- The entries after an insertion are the old ones and at most the new one. -/
theorem mem_insertNodes {h : H} {n : N} {l : List (H × N)} {x : H × N} (hx : x ∈ insertNodes h n l) :
    x = (h, n) ∨ x ∈ l := by
  induction l with
  | nil => simpa [insertNodes] using hx
  | cons y l ih =>
    simp only [insertNodes] at hx
    split_ifs at hx
    · simpa using hx
    · exact .inr hx
    · rcases mem_cons.mp hx with rfl | hx
      · exact .inr mem_cons_self
      · exact (ih hx).imp_right (mem_cons_of_mem _)

/-- An insertion keeps the order. -/
theorem sorted_insertNodes (h : H) (n : N) {l : List (H × N)} (hl : l.Pairwise fun x y => x.1 < y.1) :
    (insertNodes h n l).Pairwise fun x y => x.1 < y.1 := by
  induction l with
  | nil => simp [insertNodes]
  | cons y l ih =>
    simp only [insertNodes]
    split_ifs with hlt heq
    · refine pairwise_cons.mpr ⟨fun x hx => ?_, hl⟩
      rcases mem_cons.mp hx with rfl | hx
      · exact hlt
      · exact hlt.trans ((pairwise_cons.mp hl).1 x hx)
    · exact hl
    · refine pairwise_cons.mpr ⟨fun x hx => ?_, ih (pairwise_cons.mp hl).2⟩
      rcases mem_insertNodes hx with rfl | hx
      · exact lt_of_le_of_ne (not_lt.mp hlt) (Ne.symm heq)
      · exact (pairwise_cons.mp hl).1 x hx

/-- Add an entry unless its hash is taken. -/
def insert (r : HashRing H N) (h : H) (n : N) : HashRing H N := ⟨insertNodes h n r.nodes, sorted_insertNodes h n r.sorted⟩

/-- Drop the entry at a hash. -/
def erase (r : HashRing H N) (h : H) : HashRing H N :=
  ⟨r.nodes.filter fun x => x.1 ≠ h, r.sorted.filter _⟩

/-- The first `rep` different values met from the entry that serves a hash. -/
def responsible [DecidableEq N] (r : HashRing H N) (h : H) (rep : ℕ) : List N :=
  ((r.walk h).map Prod.snd).eraseDups.take rep

/-- The search for `rep` different values ends: there is nothing to search, or the ring has that many. -/
def Ends [DecidableEq N] (r : HashRing H N) (h : H) (rep : ℕ) : Prop :=
  r.nodes = [] ∨ (r.responsible h rep).length = rep

instance [DecidableEq N] (r : HashRing H N) (h : H) (rep : ℕ) : Decidable (r.Ends h rep) :=
  decidable_of_iff (r.nodes.isEmpty = true ∨ (r.responsible h rep).length = rep) (by simp [Ends])

/-- An inserted entry is the new one or was there before. -/
theorem mem_insert {r : HashRing H N} {h : H} {n : N} {x : H × N} (hx : x ∈ (r.insert h n).nodes) :
    x = (h, n) ∨ x ∈ r.nodes := mem_insertNodes hx

/-- A list keeps the entry it has at a hash. -/
theorem insertNodes_insertNodes (h : H) (n n' : N) (l : List (H × N)) :
    insertNodes h n' (insertNodes h n l) = insertNodes h n l := by
  induction l with
  | nil => simp [insertNodes]
  | cons x l ih =>
    by_cases hlt : h < x.1
    · simp [insertNodes, hlt]
    · by_cases heq : h = x.1
      · simp [insertNodes, heq]
      · simp [insertNodes, hlt, heq, ih]

variable {α : Type*} {l : List α}

omit [LinearOrder H] in
/-- A change that does nothing the second time counts once. -/
theorem foldl_idempotent {β : Type*} {f : β → β} (hf : ∀ b, f (f b) = f b) (b : β) (hl : l ≠ []) :
    l.foldl (fun b _ => f b) b = f b := by
  cases l with
  | nil => exact absurd rfl hl
  | cons a l =>
    clear hl
    rw [foldl_cons]
    induction l with
    | nil => rfl
    | cons a' l ih => rw [foldl_cons, hf, ih]

/-- Entries at one hash count once. -/
theorem foldl_insert_same (r : HashRing H N) (h : H) (n : N) (hl : l ≠ []) :
    l.foldl (fun r _ => r.insert h n) r = r.insert h n :=
  foldl_idempotent (fun r => by simp only [insert, insertNodes_insertNodes]) r hl

/-- So do removals at one hash. -/
theorem foldl_erase_same (r : HashRing H N) (h : H) (hl : l ≠ []) :
    l.foldl (fun r _ => r.erase h) r = r.erase h :=
  foldl_idempotent (fun r => by simp only [erase, filter_filter, Bool.and_self]) r hl

section Responsible

variable [DecidableEq N] {r : HashRing H N} {h : H} {n : N} {a b : ℕ}

omit [LinearOrder H] in
/-- The first occurrences in a list have no repetition. -/
theorem nodup_eraseDups (l : List N) : l.eraseDups.Nodup := by
  induction hlen : l.length using Nat.strong_induction_on generalizing l with
  | _ len ih =>
    cases l with
    | nil => simp
    | cons x l =>
      have hlt : (l.filter fun y => !y == x).length < len := by
        rw [← hlen]
        exact Nat.lt_succ_of_le (length_filter_le _ _)
      rw [eraseDups_cons, nodup_cons]
      refine ⟨?_, ih _ hlt _ rfl⟩
      rw [mem_eraseDups]
      simp

/-- The responsible values have no repetition. -/
theorem nodup_responsible : (r.responsible h a).Nodup := (nodup_eraseDups _).sublist (take_sublist _ _)

/-- A larger factor keeps the responsible values. -/
theorem mem_responsible_mono (hab : a ≤ b) (hn : n ∈ r.responsible h a) : n ∈ r.responsible h b :=
  (take_sublist_take_left hab).mem hn

/-- If a factor can be reached, so can every smaller one. -/
theorem length_responsible_of_le (hb : (r.responsible h b).length = b) (hab : a ≤ b) :
    (r.responsible h a).length = a := by
  simp only [responsible, length_take] at hb ⊢
  omega

/-- With one value, the responsible one is the one that serves the hash. -/
theorem responsible_one : r.responsible h 1 = (r.find h).toList := by
  unfold responsible find
  cases hw : r.walk h with
  | nil => simp
  | cons x l => simp [eraseDups_cons]

/-- The value that serves a hash is the responsible one. -/
theorem mem_responsible_one : n ∈ r.responsible h 1 ↔ r.find h = some n := by
  rw [responsible_one, Option.mem_toList]

/-- The value that serves a hash is responsible under every positive factor. -/
theorem mem_responsible_of_find (hn : r.find h = some n) (ha : 1 ≤ a) : n ∈ r.responsible h a :=
  mem_responsible_mono ha (mem_responsible_one.mpr hn)

/-- A ring without entries makes no value responsible. -/
theorem responsible_empty : (empty : HashRing H N).responsible h a = [] := by
  simp [responsible, walk, empty]

/-- Responsible values are in the ring. -/
theorem mem_of_mem_responsible (hn : n ∈ r.responsible h a) : n ∈ r.nodes.map Prod.snd := by
  have hmem := mem_eraseDups.mp (mem_of_mem_take hn)
  obtain ⟨x, hx, rfl⟩ := mem_map.mp hmem
  rcases mem_append.mp hx with hx | hx
  · exact mem_map_of_mem (mem_of_mem_filter hx)
  · exact mem_map_of_mem (mem_of_mem_filter hx)

end Responsible

section Walks

/-- The entries before a hash come first in the ring. -/
theorem nodes_eq (r : HashRing H N) (h : H) :
    r.nodes = r.nodes.filter (fun x => x.1 < h) ++ r.nodes.filter (fun x => h ≤ x.1) := by
  obtain ⟨nodes, hsorted⟩ := r
  change nodes = nodes.filter (fun x => x.1 < h) ++ nodes.filter (fun x => h ≤ x.1)
  induction nodes with
  | nil => rfl
  | cons x l ih =>
    obtain ⟨hx, hl⟩ := pairwise_cons.mp hsorted
    by_cases hlt : x.1 < h
    · have hnot : ¬h ≤ x.1 := not_le.mpr hlt
      simp only [filter_cons, hlt, hnot, decide_true, decide_false, if_true, Bool.false_eq_true, if_false,
        cons_append, ← ih hl]
    · -- all later entries are at or after the hash too
      have hle : h ≤ x.1 := not_lt.mp hlt
      have hall : ∀ y ∈ l, h ≤ y.1 := fun y hy => hle.trans (hx y hy).le
      have hnone : l.filter (fun y => y.1 < h) = [] :=
        filter_eq_nil_iff.mpr fun y hy => by simpa using hall y hy
      have hsame : l.filter (fun y => h ≤ y.1) = l :=
        filter_eq_self.mpr fun y hy => by simpa using hall y hy
      simp [hlt, hle, hnone, hsame]

/-- The walk from an entry of the ring. -/
theorem walk_of_nodes {r : HashRing H N} {x : H × N} {l₁ l₂ : List (H × N)} (hr : r.nodes = l₁ ++ x :: l₂) :
    r.walk x.1 = x :: (l₂ ++ l₁) := by
  have hsorted := r.sorted
  rw [hr, pairwise_append] at hsorted
  obtain ⟨-, hright, hleft⟩ := hsorted
  have hlater : ∀ y ∈ l₂, x.1 < y.1 := (pairwise_cons.mp hright).1
  have hbefore : ∀ y ∈ l₁, y.1 < x.1 := fun y hy => hleft y hy x mem_cons_self
  have hle : (l₁ ++ x :: l₂).filter (fun y => x.1 ≤ y.1) = x :: l₂ := by
    rw [filter_append, filter_eq_nil_iff.mpr fun y hy => by simpa using hbefore y hy, nil_append]
    refine filter_eq_self.mpr fun y hy => ?_
    rcases mem_cons.mp hy with rfl | hy
    · simp
    · simpa using (hlater y hy).le
  have hlt : (l₁ ++ x :: l₂).filter (fun y => y.1 < x.1) = l₁ := by
    rw [filter_append, filter_eq_self.mpr fun y hy => by simpa using hbefore y hy]
    have hnil : (x :: l₂).filter (fun y => y.1 < x.1) = [] := by
      refine filter_eq_nil_iff.mpr fun y hy => ?_
      rcases mem_cons.mp hy with rfl | hy
      · simp
      · simpa using (hlater y hy).le
    rw [hnil, append_nil]
  rw [walk, hr, hle, hlt, cons_append]

/-- Walks from two entries are rotations of each other. -/
theorem walk_of_walk {r : HashRing H N} {h : H} {x : H × N} {l₁ l₂ : List (H × N)} (hw : r.walk h = l₁ ++ x :: l₂) :
    r.walk x.1 = x :: (l₂ ++ l₁) := by
  have hnodes := r.nodes_eq h
  rw [walk] at hw
  set after := r.nodes.filter (fun x => h ≤ x.1)
  set before := r.nodes.filter (fun x => x.1 < h)
  rcases append_eq_append_iff.mp hw with ⟨mid, hl₁, hmid⟩ | ⟨mid, hafter, hmid⟩
  · -- the entry is before the hash
    rw [hmid, append_assoc, cons_append] at hnodes
    rw [walk_of_nodes hnodes, hl₁, append_assoc]
  · cases mid with
    | nil =>
      rw [append_nil] at hafter
      rw [nil_append] at hmid
      rw [← hmid, hafter, ← nil_append (x :: l₂), append_assoc, cons_append] at hnodes
      rw [walk_of_nodes hnodes, append_nil]
    | cons y mid =>
      obtain ⟨rfl, hl₂⟩ := List.cons.inj hmid
      rw [hafter, ← append_assoc] at hnodes
      rw [walk_of_nodes hnodes, hl₂]
      exact congrArg (x :: ·) (append_assoc _ _ _).symm

omit [LinearOrder H] in
/-- Where a list that begins with values outside a predicate first meets it. -/
theorem exists_boundary {α : Type*} {p : α → Bool} {l : List α} {z : α} (hhead : ∀ y ∈ l.head?, p y = false)
    (hz : (l.filter p).head? = some z) : ∃ l₁ y l₂, l = l₁ ++ y :: z :: l₂ ∧ p y = false := by
  induction l with
  | nil => simp at hz
  | cons y l ih =>
    have hy : p y = false := hhead y rfl
    rw [filter_cons_of_neg (by simp [hy])] at hz
    cases l with
    | nil => simp at hz
    | cons y' l =>
      by_cases hy' : p y' = true
      · rw [filter_cons_of_pos hy', List.head?_cons] at hz
        cases hz
        exact ⟨[], y, l, rfl, hy⟩
      · obtain ⟨l₁, x, l₂, heq, hx⟩ := ih (by simpa using hy') hz
        exact ⟨y :: l₁, x, l₂, by rw [heq, cons_append], hx⟩

end Walks

section Insert

variable [DecidableEq N] {r : HashRing H N} {n : N}

/-- An insertion keeps the entries of other values. -/
theorem filter_insertNodes (h : H) (l : List (H × N)) :
    (insertNodes h n l).filter (fun x => x.2 ≠ n) = l.filter fun x => x.2 ≠ n := by
  induction l with
  | nil => simp [insertNodes]
  | cons x l ih =>
    simp only [insertNodes]
    split_ifs
    · simp
    · rfl
    · simp only [filter_cons, ih]

/-- Insert a value at several hashes. -/
def insertAll (r : HashRing H N) (hs : List H) (n : N) : HashRing H N := hs.foldl (fun r h => r.insert h n) r

/-- Insertions keep the entries of other values. -/
theorem filter_insertAll (hs : List H) (r : HashRing H N) :
    (r.insertAll hs n).nodes.filter (fun x => x.2 ≠ n) = r.nodes.filter fun x => x.2 ≠ n := by
  induction hs generalizing r with
  | nil => rfl
  | cons h hs ih => exact (ih (r.insert h n)).trans (filter_insertNodes h r.nodes)

variable {hs : List H} {h : H}

omit [DecidableEq N] in
/-- The new entries have the value and are at the hashes. -/
theorem mem_insertAll {r : HashRing H N} {x : H × N} (hx : x ∈ (r.insertAll hs n).nodes) :
    x ∈ r.nodes ∨ (x.1 ∈ hs ∧ x.2 = n) := by
  induction hs generalizing r with
  | nil => exact .inl hx
  | cons h hs ih =>
    rcases ih hx with hx | hx
    · rcases mem_insert hx with rfl | hx
      · exact .inr ⟨mem_cons_self, rfl⟩
      · exact .inl hx
    · exact .inr ⟨mem_cons_of_mem _ hx.1, hx.2⟩

omit [DecidableEq N] in
/-- Entries that are there stay. -/
theorem mem_insertAll_of_mem {r : HashRing H N} {x : H × N} (hx : x ∈ r.nodes) :
    x ∈ (r.insertAll hs n).nodes := by
  have hinsert : ∀ (h : H) (l : List (H × N)), x ∈ l → x ∈ insertNodes h n l := fun h l hl => by
    induction l with
    | nil => cases hl
    | cons y l ih =>
      simp only [insertNodes]
      split_ifs
      · exact mem_cons_of_mem _ hl
      · exact hl
      · rcases mem_cons.mp hl with rfl | hl
        · exact mem_cons_self
        · exact mem_cons_of_mem _ (ih hl)
  induction hs generalizing r with
  | nil => exact hx
  | cons h hs ih => exact ih (hinsert h r.nodes hx)

omit [DecidableEq N] in
/-- Every hash at which a value was inserted has an entry. -/
theorem exists_mem_insertAll (hh : h ∈ hs) : ∃ x ∈ (r.insertAll hs n).nodes, x.1 = h := by
  have hinsert : ∀ l : List (H × N), ∃ x ∈ insertNodes h n l, x.1 = h := fun l => by
    induction l with
    | nil => exact ⟨(h, n), mem_singleton_self _, rfl⟩
    | cons y l ih =>
      simp only [insertNodes]
      split_ifs with hlt heq
      · exact ⟨(h, n), mem_cons_self, rfl⟩
      · exact ⟨y, mem_cons_self, heq.symm⟩
      · obtain ⟨x, hx, hxh⟩ := ih
        exact ⟨x, mem_cons_of_mem _ hx, hxh⟩
  induction hs generalizing r with
  | nil => cases hh
  | cons h' hs ih =>
    rcases mem_cons.mp hh with rfl | hh
    · obtain ⟨x, hx, hxh⟩ := hinsert r.nodes
      exact ⟨x, mem_insertAll_of_mem (r := r.insert h n) hx, hxh⟩
    · exact ih (r := r.insert h' n) hh

/-- The walk before the insertion of a new value leaves out its entries. -/
theorem walk_eq_filter_insertAll (hs : List H) (h : H) (hfresh : ∀ x ∈ r.nodes, x.2 ≠ n) :
    r.walk h = ((r.insertAll hs n).walk h).filter fun x => x.2 ≠ n := by
  have hnodes : r.nodes = (r.insertAll hs n).nodes.filter fun x => x.2 ≠ n := by
    rw [filter_insertAll, filter_eq_self.mpr fun x hx => by simpa using hfresh x hx]
  simp only [walk, hnodes, filter_append, filter_filter, Bool.and_comm]

/-- After the insertion of a new value a hash is served as before or by the new value. -/
theorem find_insertAll {m : N} (hfresh : ∀ x ∈ r.nodes, x.2 ≠ n) (hold : r.find h = some m) :
    (r.insertAll hs n).find h = some m ∨ (r.insertAll hs n).find h = some n := by
  unfold find at hold ⊢
  rw [walk_eq_filter_insertAll hs h hfresh] at hold
  cases hw : (r.insertAll hs n).walk h with
  | nil => simp [hw] at hold
  | cons x l =>
    by_cases hx : x.2 = n
    · exact .inr (by simp [hx])
    · rw [hw, filter_cons_of_pos (by simpa using hx)] at hold
      exact .inl hold

/-- If a new value takes over a hash, the value that had it comes right after one of the new entries. -/
theorem next_of_find_insertAll {m : N} (hfresh : ∀ x ∈ r.nodes, x.2 ≠ n)
    (hold : r.find h = some m) (hnew : (r.insertAll hs n).find h = some n) :
    ∃ h' ∈ hs, (r.insertAll hs n).next h' = some m := by
  have hwalk := walk_eq_filter_insertAll hs h hfresh
  set r' := r.insertAll hs n
  obtain ⟨z, hz, rfl⟩ := Option.map_eq_some_iff.mp hold
  obtain ⟨l₁, y, l₂, hsplit, hy⟩ : ∃ l₁ y l₂, r'.walk h = l₁ ++ y :: z :: l₂ ∧ decide (y.2 ≠ n) = false := by
    refine exists_boundary (fun y hy => ?_) (hwalk ▸ hz)
    obtain ⟨y', hy', hn⟩ := Option.map_eq_some_iff.mp hnew
    obtain rfl : y' = y := Option.some.inj (hy'.symm.trans hy)
    simp [hn]
  have hy : y.2 = n := by simpa using hy
  have hmem : y ∈ r'.nodes := by
    have hin : y ∈ r'.walk h := by simp [hsplit]
    rcases mem_append.mp hin with hin | hin
    · exact mem_of_mem_filter hin
    · exact mem_of_mem_filter hin
  refine ⟨y.1, ((mem_insertAll hmem).resolve_left fun hin => hfresh y hin hy).1, ?_⟩
  rw [next, walk_of_walk hsplit, cons_append, rotate_cons_succ, rotate_zero]
  rfl

end Insert

section Entries

variable {r r' : HashRing H N} {n : N} {h : H} {x : H × N}

/-- An insertion at a free hash adds an entry. -/
theorem mem_insert_iff (hfree : ∀ y ∈ r.nodes, y.1 ≠ h) : x ∈ (r.insert h n).nodes ↔ x = (h, n) ∨ x ∈ r.nodes := by
  refine ⟨mem_insert, fun hx => ?_⟩
  change x ∈ insertNodes h n r.nodes
  revert hfree hx
  generalize r.nodes = l
  intro hfree hx
  induction l with
  | nil => simpa [insertNodes] using hx
  | cons y l ih =>
    simp only [insertNodes]
    have hne : h ≠ y.1 := (hfree y mem_cons_self).symm
    split_ifs
    · exact mem_cons.mpr hx
    · rcases hx with rfl | hx
      · exact mem_cons_of_mem _ (ih (fun z hz => hfree z (mem_cons_of_mem _ hz)) (.inl rfl))
      · rcases mem_cons.mp hx with rfl | hx
        · exact mem_cons_self
        · exact mem_cons_of_mem _ (ih (fun z hz => hfree z (mem_cons_of_mem _ hz)) (.inr hx))

/-- Insertions at different free hashes add entries. -/
theorem mem_insertAll_iff {hs : List H} (hnodup : hs.Nodup) (hfree : ∀ y ∈ r.nodes, y.1 ∉ hs) :
    x ∈ (r.insertAll hs n).nodes ↔ (x.1 ∈ hs ∧ x.2 = n) ∨ x ∈ r.nodes := by
  induction hs generalizing r with
  | nil => simp [insertAll]
  | cons h hs ih =>
    obtain ⟨hh, hnodup⟩ := nodup_cons.mp hnodup
    have hfree_h : ∀ y ∈ r.nodes, y.1 ≠ h := fun y hy heq => hfree y hy (heq ▸ mem_cons_self)
    have hfree_hs : ∀ y ∈ (r.insert h n).nodes, y.1 ∉ hs := fun y hy hin => by
      rcases mem_insert hy with rfl | hy
      · exact hh hin
      · exact hfree y hy (mem_cons_of_mem _ hin)
    change x ∈ ((r.insert h n).insertAll hs n).nodes ↔ _
    rw [ih hnodup hfree_hs, mem_insert_iff hfree_h, mem_cons]
    constructor
    · rintro (⟨hx, hn⟩ | rfl | hx)
      · exact .inl ⟨.inr hx, hn⟩
      · exact .inl ⟨.inl rfl, rfl⟩
      · exact .inr hx
    · rintro (⟨hx | hx, hn⟩ | hx)
      · exact .inr (.inl (Prod.ext hx hn))
      · exact .inl ⟨hx, hn⟩
      · exact .inr (.inr hx)

/-- Drop the entries at several hashes. -/
def eraseAll (r : HashRing H N) (hs : List H) : HashRing H N := hs.foldl erase r

/-- The entries that are left after a removal. -/
theorem mem_eraseAll {hs : List H} : x ∈ (r.eraseAll hs).nodes ↔ x ∈ r.nodes ∧ x.1 ∉ hs := by
  induction hs generalizing r with
  | nil => simp [eraseAll]
  | cons h hs ih =>
    change x ∈ ((r.erase h).eraseAll hs).nodes ↔ _
    rw [ih, erase, mem_filter, mem_cons, not_or, and_assoc]
    simp

/-- No entry occurs twice. -/
theorem nodup_nodes (r : HashRing H N) : r.nodes.Nodup :=
  r.sorted.imp fun hlt heq => absurd (congrArg Prod.fst heq) hlt.ne

/-- A ring is determined by its entries. -/
theorem ext_of_mem (hmem : ∀ x, x ∈ r.nodes ↔ x ∈ r'.nodes) : r = r' := by
  obtain ⟨l, hl⟩ := r
  obtain ⟨l', hl'⟩ := r'
  have hperm : l.Perm l' := (perm_ext_iff_of_nodup (nodup_nodes ⟨l, hl⟩) (nodup_nodes ⟨l', hl'⟩)).mpr hmem
  have heq : l = l' := hperm.eq_of_pairwise (fun a b _ _ hab hba => absurd hba hab.asymm) hl hl'
  subst heq
  rfl

end Entries

/-- A ring with other values at the same hashes. -/
def mapValues {M : Type*} (f : N → M) (r : HashRing H N) : HashRing H M :=
  ⟨r.nodes.map (Prod.map id f), r.sorted.map _ fun _ _ hlt => hlt⟩

/-- An insertion does not look at the values. -/
theorem mapValues_insert {M : Type*} (f : N → M) (r : HashRing H N) (h : H) (n : N) :
    (r.insert h n).mapValues f = (r.mapValues f).insert h (f n) := by
  have hnodes : ∀ l : List (H × N),
      (insertNodes h n l).map (Prod.map id f) = insertNodes h (f n) (l.map (Prod.map id f)) := fun l => by
    induction l with
    | nil => rfl
    | cons x l ih =>
      simp only [insertNodes, map_cons, Prod.map_fst, id]
      split_ifs
      · rfl
      · rfl
      · rw [map_cons, ih]
  simp only [mapValues, insert, hnodes]

end HashRing

end Dinomo
