import Dinomo.Library.RingSearch

/-!
# Iterators of a ring

The entries of a ring are in an ordered map, which is walked with iterators.  `lower_bound` gives the first
entry at or after a hash, the end is behind the last entry, and a walk that comes to the end goes on at the
first entry.  An iterator is the index of its entry here, and the end is the number of entries.
-/

namespace Dinomo.HashRing

open List

section Iterators

variable {H N : Type*} [LinearOrder H] (r : HashRing H N) (h : H)

/-- `lower_bound`. -/
def lowerBound : ℕ := r.nodes.findIdx fun x => h ≤ x.1

/-- The iterator behind another one, with the first entry in place of the end. -/
def advance (i : ℕ) : ℕ := if i + 1 = r.nodes.length then 0 else i + 1

/-- The entry that serves a hash, or the end of a ring without entries. -/
def findIterator : ℕ := if r.lowerBound h = r.nodes.length then 0 else r.lowerBound h

/-- The first entry at or after a hash comes behind all entries before the hash. -/
theorem lowerBound_eq_length : r.lowerBound h = (r.nodes.filter fun x => x.1 < h).length := by
  have hbefore : (r.nodes.filter fun x => x.1 < h).findIdx (fun x => h ≤ x.1) =
      (r.nodes.filter fun x => x.1 < h).length := by
    rw [findIdx_eq_length]
    intro x hx
    simpa using (mem_filter.mp hx).2
  have hafter : (r.nodes.filter fun x => h ≤ x.1).findIdx (fun x => h ≤ x.1) = 0 := by
    cases hl : r.nodes.filter fun x => h ≤ x.1 with
    | nil => rfl
    | cons x l =>
      have hx : x ∈ r.nodes.filter fun x => h ≤ x.1 := by rw [hl]; exact mem_cons_self
      rw [findIdx_cons]
      simp only [(mem_filter.mp hx).2, cond_true]
  rw [lowerBound]
  conv_lhs => rw [r.nodes_eq h]
  rw [findIdx_append, hbefore, hafter, if_neg (lt_irrefl _), Nat.zero_add]

/-- The walk from a hash begins at its lower bound and goes round. -/
theorem walk_eq_drop_append_take :
    r.walk h = r.nodes.drop (r.lowerBound h) ++ r.nodes.take (r.lowerBound h) := by
  have hdrop : r.nodes.drop (r.lowerBound h) = r.nodes.filter fun x => h ≤ x.1 := by
    rw [r.lowerBound_eq_length]
    exact (congrArg (List.drop _) (r.nodes_eq h)).trans drop_left
  have htake : r.nodes.take (r.lowerBound h) = r.nodes.filter fun x => x.1 < h := by
    rw [r.lowerBound_eq_length]
    exact (congrArg (List.take _) (r.nodes_eq h)).trans take_left
  rw [walk, hdrop, htake]

/-- The walk is as long as the ring. -/
theorem length_walk : (r.walk h).length = r.nodes.length := by
  rw [walk_eq_drop_append_take, length_append, length_drop, length_take]
  omega

/-- The lower bound is an entry or the end. -/
theorem lowerBound_le : r.lowerBound h ≤ r.nodes.length := findIdx_le_length

variable {r h}

/-- With an entry at or after the hash the lower bound is an entry. -/
theorem lowerBound_lt {x : H × N} (hx : x ∈ r.nodes) (hle : h ≤ x.1) : r.lowerBound h < r.nodes.length :=
  findIdx_lt_length_of_exists ⟨x, hx, by simpa using hle⟩

/-- The entry that serves a hash is an entry. -/
theorem findIterator_lt (hne : r.nodes ≠ []) : r.findIterator h < r.nodes.length := by
  have hpos : 0 < r.nodes.length := length_pos_iff.mpr hne
  have hle := r.lowerBound_le h
  unfold findIterator
  split_ifs <;> omega

/-- An iterator that goes on is an entry again. -/
theorem advance_lt {i : ℕ} (hi : i < r.nodes.length) : r.advance i < r.nodes.length := by
  unfold advance
  split_ifs <;> omega

/-- The entries of the walk, by the number of steps from the entry that serves the hash. -/
theorem getElem?_walk {j : ℕ} (hj : j < r.nodes.length) :
    (r.walk h)[j]? = r.nodes[(r.findIterator h + j) % r.nodes.length]? := by
  have hle := r.lowerBound_le h
  rw [walk_eq_drop_append_take, List.getElem?_append, length_drop]
  unfold findIterator
  by_cases hend : r.lowerBound h = r.nodes.length
  · rw [if_pos hend, if_neg (by omega), hend, take_length, Nat.zero_add, Nat.mod_eq_of_lt hj]
    congr 1
    omega
  · rw [if_neg hend]
    split_ifs with hlt
    · rw [List.getElem?_drop, Nat.mod_eq_of_lt (by omega)]
    · have hmod : (r.lowerBound h + j) % r.nodes.length = j - (r.nodes.length - r.lowerBound h) := by
        rw [Nat.mod_eq_sub_mod (by omega), Nat.mod_eq_of_lt (by omega)]
        omega
      rw [List.getElem?_take_of_lt (by omega), hmod]

/-- The value that serves a hash is found with the iterator. -/
theorem find_eq_findIterator : r.find h = (r.nodes[r.findIterator h]?).map Prod.snd := by
  by_cases hne : r.nodes = []
  · simp [find, walk, hne]
  · have hpos : 0 < r.nodes.length := length_pos_iff.mpr hne
    have hfirst := getElem?_walk (h := h) hpos
    rw [Nat.add_zero, Nat.mod_eq_of_lt (findIterator_lt hne)] at hfirst
    rw [find, List.head?_eq_getElem?, hfirst]

/-- An iterator that goes on, in numbers. -/
theorem advance_eq_mod {i : ℕ} (hi : i < r.nodes.length) : r.advance i = (i + 1) % r.nodes.length := by
  unfold advance
  split_ifs with hend
  · rw [hend, Nat.mod_self]
  · rw [Nat.mod_eq_of_lt (by omega)]

end Iterators

end Dinomo.HashRing
