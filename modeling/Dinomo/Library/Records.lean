import Mathlib.Data.List.Basic
import Mathlib.Algebra.BigOperators.Group.List.Basic
import Mathlib.Tactic.Common
import Mathlib.Algebra.GroupWithZero.Nat

/-!
# Records laid out end to end

A buffer of variable-sized records, each of which stores the offset at which it starts.  The layout
predicate says that the stored offsets are the true ones.  Records are then found by offset, and the
part of a buffer at or after a record boundary is read off record by record.
-/

namespace Records

open List

variable {α : Type*} (size offset : α → ℕ)

/-- The number of bytes a list of records takes. -/
def extent (l : List α) : ℕ := (l.map size).sum

/-- The stored offsets of the records are their positions, counted from `start`. -/
def LaidOut : ℕ → List α → Prop
  | _, [] => True
  | start, a :: l => offset a = start ∧ LaidOut (start + size a) l

/-- The offset is one at which a record starts, or the end of the buffer. -/
def Boundary (l : List α) (off : ℕ) : Prop :=
  off = extent size l ∨ ∃ a ∈ l, offset a = off

/-- The records that start in a range of offsets. -/
def between (l : List α) (a b : ℕ) : List α := l.filter (fun x => a ≤ offset x ∧ offset x < b)

/-- The records that start at or after an offset. -/
def suffixFrom (l : List α) (off : ℕ) : List α := l.filter (fun a => off ≤ offset a)

variable {size offset}

@[simp] theorem extent_nil : extent size ([] : List α) = 0 := rfl

@[simp] theorem extent_cons (a : α) (l : List α) : extent size (a :: l) = size a + extent size l := by
  simp [extent]

@[simp] theorem extent_append (l l' : List α) :
    extent size (l ++ l') = extent size l + extent size l' := by
  simp [extent]

variable {l : List α} {start off : ℕ} {a : α}

/-- A concatenation is laid out when its parts are, one after the other. -/
theorem laidOut_append {l' : List α} :
    LaidOut size offset start (l ++ l') ↔
      LaidOut size offset start l ∧ LaidOut size offset (start + extent size l) l' := by
  induction l generalizing start with
  | nil => simp [LaidOut]
  | cons a l ih => simp [LaidOut, ih, and_assoc, Nat.add_assoc]

/-- Every record lies inside the extent of its buffer. -/
theorem LaidOut.bounds (h : LaidOut size offset start l)
    (ha : a ∈ l) : start ≤ offset a ∧ offset a + size a ≤ start + extent size l := by
  induction l generalizing start with
  | nil => cases ha
  | cons b l ih =>
    rw [extent_cons]
    rcases mem_cons.mp ha with rfl | ha
    · have := h.1
      omega
    · have := ih h.2 ha
      omega

/-- Two records of a buffer with the same offset are the same record. -/
theorem LaidOut.eq_of_offset (hpos : ∀ a, 0 < size a)
    (h : LaidOut size offset start l) {b : α} (ha : a ∈ l) (hb : b ∈ l)
    (heq : offset a = offset b) : a = b := by
  induction l generalizing start with
  | nil => cases ha
  | cons c l ih =>
    rcases mem_cons.mp ha with rfl | ha' <;> rcases mem_cons.mp hb with rfl | hb'
    · rfl
    · have h₁ := h.1
      have h₂ := (h.2.bounds hb').1
      have := hpos a
      omega
    · have h₁ := h.1
      have h₂ := (h.2.bounds ha').1
      have := hpos b
      omega
    · exact ih h.2 ha' hb'

/-- The records of a laid-out buffer are pairwise different. -/
theorem LaidOut.nodup (hpos : ∀ a, 0 < size a)
    (h : LaidOut size offset start l) : l.Nodup := by
  induction l generalizing start with
  | nil => exact nodup_nil
  | cons a l ih =>
    refine nodup_cons.mpr ⟨fun ha => ?_, ih h.2⟩
    have h₁ := h.1
    have h₂ := (h.2.bounds ha).1
    have := hpos a
    omega

/-- Looking a record up by its offset finds it. -/
theorem LaidOut.find_offset (hpos : ∀ a, 0 < size a)
    (h : LaidOut size offset start l) (ha : a ∈ l) :
    l.find? (fun b => offset b = offset a) = some a := by
  cases hf : l.find? (fun b => offset b = offset a) with
  | none =>
    have := List.find?_eq_none.mp hf a ha
    simp at this
  | some b =>
    have hb := mem_of_find?_eq_some hf
    have hoff := List.find?_some hf
    simp only [decide_eq_true_eq] at hoff
    rw [h.eq_of_offset hpos hb ha hoff]

/-- No record starts at the end of a buffer or later. -/
theorem LaidOut.suffixFrom_extent (hpos : ∀ a, 0 < size a)
    (h : LaidOut size offset start l) (hoff : start + extent size l ≤ off) :
    suffixFrom offset l off = [] := by
  refine filter_eq_nil_iff.mpr fun a ha => ?_
  have h₁ := (h.bounds ha).2
  have := hpos a
  simp only [decide_eq_true_eq]
  omega

/-- From the start of a buffer on, every record is met. -/
theorem LaidOut.suffixFrom_start
    (h : LaidOut size offset start l) (hoff : off ≤ start) : suffixFrom offset l off = l := by
  refine filter_eq_self.mpr fun a ha => ?_
  have := (h.bounds ha).1
  simp only [decide_eq_true_eq]
  omega

/-- Behind the first part of a buffer only the second part is met. -/
theorem LaidOut.suffixFrom_append (hpos : ∀ a, 0 < size a) {u : List α}
    (h : LaidOut size offset 0 (l ++ u)) : suffixFrom offset (l ++ u) (extent size l) = u := by
  obtain ⟨hl, hu⟩ := laidOut_append.mp h
  have h₁ : suffixFrom offset l (extent size l) = [] := hl.suffixFrom_extent hpos (by omega)
  have h₂ : suffixFrom offset u (extent size l) = u := hu.suffixFrom_start (by omega)
  simp only [suffixFrom] at h₁ h₂ ⊢
  rw [filter_append, h₁, h₂, nil_append]

/-- Records take space, so only the empty list of records takes none. -/
theorem eq_nil_of_extent (hpos : ∀ a, 0 < size a) (h : extent size l = 0) : l = [] := by
  cases l with
  | nil => rfl
  | cons a l =>
    have := hpos a
    rw [extent_cons] at h
    omega

/-- Below the end of the buffer a boundary is the start of a record. -/
theorem Boundary.exists_mem (h : Boundary size offset l off)
    (hlt : off < extent size l) : ∃ a ∈ l, offset a = off := by
  rcases h with h | h
  · omega
  · exact h

/-- The end of a record is a boundary. -/
theorem LaidOut.boundary_next (h : LaidOut size offset start l) (ha : a ∈ l) :
    offset a + size a = start + extent size l ∨ ∃ b ∈ l, offset b = offset a + size a := by
  induction l generalizing start with
  | nil => cases ha
  | cons b l ih =>
    rw [extent_cons]
    rcases mem_cons.mp ha with rfl | ha'
    · cases l with
      | nil =>
        left
        rw [h.1]
        simp
      | cons c l =>
        right
        exact ⟨c, by simp, by rw [h.2.1, h.1]⟩
    · rcases ih h.2 ha' with h' | ⟨c, hc, hoff⟩
      · left
        omega
      · exact Or.inr ⟨c, mem_cons_of_mem _ hc, hoff⟩

/-- The end of a record is a boundary of a buffer laid out from zero. -/
theorem LaidOut.boundary_after (h : LaidOut size offset 0 l) (ha : a ∈ l) :
    Boundary size offset l (offset a + size a) := by
  simpa [Boundary] using h.boundary_next ha

/-- A record ends before the next one starts. -/
theorem LaidOut.end_le (h : LaidOut size offset start l) {b : α} (ha : a ∈ l)
    (hb : b ∈ l) (hlt : offset a < offset b) : offset a + size a ≤ offset b := by
  induction l generalizing start with
  | nil => cases ha
  | cons c l ih =>
    rcases mem_cons.mp ha with rfl | ha' <;> rcases mem_cons.mp hb with rfl | hb'
    · omega
    · have h₁ := h.1
      have h₂ := (h.2.bounds hb').1
      omega
    · have h₁ := h.1
      have h₂ := (h.2.bounds ha').1
      omega
    · exact ih h.2 ha' hb'

/-- A range is its first part followed by its second. -/
theorem LaidOut.between_append {a b c : ℕ} (h : LaidOut size offset start l) (hab : a ≤ b)
    (hbc : b ≤ c) : between offset l a c = between offset l a b ++ between offset l b c := by
  induction l generalizing start with
  | nil => rfl
  | cons x l ih =>
    have hrest := ih h.2
    unfold between at hrest ⊢
    by_cases hx : offset x < b
    · by_cases ha : a ≤ offset x
      · rw [filter_cons_of_pos (by simp; omega), filter_cons_of_pos (by simp; omega),
          filter_cons_of_neg (by simp; omega), hrest, cons_append]
      · rw [filter_cons_of_neg (by simp; omega), filter_cons_of_neg (by simp; omega),
          filter_cons_of_neg (by simp; omega), hrest]
    · -- the records are ordered, so nothing behind this one lies in the first part
      have hnil : l.filter (fun y => a ≤ offset y ∧ offset y < b) = [] := by
        refine filter_eq_nil_iff.mpr fun y hy => ?_
        have := (h.2.bounds hy).1
        have := h.1
        simp only [decide_eq_true_eq]
        omega
      have hnil' : (x :: l).filter (fun y => a ≤ offset y ∧ offset y < b) = [] := by
        rw [filter_cons_of_neg (by simp; omega), hnil]
      rw [hnil, nil_append] at hrest
      rw [hnil', nil_append]
      by_cases hc : offset x < c
      · rw [filter_cons_of_pos (by simp; omega), filter_cons_of_pos (by simp; omega), hrest]
      · rw [filter_cons_of_neg (by simp; omega), filter_cons_of_neg (by simp; omega), hrest]

/-- Only one record starts within the bytes of a record. -/
theorem LaidOut.between_self (hpos : ∀ a, 0 < size a)
    (h : LaidOut size offset start l) {x : α} (hx : x ∈ l) :
    between offset l (offset x) (offset x + size x) = [x] := by
  have hp := hpos x
  induction l generalizing start with
  | nil => cases hx
  | cons y l ih =>
    unfold between at ih ⊢
    have hy := h.1
    rcases mem_cons.mp hx with rfl | hx'
    · have hnil : l.filter (fun y => offset x ≤ offset y ∧ offset y < offset x + size x) = [] := by
        refine filter_eq_nil_iff.mpr fun y hy' => ?_
        have := (h.2.bounds hy').1
        simp only [decide_eq_true_eq]
        omega
      rw [filter_cons_of_pos (by simp; omega), hnil]
    · have := (h.2.bounds hx').1
      have := hpos y
      rw [filter_cons_of_neg (by simp; omega)]
      exact ih h.2 hx'

/-- A range that starts at a record is that record and the rest of the range behind it. -/
theorem LaidOut.between_cons (hpos : ∀ a, 0 < size a) {c : ℕ}
    (h : LaidOut size offset start l) {x : α} (hx : x ∈ l) (hc : offset x + size x ≤ c) :
    between offset l (offset x) c = x :: between offset l (offset x + size x) c := by
  rw [h.between_append (Nat.le_add_right _ _) hc, h.between_self hpos hx, singleton_append]

/-- A range that ends behind all records is what starts at or after its beginning. -/
theorem LaidOut.between_extent (hpos : ∀ a, 0 < size a) (h : LaidOut size offset 0 l) (a : ℕ) :
    between offset l a (extent size l) = suffixFrom offset l a := by
  refine filter_congr fun x hx => ?_
  have := (h.bounds hx).2
  have := hpos x
  simp only [decide_eq_decide]
  omega

/-- A record that starts before a boundary ends before it. -/
theorem Boundary.end_le (h : Boundary size offset l off) (hl : LaidOut size offset 0 l) (ha : a ∈ l)
    (hlt : offset a < off) : offset a + size a ≤ off := by
  rcases h with h | ⟨b, hb, rfl⟩
  · have := (hl.bounds ha).2
    omega
  · exact hl.end_le ha hb hlt

/-- Appending records at the end keeps the boundaries. -/
theorem Boundary.append {u : List α} (h : Boundary size offset l off)
    (hl : LaidOut size offset 0 (l ++ u)) : Boundary size offset (l ++ u) off := by
  rcases h with h | ⟨b, hb, hoff⟩
  · cases u with
    | nil => exact Or.inl (by simpa using h)
    | cons a u =>
      have ha := (laidOut_append.mp hl).2.1
      exact Or.inr ⟨a, by simp, by omega⟩
  · exact Or.inr ⟨b, by simp [hb], hoff⟩

/-- Boundaries do not lie behind the end of the buffer. -/
theorem Boundary.le_extent (hl : LaidOut size offset 0 l)
    (h : Boundary size offset l off) : off ≤ extent size l := by
  rcases h with h | ⟨a, ha, hoff⟩
  · omega
  · have := (hl.bounds ha).2
    omega

/-- The records of a first part that start before an offset, and those of the whole that start at or after it, are not
more than the whole. -/
theorem length_between_add_suffixFrom_le {l' : List α} (h : l' <+: l) (a b : ℕ) :
    (between offset l' a b).length + (suffixFrom offset l b).length ≤ l.length := by
  have hsub : (between offset l' a b).length ≤ (between offset l a b).length := (h.sublist.filter _).length_le
  refine Nat.le_trans (Nat.add_le_add_right hsub _) ?_
  clear hsub h
  unfold between suffixFrom
  induction l with
  | nil => simp
  | cons x l ih =>
    simp only [filter_cons, decide_eq_true_eq, length_cons]
    split_ifs <;> first | omega | (simp only [length_cons]; omega)

end Records
