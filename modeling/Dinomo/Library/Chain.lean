import Mathlib.Data.List.Nodup
import Mathlib.Logic.Function.Basic

/-!
# Singly linked chains

A chain of nodes given by a successor function on addresses, with `0` as the null address.
`IsChain next a l` says that following `next` from `a` visits exactly the nodes of `l` and ends at
null.  The rules cover what a log does with such a chain: a new node is put in front, and the last
node is cut off.
-/

namespace Chain

/-- Following `next` from `a` visits the nodes of the list in order and then ends. -/
def IsChain (next : ℕ → ℕ) : ℕ → List ℕ → Prop
  | a, [] => a = 0
  | a, b :: l => a = b ∧ b ≠ 0 ∧ IsChain next (next b) l

/-- A node met when following `next`. -/
inductive Reaches (next : ℕ → ℕ) : ℕ → ℕ → Prop
  | here {a : ℕ} : a ≠ 0 → Reaches next a a
  | there {a b : ℕ} : a ≠ 0 → Reaches next (next a) b → Reaches next a b

/-- Collect the nodes met when following `next`, if the end is reached within the fuel. -/
def collect (next : ℕ → ℕ) : ℕ → ℕ → Option (List ℕ)
  | 0, _ => none
  | n + 1, a => if a = 0 then some [] else (collect next n (next a)).map (a :: ·)

variable {next next' : ℕ → ℕ} {a b : ℕ} {l : List ℕ}

/-- The collected nodes are the chain. -/
theorem isChain_of_collect {n : ℕ} (h : collect next n a = some l) : IsChain next a l := by
  induction n generalizing a l with
  | zero => cases h
  | succ n ih =>
    rw [collect] at h
    split_ifs at h with h0
    · cases h
      exact h0
    · obtain ⟨l', hl', rfl⟩ := Option.map_eq_some_iff.mp h
      exact ⟨rfl, h0, ih hl'⟩

/-- The nodes of a chain are the nodes met from its start. -/
theorem IsChain.reaches_iff (h : IsChain next a l) :
    Reaches next a b ↔ b ∈ l := by
  induction l generalizing a with
  | nil =>
    constructor
    · intro hr
      cases hr with
      | here h0 => exact absurd h h0
      | there h0 _ => exact absurd h h0
    · intro hb
      cases hb
  | cons c l ih =>
    obtain ⟨rfl, h0, hrest⟩ := h
    rw [List.mem_cons]
    constructor
    · intro hr
      cases hr with
      | here _ => exact Or.inl rfl
      | there _ hr => exact Or.inr ((ih hrest).mp hr)
    · rintro (rfl | hb)
      · exact .here h0
      · exact .there h0 ((ih hrest).mpr hb)

/-- The nodes of a chain are not null. -/
theorem IsChain.ne_zero (h : IsChain next a l) (hb : b ∈ l) : b ≠ 0 := by
  induction l generalizing a with
  | nil => cases hb
  | cons c l ih =>
    rcases List.mem_cons.mp hb with rfl | hb
    · exact h.2.1
    · exact ih h.2.2 hb

/-- A chain from null has no nodes. -/
theorem IsChain.eq_nil (h : IsChain next a l) (h0 : a = 0) : l = [] := by
  cases l with
  | nil => rfl
  | cons b l => exact absurd (h.1.symm.trans h0) h.2.1

/-- Any other chain goes on from the first of its nodes. -/
theorem IsChain.exists_cons (h : IsChain next a l) (h0 : a ≠ 0) : ∃ l', l = a :: l' ∧ IsChain next (next a) l' := by
  cases l with
  | nil => exact absurd h h0
  | cons b l =>
    obtain ⟨rfl, -, hrest⟩ := h
    exact ⟨l, rfl, hrest⟩

/-- Only the successors of the nodes matter. -/
theorem IsChain.congr (h : IsChain next a l)
    (hnext : ∀ b ∈ l, next' b = next b) : IsChain next' a l := by
  induction l generalizing a with
  | nil => exact h
  | cons b l ih =>
    refine ⟨h.1, h.2.1, ?_⟩
    rw [hnext b (by simp)]
    exact ih h.2.2 fun c hc => hnext c (by simp [hc])

/-- What follows a node is a chain from its successor. -/
theorem IsChain.after {l' : List ℕ} (h : IsChain next a (l ++ b :: l')) :
    IsChain next (next b) l' := by
  induction l generalizing a with
  | nil => exact h.2.2
  | cons c l ih => exact ih h.2.2

/-- Nulling the successor of the last node but one cuts the last node off. -/
theorem IsChain.cut {c : ℕ} (h : IsChain next a (l ++ [b, c]))
    (hnodup : (l ++ [b, c]).Nodup) : IsChain (Function.update next b 0) a (l ++ [b]) := by
  induction l generalizing a with
  | nil =>
    obtain ⟨rfl, h0, _⟩ := h
    exact ⟨rfl, h0, by simp [IsChain]⟩
  | cons d l ih =>
    have hd : d ≠ b := by
      rintro rfl
      simp at hnodup
    refine ⟨h.1, h.2.1, ?_⟩
    rw [Function.update_of_ne hd]
    exact ih h.2.2 (List.nodup_cons.mp hnodup).2

end Chain
