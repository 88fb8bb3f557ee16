import Mathlib.Algebra.Order.GroupWithZero.Canonical
import Mathlib.Data.DFinsupp.Order
import Mathlib.Data.Finset.Lattice.Basic
import Mathlib.Order.Lattice.Nat
import Dinomo.Library.CausalMerge

/-!
# The causal lattices

`SingleKeyCausalLattice` and `MultiKeyCausalLattice` keep a vector clock, a value and for the latter the dependencies of
the value on other keys.  A merge joins the clocks, takes the incoming content if the joined clock is the incoming one,
keeps its own if it is unchanged, and joins the contents otherwise.  The content is any lattice.
-/

namespace Dinomo

open CausalMerge

/-- `MapLattice`: a finite map, where absent keys have the value `0`. -/
abbrev MapLattice (K V : Type*) := Π₀ _ : K, WithZero V

namespace MapLattice

variable {K V : Type*} [DecidableEq K] [SemilatticeSup V]

/-- `insert_pair`: a value is merged with the one that is there, if any. -/
def insertPair (m : MapLattice K V) (k : K) (v : V) : MapLattice K V := m.update k (m k ⊔ v)

/-- `do_merge`: the pairs of the other map are inserted in turn. -/
def doMerge (m : MapLattice K V) (pairs : List (K × V)) : MapLattice K V :=
  pairs.foldl (fun m x => m.insertPair x.1 x.2) m

/-- The upper bounds of a map with one more pair. -/
theorem insertPair_le {m w : MapLattice K V} {k : K} {v : V} : m.insertPair k v ≤ w ↔ m ≤ w ∧ v ≤ w k := by
  constructor
  · intro h
    have hk : m k ⊔ v ≤ w k := by simpa [insertPair] using h k
    refine ⟨fun j => ?_, le_sup_right.trans hk⟩
    by_cases hj : j = k
    · exact hj ▸ le_sup_left.trans hk
    · simpa [insertPair, hj] using h j
  · rintro ⟨hm, hv⟩ j
    by_cases hj : j = k
    · subst hj
      simpa [insertPair] using ⟨hm j, hv⟩
    · simpa [insertPair, hj] using hm j

/-- The upper bounds of a merge. -/
theorem doMerge_le {m w : MapLattice K V} {pairs : List (K × V)} :
    m.doMerge pairs ≤ w ↔ m ≤ w ∧ ∀ x ∈ pairs, x.2 ≤ w x.1 := by
  induction pairs generalizing m with
  | nil => simp [doMerge]
  | cons x pairs ih =>
    rw [doMerge, List.foldl_cons, ← doMerge, ih, insertPair_le, List.forall_mem_cons, and_assoc]

end MapLattice

/-- `VectorClock`. -/
abbrev VectorClock := MapLattice String ℕ

/-- `VectorClockValuePair`. -/
structure VectorClockValuePair (T : Type*) where
  vectorClock : VectorClock
  value : T

/-- `MultiKeyCausalPayload`. -/
structure MultiKeyCausalPayload (T : Type*) where
  vectorClock : VectorClock
  dependencies : MapLattice String VectorClock
  value : T

open MultiKeyCausalPayload

section Merges

variable {T : Type*} [SemilatticeSup T] [OrderBot T]

/-- `SingleKeyCausalLattice::do_merge`. -/
def SingleKeyCausalLattice.doMerge (element p : VectorClockValuePair T) : VectorClockValuePair T :=
  let vectorClock := element.vectorClock ⊔ p.vectorClock
  if vectorClock = p.vectorClock then ⟨vectorClock, p.value⟩
  else if vectorClock ≠ element.vectorClock then ⟨vectorClock, element.value ⊔ p.value⟩
  else ⟨vectorClock, element.value⟩

/-- `MultiKeyCausalLattice::do_merge`. -/
def MultiKeyCausalLattice.doMerge (element p : MultiKeyCausalPayload T) : MultiKeyCausalPayload T :=
  let vectorClock := element.vectorClock ⊔ p.vectorClock
  if vectorClock = p.vectorClock then ⟨vectorClock, p.dependencies, p.value⟩
  else if vectorClock ≠ element.vectorClock then
    ⟨vectorClock, element.dependencies ⊔ p.dependencies, element.value ⊔ p.value⟩
  else ⟨vectorClock, element.dependencies, element.value⟩

/-- Payloads are merged into an empty `SingleKeyCausalLattice`. -/
def SingleKeyCausalLattice.mergeAll (l : List (VectorClockValuePair T)) : VectorClockValuePair T := l.foldl doMerge ⟨⊥, ⊥⟩

/-- Payloads are merged into an empty `MultiKeyCausalLattice`. -/
def MultiKeyCausalLattice.mergeAll (l : List (MultiKeyCausalPayload T)) : MultiKeyCausalPayload T :=
  l.foldl doMerge ⟨⊥, ⊥, ⊥⟩

/-- Merges of the payloads in any order and with any repetitions end alike. -/
def SingleKeyCausalLattice.Converges (P : List (VectorClockValuePair T)) : Prop :=
  ∀ l l', (∀ p, p ∈ l ↔ p ∈ P) → (∀ p, p ∈ l' ↔ p ∈ P) → mergeAll l = mergeAll l'

/-- Merges of the payloads in any order and with any repetitions end alike. -/
def MultiKeyCausalLattice.Converges (P : List (MultiKeyCausalPayload T)) : Prop :=
  ∀ l l', (∀ p, p ∈ l ↔ p ∈ P) → (∀ p, p ∈ l' ↔ p ∈ P) → mergeAll l = mergeAll l'

/-- A payload as a version: its content is the value. -/
def VectorClockValuePair.version : VectorClockValuePair T ≃ VectorClock × T where
  toFun p := (p.vectorClock, p.value)
  invFun x := ⟨x.1, x.2⟩
  left_inv _ := rfl
  right_inv _ := rfl

/-- A payload as a version: its content has the dependencies and the value. -/
def MultiKeyCausalPayload.version : MultiKeyCausalPayload T ≃ VectorClock × (MapLattice String VectorClock × T) where
  toFun p := (p.vectorClock, p.dependencies, p.value)
  invFun x := ⟨x.1, x.2.1, x.2.2⟩
  left_inv _ := rfl
  right_inv _ := rfl

omit [OrderBot T] in
/-- A merge of payloads is a merge of versions. -/
theorem SingleKeyCausalLattice.version_doMerge (e p : VectorClockValuePair T) :
    VectorClockValuePair.version (doMerge e p) =
      merge (VectorClockValuePair.version e) (VectorClockValuePair.version p) := by
  by_cases hp : e.vectorClock ⊔ p.vectorClock = p.vectorClock
  · simp [doMerge, merge, VectorClockValuePair.version, hp]
  · by_cases he : e.vectorClock ⊔ p.vectorClock = e.vectorClock
    · have hne : e.vectorClock ≠ p.vectorClock := fun heq => hp (he.trans heq)
      simp [doMerge, merge, VectorClockValuePair.version, he, hne]
    · simp [doMerge, merge, VectorClockValuePair.version, hp, he]

omit [OrderBot T] in
/-- A merge of payloads is a merge of versions. -/
theorem MultiKeyCausalLattice.version_doMerge (e p : MultiKeyCausalPayload T) :
    version (doMerge e p) =
      merge (version e) (version p) := by
  by_cases hp : e.vectorClock ⊔ p.vectorClock = p.vectorClock
  · simp [doMerge, merge, version, hp]
  · by_cases he : e.vectorClock ⊔ p.vectorClock = e.vectorClock
    · have hne : e.vectorClock ≠ p.vectorClock := fun heq => hp (he.trans heq)
      simp [doMerge, merge, version, he, hne]
    · simp [doMerge, merge, version, hp, he]

/-- Payloads whose versions exceed every bound on contents after all orders of merges or after none. -/
def OrderFree {S : Type*} [SemilatticeSup S] (P : List (VectorClock × S)) : Prop :=
  ∀ u, CausalMerge.Exceeds u P ∨ CausalMerge.Within u P

/-- For both lattices, merges of the same payloads in any order and with any repetitions give the same clock, value and
dependencies exactly if the payloads are order-free. -/
theorem causal_lattices_converge_iff :
    (∀ P : List (VectorClockValuePair T), SingleKeyCausalLattice.Converges P ↔
      OrderFree (P.map VectorClockValuePair.version)) ∧
    ∀ P : List (MultiKeyCausalPayload T), MultiKeyCausalLattice.Converges P ↔
      OrderFree (P.map MultiKeyCausalPayload.version) := by
  refine ⟨fun P => ?_, fun P => ?_⟩
  · exact (CausalMerge.converges_map_iff _ SingleKeyCausalLattice.version_doMerge rfl P).trans
      (CausalMerge.converges_iff _)
  · exact (CausalMerge.converges_map_iff _ MultiKeyCausalLattice.version_doMerge rfl P).trans
      (CausalMerge.converges_iff _)

end Merges

section Orders

/-- A clock with one entry. -/
def clockAt (id : String) (n : ℕ) : VectorClock := (⊥ : VectorClock).insertPair id n

/-- Two versions of one writer, and a concurrent one of another. -/
def forked (id : String) (n : ℕ) (x : String) : VectorClockValuePair (Finset String) := ⟨clockAt id n, {x}⟩

/-- The same with dependencies on another key. -/
def forkedWith (id : String) (n : ℕ) (x : String) : MultiKeyCausalPayload (Finset String) :=
  ⟨clockAt id n, (⊥ : MapLattice String VectorClock).insertPair x (clockAt id n), {x}⟩

/-- Values and dependencies of payloads merged in two orders. -/
theorem merged_values :
    (SingleKeyCausalLattice.mergeAll [forked "A" 1 "x", forked "B" 1 "y", forked "A" 2 "w"]).value = {"x", "y", "w"} ∧
    (SingleKeyCausalLattice.mergeAll [forked "A" 1 "x", forked "A" 2 "w", forked "B" 1 "y"]).value = {"y", "w"} ∧
    (MultiKeyCausalLattice.mergeAll
      [forkedWith "A" 1 "x", forkedWith "B" 1 "y", forkedWith "A" 2 "w"]).value = {"x", "y", "w"} ∧
    (MultiKeyCausalLattice.mergeAll
      [forkedWith "A" 1 "x", forkedWith "A" 2 "w", forkedWith "B" 1 "y"]).value = {"y", "w"} := by
  decide +kernel

/-- A value that was overwritten stays if a concurrent version comes between it and the version that overwrites it. -/
theorem overwritten_value_stays :
    (SingleKeyCausalLattice.mergeAll [forked "A" 1 "x", forked "B" 1 "y", forked "A" 2 "w"]).value = {"x", "y", "w"} ∧
    (SingleKeyCausalLattice.mergeAll [forked "A" 1 "x", forked "A" 2 "w", forked "B" 1 "y"]).value = {"y", "w"} ∧
    ¬SingleKeyCausalLattice.Converges [forked "A" 1 "x", forked "B" 1 "y", forked "A" 2 "w"] ∧
    ¬MultiKeyCausalLattice.Converges [forkedWith "A" 1 "x", forkedWith "B" 1 "y", forkedWith "A" 2 "w"] := by
  obtain ⟨h₁, h₂, h₃, h₄⟩ := merged_values
  have hne : ({"x", "y", "w"} : Finset String) ≠ {"y", "w"} := by decide
  refine ⟨h₁, h₂, fun h => hne ?_, fun h => hne ?_⟩
  · rw [← h₁, ← h₂]
    exact congrArg _ (h _ _ (fun _ => .rfl) fun p => by simp only [List.mem_cons]; tauto)
  · rw [← h₃, ← h₄]
    exact congrArg _ (h _ _ (fun _ => .rfl) fun p => by simp only [List.mem_cons]; tauto)

end Orders

end Dinomo
