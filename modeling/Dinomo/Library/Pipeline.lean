import Mathlib.Data.List.Basic
import Mathlib.Logic.Function.Basic
import Dinomo.Library.Transition

/-!
# Staged, published and applied operations

Writers stage operations, publish what they have staged, and a reader of the published operations
applies them to a shared index, oldest first.  Clients are told that their operations succeeded, in
the order the operations were staged; a durable pipeline tells them only about published operations.

A pipeline records all operations, so the two laws of such a system are equations between lists:
what a writer has staged is what was applied, then what is published, then what is not; and it is
what was acknowledged followed by what is held back.
-/

/-- The operations of each writer `T`, by how far they have come, and the shared index `I`. -/
structure Pipeline (T E I : Type*) where
  written : T → List E
  unsent : T → List E
  pending : T → List E
  held : T → List E
  acked : T → List E
  applied : List (T × E)
  index : I

namespace Pipeline

open List Transition

/-- What a pipeline can do.  `adjust` is a change of the index that no staged operation causes. -/
inductive Label (T E I : Type*)
  | stage (t : T) (e : E)
  | publish (t : T)
  | apply (t : T)
  | ack (t : T) (n : ℕ)
  | adjust (f : I → I)

variable {T E I : Type*} [DecidableEq T] {durable : Bool} {app : I → E → I} {s s' : Pipeline T E I}

/-- A pipeline before any operation. -/
def init (i : I) : Pipeline T E I := ⟨fun _ => [], fun _ => [], fun _ => [], fun _ => [], fun _ => [], [], i⟩

/-- The applied operations of one writer. -/
def appliedBy (s : Pipeline T E I) (t : T) : List E :=
  (s.applied.filter fun x => x.1 = t).map Prod.snd

/-- Execute one label. -/
def step (durable : Bool) (app : I → E → I) (s : Pipeline T E I) : Label T E I → Option (Pipeline T E I)
  | .stage t e => some { s with
      written := Function.update s.written t (s.written t ++ [e])
      unsent := Function.update s.unsent t (s.unsent t ++ [e])
      held := Function.update s.held t (s.held t ++ [e]) }
  | .publish t => some { s with
      pending := Function.update s.pending t (s.pending t ++ s.unsent t)
      unsent := Function.update s.unsent t [] }
  | .apply t =>
    match s.pending t with
    | [] => none
    | e :: rest => some { s with
        pending := Function.update s.pending t rest
        applied := s.applied ++ [(t, e)]
        index := app s.index e }
  | .ack t n =>
    if durable = true → (s.unsent t).length ≤ (s.held t).length - n then
      some { s with
        acked := Function.update s.acked t (s.acked t ++ (s.held t).take n)
        held := Function.update s.held t ((s.held t).drop n) }
    else none
  | .adjust f => some { s with index := f s.index }

/-- The laws of a pipeline. -/
structure Sound (durable : Bool) (s : Pipeline T E I) : Prop where
  order : ∀ t, s.written t = s.appliedBy t ++ s.pending t ++ s.unsent t
  acks : ∀ t, s.written t = s.acked t ++ s.held t
  held_le : durable = true → ∀ t, (s.unsent t).length ≤ (s.held t).length

/-- Applying an operation of one writer. -/
theorem appliedBy_append (s : Pipeline T E I) (t t' : T) (e : E) :
    ({ s with applied := s.applied ++ [(t, e)] } : Pipeline T E I).appliedBy t' =
      if t = t' then s.appliedBy t' ++ [e] else s.appliedBy t' := by
  unfold appliedBy
  by_cases h : t = t' <;> simp [filter_append, h]

/-- Every label keeps the laws. -/
theorem Sound.step (h : s.Sound durable) {l : Label T E I} (hs : s.step durable app l = some s') :
    s'.Sound durable := by
  cases l with
  | stage t e =>
    cases hs
    refine ⟨fun t' => ?_, fun t' => ?_, fun hd t' => ?_⟩ <;> by_cases ht : t' = t
    · subst ht
      have := h.order t'
      simp_all [appliedBy]
    · simpa [ht, appliedBy] using h.order t'
    · subst ht
      have := h.acks t'
      simp_all
    · simpa [ht] using h.acks t'
    · subst ht
      simpa using h.held_le hd t'
    · simpa [ht] using h.held_le hd t'
  | publish t =>
    cases hs
    refine ⟨fun t' => ?_, h.acks, fun hd t' => ?_⟩ <;> by_cases ht : t' = t
    · subst ht
      simpa [appliedBy] using h.order t'
    · simpa [ht, appliedBy] using h.order t'
    · simp [ht]
    · simpa [ht] using h.held_le hd t'
  | apply t =>
    simp only [Pipeline.step] at hs
    split at hs
    · cases hs
    · rename_i e rest hp
      cases hs
      refine ⟨fun t' => ?_, h.acks, h.held_le⟩
      have happ : ∀ t', ({ s with
          pending := Function.update s.pending t rest, applied := s.applied ++ [(t, e)]
          index := app s.index e } : Pipeline T E I).appliedBy t' =
            if t = t' then s.appliedBy t' ++ [e] else s.appliedBy t' := fun t' =>
        s.appliedBy_append t t' e
      rw [happ]
      by_cases ht : t' = t
      · subst ht
        simpa [hp] using h.order t'
      · simpa [ht, Ne.symm ht] using h.order t'
  | ack t n =>
    simp only [Pipeline.step] at hs
    split_ifs at hs with hn
    cases hs
    refine ⟨h.order, fun t' => ?_, fun hd t' => ?_⟩ <;> by_cases ht : t' = t
    · subst ht
      simpa using h.acks t'
    · simpa [ht] using h.acks t'
    · subst ht
      simpa using hn hd
    · simpa [ht] using h.held_le hd t'
  | adjust f =>
    cases hs
    exact ⟨h.order, h.acks, h.held_le⟩

/-- Every run keeps the laws. -/
theorem Sound.run (h : s.Sound durable) {ls : List (Label T E I)}
    (hs : run (Pipeline.step durable app) s ls = some s') : s'.Sound durable :=
  invariant hs h fun _ _ _ hx hstep => hx.step hstep

/-- A label that changes the index at most by applying an operation. -/
def Label.Plain : Label T E I → Prop
  | .adjust _ => False
  | _ => True

/-- The writer whose unsent operations a label changes. -/
def Label.moves : Label T E I → Option T
  | .stage t _ => some t
  | .publish t => some t
  | _ => none

/-- The index is what the applied operations make of a first one. -/
def Replayed (app : I → E → I) (i : I) (s : Pipeline T E I) : Prop := s.index = (s.applied.map Prod.snd).foldl app i

/-- Only operations change the index in a run of plain labels. -/
theorem Replayed.run {i : I} (h : s.Replayed app i) {ls : List (Label T E I)} (hls : ∀ l ∈ ls, l.Plain)
    (hs : run (Pipeline.step durable app) s ls = some s') : s'.Replayed app i := by
  induction ls generalizing s with
  | nil =>
    cases hs
    exact h
  | cons l ls ih =>
    obtain ⟨s₁, hstep, hrest⟩ := run_cons_eq_some.mp hs
    refine ih ?_ (fun l' hl' => hls l' (mem_cons_of_mem _ hl')) hrest
    have hplain := hls l mem_cons_self
    cases l with
    | stage t e =>
      cases hstep
      exact h
    | publish t =>
      cases hstep
      exact h
    | apply t =>
      simp only [Pipeline.step] at hstep
      split at hstep
      · cases hstep
      · rename_i e rest _
        cases hstep
        simp only [Replayed, map_append, map_cons, map_nil, foldl_concat] at h ⊢
        rw [h]
    | ack t n =>
      simp only [Pipeline.step] at hstep
      split_ifs at hstep
      cases hstep
      exact h
    | adjust f => exact hplain.elim

/-- The unsent operations of a writer stay in a run of labels of others. -/
theorem unsent_run {t : T} {ls : List (Label T E I)} (hls : ∀ l ∈ ls, l.moves ≠ some t)
    (hs : run (Pipeline.step durable app) s ls = some s') : s'.unsent t = s.unsent t := by
  induction ls generalizing s with
  | nil =>
    cases hs
    rfl
  | cons l ls ih =>
    obtain ⟨s₁, hstep, hrest⟩ := run_cons_eq_some.mp hs
    rw [ih (fun l' hl' => hls l' (mem_cons_of_mem _ hl')) hrest]
    have hmoves := hls l mem_cons_self
    cases l with
    | stage t' e =>
      cases hstep
      exact Function.update_of_ne (fun ht => hmoves (by rw [ht]; rfl)) _ _
    | publish t' =>
      cases hstep
      exact Function.update_of_ne (fun ht => hmoves (by rw [ht]; rfl)) _ _
    | apply t' =>
      simp only [Pipeline.step] at hstep
      split at hstep
      · cases hstep
      · cases hstep
        rfl
    | ack t' n =>
      simp only [Pipeline.step] at hstep
      split_ifs at hstep
      cases hstep
      rfl
    | adjust f =>
      cases hstep
      rfl

/-- Operations are applied in the order they were staged. -/
theorem Sound.appliedBy_prefix (h : s.Sound durable) (t : T) : s.appliedBy t <+: s.written t :=
  ⟨s.pending t ++ s.unsent t, by rw [h.order t, append_assoc]⟩

/-- A durable pipeline acknowledges published operations only. -/
theorem Sound.acked_prefix (h : s.Sound true) (t : T) : s.acked t <+: s.appliedBy t ++ s.pending t := by
  have hacked : s.acked t <+: s.written t := ⟨s.held t, (h.acks t).symm⟩
  have hpublished : s.appliedBy t ++ s.pending t <+: s.written t := ⟨s.unsent t, (h.order t).symm⟩
  refine prefix_of_prefix_length_le hacked hpublished ?_
  have hlen : (s.acked t).length + (s.held t).length =
      (s.appliedBy t ++ s.pending t).length + (s.unsent t).length := by
    rw [← length_append, ← length_append, ← h.acks t, h.order t]
  have := h.held_le rfl t
  omega

end Pipeline
