import Mathlib.Logic.Basic

/-!
# Runs of partial transition functions

A system is given by a function `step : S → E → Option S`: an event that is not enabled in a state
has no successor.  A run is the left-to-right execution of a list of events.  Properties of every
run are proved once per step and lifted here, either for all runs or for the runs whose events each
meet a condition on the state in which they occur.
-/

namespace Transition

variable {S E : Type*}

/-- Execute a list of events from a state. -/
def run (step : S → E → Option S) : S → List E → Option S
  | s, [] => some s
  | s, e :: es =>
    match step s e with
    | none => none
    | some s' => run step s' es

/-- Every event of the list meets `ok` in the state in which it is executed. -/
def Guarded (step : S → E → Option S) (ok : S → E → Prop) : S → List E → Prop
  | _, [] => True
  | s, e :: es =>
    ok s e ∧
      match step s e with
      | none => True
      | some s' => Guarded step ok s' es

instance instDecidableGuarded (step : S → E → Option S) (ok : S → E → Prop)
    [∀ s e, Decidable (ok s e)] : ∀ s es, Decidable (Guarded step ok s es)
  | _, [] => .isTrue trivial
  | s, e :: es =>
    match h : step s e with
    | none => decidable_of_iff (ok s e) (by simp [Guarded, h])
    | some s' =>
      have := instDecidableGuarded step ok s' es
      decidable_of_iff (ok s e ∧ Guarded step ok s' es) (by simp [Guarded, h])

variable {step : S → E → Option S} {s s' : S} {es : List E} {P : S → Prop} {ok : S → E → Prop}

/-- Unfold the first event of a run. -/
theorem run_cons_eq_some {s'' : S} {e : E} :
    run step s (e :: es) = some s'' ↔ ∃ s', step s e = some s' ∧ run step s' es = some s'' := by
  cases h : step s e <;> simp [run, h]

/-- A run of a concatenation is a run of the first part followed by a run of the second. -/
theorem run_append_eq_some {s'' : S} {es' : List E} :
    run step s (es ++ es') = some s'' ↔ ∃ s', run step s es = some s' ∧ run step s' es' = some s'' := by
  induction es generalizing s with
  | nil => simp [run]
  | cons e es ih =>
    simp only [List.cons_append, run_cons_eq_some, ih]
    constructor
    · rintro ⟨s₁, h₁, s₂, h₂, h₃⟩
      exact ⟨s₂, ⟨s₁, h₁, h₂⟩, h₃⟩
    · rintro ⟨s₂, ⟨s₁, h₁, h₂⟩, h₃⟩
      exact ⟨s₁, h₁, s₂, h₂, h₃⟩

/-- A property kept by every step holds after every run. -/
theorem invariant
    (hrun : run step s es = some s') (hinit : P s) (hstep : ∀ s e s', P s → step s e = some s' → P s') :
    P s' := by
  induction es generalizing s with
  | nil =>
    simp only [run, Option.some.injEq] at hrun
    exact hrun ▸ hinit
  | cons e es ih =>
    obtain ⟨s₁, h₁, hrest⟩ := run_cons_eq_some.mp hrun
    exact ih hrest (hstep s e s₁ hinit h₁)

/-- A property kept by every guarded step holds after every guarded run. -/
theorem invariant_of_guarded
    (hstep : ∀ s e s', P s → ok s e → step s e = some s' → P s')
    (hinit : P s) (hrun : run step s es = some s') (hok : Guarded step ok s es) : P s' := by
  induction es generalizing s with
  | nil =>
    simp only [run, Option.some.injEq] at hrun
    exact hrun ▸ hinit
  | cons e es ih =>
    obtain ⟨s₁, h₁, hrest⟩ := run_cons_eq_some.mp hrun
    simp only [Guarded, h₁] at hok
    exact ih (hstep s e s₁ hinit hok.1 h₁) hrest hok.2

/-- Where every guarded step is enabled and keeps a property, every guarded run is and does. -/
theorem exists_run_of_guarded
    (hstep : ∀ s e, P s → ok s e → ∃ s', step s e = some s' ∧ P s')
    (hinit : P s) (hok : Guarded step ok s es) : ∃ s', run step s es = some s' ∧ P s' := by
  induction es generalizing s with
  | nil => exact ⟨s, rfl, hinit⟩
  | cons e es ih =>
    obtain ⟨s₁, h₁, hs₁⟩ := hstep s e hinit hok.1
    have hrest := hok.2
    simp only [h₁] at hrest
    obtain ⟨s₂, h₂, hs₂⟩ := ih hs₁ hrest
    exact ⟨s₂, run_cons_eq_some.mpr ⟨s₁, h₁, h₂⟩, hs₂⟩

/-- Where every step is enabled and keeps a property, every run is and does. -/
theorem exists_run
    (hstep : ∀ s e, P s → ∃ s', step s e = some s' ∧ P s') (hinit : P s) (es : List E) :
    ∃ s', run step s es = some s' ∧ P s' := by
  induction es generalizing s with
  | nil => exact ⟨s, rfl, hinit⟩
  | cons e es ih =>
    obtain ⟨s₁, h₁, hs₁⟩ := hstep s e hinit
    obtain ⟨s₂, h₂, hs₂⟩ := ih hs₁
    exact ⟨s₂, run_cons_eq_some.mpr ⟨s₁, h₁, h₂⟩, hs₂⟩

/-- Systems whose steps are related have related runs. -/
theorem run_rel {T : Type*} {step' : T → E → Option T} {R : S → T → Prop} {ok : E → Prop}
    (hstep : ∀ s t e, R s t → ok e → Option.Rel R (step s e) (step' t e)) {t : T}
    (h : R s t) (hok : ∀ e ∈ es, ok e) : Option.Rel R (run step s es) (run step' t es) := by
  induction es generalizing s t with
  | nil => exact .some h
  | cons e es ih =>
    have hrel := hstep s t e h (hok e List.mem_cons_self)
    simp only [run]
    cases hs : step s e <;> cases ht : step' t e <;> rw [hs, ht] at hrel
    · exact .none
    · cases hrel
    · cases hrel
    · obtain hR := Option.rel_some_some.mp hrel
      exact ih hR fun e he => hok e (List.mem_cons_of_mem _ he)

/-- A guard that always holds guards every run. -/
theorem guarded_of_forall (h : ∀ s e, ok s e) (s : S) (es : List E) :
    Guarded step ok s es := by
  induction es generalizing s with
  | nil => trivial
  | cons e es ih =>
    refine ⟨h s e, ?_⟩
    cases step s e with
    | none => trivial
    | some s' => exact ih s'

/-- What holds of every event may be added to a guard. -/
theorem Guarded.and_forall {P : E → Prop}
    (hP : ∀ e ∈ es, P e) (hok : Guarded step ok s es) : Guarded step (fun s e => P e ∧ ok s e) s es := by
  induction es generalizing s with
  | nil => trivial
  | cons e es ih =>
    refine ⟨⟨hP e List.mem_cons_self, hok.1⟩, ?_⟩
    have hrest := hok.2
    cases hs : step s e with
    | none => trivial
    | some s' =>
      rw [hs] at hrest
      exact ih (fun e he => hP e (List.mem_cons_of_mem _ he)) hrest

/-- A guard may be replaced by a weaker one. -/
theorem Guarded.mono {ok' : S → E → Prop}
    (h : ∀ s e, ok s e → ok' s e) (hok : Guarded step ok s es) :
    Guarded step ok' s es := by
  induction es generalizing s with
  | nil => trivial
  | cons e es ih =>
    refine ⟨h s e hok.1, ?_⟩
    have hrest := hok.2
    cases hs : step s e with
    | none => trivial
    | some s' =>
      rw [hs] at hrest
      exact ih hrest

/-- Where every step pays for its cost out of a potential, a run costs no more than the potential it starts with
and the gains it makes on the way. -/
theorem countP_le_of_potential {Φ : S → Nat}
    {c g : E → Bool}
    (hstep : ∀ s e s', P s → ok s e → step s e = some s' → P s' ∧ Φ s' + (c e).toNat ≤ Φ s + (g e).toNat)
    (hinit : P s) (hrun : run step s es = some s') (hok : Guarded step ok s es) :
    es.countP c + Φ s' ≤ Φ s + es.countP g := by
  induction es generalizing s with
  | nil =>
    simp only [run, Option.some.injEq] at hrun
    simp [hrun]
  | cons e es ih =>
    obtain ⟨s₁, h₁, hrest⟩ := run_cons_eq_some.mp hrun
    simp only [Guarded, h₁] at hok
    obtain ⟨hP, hpay⟩ := hstep s e s₁ hinit hok.1 h₁
    have hind := ih hP hrest hok.2
    rw [List.countP_cons, List.countP_cons]
    cases hc : c e <;> cases hg : g e <;> simp only [hc, hg, Bool.toNat_true, Bool.toNat_false] at hpay <;>
      simp <;> omega

/-- Where some step can always be taken, there are runs of any length. -/
theorem exists_run_of_length {q : E → Prop}
    (hstep : ∀ s, P s → ∃ e s', q e ∧ ok s e ∧ step s e = some s' ∧ P s') (n : Nat) (hinit : P s) :
    ∃ es s', es.length = n ∧ (∀ e ∈ es, q e) ∧ Guarded step ok s es ∧ run step s es = some s' := by
  induction n generalizing s with
  | zero => exact ⟨[], s, rfl, nofun, trivial, rfl⟩
  | succ n ih =>
    obtain ⟨e, s₁, hq, hok, h₁, hP⟩ := hstep s hinit
    obtain ⟨es, s₂, hlen, hall, hgd, hrun⟩ := ih hP
    refine ⟨e :: es, s₂, by simp [hlen], ?_, ?_, run_cons_eq_some.mpr ⟨s₁, h₁, hrun⟩⟩
    · exact List.forall_mem_cons.mpr ⟨hq, hall⟩
    · simp only [Guarded, h₁]
      exact ⟨hok, hgd⟩

end Transition
