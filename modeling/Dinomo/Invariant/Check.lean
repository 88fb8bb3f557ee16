import Dinomo.Invariant.Step

/-!
# Checking that a run is orderly

The condition under which a step keeps the invariant speaks about all blocks of a log.  On a given
state it can be computed: a log is read from its slot, with as many steps as blocks were allocated.
-/

namespace Dinomo

variable {Tid V : Type*} [DecidableEq Tid] [Fintype Tid] {st : Storage Tid V} {s : Cluster Tid V}

/-- Reading the log of a thread from its slot finds the end and does not meet the block. -/
def Storage.notLinked (st : Storage Tid V) (t : Tid) (a : Addr) : Bool :=
  match Chain.collect (fun b => (st.mem b).next) (st.allocated.length + 1) (st.logMappingTable t) with
  | some l => a ∉ l
  | none => false

omit [DecidableEq Tid] [Fintype Tid] in
/-- A block that is not met is not linked. -/
theorem Storage.not_linked_of_notLinked {t : Tid} {a : Addr} (h : st.notLinked t a) : ¬ st.Linked t a := by
  unfold notLinked at h
  split at h
  · rename_i l hl
    intro hr
    exact of_decide_eq_true h ((Chain.isChain_of_collect hl).reaches_iff.mp hr)
  · cases h

/-- No pass but that of `t` is about to compare the block. -/
def Storage.notCompared (st : Storage Tid V) (t : Tid) (a : Addr) : Bool :=
  decide (∀ t', t' ≠ t → (st.progressTable t').bind Pass.check ≠ some a)

/-- No other pass compares the block. -/
theorem Storage.check_ne_of_notCompared {t : Tid} {a : Addr} (h : st.notCompared t a) :
    ∀ t' p', t' ≠ t → st.progressTable t' = some p' → p'.check ≠ some a := by
  intro t' p' ht' hp' hc
  refine of_decide_eq_true h t' ht' ?_
  rw [hp', Option.bind_some, hc]

instance (b : LogBlock V) : Decidable b.lastValid :=
  inferInstanceAs (Decidable (b.validCounter = b.localInvalidCounter + b.globalInvalidCounter + 1))

/-- Check that the next oplog of a pass supersedes safely. -/
def Storage.checkSupersedes (st : Storage Tid V) (t : Tid) : Bool :=
  match st.progressTable t with
  | none => true
  | some p =>
    match (st.nextOplog p).bind st.superseded with
    | none => true
    | some (.indirect _) => false
    | some (.oplog q) => !(st.mem q.block).lastValid ||
        ((q.block == p.next || decide (∀ t', t' ≠ t → st.notLinked t' q.block)) && st.notCompared t q.block)

/-- The check is sound. -/
theorem Storage.supersedesSafely_of_check {t : Tid} (h : st.checkSupersedes t) : st.SupersedesSafely t := by
  intro p o v hp ho hv
  simp only [checkSupersedes, hp, ho, Option.bind_some, hv] at h
  cases v with
  | indirect c => cases h
  | oplog q =>
    refine ⟨q, rfl, fun hlast => ?_⟩
    simp only [hlast, decide_true, Bool.not_true, Bool.false_or, Bool.and_eq_true, Bool.or_eq_true,
      beq_iff_eq, decide_eq_true_eq] at h
    exact ⟨h.1.imp_right fun hl t' ht' => not_linked_of_notLinked (hl t' ht'), check_ne_of_notCompared h.2⟩

/-- Check that an event is orderly. -/
def Cluster.checkOrderly (s : Cluster Tid V) : Event Tid V → Bool
  | .invoke _ (.write w) => w.key != 0
  | .invoke _ (.swap k _) => k != 0
  | .invoke _ (.putReplicated k _ _ _ _) => k != 0
  | .advance t =>
    match (s.kn t).ctl with
    | .putReplicated w .find => ((s.kn t).indirectPointerCache w.key).isSome || (s.st.ht.get w.key).isSome
    | .putReplicated w (.cas c expected) =>
      s.st.cells c != expected || s.st.ht.get w.key == some (.indirect c)
    | .putReplicated _ .syncValid => (s.kn t).replicatedAllocNumEntries !=
        (s.st.mem (s.kn t).replicatedAlloc).localInvalidCounter +
          (s.st.mem (s.kn t).replicatedAlloc).globalInvalidCounter
    | .putReplicated _ (.faa _ (some (.oplog p)) _) => !(s.st.mem p.block).lastValid ||
        decide (∀ t', (s.st.progressTable t').bind Pass.check ≠ some p.block)
    | _ => true
  | .install t _ =>
    match (s.kn t).ctl with
    | .install k =>
      match s.st.ht.get k with
      | some (.oplog _) => true
      | _ => false
    | _ => true
  | .passStep t => s.st.checkSupersedes t
  | _ => true

/-- The check is sound. -/
theorem Cluster.orderly_of_check {e : Event Tid V} (h : s.checkOrderly e) : s.Orderly e := by
  cases e with
  | invoke t c => cases c <;> first | trivial | exact bne_iff_ne.mp h
  | advance t =>
    simp only [checkOrderly, Orderly] at h ⊢
    split
    · rename_i w hctl
      simp only [hctl, Bool.or_eq_true] at h
      exact h.imp Option.isSome_iff_ne_none.mp Option.isSome_iff_ne_none.mp
    · rename_i w c expected hctl
      simp only [hctl, Bool.or_eq_true, bne_iff_ne, beq_iff_eq] at h
      exact fun hx => h.resolve_left (not_not_intro hx)
    · rename_i w hctl
      simp only [hctl, bne_iff_ne] at h
      exact fun hx => absurd hx h
    · rename_i w c p off hctl
      simp only [hctl, Bool.or_eq_true, Bool.not_eq_true', decide_eq_false_iff_not, decide_eq_true_eq] at h
      intro hlast
      have hnone : ∀ t' p', s.st.progressTable t' = some p' → p'.check ≠ some p.block := by
        intro t' p' hp' hc
        refine h.resolve_left (not_not_intro hlast) t' ?_
        rw [hp', Option.bind_some, hc]
      refine ⟨fun t₁ _ p₁ _ h₁ _ hc => absurd hc (hnone t₁ p₁ h₁), ?_⟩
      rintro ⟨t', p', hp', hc⟩
      exact absurd hc (hnone t' p' hp')
    · trivial
  | install t c =>
    intro k hctl
    simp only [checkOrderly, hctl] at h
    split at h
    · rename_i p hp
      exact ⟨p, hp⟩
    · cases h
  | passStep t => exact Storage.supersedesSafely_of_check h
  | _ => trivial

/-- A run whose events pass the check is orderly. -/
theorem Cluster.guarded_of_check {cfg : Config} {es : List (Event Tid V)}
    (h : Transition.Guarded (step cfg) (fun s e => s.checkOrderly e = true) s es) :
    Transition.Guarded (step cfg) Orderly s es := h.mono fun _ _ => orderly_of_check

end Dinomo
