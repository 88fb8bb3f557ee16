import Dinomo.Refinement.Passes

/-!
# A pass run to its end

A pass that takes its steps one after the other ends: it walks to the oldest block, merges the blocks
from the oldest on and unlocks the log.  What it leaves behind is what applying the unmerged oplogs of
its blocks in order leaves behind.
-/

namespace Dinomo

open List

variable {Tid V : Type*} [DecidableEq Tid] {st st' st'' : Storage Tid V} {t : Tid} {p : Pass}

/-- Some steps of the pass over a log. -/
def Storage.passSteps (t : Tid) : ℕ → Storage Tid V → Option (Storage Tid V)
  | 0, st => some st
  | n + 1, st =>
    match st.passStep t with
    | none => none
    | some st' => passSteps t n st'

open Storage

/-- The storage side can get from one state to the other by steps of one pass. -/
def Storage.PassTo (st : Storage Tid V) (t : Tid) (st' : Storage Tid V) : Prop :=
  ∃ n, passSteps t n st = some st'

/-- No step. -/
theorem Storage.PassTo.refl (st : Storage Tid V) (t : Tid) : st.PassTo t st := ⟨0, rfl⟩

/-- One step, then some more. -/
theorem Storage.PassTo.head (hstep : st.passStep t = some st') (h : st'.PassTo t st'') : st.PassTo t st'' := by
  obtain ⟨n, hn⟩ := h
  exact ⟨n + 1, by simp only [passSteps, hstep, hn]⟩

/-- Some steps, then some more. -/
theorem Storage.PassTo.trans (h : st.PassTo t st') (h' : st'.PassTo t st'') : st.PassTo t st'' := by
  obtain ⟨n, hn⟩ := h
  induction n generalizing st with
  | zero =>
    cases hn
    exact h'
  | succ n ih =>
    simp only [passSteps] at hn
    cases hs : st.passStep t with
    | none => simp [hs] at hn
    | some st₁ =>
      simp only [hs] at hn
      exact .head hs (ih hn)

/-- The oplogs of a block from an offset on, up to the published ones. -/
def Storage.unmergedFrom (st : Storage Tid V) (t : Tid) (a : Addr) (off : ℕ) : List (LogEntry Tid V) :=
  (Records.between Oplog.offset (st.mem a).buffer off (st.mem a).offset).map (.ofOplog t a)

/-- The unmerged oplogs of a block that no pass is in. -/
def Storage.unmerged (st : Storage Tid V) (t : Tid) (a : Addr) : List (LogEntry Tid V) :=
  st.unmergedFrom t a (st.mem a).mergedOffset

/-- The index after some entries are applied. -/
def indexAfterAll (ht : Clht IndexVal) (es : List (LogEntry Tid V)) : Clht IndexVal :=
  es.foldl (fun ht e => Storage.indexAfter ht e.ptr e.oplog) ht

/-- A block a pass can merge. -/
structure LogBlock.Mergeable (b : LogBlock V) : Prop where
  aligned : Aligned b.buffer
  offset : AtBoundary b.buffer b.offset
  merged : AtBoundary b.buffer b.mergedOffset
  merged_le : b.mergedOffset ≤ b.offset

/-- What a pass has done while it holds the lock: it applied some entries and finished some blocks. -/
structure Storage.Merges (st st' : Storage Tid V) (t : Tid) (es : List (LogEntry Tid V)) (done : List Addr) :
    Prop where
  ht : st'.ht = indexAfterAll st.ht es
  applied : st'.applied = st.applied ++ es
  cells : st'.cells = st.cells
  slots : st'.logMappingTable = st.logMappingTable
  replies : st'.mergeReply = st.mergeReply ∧ st'.failoverDone = st.failoverDone
  other : ∀ t', t' ≠ t → st'.progressTable t' = st.progressTable t'
  buffer : ∀ a, (st'.mem a).buffer = (st.mem a).buffer
  offset : ∀ a, (st'.mem a).offset = (st.mem a).offset
  merged : ∀ a, a ∉ done → (st'.mem a).mergedOffset = (st.mem a).mergedOffset

namespace Storage.Merges

variable {es es' : List (LogEntry Tid V)} {done done' : List Addr}

/-- Moving the pass. -/
theorem setPass (st : Storage Tid V) (t : Tid) (q : Option Pass) : st.Merges (st.setPass t q) t [] [] :=
  ⟨rfl, (append_nil _).symm, rfl, rfl, ⟨rfl, rfl⟩, fun _ ht => setPass_of_ne ht q, fun _ => rfl,
    fun _ => rfl, fun _ _ => rfl⟩

omit [DecidableEq Tid] in
/-- The header of a block changes, and how far the block is merged if it is finished. -/
theorem modBlock (st : Storage Tid V) (t : Tid) {a : Addr} {f : LogBlock V → LogBlock V}
    (hf : ∀ b, (f b).buffer = b.buffer ∧ (f b).offset = b.offset ∧ (a ∉ done → (f b).mergedOffset = b.mergedOffset)) :
    st.Merges (st.modBlock a f) t [] done := by
  have hmem : ∀ b, (st.modBlock a f).mem b = st.mem b ∨ (b = a ∧ (st.modBlock a f).mem b = f (st.mem b)) := fun b => by
    by_cases hb : b = a
    · exact .inr ⟨hb, by rw [hb, mem_modBlock_self]⟩
    · exact .inl (mem_modBlock_of_ne _ hb _)
  refine ⟨rfl, (append_nil _).symm, rfl, rfl, ⟨rfl, rfl⟩, fun _ _ => rfl, fun b => ?_, fun b => ?_, fun b hb => ?_⟩ <;>
    rcases hmem b with heq | ⟨rfl, heq⟩ <;> rw [heq]
  exacts [(hf _).1, (hf _).2.1, (hf _).2.2 hb]

omit [DecidableEq Tid] in
/-- One part after the other. -/
theorem trans (h : st.Merges st' t es done) (h' : st'.Merges st'' t es' done') :
    st.Merges st'' t (es ++ es') (done ++ done') where
  ht := by rw [h'.ht, h.ht, indexAfterAll, indexAfterAll, indexAfterAll, foldl_append]
  applied := by rw [h'.applied, h.applied, append_assoc]
  cells := h'.cells.trans h.cells
  slots := h'.slots.trans h.slots
  replies := ⟨h'.replies.1.trans h.replies.1, h'.replies.2.trans h.replies.2⟩
  other t' ht := (h'.other t' ht).trans (h.other t' ht)
  buffer a := (h'.buffer a).trans (h.buffer a)
  offset a := (h'.offset a).trans (h.offset a)
  merged a ha := (h'.merged a fun hx => ha (mem_append_right _ hx)).trans
    (h.merged a fun hx => ha (mem_append_left _ hx))

omit [DecidableEq Tid] in
/-- What is left of a block from an offset on. -/
theorem unmergedFrom (h : st.Merges st' t es done) (a : Addr) (off : ℕ) :
    st'.unmergedFrom t a off = st.unmergedFrom t a off := by
  rw [Storage.unmergedFrom, Storage.unmergedFrom, h.buffer, h.offset]

omit [DecidableEq Tid] in
/-- What is left of an untouched block. -/
theorem unmerged (h : st.Merges st' t es done) {a : Addr} (ha : a ∉ done) : st'.unmerged t a = st.unmerged t a := by
  rw [Storage.unmerged, Storage.unmerged, h.unmergedFrom, h.merged a ha]

omit [DecidableEq Tid] in
/-- An untouched block can still be merged. -/
theorem mergeable (h : st.Merges st' t es done) {a : Addr} (ha : a ∉ done) (hm : (st.mem a).Mergeable) :
    (st'.mem a).Mergeable :=
  ⟨h.buffer a ▸ hm.aligned, by rw [h.buffer, h.offset]; exact hm.offset,
    by rw [h.buffer, h.merged a ha]; exact hm.merged, by rw [h.offset, h.merged a ha]; exact hm.merged_le⟩

end Storage.Merges

/-- A pass with a comparison to make makes it. -/
theorem Storage.passTo_check (hp : st.progressTable t = some p) : ∃ st', st.PassTo t st' ∧
    st.Merges st' t [] [] ∧ st'.progressTable t = some { p with check := none } ∧ st'.mem = st.mem := by
  cases hcheck : p.check with
  | none =>
    refine ⟨st, .refl st t, ?_, by rw [hp, ← hcheck], rfl⟩
    exact ⟨rfl, (append_nil _).symm, rfl, rfl, ⟨rfl, rfl⟩, fun _ _ => rfl, fun _ => rfl, fun _ => rfl,
      fun _ _ => rfl⟩
  | some a =>
    refine ⟨(st.reclaim a).setPass t (some { p with check := none }), .head ?_ (.refl _ t), ?_,
      setPass_self _, ?_⟩
    · simp only [passStep, hp, hcheck]
    · unfold reclaim
      split_ifs
      · exact ⟨rfl, (append_nil _).symm, rfl, rfl, ⟨rfl, rfl⟩, fun _ ht => Function.update_of_ne ht _ _,
          fun _ => rfl, fun _ => rfl, fun _ _ => rfl⟩
      · exact .setPass st t _
    · unfold reclaim
      split_ifs <;> rfl

omit [DecidableEq Tid] in
/-- Applying one oplog. -/
theorem Storage.merges_applyOplog (st : Storage Tid V) (t : Tid) (q : Ptr) (o : Oplog V) :
    st.Merges (st.applyOplog t q o) t [⟨t, q, o⟩] [] := by
  have heq := st.applyOplog_eq t q o
  have hdata := st.data_applyOplog t q o
  exact ⟨by rw [heq]; rfl, by rw [heq], by rw [heq], by rw [heq], ⟨by rw [heq], by rw [heq]⟩,
    fun _ _ => by rw [heq], fun a => (hdata a).buffer, fun a => (hdata a).offset, fun a _ => (hdata a).mergedOffset⟩

/-- A pass merges the rest of the block it is in. -/
theorem Storage.passTo_scan (hp : st.progressTable t = some p) (hphase : p.phase = .scan)
    (hm : (st.mem p.next).Mergeable) (hat : AtBoundary (st.mem p.next).buffer p.offset)
    (hle : p.offset ≤ (st.mem p.next).offset) : ∃ st', st.PassTo t st' ∧
      st.Merges st' t (st.unmergedFrom t p.next p.offset) [] ∧
      st'.progressTable t = some { p with offset := (st.mem p.next).offset, check := none } := by
  -- the induction is on the oplogs left in the block
  generalize hes : st.unmergedFrom t p.next p.offset = es
  induction es generalizing st p with
  | nil =>
    obtain ⟨st', hto, hmerges, hpass, -⟩ := passTo_check hp
    refine ⟨st', hto, hmerges, ?_⟩
    have hend : p.offset = (st.mem p.next).offset := by
      by_contra hne
      have hext := Records.Boundary.le_extent hm.aligned hm.offset
      obtain ⟨o, ho, hoff⟩ := Records.Boundary.exists_mem hat (by omega)
      have hnil := map_eq_nil_iff.mp hes
      have : o ∈ Records.between Oplog.offset (st.mem p.next).buffer p.offset (st.mem p.next).offset :=
        mem_filter.mpr ⟨ho, by simp only [decide_eq_true_eq]; omega⟩
      rw [hnil] at this
      cases this
    rw [hpass, ← hend]
  | cons e es ih =>
    obtain ⟨st₁, hto₁, hmerges₁, hpass₁, -⟩ := passTo_check hp
    have hlt : p.offset < (st.mem p.next).offset := by
      by_contra hge
      have hnil : st.unmergedFrom t p.next p.offset = [] := by
        refine map_eq_nil_iff.mpr (filter_eq_nil_iff.mpr fun o _ => ?_)
        simp only [decide_eq_true_eq]
        omega
      rw [hnil] at hes
      cases hes
    have hext := Records.Boundary.le_extent hm.aligned hm.offset
    obtain ⟨o, ho, hoff⟩ := Records.Boundary.exists_mem hat (by omega)
    have hend : p.offset + o.size ≤ (st.mem p.next).offset := by
      rw [← hoff]
      exact Records.Boundary.end_le hm.offset hm.aligned ho (by omega)
    have hcons : st.unmergedFrom t p.next p.offset =
        ⟨t, ⟨p.next, p.offset⟩, o⟩ :: st.unmergedFrom t p.next (p.offset + o.size) := by
      unfold unmergedFrom
      rw [← hoff, hm.aligned.between_cons Oplog.size_pos ho (by rw [hoff]; exact hend)]
      rfl
    obtain ⟨rfl, hes'⟩ := List.cons.inj (hcons.symm.trans hes)
    have hstep : st₁.passStep t = some ((st₁.applyOplog t ⟨p.next, p.offset⟩ o).setPass t
        (some { p with offset := p.offset + o.size, check := st₁.checkAfter p.next o })) := by
      have hentry : (st₁.mem p.next).entryAt p.offset = some o := by
        rw [LogBlock.entryAt, hmerges₁.buffer, ← hoff]
        exact LogBlock.entryAt_of_mem hm.aligned ho
      simp only [passStep, hpass₁, hphase, hmerges₁.offset, hlt, if_true, hentry]
    have hmerges₂ := (hmerges₁.trans (st₁.merges_applyOplog t ⟨p.next, p.offset⟩ o)).trans
      (Merges.setPass _ t (some { p with offset := p.offset + o.size, check := st₁.checkAfter p.next o }))
    simp only [nil_append, append_nil] at hmerges₂
    obtain ⟨st', hto', hmerges', hpass'⟩ := ih
      (p := { p with offset := p.offset + o.size, check := st₁.checkAfter p.next o }) (setPass_self _) hphase
      (hmerges₂.mergeable not_mem_nil hm)
      (by rw [hmerges₂.buffer, ← hoff]; exact hm.aligned.boundary_after ho)
      (by rw [hmerges₂.offset]; exact hend) (by rw [hmerges₂.unmergedFrom]; exact hes')
    refine ⟨st', hto₁.trans (.head hstep hto'), hmerges₂.trans hmerges', ?_⟩
    rw [hpass', hmerges₂.offset]

/-- A pass ends a block: it goes on with the next newer one, or stops. -/
theorem Storage.passTo_finish (hp : st.progressTable t = some p) (hphase : p.phase = .scan)
    (hcheck : p.check = none) (hdone : ¬ p.offset < (st.mem p.next).offset) : ∃ st' q, st.PassTo t st' ∧
      st.Merges st' t [] [p.next] ∧ st'.progressTable t = some q ∧ q = { p with
        phase := if p.prev = 0 ∨ (p.kind = .worker ∧ p.prev = p.first) then .stop else .scan
        next := p.prev
        prev := if p.prev = p.first then 0 else p.workStack.tail.head?.getD 0
        workStack := p.workStack.tail
        offset := (st'.mem p.prev).mergedOffset
        check := if p.next = p.first then none else some p.next } := by
  have hstep : st.passStep t = some (st.finishBlock t p) := by
    simp only [passStep, hp, hcheck, hphase, hdone, if_false]
  refine ⟨st.finishBlock t p, _, .head hstep (.refl _ t), ?_, setPass_self _, rfl⟩
  have hmerged : st.Merges (st.modBlock p.next fun b => { b with mergedOffset := b.offset }) t [] [p.next] :=
    .modBlock st t fun b => ⟨rfl, rfl, fun hx => absurd mem_cons_self hx⟩
  have hcut : ∀ st' : Storage Tid V, st'.Merges (st'.modBlock p.prev fun b => { b with next := 0 }) t [] [] := fun st' =>
    .modBlock st' t fun b => ⟨rfl, rfl, fun _ => rfl⟩
  unfold finishBlock
  split_ifs
  · exact hmerged.trans (.setPass _ t _)
  · exact (hmerged.trans (hcut _)).trans (.setPass _ t _)

/-- A pass in the middle of merging blocks. -/
structure Storage.ScanAt (st : Storage Tid V) (t : Tid) (p : Pass) : Prop where
  pass : st.progressTable t = some p
  phase : p.phase = .scan
  first : (p.workStack.reverse ++ [p.next]).head? = some p.first
  prev : p.prev = p.workStack.head?.getD 0
  worker : p.kind = .worker → p.workStack ≠ []
  nodup : (p.workStack.reverse ++ [p.next]).Nodup
  ne_zero : ∀ a ∈ p.workStack, a ≠ 0
  blocks : ∀ a ∈ p.next :: p.workStack, (st.mem a).Mergeable
  boundary : AtBoundary (st.mem p.next).buffer p.offset
  offset_le : p.offset ≤ (st.mem p.next).offset

/-- The blocks a pass merges after the one it is in: a worker leaves the newest alone. -/
def Pass.blocksLeft (p : Pass) : List Addr := if p.kind = .worker then p.workStack.dropLast else p.workStack

/-- A pass merges the blocks on its work stack and stops. -/
theorem Storage.ScanAt.passTo_stop (h : st.ScanAt t p) : ∃ st' q, st.PassTo t st' ∧
    st.Merges st' t (st.unmergedFrom t p.next p.offset ++ p.blocksLeft.flatMap (st.unmerged t))
      (p.next :: p.blocksLeft) ∧
    st'.progressTable t = some q ∧ q.phase = .stop ∧ q.check = none ∧ q.kind = p.kind := by
  -- the induction is on the work stack
  generalize hws : p.workStack = ws
  induction ws generalizing st p with
  | nil =>
    obtain ⟨st₁, hto₁, hmerges₁, hpass₁⟩ := passTo_scan h.pass h.phase (h.blocks _ mem_cons_self)
      h.boundary h.offset_le
    obtain ⟨st₂, q, hto₂, hmerges₂, hpass₂, hq⟩ := passTo_finish hpass₁ h.phase rfl (by
      rw [hmerges₁.offset]
      exact Nat.lt_irrefl _)
    have hkind : p.kind ≠ .worker := fun hk => h.worker hk hws
    have hprev : p.prev = 0 := by rw [h.prev, hws]; rfl
    have hfirst : p.next = p.first := by simpa [hws] using h.first
    refine ⟨st₂, q, hto₁.trans hto₂, ?_, hpass₂, by rw [hq]; exact if_pos (Or.inl hprev), by rw [hq]; exact if_pos hfirst,
      by rw [hq]⟩
    have hleft : p.blocksLeft = [] := by rw [Pass.blocksLeft, if_neg hkind, hws]
    rw [hleft]
    exact hmerges₁.trans hmerges₂
  | cons a ws ih =>
    obtain ⟨st₁, hto₁, hmerges₁, hpass₁⟩ := passTo_scan h.pass h.phase (h.blocks _ mem_cons_self)
      h.boundary h.offset_le
    obtain ⟨st₂, q, hto₂, hmerges₂, hpass₂, hq⟩ := passTo_finish hpass₁ h.phase rfl (by
      rw [hmerges₁.offset]
      exact Nat.lt_irrefl _)
    have hprev : p.prev = a := by rw [h.prev, hws]; rfl
    have ha0 : a ≠ 0 := h.ne_zero a (by rw [hws]; exact mem_cons_self)
    have hnodup := h.nodup
    have hhead := h.first
    rw [hws, reverse_cons] at hnodup hhead
    have hnodup' : (ws.reverse ++ [a]).Nodup := (nodup_append.mp hnodup).1
    have hhead' : (ws.reverse ++ [a]).head? = some p.first := by
      rw [List.head?_append] at hhead
      cases hx : (ws.reverse ++ [a]).head? with
      | none => simp at hx
      | some b => rw [hx] at hhead; simpa using hhead
    have hfirst : a = p.first ↔ ws = [] := @scan_first_iff [] ws a p.first hnodup' hhead'
    have hmerges := hmerges₁.trans hmerges₂
    simp only [append_nil, nil_append] at hmerges
    have hne : ∀ b ∈ a :: ws, b ∉ [p.next] := by
      intro b hb hx
      refine (nodup_append.mp hnodup).2.2 b ?_ p.next (mem_singleton.mpr rfl) (mem_singleton.mp hx)
      simpa [or_comm] using hb
    have hq' : q = { p with
        phase := if p.kind = .worker ∧ a = p.first then .stop else .scan
        next := a
        prev := if a = p.first then 0 else ws.head?.getD 0
        workStack := ws
        offset := (st₂.mem a).mergedOffset
        check := if p.next = p.first then none else some p.next } := by
      rw [hq, hws, hprev]
      simp [ha0]
    by_cases hstop : p.kind = .worker ∧ a = p.first
    · obtain ⟨st₃, hto₃, hmerges₃, hpass₃, -⟩ := passTo_check hpass₂
      refine ⟨st₃, _, (hto₁.trans hto₂).trans hto₃, ?_, hpass₃, by rw [hq']; exact if_pos hstop, rfl, by rw [hq']⟩
      have hleft : p.blocksLeft = [] := by
        rw [Pass.blocksLeft, if_pos hstop.1, hws, hfirst.mp hstop.2]
        rfl
      rw [hleft]
      have := hmerges.trans hmerges₃
      simpa using this
    · have hscan : st₂.ScanAt t q := by
        rw [hq'] at hpass₂ ⊢
        refine ⟨hpass₂, if_neg hstop, hhead', ?_, fun hk hx => hstop ⟨hk, hfirst.mpr hx⟩, hnodup',
          fun b hb => h.ne_zero b (by rw [hws]; exact mem_cons_of_mem _ hb), fun b hb => ?_, ?_, ?_⟩
        · change (if a = p.first then 0 else ws.head?.getD 0) = ws.head?.getD 0
          split_ifs with hx
          · rw [hfirst.mp hx]
            rfl
          · rfl
        · exact hmerges.mergeable (hne b hb) (h.blocks b (mem_cons_of_mem _ (by rw [hws]; exact hb)))
        · exact (hmerges.mergeable (hne a mem_cons_self)
            (h.blocks a (mem_cons_of_mem _ (by rw [hws]; exact mem_cons_self)))).merged
        · exact (hmerges.mergeable (hne a mem_cons_self)
            (h.blocks a (mem_cons_of_mem _ (by rw [hws]; exact mem_cons_self)))).merged_le
      obtain ⟨st₃, q₃, hto₃, hmerges₃, hpass₃, hphase₃, hcheck₃, hkind₃⟩ := ih hscan (by rw [hq'])
      refine ⟨st₃, q₃, (hto₁.trans hto₂).trans hto₃, ?_, hpass₃, hphase₃, hcheck₃, by rw [hkind₃, hq']⟩
      have hleft : p.blocksLeft = a :: q.blocksLeft := by
        rw [hq']
        simp only [Pass.blocksLeft, hws]
        split_ifs with hk
        · exact dropLast_cons_of_ne_nil fun hx => hstop ⟨hk, hfirst.mpr hx⟩
        · rfl
      have hsub : ∀ b ∈ q.blocksLeft, b ∈ ws := by
        intro b hb
        rw [hq'] at hb
        simp only [Pass.blocksLeft] at hb
        split_ifs at hb
        · exact mem_of_mem_dropLast hb
        · exact hb
      have hentries : st₂.unmergedFrom t q.next q.offset ++ q.blocksLeft.flatMap (st₂.unmerged t) =
          p.blocksLeft.flatMap (st.unmerged t) := by
        rw [hleft, flatMap_cons, ← hmerges.unmerged (hne a mem_cons_self)]
        congr 1
        · rw [hq']
          rfl
        · exact flatMap_congr fun b hb => hmerges.unmerged (hne b (mem_cons_of_mem _ (hsub b hb)))
      have := hmerges.trans hmerges₃
      rw [hentries] at this
      have hnext : q.next = a := by rw [hq']
      rw [hnext, ← hleft] at this
      exact this

/-- A stopped pass unlocks its log. -/
theorem Storage.passTo_unlock (hp : st.progressTable t = some p) (hphase : p.phase = .stop)
    (hcheck : p.check = none) : st.PassTo t (st.finishPass t p.kind) :=
  .head (by simp only [passStep, hp, hphase, hcheck]) (.refl _ t)

/-- What a pass does to the end: it merges, then unlocks the log. -/
structure Storage.EndsWith (st st' : Storage Tid V) (t : Tid) (kind : PassKind) (es : List (LogEntry Tid V)) :
    Prop where
  reach : st.PassTo t st'
  merges : ∃ st₁ done, st.Merges st₁ t es done ∧ st' = st₁.finishPass t kind

/-- A pass that merges blocks ends. -/
theorem Storage.ScanAt.ends (h : st.ScanAt t p) : ∃ st', st.EndsWith st' t p.kind
    (st.unmergedFrom t p.next p.offset ++ p.blocksLeft.flatMap (st.unmerged t)) := by
  obtain ⟨st₁, q, hto, hmerges, hpass, hphase, hcheck, hkind⟩ := h.passTo_stop
  exact ⟨_, hto.trans (passTo_unlock hpass hphase hcheck), st₁, _, hmerges, by rw [hkind]⟩

/-- A pass that still walks the chain. -/
structure Storage.WalkAt (st : Storage Tid V) (t : Tid) (p : Pass) (rest : List Addr) : Prop where
  pass : st.progressTable t = some p
  phase : p.phase = .walk
  check : p.check = none
  first : (p.workStack.reverse ++ [p.prev]).head? = some p.first
  nodup : (p.workStack.reverse ++ p.prev :: p.next :: rest).Nodup
  links : Chain.IsChain (fun a => (st.mem a).next) (st.mem p.next).next rest
  ne_zero : ∀ a ∈ p.prev :: p.workStack, a ≠ 0
  next_ne_zero : p.next ≠ 0
  blocks : ∀ a ∈ p.workStack.reverse ++ p.prev :: p.next :: rest, (st.mem a).Mergeable

/-- A walk reaches the oldest block, with the newer ones on the work stack. -/
theorem Storage.WalkAt.passTo_scan {rest : List Addr} (h : st.WalkAt t p rest) : ∃ st' q, st.PassTo t st' ∧
    st.Merges st' t [] [] ∧ st'.ScanAt t q ∧ q.kind = p.kind ∧ q.offset = (st.mem q.next).mergedOffset ∧
    q.workStack.reverse ++ [q.next] = p.workStack.reverse ++ p.prev :: p.next :: rest := by
  -- the induction is on the blocks not yet walked
  induction rest generalizing st p with
  | nil =>
    have hn : (st.mem p.next).next = 0 := h.links
    have hstep : st.passStep t = some (st.setPass t (some { p with
        phase := .scan, workStack := p.prev :: p.workStack, offset := (st.mem p.next).mergedOffset })) := by
      simp only [passStep, h.pass, h.check, h.phase, walkStep, hn, if_true]
    refine ⟨_, { p with
      phase := .scan, workStack := p.prev :: p.workStack, offset := (st.mem p.next).mergedOffset },
      .head hstep (.refl _ t), .setPass st t _, ?_, rfl, rfl, by simp⟩
    have hnodup := h.nodup
    have hblock := h.blocks p.next (by simp)
    refine ⟨setPass_self _, rfl, ?_, rfl, fun _ => cons_ne_nil _ _, by simpa using hnodup, h.ne_zero,
      fun a ha => h.blocks a ?_, hblock.merged, hblock.merged_le⟩
    · simp only [reverse_cons]
      rw [List.head?_append, h.first]
      rfl
    · simp only [mem_cons] at ha
      simp only [mem_append, mem_reverse, mem_cons]
      tauto
  | cons b rest ih =>
    obtain ⟨hn, hb0, hlinks⟩ := h.links
    have hstep : st.passStep t = some (st.setPass t (some { p with
        prev := p.next, next := b, workStack := p.prev :: p.workStack })) := by
      simp only [passStep, h.pass, h.check, h.phase, walkStep, hn, if_neg hb0]
    have hnodup := h.nodup
    have hwalk : (st.setPass t (some { p with
        prev := p.next, next := b, workStack := p.prev :: p.workStack })).WalkAt t
        { p with prev := p.next, next := b, workStack := p.prev :: p.workStack } rest := by
      refine ⟨setPass_self _, h.phase, h.check, ?_, by simpa using hnodup, hlinks, fun a ha => ?_, hb0,
        fun a ha => h.blocks a (by simpa using ha)⟩
      · simp only [reverse_cons]
        rw [List.head?_append, h.first]
        rfl
      · rcases mem_cons.mp ha with rfl | ha
        · exact h.next_ne_zero
        · exact h.ne_zero a ha
    obtain ⟨st', q, hto, hmerges, hscan, hkind, hoff, hq⟩ := ih hwalk
    exact ⟨st', q, .head hstep hto, (Merges.setPass st t _).trans hmerges, hscan, hkind, hoff, by simpa using hq⟩

/-- A well-formed log: a chain of distinct blocks that can be merged. -/
structure Storage.LogOk (st : Storage Tid V) (t : Tid) (C : List Addr) : Prop where
  links : Chain.IsChain (fun a => (st.mem a).next) (st.logMappingTable t) C
  nodup : C.Nodup
  blocks : ∀ a ∈ C, (st.mem a).Mergeable

variable {C : List Addr}

/-- The position of a pass that merges blocks of a well-formed log. -/
theorem Storage.LogOk.scanAt (h : st.LogOk t C) (hp : st.progressTable t = some p) (hphase : p.phase = .scan)
    (hpos : PassPos st C p) : st.ScanAt t p := by
  simp only [PassPos, hphase] at hpos
  obtain ⟨pre, hC, hfirst, hprev, hworker, -, hat, -, hle⟩ := hpos
  have hmem : ∀ a ∈ p.next :: p.workStack, a ∈ C := fun a ha => by
    rw [hC]
    rcases mem_cons.mp ha with rfl | ha
    · simp
    · simp [ha]
  have hnodup := h.nodup
  rw [hC] at hnodup
  exact ⟨hp, hphase, hfirst, hprev, hworker, (nodup_append.mp hnodup).2.1,
    fun a ha => h.links.ne_zero (hmem a (mem_cons_of_mem _ ha)), fun a ha => h.blocks a (hmem a ha), hat, hle⟩

/-- The position of a pass that walks a well-formed log. -/
theorem Storage.LogOk.walkAt (h : st.LogOk t C) (hp : st.progressTable t = some p) (hphase : p.phase = .walk)
    (hcheck : p.check = none) (hpos : PassPos st C p) :
    ∃ pre rest, st.WalkAt t p rest ∧ C = pre ++ (p.workStack.reverse ++ p.prev :: p.next :: rest) ∧
      (p.kind ≠ .worker → pre = []) := by
  simp only [PassPos, hphase] at hpos
  obtain ⟨pre, rest, hC, hfirst, hpre⟩ := hpos
  have hmem : ∀ a ∈ p.workStack.reverse ++ p.prev :: p.next :: rest, a ∈ C := fun a ha => by
    rw [hC]
    exact mem_append_right _ ha
  have hnodup := h.nodup
  rw [hC] at hnodup
  have hlinks := h.links
  rw [hC, show pre ++ (p.workStack.reverse ++ p.prev :: p.next :: rest) =
    (pre ++ p.workStack.reverse ++ [p.prev]) ++ p.next :: rest by simp] at hlinks
  refine ⟨pre, rest, ⟨hp, hphase, hcheck, hfirst, (nodup_append.mp hnodup).2.1, hlinks.after, fun a ha => ?_, ?_,
    fun a ha => h.blocks a (hmem a ha)⟩, hC, hpre⟩
  · refine h.links.ne_zero (hmem a ?_)
    rcases mem_cons.mp ha with rfl | ha
    · simp
    · simp [ha]
  · exact h.links.ne_zero (hmem _ (by simp))

/-- A pass over a well-formed log ends. -/
theorem Storage.LogOk.passTo_end (h : st.LogOk t C) (hp : st.progressTable t = some p) (hpos : PassPos st C p) :
    ∃ st', st.PassTo t st' ∧ st'.progressTable t = none := by
  have hunlock : ∀ (st : Storage Tid V) kind, (st.finishPass t kind).progressTable t = none := fun st kind => by
    cases kind <;> exact Function.update_self _ _ _
  obtain ⟨st₁, hto₁, hmerges₁, hpass₁, hmem₁⟩ := passTo_check hp
  have h₁ : st₁.LogOk t C := ⟨by rw [hmem₁, hmerges₁.slots]; exact h.links, h.nodup, by rw [hmem₁]; exact h.blocks⟩
  have hpos₁ : PassPos st₁ C { p with check := none } := by
    unfold PassPos Drained at hpos ⊢
    rw [hmem₁]
    exact hpos
  cases hphase : p.phase with
  | walk =>
    obtain ⟨_, _, hwalk, -⟩ := h₁.walkAt hpass₁ hphase rfl hpos₁
    obtain ⟨st₂, q, hto₂, -, hscan, -⟩ := hwalk.passTo_scan
    obtain ⟨st₃, hto₃, st₄, _, -, rfl⟩ := hscan.ends
    exact ⟨_, hto₁.trans (hto₂.trans hto₃), hunlock _ _⟩
  | scan =>
    obtain ⟨st₃, hto₃, st₄, _, -, rfl⟩ := (h₁.scanAt hpass₁ hphase hpos₁).ends
    exact ⟨_, hto₁.trans hto₃, hunlock _ _⟩
  | stop => exact ⟨_, hto₁.trans (passTo_unlock hpass₁ hphase rfl), hunlock _ _⟩

omit [DecidableEq Tid] in
/-- What is pending in a block that no pass is in. -/
theorem Storage.pendingIn_of_none (hidle : st.progressTable t = none) (a : Addr) :
    st.pendingIn t a = st.unmerged t a := by
  rw [pendingIn, mpos_none hidle]
  rfl

/-- A manager merges a whole log. -/
theorem Storage.LogOk.merge (h : st.LogOk t C) (hidle : st.progressTable t = none) {kind : PassKind}
    (hkind : kind ≠ .worker) : ∃ st₀ st', st.beginPass t kind = some st₀ ∧ st₀.PassTo t st' ∧
      ∃ st₁ done, st.Merges st₁ t (st.pending t C) done ∧ st' = st₁.finishPass t kind := by
  have hpending : st.pending t C = C.reverse.flatMap (st.unmerged t) :=
    flatMap_congr fun a _ => pendingIn_of_none hidle a
  rw [hpending]
  unfold beginPass
  rw [hidle]
  cases C with
  | nil =>
    have h0 : st.logMappingTable t = 0 := h.links
    refine ⟨st.finishPass t kind, _, by simp only [h0, if_true, if_neg hkind], .refl _ t, st, [], ?_, rfl⟩
    exact ⟨rfl, (append_nil _).symm, rfl, rfl, ⟨rfl, rfl⟩, fun _ _ => rfl, fun _ => rfl, fun _ => rfl,
      fun _ _ => rfl⟩
  | cons a rest =>
    obtain ⟨hslot, ha0, hlinks⟩ := h.links
    have hblock := h.blocks a mem_cons_self
    cases rest with
    | nil =>
      have hn : (st.mem a).next = 0 := hlinks
      generalize hq : (⟨kind, .scan, a, 0, a, [], (st.mem a).mergedOffset, none⟩ : Pass) = q
      have hscan : (st.setPass t (some q)).ScanAt t q := by
        subst hq
        exact ⟨setPass_self _, rfl, rfl, rfl, fun hk => absurd hk hkind, nodup_singleton _, nofun,
          fun b hb => by rw [mem_singleton.mp hb]; exact hblock, hblock.merged, hblock.merged_le⟩
      obtain ⟨st', hto, st₁, done, hmerges, hst'⟩ := hscan.ends
      refine ⟨st.setPass t (some q), st', ?_, hto, st₁, done, ?_, ?_⟩
      · simp only [hslot, if_neg ha0, hn, if_true, if_neg hkind, hq]
      · have := (Merges.setPass st t (some q)).trans hmerges
        subst hq
        simp only [Pass.blocksLeft, if_neg hkind, flatMap_nil, append_nil, nil_append] at this
        simp only [reverse_singleton, flatMap_singleton]
        exact this
      · rw [hst', ← hq]
    | cons b rest =>
      obtain ⟨hn, hb0, hlinks'⟩ := hlinks
      generalize hq : (⟨kind, .walk, a, a, b, [], 0, none⟩ : Pass) = q
      have hwalk : (st.setPass t (some q)).WalkAt t q rest := by
        subst hq
        exact ⟨setPass_self _, rfl, rfl, rfl, h.nodup, hlinks', fun c hc => by rw [mem_singleton.mp hc]; exact ha0,
          hb0, h.blocks⟩
      obtain ⟨st₂, q₂, hto₂, hmerges₂, hscan, hkind₂, hoff, hchain⟩ := hwalk.passTo_scan
      obtain ⟨st', hto, st₁, done, hmerges, hst'⟩ := hscan.ends
      have hkindq : q₂.kind = kind := by rw [hkind₂, ← hq]
      refine ⟨st.setPass t (some q), st', ?_, hto₂.trans hto, st₁, done, ?_, by rw [hst', hkindq]⟩
      · simp only [hslot, if_neg ha0, hn, if_neg hb0, hq]
      · have hall := (Merges.setPass st t (some q)).trans hmerges₂
        have := hall.trans hmerges
        have hC : (a :: b :: rest).reverse = q₂.next :: q₂.workStack := by
          have hx : q₂.workStack.reverse ++ [q₂.next] = a :: b :: rest := by rw [hchain, ← hq]; rfl
          rw [← hx, reverse_append, reverse_reverse]
          rfl
        have hes : st₂.unmergedFrom t q₂.next q₂.offset ++ q₂.blocksLeft.flatMap (st₂.unmerged t) =
            (a :: b :: rest).reverse.flatMap (st.unmerged t) := by
          rw [hC, flatMap_cons, Pass.blocksLeft, if_neg (by rw [hkindq]; exact hkind)]
          congr 1
          · rw [hall.unmergedFrom, hoff]
            rfl
          · exact flatMap_congr fun c _ => hall.unmerged not_mem_nil
        rw [hes] at this
        simpa using this

end Dinomo
