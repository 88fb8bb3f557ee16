import Dinomo.Refinement

/-!
# Steps of passes in the pipeline

A pass applies the oldest pending oplog of a log.  Everything else it does, from walking the chain to
cutting off merged blocks, is not seen by the pipeline.
-/

namespace Dinomo

open Function Storage List

variable {Tid V : Type*} [DecidableEq Tid] [Fintype Tid] {cfg : Config} {s : Cluster Tid V}
  {st st' : Storage Tid V} {C : Tid → List Addr} {ρ : Addr → Role Tid} {t : Tid} {p : Pass}

omit [Fintype Tid] in
/-- A step of the storage side that the pipeline does not see. -/
theorem Cluster.Staged.sameLogs_storage (hst : s.Staged cfg C) (happ : st'.applied = s.st.applied)
    (hlinked : ∀ t, ∀ a ∈ C t, (s.st.mem a).SamePublished (st'.mem a) ∧ st'.mpos t a = s.st.mpos t a)
    (hfind : st'.find = s.st.find) : s.SameLogs { s with st := st' } C :=
  ⟨rfl, rfl, rfl, happ,
    fun t => hst.unsent_congr rfl (fun _ => rfl) fun a ha => (hlinked t a ha).1.offset, hlinked, hfind⟩

/-- A pass moves without touching blocks or the index. -/
structure Storage.PassMoves (st st' : Storage Tid V) (t : Tid) : Prop where
  mem : st'.mem = st.mem
  ht : st'.ht = st.ht
  cells : st'.cells = st.cells
  applied : st'.applied = st.applied
  other : ∀ t', t' ≠ t → st'.progressTable t' = st.progressTable t'
  mpos : ∀ a, st'.mpos t a = st.mpos t a

omit [Fintype Tid] in
/-- Moving a pass is not seen by the pipeline. -/
theorem Storage.PassMoves.sameLogs (h : s.st.PassMoves st' t) (hst : s.Staged cfg C) :
    s.SameLogs { s with st := st' } C := by
  refine hst.sameLogs_storage h.applied (fun t' a _ => ⟨by rw [h.mem]; exact .of_eq rfl rfl, ?_⟩) ?_
  · by_cases ht : t' = t
    · rw [ht, h.mpos]
    · exact mpos_congr (h.other t' ht) (by rw [h.mem])
  · funext k
    unfold find oplogAt
    rw [resolve_eq_of h.ht h.cells, h.mem]

omit [Fintype Tid] in
/-- Setting a pass moves it if the merge positions stay. -/
theorem Storage.passMoves_setPass {q : Option Pass} (hmpos : ∀ a, (st.setPass t q).mpos t a = st.mpos t a) :
    st.PassMoves (st.setPass t q) t :=
  ⟨rfl, rfl, rfl, rfl, fun _ ht => setPass_of_ne ht q, hmpos⟩

omit [Fintype Tid] in
/-- Ending a pass moves it if the merge positions stay. -/
theorem Storage.passMoves_finishPass (kind : PassKind)
    (hmpos : ∀ a, st.mpos t a = (st.mem a).mergedOffset) : st.PassMoves (st.finishPass t kind) t := by
  have hnone : (st.finishPass t kind).progressTable t = none ∧
      ∀ t', t' ≠ t → (st.finishPass t kind).progressTable t' = st.progressTable t' := by
    cases kind <;> exact ⟨update_self _ _ _, fun _ ht => update_of_ne ht _ _⟩
  have hmem : (st.finishPass t kind).mem = st.mem := by cases kind <;> rfl
  exact ⟨hmem, by cases kind <;> rfl, by cases kind <;> rfl, by cases kind <;> rfl, hnone.2,
    fun a => by rw [mpos_none hnone.1, hmem, hmpos]⟩

omit [Fintype Tid] in
/-- Starting a pass moves it. -/
theorem Storage.passMoves_beginPass {kind : PassKind} (hst' : st.beginPass t kind = some st') :
    st.PassMoves st' t := by
  unfold beginPass at hst'
  cases hprog : st.progressTable t with
  | some q => simp [hprog] at hst'
  | none =>
    simp only [hprog] at hst'
    have hmpos := mpos_none hprog
    split_ifs at hst' <;> cases hst'
    · exact passMoves_finishPass kind hmpos
    · exact passMoves_setPass fun a => by rw [mpos_setPass fun _ => rfl, hmpos]
    · exact passMoves_setPass fun a => by
        rw [mpos_setPass (fun hx : PassPhase.walk = .scan => nomatch hx), hmpos]

omit [Fintype Tid] in
/-- Walking a block of the chain moves a pass. -/
theorem Storage.passMoves_walkStep (hp : st.progressTable t = some p) (hphase : p.phase = .walk) :
    st.PassMoves (st.walkStep t p) t := by
  have hmpos : ∀ a, st.mpos t a = (st.mem a).mergedOffset := fun a =>
    mpos_of_ne hp fun hx => by rw [hphase] at hx; cases hx
  simp only [walkStep]
  split_ifs
  · exact passMoves_setPass fun a => by rw [mpos_setPass fun _ => rfl, hmpos]
  · exact passMoves_setPass fun a => by
      rw [mpos_setPass (q := { p with
        prev := p.next, next := (st.mem p.next).next, workStack := p.prev :: p.workStack })
        (fun hx => absurd (hphase.symm.trans hx) nofun), hmpos]

omit [Fintype Tid] in
/-- Comparing the counters of a block moves a pass. -/
theorem Storage.passMoves_reclaim (hp : st.progressTable t = some p) (a : Addr) :
    st.PassMoves ((st.reclaim a).setPass t (some { p with check := none })) t := by
  have hmpos : ∀ b, (st.setPass t (some { p with check := none })).mpos t b = st.mpos t b := fun b => by
    simp [mpos, setPass, hp]
  unfold reclaim
  split_ifs
  · exact ⟨rfl, rfl, rfl, rfl, fun _ ht => update_of_ne ht _ _, hmpos⟩
  · exact passMoves_setPass hmpos

variable {K : Tid → KnCore V} {k : Key} {o : Oplog V}

omit [DecidableEq Tid] in
/-- A key with a word in the index leads to an oplog. -/
theorem Inv.find_isSome (h : Inv cfg st K C ρ) (hk : k ≠ 0) {v : IndexVal}
    (hv : st.ht.get k = some v) : ∃ x, st.find k = some x := by
  obtain ⟨p, hp⟩ : ∃ p, st.resolve k = some p := by
    unfold resolve
    rw [hv]
    cases v with
    | oplog p => exact ⟨p, rfl⟩
    | indirect c =>
      obtain ⟨p, hp⟩ := h.index.cell_some k c hk hv
      exact ⟨p, by simp only [hp]⟩
  obtain ⟨o, ho, hoff, -⟩ := h.index.ref k p hk hp
  have hat : st.oplogAt p = some o := by
    rw [oplogAt, ← hoff]
    exact LogBlock.entryAt_of_mem (h.block p.block).aligned ho
  exact ⟨(p, o), by rw [find, if_neg hk, hp, Option.bind_some, hat]; rfl⟩

omit [DecidableEq Tid] [Fintype Tid] in
/-- What the index leads to for a key whose word is an oplog. -/
theorem Storage.find_of_get (hk : k ≠ 0) {q : Ptr}
    (hget : st.ht.get k = some (.oplog q)) (hq : st.oplogAt q = some o) : st.find k = some (q, o) := by
  rw [find, if_neg hk, resolve, hget, Option.bind_some, hq]
  rfl

omit [DecidableEq Tid] [Fintype Tid] in
/-- A key without a word leads nowhere. -/
theorem Storage.find_of_none (hget : st.ht.get k = none) : st.find k = none := by
  rw [find, resolve, hget]
  split_ifs <;> rfl

omit [DecidableEq Tid] in
/-- The index is seen with one more entry applied. -/
theorem Inv.find_apply (h : Inv cfg st K C ρ) {q : Ptr} (hk : o.key ≠ 0)
    (hq : st.oplogAt q = some o) (hht : st'.ht = indexAfter st.ht q o) (hcells : st'.cells = st.cells)
    (hbuf : ∀ b, (st'.mem b).buffer = (st.mem b).buffer) (t : Tid) :
    st'.find = LogEntry.apply st.find ⟨t, q, o⟩ := by
  have hat : ∀ r, st'.oplogAt r = st.oplogAt r := fun r => by
    rw [oplogAt, oplogAt, LogBlock.entryAt, LogBlock.entryAt, hbuf]
  have hget : ∀ k, k ≠ 0 → st'.ht.get k =
      if k = o.key then o.opType.wordAfter (.oplog q) (st.ht.get o.key) else st.ht.get k := fun k hk' => by
    rw [hht, get_indexAfter h.index.full _ _ hk']
  have hsame : ∀ k, st'.ht.get k = st.ht.get k → st'.find k = st.find k := fun k hk' => by
    rw [find, find, resolve_congr hk' hcells, funext hat]
  funext k
  unfold LogEntry.apply
  by_cases heq : k = o.key
  · subst heq
    have hgetk := hget o.key hk
    rw [if_pos rfl] at hgetk
    have hnew : st'.ht.get o.key = some (.oplog q) → st'.find o.key = some (q, o) := fun hx =>
      find_of_get hk hx ((hat q).trans hq)
    rw [update_self]
    cases hop : o.opType with
    | insert =>
      rw [hop] at hgetk
      cases hg : st.ht.get o.key with
      | none => rw [find_of_none hg, hnew (hgetk.trans (by rw [hg]; rfl))]; rfl
      | some v =>
        obtain ⟨x, hx⟩ := h.find_isSome hk hg
        rw [hsame _ (hgetk.trans (by rw [hg]; rfl)), hx]
        rfl
    | update =>
      rw [hop] at hgetk
      cases hg : st.ht.get o.key with
      | none => rw [find_of_none hg, find_of_none (hgetk.trans (by rw [hg]; rfl))]; rfl
      | some v =>
        obtain ⟨x, hx⟩ := h.find_isSome hk hg
        rw [hnew (hgetk.trans (by rw [hg]; rfl)), hx]
        rfl
    | delete =>
      rw [hop] at hgetk
      rw [find_of_none hgetk]
      rfl
  · rw [update_of_ne heq]
    by_cases hk0 : k = 0
    · rw [find, find, if_pos hk0, if_pos hk0]
    · exact hsame k (by rw [hget k hk0, if_neg heq])

/-- Applying the next oplog of a log. -/
theorem Inv.pipeline_apply (h : Inv cfg s.st s.cores C ρ) (hst : s.Staged cfg C)
    (hp : s.st.progressTable t = some p) (hnext : s.st.nextOplog p = some o) {q : Pass}
    (hq : q.phase = p.phase ∧ q.next = p.next ∧ q.offset = p.offset + o.size) :
    ∃ rest, s.st.pending t (C t) = ⟨t, ⟨p.next, p.offset⟩, o⟩ :: rest ∧
      ({ s with st := (s.st.applyOplog t ⟨p.next, p.offset⟩ o).setPass t (some q) } : Cluster Tid V).pipeline C =
        { s.pipeline C with
          pending := update (s.pipeline C).pending t rest
          applied := (s.pipeline C).applied ++ [(t, ⟨t, ⟨p.next, p.offset⟩, o⟩)]
          index := LogEntry.apply s.st.find (⟨t, ⟨p.next, p.offset⟩, o⟩ : LogEntry Tid V) } := by
  obtain ⟨hphase, -, ho, hoff, hend⟩ := h.nextOplog_mem hp hnext
  obtain ⟨-, -, -, hentry⟩ := nextOplog_eq_some.mp hnext
  have hpos := ((h.log t).pass p hp).pos
  simp only [PassPos, hphase] at hpos
  obtain ⟨pre, hC, -⟩ := hpos
  have hnodup := (h.chain t).nodup
  rw [hC, ← append_assoc] at hnodup
  have hal := (h.block p.next).aligned
  have ha := s.st.applies t o hq.1 hq.2.1 hq.2.2
  generalize (s.st.applyOplog t ⟨p.next, p.offset⟩ o).setPass t (some q) = st' at *
  have hfind := h.find_apply (q := ⟨p.next, p.offset⟩) ((h.block p.next).keys o ho) hentry ha.ht ha.cells
    (fun b => (ha.data b).buffer) t
  have hpub : ∀ a, (s.st.mem a).SamePublished (st'.mem a) := fun a => .of_eq (ha.data a).buffer (ha.data a).offset
  -- the oplog at the merge position is the first one pending in the block
  have hin : s.st.pendingIn t p.next = ⟨t, ⟨p.next, p.offset⟩, o⟩ :: st'.pendingIn t p.next := by
    unfold pendingIn
    rw [ha.mpos_next hphase, mpos_scan hp hphase, (hpub _).offset, ← hoff,
      hal.between_cons Oplog.size_pos ho (hoff ▸ hend), (ha.data _).buffer]
    simp only [map_cons, LogEntry.ofOplog, hoff]
  have hother : ∀ a ∈ pre ++ p.workStack.reverse, st'.pendingIn t a = s.st.pendingIn t a := fun a hmem =>
    pendingIn_congr (hpub a) (ha.mpos_of_ne hp fun _ hx =>
      (nodup_append.mp hnodup).2.2 a hmem p.next (mem_singleton.mpr rfl) hx)
  refine ⟨st'.pending t (C t), ?_, ?_⟩
  · rw [hC, ← append_assoc, pending_concat, pending_concat, hin,
      pending_congr hother]
    rfl
  have hpending : (fun t' => st'.pending t' (C t')) = update
      (fun t' => s.st.pending t' (C t')) t (st'.pending t (C t)) := by
    funext t'
    by_cases ht : t' = t
    · rw [ht, update_self]
    · rw [update_of_ne ht]
      exact pending_congr fun a _ => pendingIn_congr (hpub a) (ha.mpos_of_ne hp fun hx => absurd hx ht)
  have hunsent : ({ s with st := st' } : Cluster Tid V).unsent = s.unsent := funext fun t' =>
    hst.unsent_congr rfl (fun _ => rfl) fun a _ => (hpub a).offset
  unfold Cluster.pipeline
  rw [hunsent]
  simp only [hpending, ha.applied, map_append, hfind]
  rfl

omit [DecidableEq Tid] in
/-- The blocks a pass is between when it has merged all but the newest block. -/
theorem Inv.scan_prev (h : Inv cfg st K C ρ) (hp : st.progressTable t = some p)
    (hphase : p.phase = .scan) (hfirst : p.next ≠ p.first) : ∃ init, C t = init ++ [p.prev, p.next] := by
  have hpos := ((h.log t).pass p hp).pos
  simp only [PassPos, hphase] at hpos
  obtain ⟨pre, hC, hhead, hprev, -⟩ := hpos
  have hstack : p.workStack ≠ [] := fun hx => hfirst ((scan_first_iff (hC ▸ (h.chain t).nodup) hhead).mpr hx)
  obtain ⟨a, ws, hws⟩ := exists_cons_of_ne_nil hstack
  rw [hws, List.head?_cons, Option.getD_some] at hprev
  exact ⟨pre ++ ws.reverse, by rw [hC, hws, hprev]; simp⟩

/-- What finishing a block changes: the pass, and how far the block is merged. -/
structure Storage.Finishes (st st' : Storage Tid V) (t : Tid) (p q : Pass) : Prop where
  ht : st'.ht = st.ht
  cells : st'.cells = st.cells
  applied : st'.applied = st.applied
  pass : st'.progressTable = Function.update st.progressTable t (some q)
  published : ∀ b, (st.mem b).SamePublished (st'.mem b)
  merged : ∀ b, b ≠ p.next → (st'.mem b).mergedOffset = (st.mem b).mergedOffset
  finished : (st'.mem p.next).mergedOffset = (st.mem p.next).offset
  next : q.phase = .scan → q.next ≠ p.next ∧ q.offset = (st.mem q.next).mergedOffset

/-- Finishing a block. -/
theorem Inv.finishes (h : Inv cfg st K C ρ) (hp : st.progressTable t = some p)
    (hphase : p.phase = .scan) : ∃ q, st.Finishes (st.finishBlock t p) t p q := by
  have hpos := ((h.log t).pass p hp).pos
  simp only [PassPos, hphase] at hpos
  obtain ⟨pre, hC, hhead, hprev, -⟩ := hpos
  by_cases hfirst : p.next = p.first
  · rw [(scan_first_iff (hC ▸ (h.chain t).nodup) hhead).mp hfirst] at hprev
    obtain ⟨q, hst', hmem, hmemn, hqphase, -⟩ := st.finishBlock_head (t := t) hfirst hprev
    refine ⟨q, by rw [← hst'], by rw [← hst'], by rw [← hst'], by rw [← hst'], fun b => ?_,
      fun b hb => by rw [hmem b hb], by rw [hmemn], fun hx => absurd (hqphase.symm.trans hx) (by simp)⟩
    by_cases hb : b = p.next
    · rw [hb, hmemn]
      exact .of_eq rfl rfl
    · rw [hmem b hb]
      exact .of_eq rfl rfl
  · obtain ⟨init, hinit⟩ := h.scan_prev hp hphase hfirst
    have hnodup := (h.chain t).nodup
    have hprev0 := (h.chain t).links.ne_zero (show p.prev ∈ C t by rw [hinit]; simp)
    have hne : p.prev ≠ p.next := by
      intro hx
      rw [hinit, hx] at hnodup
      simpa using (nodup_append.mp hnodup).2.1
    obtain ⟨q, hst', hmem, hmemn, hmemp, rfl⟩ := st.finishBlock_cut (t := t) hfirst hprev0 hne
    refine ⟨_, by rw [← hst'], by rw [← hst'], by rw [← hst'], by rw [← hst'], fun b => ?_, fun b hb => ?_,
      by rw [hmemn], fun _ => ⟨hne, rfl⟩⟩
    · by_cases hb : b = p.next
      · rw [hb, hmemn]
        exact .of_eq rfl rfl
      · by_cases hb' : b = p.prev
        · rw [hb', hmemp]
          exact .of_eq rfl rfl
        · rw [hmem b hb hb']
          exact .of_eq rfl rfl
    · by_cases hb' : b = p.prev
      · rw [hb', hmemp]
      · rw [hmem b hb hb']

omit [Fintype Tid] in
/-- Finishing a block does not move the merge positions of its log. -/
theorem Storage.Finishes.mpos {q : Pass} (h : st.Finishes st' t p q) (hp : st.progressTable t = some p)
    (hphase : p.phase = .scan) (hdone : p.offset = (st.mem p.next).offset) (a : Addr) :
    st'.mpos t a = st.mpos t a := by
  have hq : st'.progressTable t = some q := by rw [h.pass, update_self]
  by_cases ha : a = p.next
  · rw [ha, mpos_scan hp hphase, mpos_of_ne hq fun hx => (h.next hx).1, h.finished, hdone]
  · rw [mpos_of_ne hp fun _ => Ne.symm ha, ← h.merged a ha]
    by_cases hqa : q.phase = .scan ∧ q.next = a
    · rw [← hqa.2, mpos_scan hq hqa.1, (h.next hqa.1).2, h.merged _ (h.next hqa.1).1]
    · exact mpos_of_ne hq fun hx hxa => hqa ⟨hx, hxa⟩

/-- Finishing a block is not seen by the pipeline. -/
theorem Inv.sameLogs_finishBlock (h : Inv cfg s.st s.cores C ρ) (hst : s.Staged cfg C)
    (hp : s.st.progressTable t = some p) (hphase : p.phase = .scan)
    (hdone : p.offset = (s.st.mem p.next).offset) : s.SameLogs { s with st := s.st.finishBlock t p } C := by
  obtain ⟨q, hq⟩ := h.finishes hp hphase
  have hpos := ((h.log t).pass p hp).pos
  simp only [PassPos, hphase] at hpos
  obtain ⟨pre, hC, -⟩ := hpos
  have hrole : ρ p.next = .chain t := ((h.chain t).mem_iff _).mp (by rw [hC]; simp)
  refine hst.sameLogs_storage hq.applied (fun t' a ha => ⟨hq.published a, ?_⟩) ?_
  · by_cases ht : t' = t
    · rw [ht, hq.mpos hp hphase hdone]
    · refine mpos_congr (by rw [hq.pass, update_of_ne ht]) (hq.merged a ?_)
      rintro rfl
      exact ht (Role.chain.inj (hrole.symm.trans (((h.chain t').mem_iff _).mp ha))).symm
  · exact h.find_congr (fun k _ => resolve_eq_of hq.ht hq.cells k)
      fun k r _ _ => (hq.published r.block).buffer.imp fun _ hx => hx.1

omit [Fintype Tid] in
/-- A merged block may be cut off the end of a log. -/
theorem Cluster.pipeline_dropLast (hlast : ∀ a, (C t).getLast? = some a → s.st.pendingIn t a = []) :
    s.pipeline (update C t (C t).dropLast) = s.pipeline C := by
  have hpending : (fun t' => s.st.pending t' (update C t (C t).dropLast t')) =
      fun t' => s.st.pending t' (C t') := by
    funext t'
    by_cases ht : t' = t
    · rw [ht, update_self]
      rcases eq_nil_or_concat (C t) with hnil | ⟨init, a, hC⟩
      · rw [hnil]
        rfl
      · rw [hC, concat_eq_append, dropLast_concat, pending_concat, hlast a (by rw [hC]; simp),
          nil_append]
    · rw [update_of_ne ht]
  unfold Cluster.pipeline
  rw [hpending]

end Dinomo
