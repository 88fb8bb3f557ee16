import Dinomo.Refinement.Threads
import Dinomo.Refinement.Passes

/-!
# Steps of a cluster as runs of the pipeline

A step of a cluster simulates a list of labels if the pipeline of the cluster runs them to the pipeline
of the next state.  Here are the steps of passes, of `put` and `remove`, and of `merge`.
-/

namespace Dinomo

open Function Storage Cluster List

variable {Tid V : Type*} [DecidableEq Tid] {cfg : Config} {s s' : Cluster Tid V} {C C' : Tid → List Addr}
  {ρ : Addr → Role Tid} {t : Tid}

/-- A step of a cluster and the labels it runs in the pipeline. -/
structure Cluster.Simulates (cfg : Config) (s s' : Cluster Tid V) (C C' : Tid → List Addr)
    (ls : List (Pipeline.Label Tid (LogEntry Tid V) (Key → Option (Ptr × Oplog V)))) : Prop where
  staged : s'.Staged cfg C'
  run : Transition.run (Pipeline.step cfg.batching LogEntry.apply) (s.pipeline C) ls = some (s'.pipeline C')

/-- What the pipeline needs to know after a step of one thread. -/
theorem Cluster.Staged.of_update (h : s.Staged cfg C) {n : Kn V} (hkn : s'.kn = update s.kn t n)
    (hheld : cfg.batching = false → ∀ t, s'.batchingRequests t = [])
    (howner : ∀ t, ∀ e ∈ s'.batchingRequests t, e.tid = t)
    (hC : ∀ t', t' ≠ t → C' t' = C t')
    (hhead : n.pool.buffer ≠ [] → (C' t).head? = some n.nonReplicatedAlloc)
    (hfresh : ∀ w, n.ctl = .write w true .retry → n.pool.buffer = []) : s'.Staged cfg C' := by
  refine ⟨hheld, howner, fun t' => ?_, fun t' => ?_⟩ <;> rw [hkn] <;> by_cases ht : t' = t
  · rw [ht, update_self]
    exact hhead
  · rw [update_of_ne ht, hC t' ht]
    exact h.head t'
  · rw [ht, update_self]
    exact hfresh
  · rw [update_of_ne ht]
    exact h.fresh t'

/-- What the pipeline needs to know after a step that answers no request. -/
theorem Cluster.Staged.of_kn (h : s.Staged cfg C) {n : Kn V} (hkn : s'.kn = update s.kn t n)
    (hheld : s'.batchingRequests = s.batchingRequests) (hhead : n.pool.buffer ≠ [] → (C t).head? = some n.nonReplicatedAlloc)
    (hfresh : ∀ w, n.ctl = .write w true .retry → n.pool.buffer = []) : s'.Staged cfg C :=
  h.of_update hkn (by rw [hheld]; exact h.held) (by rw [hheld]; exact h.owner) (fun _ _ => rfl) hhead hfresh

/-- A step that the pipeline does not see. -/
theorem Cluster.SameLogs.simulates (h : s.SameLogs s' C) (hst : s'.Staged cfg C) : s.Simulates cfg s' C C [] :=
  ⟨hst, by rw [h.pipeline_eq]; rfl⟩

/-- A thread moves on without touching its staging pool or what the pipeline reads of the pool. -/
theorem Cluster.Staged.move (h : s.Staged cfg C) {n : Kn V} (hkn : s'.kn = update s.kn t n)
    (hbuf : n.pool.buffer = (s.kn t).pool.buffer) (halloc : n.nonReplicatedAlloc = (s.kn t).nonReplicatedAlloc)
    (hfresh : ∀ w, n.ctl ≠ .write w true .retry)
    (hhist : s'.written = s.written ∧ s'.batchingRequests = s.batchingRequests ∧ s'.acked = s.acked)
    (hst : s'.st = { s.st with mergeReply := s'.st.mergeReply }) : s.Simulates cfg s' C C [] := by
  have hsame : s.SameLogs s' C := h.sameLogs hkn hbuf (fun _ => halloc)
    ⟨hhist.1, hhist.2.1, hhist.2.2, by rw [hst]⟩
    (fun t' a _ => ⟨by rw [hst]; exact .of_eq rfl rfl, by rw [hst]; rfl⟩) (by rw [hst]; rfl)
  refine hsame.simulates (h.of_kn hkn hhist.2.1 (fun hne => ?_) fun w hw => absurd hw (hfresh w))
  rw [hbuf] at hne
  rw [halloc]
  exact h.head t hne

/-- Only the storage side moves. -/
theorem Cluster.Staged.of_storage (h : s.Staged cfg C) (st' : Storage Tid V) :
    ({ s with st := st' } : Cluster Tid V).Staged cfg C := ⟨h.held, h.owner, h.head, h.fresh⟩

/-- Cutting off the oldest of several blocks. -/
theorem Cluster.Staged.dropLast (h : s.Staged cfg C) {init : List Addr} {a b : Addr}
    (hC : C t = init ++ [a, b]) : s.Staged cfg (update C t (C t).dropLast) := by
  refine ⟨h.held, h.owner, fun t' hne => ?_, h.fresh⟩
  have hhead := h.head t' hne
  by_cases ht : t' = t
  · rw [ht] at hhead ⊢
    rw [update_self, hC, show init ++ [a, b] = (init ++ [a]) ++ [b] by simp, dropLast_concat]
    rw [hC] at hhead
    cases init <;> simpa using hhead
  · rwa [update_of_ne ht]

/-- Answering the held requests of a thread keeps what the pipeline needs to know. -/
theorem Cluster.Staged.respondBatched (h : s.Staged cfg C) (t : Tid) : (s.respondBatched t).Staged cfg C := by
  refine ⟨fun hb t' => ?_, fun t' => ?_, h.head, h.fresh⟩ <;> by_cases ht : t' = t <;>
    simp only [Cluster.respondBatched]
  · rw [ht, update_self]
  · rw [update_of_ne ht, h.held hb]
  · rw [ht, update_self]
    exact nofun
  · rw [update_of_ne ht]
    exact h.owner t'

/-- Answering the held requests of a thread with nothing unsent. -/
theorem Cluster.Staged.simulates_respondBatched (h : s.Staged cfg C)
    (hnil : cfg.batching = true → s.unsent t = []) :
    s.Simulates cfg (s.respondBatched t) C C [.ack t (s.batchingRequests t).length] := by
  refine ⟨h.respondBatched t, ?_⟩
  have hguard : cfg.batching = true →
      ((s.pipeline C).unsent t).length ≤ ((s.pipeline C).held t).length - (s.batchingRequests t).length := by
    intro hb
    change (s.unsent t).length ≤ _
    rw [hnil hb]
    exact Nat.zero_le _
  simp only [Transition.run, Pipeline.step, if_pos hguard]
  rw [h.pipeline_respondBatched]
  simp only [pipeline, take_length, drop_length]

/-- Two steps in a row. -/
theorem Cluster.Simulates.trans {s'' : Cluster Tid V} {C'' : Tid → List Addr}
    {ls ls' : List (Pipeline.Label Tid (LogEntry Tid V) (Key → Option (Ptr × Oplog V)))}
    (h : s.Simulates cfg s' C C' ls) (h' : s'.Simulates cfg s'' C' C'' ls') :
    s.Simulates cfg s'' C C'' (ls ++ ls') :=
  ⟨h'.staged, Transition.run_append_eq_some.mpr ⟨_, h.run, h'.run⟩⟩

variable [Fintype Tid]

/-- A thread publishes its block. -/
theorem Inv.simulates_publish (h : Inv cfg s.st s.cores C ρ) (hst : s.Staged cfg C) (hl : (s.cores t).Live)
    {pool : LogBlock V} {n : Kn V}
    (hst' : s'.st = s.st.modBlock (s.kn t).nonReplicatedAlloc fun b => b.withHeader pool)
    (hkn : s'.kn = update s.kn t n) (hbuf : n.pool.buffer = (s.kn t).pool.buffer)
    (halloc : n.nonReplicatedAlloc = (s.kn t).nonReplicatedAlloc) (hfresh : ∀ w, n.ctl ≠ .write w true .retry)
    (hhist : s'.written = s.written ∧ s'.batchingRequests = s.batchingRequests ∧ s'.acked = s.acked)
    (hsent : (s.st.mem (s.kn t).nonReplicatedAlloc).buffer = (s.kn t).pool.buffer)
    (hoff : pool.offset = bytesOf (s.kn t).pool.buffer) : s.Simulates cfg s' C C [.publish t] := by
  refine ⟨hst.of_kn hkn hhist.2.1 (fun _ => ?_) fun w hw => absurd hw (hfresh w), ?_⟩
  · rw [halloc]
    exact (h.thread t).live hl
  · rw [h.pipeline_publish hst hl hst' hkn hbuf halloc hhist hsent hoff]
    rfl

/-- The header write of a thread that does not batch. -/
theorem Inv.simulates_sendHeader (h : Inv cfg s.st s.cores C ρ) (hst : s.Staged cfg C) (hl : (s.cores t).Live)
    (hb : cfg.batching = false) {c : Ctl V} (hc : ∀ w, c ≠ .write w true .retry) :
    s.Simulates cfg ((s.sendHeader t).setCtl t c) C C [.publish t] := by
  have hok := (h.thread t).liveOk hl
  have htail := hok.tail
  rw [hb] at htail
  exact h.simulates_publish hst hl (n := { s.kn t with ctl := c }) rfl rfl rfl rfl hc ⟨rfl, rfl, rfl⟩
    (hok.immediate hb).1 htail

/-- The header write of a thread that batches. -/
theorem Inv.simulates_publishBatch (h : Inv cfg s.st s.cores C ρ) (hst : s.Staged cfg C)
    (hsent : (s.cores t).view.sent = true) {c : Ctl V} (hc : ∀ w, c ≠ .write w true .retry) :
    s.Simulates cfg ((s.publishBatch t).setCtl t c) C C [.publish t] := by
  have hl := (h.thread t).sentLive hsent
  have hok := (h.thread t).liveOk hl
  obtain ⟨hb, hbuf⟩ := hok.sent hsent
  have htail := hok.tail
  rw [hb] at htail
  have hst' : ((s.publishBatch t).setCtl t c).st = s.st.modBlock (s.kn t).nonReplicatedAlloc fun b =>
      b.withHeader { (s.kn t).pool with offset := (s.kn t).batchedOffset } := by
    simp [Cluster.publishBatch, Cluster.sendHeader, Cluster.setKn, Cluster.setCtl, Cluster.modBlock]
  refine h.simulates_publish hst hl hst' (n := { s.kn t with
    pool := { (s.kn t).pool with offset := (s.kn t).batchedOffset }
    flushedOffset := (s.kn t).batchedOffset, ctl := c }) ?_ rfl rfl hc ⟨rfl, rfl, rfl⟩ hbuf htail
  simp [Cluster.publishBatch, Cluster.sendHeader, Cluster.setKn, Cluster.setCtl, Cluster.modBlock]

/-- Sending staged oplogs. -/
theorem Inv.simulates_sendUnflushed (h : Inv cfg s.st s.cores C ρ) (hst : s.Staged cfg C) (hl : (s.cores t).Live)
    (hview : (s.cores t).view = .quiet) (hb : cfg.batching = true) {c : Ctl V}
    (hc : ∀ w, c ≠ .write w true .retry) : s.Simulates cfg ((s.sendUnflushed t).setCtl t c) C C [] :=
  (h.sameLogs_sendUnflushed hst hl hview hb c).simulates
    (hst.of_kn (n := { s.kn t with ctl := c }) rfl rfl (fun hne => hst.head t hne) fun w hw => absurd hw (hc w))

omit [Fintype Tid] in
/-- Staging keeps the request histories. -/
theorem Cluster.append_hist (cfg : Config) (s : Cluster Tid V) (t : Tid) (w : Write V) :
    (s.append cfg t w).batchingRequests = s.batchingRequests ∧ (s.append cfg t w).acked = s.acked := by
  unfold append
  cases cfg.batching <;> exact ⟨rfl, rfl⟩

/-- What the pipeline needs to know after an operation is staged. -/
theorem Inv.staged_append (h : Inv cfg s.st s.cores C ρ) (hst : s.Staged cfg C) (hl : (s.cores t).Live) {w : Write V}
    (hkn : s'.kn = (s.append cfg t w).kn) (hheld : cfg.batching = false → ∀ t, s'.batchingRequests t = [])
    (howner : ∀ t, ∀ e ∈ s'.batchingRequests t, e.tid = t) : s'.Staged cfg C := by
  obtain ⟨-, n, hn, -, halloc⟩ := h.append_effect hl w
  have hidle : n.ctl = .idle := by
    have : (s.append cfg t w).kn t = n := by rw [hn, update_self]
    rw [← this]
    unfold Cluster.append
    cases cfg.batching <;> simp [setKn]
  exact hst.of_update (hkn.trans hn) hheld howner (fun _ _ => rfl) (fun _ => halloc ▸ (h.thread t).live hl)
    fun w' hw' => absurd (hidle.symm.trans hw') (by simp)

/-- Staging an operation whose request is answered at once. -/
theorem Inv.simulates_stage_immediate (h : Inv cfg s.st s.cores C ρ) (hst : s.Staged cfg C)
    (hl : (s.cores t).Live) (hb : cfg.batching = false) (w : Write V) :
    s.Simulates cfg { s.append cfg t w with acked := (s.append cfg t w).acked ++ [s.nextEntry cfg t w] } C C
      [.stage t (s.nextEntry cfg t w), .ack t 1] := by
  obtain ⟨hreq, hacked⟩ := s.append_hist cfg t w
  refine ⟨h.staged_append hst hl rfl (by rw [hreq]; exact hst.held) (by rw [hreq]; exact hst.owner), ?_⟩
  have hpipe := h.pipeline_append hst hl w
  have hnil := hst.held hb t
  have hheld : update (update s.batchingRequests t [s.nextEntry cfg t w]) t [] =
      s.batchingRequests := by
    rw [update_idem, ← hnil, update_eq_self]
  have hack := entriesBy_update s.acked (s.nextEntry cfg t w)
  generalize s.append cfg t w = s₁ at *
  have hnew : ({ s₁ with acked := s₁.acked ++ [s.nextEntry cfg t w] } : Cluster Tid V).pipeline C =
      { s₁.pipeline C with acked := fun t' => entriesBy t' (s.acked ++ [s.nextEntry cfg t w]) } := by
    rw [← hacked]
    rfl
  rw [hnew, hpipe, hack]
  simp only [Transition.run, Pipeline.step, hb, pipeline, hnil, nil_append, update_self,
    take_succ_cons, take_zero, drop_succ_cons, drop_zero, hheld]
  rfl

/-- Staging an operation whose request is kept back. -/
theorem Inv.simulates_stage_batched (h : Inv cfg s.st s.cores C ρ) (hst : s.Staged cfg C)
    (hl : (s.cores t).Live) (hb : cfg.batching = true) (w : Write V) :
    s.Simulates cfg { s.append cfg t w with
      batchingRequests := update (s.append cfg t w).batchingRequests t
        ((s.append cfg t w).batchingRequests t ++ [s.nextEntry cfg t w]) } C C [.stage t (s.nextEntry cfg t w)] := by
  obtain ⟨hreq, hacked⟩ := s.append_hist cfg t w
  refine ⟨h.staged_append hst hl rfl (fun hx => absurd (hb.symm.trans hx) nofun) (fun t' e he => ?_), ?_⟩
  · replace he : e ∈ update s.batchingRequests t (s.batchingRequests t ++ [s.nextEntry cfg t w]) t' := by
      rw [← hreq]
      exact he
    by_cases ht : t' = t
    · rw [ht, update_self] at he
      rw [ht]
      rcases mem_append.mp he with he | he
      · exact hst.owner t e he
      · rw [mem_singleton.mp he]
        rfl
    · rw [update_of_ne ht] at he
      exact hst.owner t' e he
  · have hpipe := h.pipeline_append hst hl w
    generalize s.append cfg t w = s₁ at *
    have hnew : ({ s₁ with
        batchingRequests := update s₁.batchingRequests t
          (s₁.batchingRequests t ++ [s.nextEntry cfg t w]) } : Cluster Tid V).pipeline C =
        { s₁.pipeline C with
          held := update s.batchingRequests t (s.batchingRequests t ++ [s.nextEntry cfg t w]) } := by
      rw [← hreq]
      rfl
    rw [hnew, hpipe]
    rfl

/-- Staging an operation, with the answers its request handler gives. -/
theorem Inv.simulates_append (h : Inv cfg s.st s.cores C ρ) (hst : s.Staged cfg C) (hl : (s.cores t).Live)
    {w : Write V} {ret : Bool} (hctl : (s.kn t).ctl = .write w ret .retry) :
    s.Simulates cfg ((s.append cfg t w).acknowledge cfg t ret (s.nextEntry cfg t w)) C C
      (if cfg.batching then
        (if ret then [.ack t (s.batchingRequests t).length] else []) ++ [.stage t (s.nextEntry cfg t w)]
      else [.stage t (s.nextEntry cfg t w), .ack t 1]) := by
  unfold acknowledge
  by_cases hb : cfg.batching = true
  · rw [if_pos hb, if_pos hb]
    cases ret with
    | false => exact h.simulates_stage_batched hst hl hb w
    | true =>
      have hack := hst.simulates_respondBatched (t := t) fun _ => unsent_of_nil (hst.fresh t w hctl)
      have hstage := Inv.simulates_stage_batched (s := s.respondBatched t) h (hst.respondBatched t) hl hb w
      have hcomm : (s.respondBatched t).append cfg t w = (s.append cfg t w).respondBatched t := by
        simp only [Cluster.append, if_pos hb]
        rfl
      rw [hcomm] at hstage
      exact hack.trans hstage
  · rw [if_neg hb, if_neg hb]
    exact h.simulates_stage_immediate hst hl (by simpa using hb) w

/-- A pass takes its next step. -/
theorem Inv.simulates_passStep (h : Inv cfg s.st s.cores C ρ) (hst : s.Staged cfg C) {st' : Storage Tid V}
    (hst' : s.st.passStep t = some st') :
    s.Simulates cfg { s with st := st' } C (s.chainsAfter C (.passStep t)) (s.labels cfg (.passStep t)) := by
  unfold Storage.passStep at hst'
  cases hp : s.st.progressTable t with
  | none => simp [hp] at hst'
  | some p =>
    simp only [hp, Option.bind_some] at hst'
    have hmoves : ∀ st', s.st.PassMoves st' t → s.st.nextOplog p = none →
        ¬ (p.check = none ∧ p.phase = .scan ∧ ¬ p.offset < (s.st.mem p.next).offset ∧ p.next ≠ p.first) →
        s.Simulates cfg { s with st := st' } C (s.chainsAfter C (.passStep t)) (s.labels cfg (.passStep t)) := by
      intro st' hm hnone hcut
      simp only [chainsAfter, labels, hp, Option.bind_some, if_neg hcut, hnone]
      exact (hm.sameLogs hst).simulates (hst.of_storage st')
    cases hcheck : p.check with
    | some a =>
      simp only [hcheck, Option.some.injEq] at hst'
      subst hst'
      exact hmoves _ (passMoves_reclaim hp a) (by simp [nextOplog, hcheck]) (by simp [hcheck])
    | none =>
      simp only [hcheck] at hst'
      cases hphase : p.phase with
      | walk =>
        simp only [hphase, Option.some.injEq] at hst'
        subst hst'
        exact hmoves _ (passMoves_walkStep hp hphase) (by simp [nextOplog, hphase]) (by simp [hphase])
      | stop =>
        simp only [hphase, Option.some.injEq] at hst'
        subst hst'
        exact hmoves _ (passMoves_finishPass p.kind fun a =>
          mpos_of_ne hp fun hx => absurd (hphase.symm.trans hx) (by simp))
          (by simp [nextOplog, hphase]) (by simp [hphase])
      | scan =>
        simp only [hphase] at hst'
        simp only [chainsAfter, labels, hp, Option.bind_some]
        by_cases hlt : p.offset < (s.st.mem p.next).offset
        · obtain ⟨o, -, -, hentry, -⟩ := h.scan_entry hp hphase hlt
          simp only [hlt, if_true, hentry, Option.some.injEq] at hst'
          subst hst'
          have hnext : s.st.nextOplog p = some o := by simp [nextOplog, hcheck, hphase, hlt, hentry]
          rw [if_neg (by simp [hlt]), hnext]
          refine ⟨hst.of_storage _, ?_⟩
          obtain ⟨rest, hpending, hpipe⟩ := h.pipeline_apply hst hp hnext (q := { p with
            phase := .scan, offset := p.offset + o.size, check := s.st.checkAfter p.next o })
            ⟨hphase.symm, rfl, rfl⟩
          have hpend : (s.pipeline C).pending t = ⟨t, ⟨p.next, p.offset⟩, o⟩ :: rest := hpending
          simp only [Transition.run, Pipeline.step, hpend]
          rw [hpipe]
          rfl
        · simp only [hlt, if_false, Option.some.injEq] at hst'
          subst hst'
          have hpos := ((h.log t).pass p hp).pos
          simp only [PassPos, hphase] at hpos
          obtain ⟨pre, hC, -, -, -, -, -, -, hle⟩ := hpos
          have hdone : p.offset = (s.st.mem p.next).offset := by omega
          have hsame := h.sameLogs_finishBlock hst hp hphase hdone
          have hnone : s.st.nextOplog p = none := by simp [nextOplog, hlt]
          rw [hnone]
          by_cases hfirst : p.next = p.first
          · rw [if_neg (by simp [hfirst])]
            exact hsame.simulates (hst.of_storage _)
          · rw [if_pos ⟨hcheck, hphase, hlt, hfirst⟩]
            obtain ⟨init, hinit⟩ := h.scan_prev hp hphase hfirst
            refine ⟨(hst.of_storage _).dropLast hinit, ?_⟩
            rw [pipeline_dropLast, hsame.pipeline_eq]
            · rfl
            · intro a ha
              obtain rfl : p.next = a := by simpa [hC] using ha
              have hmem : p.next ∈ C t := by rw [hC]; simp
              obtain ⟨hpub, hmpos⟩ := hsame.linked t p.next hmem
              rw [pendingIn_congr hpub hmpos]
              exact pendingIn_eq_nil (by rw [mpos_scan hp hphase, hdone])

/-- A step of `put` or `remove`. -/
theorem Inv.simulates_stepWrite (h : Inv cfg s.st s.cores C ρ) (hst : s.Staged cfg C) {w : Write V} {ret : Bool}
    {stage : WriteStage} (hctl : (s.kn t).ctl = .write w ret stage)
    (hs' : s.stepWrite cfg t w ret stage = some s') :
    s.Simulates cfg s' C (s.chainsAfter C (.advance t)) (s.labels cfg (.advance t)) := by
  simp only [chainsAfter, labels, hctl]
  cases stage with
  | retry =>
    have hview : (s.cores t).view = .quiet := by simp [cores, Kn.core, hctl, Ctl.view]
    simp only [Cluster.stepWrite] at hs'
    split_ifs at hs' with h0 hfit hb
    all_goals
      cases hs'
      have hl : (s.cores t).Live := ⟨by rw [hview]; rfl, h0, by rw [hview]; rfl⟩
    · simp only [if_pos hfit]
      exact h.simulates_append hst hl hctl
    · simp only [if_neg hfit, if_pos hb]
      exact h.simulates_sendUnflushed hst hl hview hb (by simp)
    · simp only [if_neg hfit, if_neg hb]
      exact h.simulates_sendHeader hst hl (by simpa using hb) (by simp)
  | header =>
    cases hs'
    exact h.simulates_publishBatch hst (by simp [cores, Kn.core, hctl, Ctl.view]) (by simp)
  | clean =>
    cases hs'
    exact (h.sameLogs_rotate hst hctl _).simulates
      (hst.of_kn rfl rfl (fun hne => absurd rfl hne) fun _ _ => rfl)
  | link =>
    cases hs'
    have hview : (s.cores t).view.linking = true := by simp [cores, Kn.core, hctl, Ctl.view]
    have hrole := (h.thread t).linking hview
    have hs'' : ((s.modBlock (s.kn t).nonReplicatedAlloc fun b =>
        { b with next := s.st.logMappingTable t }).setKn t
          { s.kn t with
            pool := { (s.kn t).pool with next := s.st.logMappingTable t }, ctl := .write w ret .slot }).st =
        s.st.modBlock (s.kn t).nonReplicatedAlloc fun b => { b with next := s.st.logMappingTable t } := rfl
    refine (h.sameLogs_modBlock hst hs'' rfl rfl rfl ⟨rfl, rfl, rfl⟩ ⟨[], (append_nil _).symm⟩ rfl
      fun t' ha => .of_eq rfl rfl).simulates (hst.of_kn rfl rfl (fun hne => hst.head t hne) (by simp))
  | slot =>
    cases hs'
    have hview : (s.cores t).view.linking = true := by simp [cores, Kn.core, hctl, Ctl.view]
    have hcrash : (s.cores t).view.crashed = false := by simp [cores, Kn.core, hctl, Ctl.view, CtlView.quiet]
    have hnil : (s.kn t).pool.buffer = [] :=
      ((h.thread t).reset hcrash fun hl => absurd (hview.symm.trans hl.2.2) (by simp)).buffer
    refine ⟨hst.of_update rfl hst.held hst.owner (fun t' ht => update_of_ne ht _ _)
      (fun hne => absurd hnil hne) fun _ _ => hnil, ?_⟩
    rw [h.pipeline_slot hctl]
    rfl

/-- A thread that is not in a call and has published its batch has nothing unsent. -/
theorem Inv.unsent_of_flushed (h : Inv cfg s.st s.cores C ρ) (hcrash : (s.cores t).view.crashed = false)
    (hb : cfg.batching = true) (hflushed : ¬ (s.kn t).flushedOffset < (s.kn t).batchedOffset) : s.unsent t = [] := by
  by_cases hl : (s.cores t).Live
  · have hok := (h.thread t).liveOk hl
    obtain ⟨hoff, -, hle⟩ := hok.batched hb
    have htail := hok.tail
    rw [hb] at htail
    refine h.unsent_eq_nil hl ?_
    change bytesOf (s.cores t).pool.buffer ≤ (s.st.mem (s.cores t).alloc).offset
    rw [hoff, ← htail]
    exact Nat.not_lt.mp hflushed
  · exact unsent_of_nil ((h.thread t).reset hcrash hl).buffer

omit [Fintype Tid] in
/-- The end of `merge` on a thread with nothing unsent. -/
theorem Cluster.Staged.simulates_afterMerge (hst : s.Staged cfg C) (hnil : s.unsent t = []) (m : AfterMerge) :
    s.Simulates cfg (s.afterMerge t m) C C
      (if m = .done true then [.ack t (s.batchingRequests t).length] else []) := by
  cases m with
  | done clear =>
    cases clear with
    | false => exact hst.move rfl rfl rfl nofun ⟨rfl, rfl, rfl⟩ rfl
    | true =>
      rw [if_pos rfl]
      have hmove : s.Simulates cfg (s.setKn t { s.kn t with
          indirectPointerCache := fun _ => none, ctl := .idle }) C C [] :=
        hst.move rfl rfl rfl nofun ⟨rfl, rfl, rfl⟩ rfl
      have hnil' : (s.setKn t { s.kn t with indirectPointerCache := fun _ => none, ctl := .idle }).unsent t = [] := by
        have := congrFun (congrArg Pipeline.unsent (Option.some.inj hmove.run)) t
        exact this.symm.trans hnil
      exact hmove.trans (hmove.staged.simulates_respondBatched fun _ => hnil')
  | install k => exact hst.move rfl rfl rfl nofun ⟨rfl, rfl, rfl⟩ rfl

/-- The start of `merge` on an idle thread. -/
theorem Inv.simulates_startMerge (h : Inv cfg s.st s.cores C ρ) (hst : s.Staged cfg C)
    (hview : (s.cores t).view = .quiet) (m : AfterMerge) :
    s.Simulates cfg (s.startMerge cfg t m) C C (s.mergeLabels cfg t m) := by
  unfold Cluster.startMerge Cluster.mergeLabels
  split_ifs with h0 hm hb hflushed
  · have hreset := (h.thread t).reset (by rw [hview]; rfl) fun hl => hl.2.1 h0
    have := hst.simulates_afterMerge (t := t) (unsent_of_nil hreset.buffer) m
    rwa [if_pos hm] at this
  · have hreset := (h.thread t).reset (by rw [hview]; rfl) fun hl => hl.2.1 h0
    have := hst.simulates_afterMerge (t := t) (unsent_of_nil hreset.buffer) m
    rwa [if_neg hm] at this
  · exact h.simulates_sendUnflushed hst ⟨by rw [hview]; rfl, h0, by rw [hview]; rfl⟩ hview hb nofun
  · exact hst.move rfl rfl rfl nofun ⟨rfl, rfl, rfl⟩ rfl
  · exact h.simulates_sendHeader hst ⟨by rw [hview]; rfl, h0, by rw [hview]; rfl⟩ (by simpa using hb) nofun

end Dinomo
