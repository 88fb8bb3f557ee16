import Dinomo.Invariant.Merge
import Dinomo.Steps

/-!
# Every orderly step keeps the invariant

`Orderly` collects what the invariant needs from a step: keys are not the empty marker of the index,
replicated writes find and swing the indirect pointer the index holds for their key, an indirect
pointer is installed for a key that has an oplog in the index, and an oplog that a merge supersedes
lies in a block that no other log and no other pass uses.
-/

namespace Dinomo

open Function Storage Cluster List Option CtlView Ctl

variable {Tid V : Type*} {cfg : Config}

/-- What a call under way relies on: its keys, and a replicated block to be given up. -/
def Kn.CallOk (n : Kn V) : Prop :=
  match n.ctl with
  | .write w _ _ => w.key ≠ 0
  | .flush (.merge (.install k)) => k ≠ 0
  | .merge (.install k) => k ≠ 0
  | .install k => k ≠ 0
  | .removeIndirect k => k ≠ 0
  | .putReplicated w stage => w.key ≠ 0 ∧ w.opType.isWrite ∧ (stage = .syncValid → n.replicatedAlloc ≠ 0)
  | _ => True

open Kn

/-- What the invariant needs from an event. -/
def Cluster.Orderly (s : Cluster Tid V) : Event Tid V → Prop
  | .invoke _ (.write w) => w.key ≠ 0
  | .invoke _ (.swap k _) => k ≠ 0
  | .invoke _ (.putReplicated k _ _ _ _) => k ≠ 0
  | .advance t =>
    match (s.kn t).ctl with
    | .putReplicated w .find => (s.kn t).indirectPointerCache w.key ≠ none ∨ s.st.ht.get w.key ≠ none
    | .putReplicated w (.cas c expected) => s.st.cells c = expected → s.st.ht.get w.key = some (.indirect c)
    | .putReplicated _ .syncValid => (s.kn t).replicatedAllocNumEntries =
        (s.st.mem (s.kn t).replicatedAlloc).localInvalidCounter +
          (s.st.mem (s.kn t).replicatedAlloc).globalInvalidCounter →
        s.st.ComparedOnce (s.kn t).replicatedAlloc
    | .putReplicated _ (.faa _ (some (.oplog p)) _) => (s.st.mem p.block).lastValid →
        s.st.ComparedOnce p.block ∧ (s.st.Compared p.block → ∀ t', ¬ s.st.Linked t' p.block)
    | _ => True
  | .install t _ => ∀ k, (s.kn t).ctl = .install k → ∃ p, s.st.ht.get k = some (.oplog p)
  | .passStep t => s.st.SupersedesSafely t
  | _ => True

/-- The blocks of the logs after an event: a new block is linked in front, a merged one is cut off. -/
def Cluster.chainsAfter [DecidableEq Tid] (s : Cluster Tid V) (C : Tid → List Addr) :
    Event Tid V → Tid → List Addr
  | .advance t =>
    match (s.kn t).ctl with
    | .write _ _ .slot => Function.update C t ((s.kn t).nonReplicatedAlloc :: C t)
    | _ => C
  | .passStep t =>
    match s.st.progressTable t with
    | some p =>
      if p.check = none ∧ p.phase = .scan ∧ ¬ p.offset < (s.st.mem p.next).offset ∧ p.next ≠ p.first then
        Function.update C t (C t).dropLast
      else C
    | none => C
  | _ => C

section

variable [DecidableEq Tid] [Fintype Tid] {s s' : Cluster Tid V} {C : Tid → List Addr} {ρ : Addr → Role Tid}
  {t : Tid}

/-- The invariant of a cluster, with the blocks of each log. -/
structure Cluster.Ok (cfg : Config) (s : Cluster Tid V) (C : Tid → List Addr) : Prop where
  inv : ∃ ρ, Inv cfg s.st s.cores C ρ
  calls : ∀ t, (s.kn t).CallOk

omit [Fintype Tid] in
/-- A step that changes nothing the invariant reads of a thread. -/
theorem Cluster.cores_setKn_of_core {n : Kn V} (h : n.core = s.cores t) : (s.setKn t n).cores = s.cores := by
  rw [cores_setKn, h, update_eq_self]

/-- A pass takes its next step. -/
theorem Inv.passStep {st st' : Storage Tid V} {K : Tid → KnCore V} (h : Inv cfg st K C ρ)
    (hsafe : st.SupersedesSafely t) (hst' : st.passStep t = some st') :
    ∃ ρ', Inv cfg st' K (match st.progressTable t with
      | some p =>
        if p.check = none ∧ p.phase = .scan ∧ ¬ p.offset < (st.mem p.next).offset ∧ p.next ≠ p.first then
          update C t (C t).dropLast
        else C
      | none => C) ρ' := by
  unfold Storage.passStep at hst'
  cases hp : st.progressTable t with
  | none => simp [hp] at hst'
  | some p =>
    simp only [hp] at hst' ⊢
    cases hcheck : p.check with
    | some a =>
      simp only [hcheck, some.injEq] at hst'
      subst hst'
      rw [if_neg (by simp)]
      exact h.reclaim hp hcheck
    | none =>
      simp only [hcheck] at hst'
      cases hphase : p.phase with
      | walk =>
        simp only [hphase, some.injEq] at hst'
        subst hst'
        rw [if_neg (by simp)]
        exact ⟨ρ, h.walkStep hp hphase hcheck⟩
      | stop =>
        simp only [hphase, some.injEq] at hst'
        subst hst'
        rw [if_neg (by simp)]
        have hpass := (h.log t).pass p hp
        have hpos := hpass.pos
        simp only [PassPos, hphase] at hpos
        exact ⟨ρ, h.finishPass hpos hpass.request hpass.failover fun a _ =>
          mpos_of_ne hp fun hx => by rw [hphase] at hx; cases hx⟩
      | scan =>
        simp only [hphase] at hst'
        by_cases hlt : p.offset < (st.mem p.next).offset
        · obtain ⟨o, -, -, hentry, -⟩ := h.scan_entry hp hphase hlt
          simp only [hlt, if_true, hentry, some.injEq] at hst'
          subst hst'
          rw [if_neg (by simp [hlt])]
          have hnext : st.nextOplog p = some o := by simp [nextOplog, hcheck, hphase, hlt, hentry]
          have happly := h.applyStep hp hnext hsafe
          rw [hphase] at happly
          exact ⟨ρ, happly⟩
        · simp only [hlt, if_false, some.injEq] at hst'
          subst hst'
          by_cases hfirst : p.next = p.first
          · rw [if_neg (by simp [hfirst])]
            exact ⟨ρ, h.finishHead hp hphase hlt hfirst⟩
          · rw [if_pos ⟨rfl, rfl, hlt, hfirst⟩]
            exact ⟨_, h.cutBlock hp hphase hlt hfirst⟩

omit [Fintype Tid] in
/-- An acknowledgement is not seen by the invariant. -/
theorem Cluster.acknowledge_eq (cfg : Config) (t : Tid) (s : Cluster Tid V) (ret : Bool) (e : LogEntry Tid V) :
    (s.acknowledge cfg t ret e).st = s.st ∧ (s.acknowledge cfg t ret e).cores = s.cores := by
  unfold acknowledge
  cases cfg.batching <;> cases ret <;> exact ⟨rfl, rfl⟩

variable {w : Write V}

/-- A step of `put` or `remove`. -/
theorem Inv.stepWrite (h : Inv cfg s.st s.cores C ρ) {ret : Bool} {stage : WriteStage}
    (hctl : (s.kn t).ctl = .write w ret stage) (hkey : w.key ≠ 0)
    (hs' : s.stepWrite cfg t w ret stage = some s') :
    ∃ ρ', Inv cfg s'.st s'.cores
      (if stage = .slot then update C t ((s.kn t).nonReplicatedAlloc :: C t) else C) ρ' := by
  cases stage with
  | retry =>
    have hview : (s.cores t).view = .quiet := by simp [cores, core, hctl, view]
    rw [if_neg (by simp)]
    simp only [Cluster.stepWrite] at hs'
    split_ifs at hs' with h0 hfit hb
    · cases hs'
      obtain ⟨hst, hcores⟩ := acknowledge_eq cfg t (s.append cfg t w) ret
        (s.nextEntry cfg t w)
      rw [hst, hcores]
      exact ⟨ρ, h.append hctl h0 hkey⟩
    · cases hs'
      exact ⟨ρ, h.sendUnflushed ⟨by rw [hview]; rfl, h0, by rw [hview]; rfl⟩ hview hb rfl⟩
    · cases hs'
      exact ⟨ρ, h.sendHeader ⟨by rw [hview]; rfl, h0, by rw [hview]; rfl⟩ hview (by simpa using hb)
        ⟨rfl, rfl, rfl, rfl, rfl, rfl⟩ rfl⟩
  | header =>
    have hview : (s.cores t).view = { (quiet : CtlView V) with sent := true } := by
      simp [cores, core, hctl, view]
    rw [if_neg (by simp)]
    cases hs'
    exact ⟨ρ, h.publishBatch ((h.thread t).sentLive (by rw [hview])) hview ⟨rfl, rfl, rfl, rfl, rfl, rfl⟩ rfl⟩
  | clean =>
    rw [if_neg (by simp)]
    exact h.rotate hctl hs'
  | link =>
    rw [if_neg (by simp)]
    exact ⟨ρ, h.link hctl hs'⟩
  | slot =>
    rw [if_pos rfl]
    exact ⟨_, h.slot hctl hs'⟩

omit [Fintype Tid] in
/-- What the end of `merge` changes of the threads. -/
theorem Cluster.afterMerge_eq (s : Cluster Tid V) (m : AfterMerge) :
    (s.afterMerge t m).st = s.st ∧
      (s.afterMerge t m).cores = update s.cores t { s.cores t with view := .quiet } := by
  cases m with
  | done clear =>
    unfold afterMerge
    cases clear
    · exact ⟨rfl, cores_setCtl _ _ _⟩
    · exact ⟨rfl, cores_setKn _ _ _⟩
  | install k => exact ⟨rfl, cores_setKn _ _ _⟩

/-- The start of `merge` on an idle thread. -/
theorem Inv.startMerge (h : Inv cfg s.st s.cores C ρ) (hview : (s.cores t).view = .quiet) (m : AfterMerge) :
    Inv cfg (s.startMerge cfg t m).st (s.startMerge cfg t m).cores C ρ := by
  unfold Cluster.startMerge
  split_ifs with h0 hb hflushed
  · obtain ⟨hst, hcores⟩ := s.afterMerge_eq (t := t) m
    rw [hst, hcores, ← hview, update_eq_self]
    exact h
  · exact h.sendUnflushed ⟨by rw [hview]; rfl, h0, by rw [hview]; rfl⟩ hview hb rfl
  · exact h.await ⟨by rw [hview]; rfl, h0, by rw [hview]; rfl⟩ hview hb hflushed ⟨rfl, rfl, rfl, rfl, rfl, rfl⟩ rfl
  · exact h.sendHeader ⟨by rw [hview]; rfl, h0, by rw [hview]; rfl⟩ hview (by simpa using hb)
      ⟨rfl, rfl, rfl, rfl, rfl, rfl⟩ rfl

/-- The header write that ends a flush. -/
theorem Inv.stepFlush (h : Inv cfg s.st s.cores C ρ) {after : AfterFlush} (hctl : (s.kn t).ctl = .flush after) :
    Inv cfg (s.stepFlush t after).st (s.stepFlush t after).cores C ρ := by
  have hview : (s.cores t).view = { (quiet : CtlView V) with sent := true } := by
    simp [cores, core, hctl, view]
  have hlive := (h.thread t).sentLive (by rw [hview])
  cases after with
  | done => exact h.publishBatch hlive hview ⟨rfl, rfl, rfl, rfl, rfl, rfl⟩ rfl
  | merge m => exact h.publishBatch hlive hview ⟨rfl, rfl, rfl, rfl, rfl, rfl⟩ rfl

/-- A thread goes on after its merge request was answered. -/
theorem Inv.resume (h : Inv cfg s.st s.cores C ρ) {m : AfterMerge} (hctl : (s.kn t).ctl = .merge m)
    (hreply : s.st.mergeReply t = true) :
    Inv cfg { s.st with mergeReply := update s.st.mergeReply t false }
      (update s.cores t { s.cores t with view := .quiet }) C ρ := by
  have hview : (s.cores t).view = { (quiet : CtlView V) with published := true, waiting := true } := by
    simp [cores, core, hctl, view]
  have ht := h.thread t
  have hlive := ht.publishedLive (by rw [hview])
  have hcrash : (s.cores t).view.crashed = false := by rw [hview]; rfl
  have hok := ht.liveOk hlive
  obtain ⟨hbuf, hoff⟩ := hok.published (by rw [hview])
  have hlive' : ({ s.cores t with view := .quiet } : KnCore V).Live := ⟨rfl, hlive.2.1, rfl⟩
  have hactive : ({ s.cores t with view := .quiet } : KnCore V).ReplActive → (s.cores t).ReplActive :=
    fun hr => ⟨hcrash, hr.2.1, by rw [hview]; rfl⟩
  have hinflight : (s.cores t).view.inflight = none := by rw [hview]; rfl
  refine h.viewStep _ ?_ (by simp [quiet]) ?_ (fun p hp hk => ?_) (fun p hp hk => ?_) (fun hx => ?_)
    (fun t' ht' => update_of_ne ht' _ _) (fun hx => ?_)
  · refine
      { raddrs := ht.raddrs
        nodup_raddrs := ht.nodup_raddrs
        linking := by simp [quiet]
        slotNext := by simp [quiet]
        live := fun _ => ht.live hlive
        liveOk := fun _ => ?_
        reset := fun _ hx => absurd hlive' hx
        complete := fun _ hx => absurd hlive' hx
        poolCounters := ht.poolCounters
        repl := fun hr => ht.repl (hactive hr)
        repl_only := fun a ha => ⟨(ht.repl_only a ha).1, rfl⟩
        replOk := fun hr => ?_
        inflight := by simp [quiet]
        sentLive := by simp [quiet]
        publishedLive := by simp [quiet] }
    · refine ⟨hok.aligned, hok.keys, hok.tail, hok.isPrefix, hok.valid, hok.immediate, hok.batched,
        fun hb _ => ?_, (by simp [quiet]), (by simp [quiet])⟩
      change bytesOf (s.st.mem (s.cores t).alloc).buffer = (s.cores t).flushedOffset
      rw [hbuf, ← hoff]
      exact (hok.batched hb).1
    · have hro := ht.replOk (hactive hr)
      have hb := hro.buffer
      rw [hinflight] at hb
      exact ⟨hb, hro.writes⟩
  · rw [hview]
    exact fun hx => by rcases hx with hx | hx <;> cases hx
  · have := (h.log t).request_open p hp hk
    rw [hreply] at this
    cases this
  · have := ((h.log t).pass p hp).failover hk
    rw [hcrash] at this
    cases this
  · rw [update_self] at hx
    cases hx
  · have := ((h.log t).failover hx).1
    rw [hcrash] at this
    cases this

/-- A thread crashes. -/
theorem Inv.crash (h : Inv cfg s.st s.cores C ρ) :
    Inv cfg s.st (update s.cores t { s.cores t with view := (crashed : Ctl V).view }) C ρ := by
  have ht := h.thread t
  refine h.viewStep s.st.mergeReply ?_ nofun (fun _ => Or.inl rfl)
    (fun p hp hk => ⟨Or.inr rfl, (h.log t).request_open p hp hk⟩) (fun _ _ _ => rfl)
    (fun hx => ⟨Or.inr rfl, hx⟩) (fun _ _ => rfl) (fun _ => rfl)
  exact
    { raddrs := ht.raddrs
      nodup_raddrs := ht.nodup_raddrs
      linking := nofun
      slotNext := nofun
      live := fun hl => absurd hl.1 nofun
      liveOk := fun hl => absurd hl.1 nofun
      reset := nofun
      complete := nofun
      poolCounters := ht.poolCounters
      repl := fun hr => absurd hr.1 nofun
      repl_only := fun a ha => ⟨(ht.repl_only a ha).1, rfl⟩
      replOk := fun hr => absurd hr.1 nofun
      inflight := nofun
      sentLive := nofun
      publishedLive := nofun }

/-- A replicated write reads, or moves on without touching the pool. -/
theorem Inv.setCtl_of_view (h : Inv cfg s.st s.cores C ρ) {c : Ctl V} (hc : c.view = (s.cores t).view) :
    Inv cfg (s.setCtl t c).st (s.setCtl t c).cores C ρ := by
  rw [cores_setCtl, hc, update_eq_self]
  exact h

/-- A thread without a replicated block asks for one. -/
theorem Inv.refill (h : Inv cfg s.st s.cores C ρ) (hview : (s.cores t).view = .quiet)
    (h0 : (s.cores t).replAlloc = 0) :
    Inv cfg s.st (update s.cores t { s.cores t with view := .refilling }) C ρ := by
  have ht := h.thread t
  have hnone : ∀ a, ρ a ≠ .repl t := by
    intro a ha
    have := h.allocated a fun hx => by rw [ha] at hx; cases hx
    rw [(ht.repl_only a ha).1, h0] at this
    exact h.zero_allocated this
  have hold : (s.cores t).view.Still := by rw [hview]; exact still_quiet
  refine h.coreStep hold.waiting hold.crashed (by rw [hview]; rfl) rfl rfl ?_
  exact ht.still rfl hold still_refilling (fun _ _ => .of_eq rfl) ht.raddrs ht.nodup_raddrs
    (fun hx => absurd hx.2.2 nofun) (fun a ha => absurd ha (hnone a)) (fun hx => absurd hx.2.2 nofun) nofun

/-- A replicated write reads the `offset` field of the oplog it has superseded. -/
theorem Inv.readOld (h : Inv cfg s.st s.cores C ρ) {p : Ptr}
    (hview : (s.cores t).view = .writing w (some (p, none))) :
    Inv cfg s.st (update s.cores t { s.cores t with
      view := .writing w (some (p, some ((s.st.oplogAt p).elim 0 Oplog.offset))) }) C ρ := by
  have ht := h.thread t
  have hold : (s.cores t).view.Still := by rw [hview]; exact still_writing _ _
  obtain ⟨⟨o, ho, hoff⟩, -⟩ := h.owed t p none (by rw [hview]; rfl)
  have hread : (s.st.oplogAt p).elim 0 Oplog.offset = p.off := by
    rw [oplogAt, ← hoff, LogBlock.entryAt_of_mem (h.block p.block).aligned ho]
    rfl
  rw [hread]
  obtain ⟨hworker, -, -⟩ := (h.log t).running hold.waiting hold.crashed
  refine h.viewStep s.st.mergeReply ?_ (fun q off hx => ?_) (fun _ => Or.inr rfl) (fun q hq hk => ?_)
    (fun q hq hk => ?_) (fun hx => ?_) (fun _ _ => rfl) (fun hx => ?_)
  · refine ht.still rfl hold (still_writing _ _) (fun _ _ => .of_eq rfl) ht.raddrs ht.nodup_raddrs
      (fun hr => ht.repl ⟨hold.crashed, hr.2.1, by rw [hview]; rfl⟩)
      (fun a ha => ⟨(ht.repl_only a ha).1, rfl⟩) (fun hr => ?_) (fun _ => ht.inflight (by rw [hview]; rfl))
    have hro := ht.replOk ⟨hold.crashed, hr.2.1, by rw [hview]; rfl⟩
    have hb := hro.buffer
    rw [hview] at hb
    exact ⟨hb, hro.writes⟩
  · obtain ⟨rfl, rfl⟩ := Prod.mk.inj (some.inj hx)
    exact ⟨⟨none, by rw [hview]; rfl⟩, fun n hn => (some.inj hn).symm⟩
  · exact absurd ((hworker q hq).symm.trans hk) (by simp)
  · exact absurd ((hworker q hq).symm.trans hk) (by simp)
  · have := ((h.log t).reply hx).1
    simp [hold.waiting, hold.crashed] at this
  · have := ((h.log t).failover hx).1
    rw [hold.crashed] at this
    cases this

/-- A step of `putReplicated`. -/
theorem Inv.stepPutReplicated (h : Inv cfg s.st s.cores C ρ) {stage : PutReplStage}
    (hctl : (s.kn t).ctl = .putReplicated w stage) (hkey : w.key ≠ 0) (hwrite : w.opType.isWrite)
    (hsync : stage = .syncValid → (s.kn t).replicatedAlloc ≠ 0)
    (hfind : stage = .find → (s.kn t).indirectPointerCache w.key ≠ none ∨ s.st.ht.get w.key ≠ none)
    (hcas : ∀ c expected, stage = .cas c expected → s.st.cells c = expected →
      s.st.ht.get w.key = some (.indirect c))
    (honce : stage = .syncValid → (s.kn t).replicatedAllocNumEntries =
      (s.st.mem (s.kn t).replicatedAlloc).localInvalidCounter +
        (s.st.mem (s.kn t).replicatedAlloc).globalInvalidCounter →
      s.st.ComparedOnce (s.kn t).replicatedAlloc)
    (hlast : ∀ c p off, stage = .faa c (some (.oplog p)) off → (s.st.mem p.block).lastValid →
      s.st.ComparedOnce p.block ∧ (s.st.Compared p.block → ∀ t', ¬ s.st.Linked t' p.block))
    (hs' : s.stepPutReplicated cfg t w stage = some s') : ∃ ρ', Inv cfg s'.st s'.cores C ρ' := by
  have hview : (s.cores t).view = (putReplicated w stage).view := by simp [cores, core, hctl]
  cases stage with
  | start =>
    have hactive : (s.kn t).replicatedAlloc ≠ 0 → (s.cores t).ReplActive := fun h0 =>
      ⟨by rw [hview]; rfl, h0, by rw [hview]; rfl⟩
    simp only [Cluster.stepPutReplicated] at hs'
    split_ifs at hs' with h0 hfit
    · cases hs'
      rw [cores_setCtl]
      exact ⟨ρ, h.refill hview h0⟩
    · cases hs'
      rw [cores_setCtl]
      exact ⟨ρ, h.writeReplicated (hactive h0) hview hkey hwrite⟩
    · cases hs'
      rw [cores_setCtl]
      exact ⟨ρ, h.syncOffset (hactive h0) hview⟩
  | syncValid =>
    cases hs'
    rw [cores_setCtl]
    exact ⟨_, h.retire ⟨by rw [hview]; rfl, hsync rfl, by rw [hview]; rfl⟩ hview (honce rfl)⟩
  | newBlock =>
    simp only [Cluster.stepPutReplicated] at hs'
    split_ifs at hs' with h0
    cases hs'
    rw [cores_setKn]
    exact h.takeReplicated hview h0
  | find =>
    simp only [Cluster.stepPutReplicated] at hs'
    cases hc : (s.kn t).indirectPointerCache w.key with
    | some e =>
      simp only [hc, some.injEq] at hs'
      subst hs'
      exact ⟨ρ, h.setCtl_of_view hview.symm⟩
    | none =>
      cases hg : s.st.ht.get w.key with
      | none =>
        rcases hfind rfl with hx | hx
        · exact absurd hc hx
        · exact absurd hg hx
      | some v =>
        cases v with
        | oplog p => simp [hc, hg] at hs'
        | indirect c =>
          simp only [hc, hg, some.injEq] at hs'
          subst hs'
          exact ⟨ρ, h.setCtl_of_view hview.symm⟩
  | readPtr c =>
    cases hs'
    exact ⟨ρ, h.setCtl_of_view hview.symm⟩
  | cas c expected =>
    simp only [Cluster.stepPutReplicated] at hs'
    split_ifs at hs' with hx
    · cases hs'
      have hht := hcas c expected rfl hx
      obtain ⟨p, hp⟩ := h.index.cell_some w.key c hkey hht
      obtain rfl := hx.symm.trans hp
      rw [cores_setCtl]
      exact ⟨ρ, h.swapCell hview hkey hht hp⟩
    · cases hs'
      exact ⟨ρ, h.setCtl_of_view hview.symm⟩
  | readOld c expected =>
    simp only [Cluster.stepPutReplicated] at hs'
    split at hs'
    · cases hs'
      rw [cores_setCtl]
      exact ⟨ρ, h.readOld hview⟩
    · cases hs'
  | faa c expected off =>
    simp only [Cluster.stepPutReplicated] at hs'
    split at hs'
    · rename_i p
      cases hs'
      obtain ⟨-, hn⟩ := h.owed t p (some off) (by rw [hview]; rfl)
      have htarget : p.raddr - off - 8 - 8 - globalInvalidCounterPos = p.block := by
        rw [hn off rfl, Ptr.raddr, logBlockHeaderLen, globalInvalidCounterPos, Nat.add_sub_cancel]
        rfl
      have hst : ((s.fetchAdd t (p.raddr - off - 8 - 8)).finishReplicated t w c).st =
          s.st.modBlock p.block fun b => { b with globalInvalidCounter := b.globalInvalidCounter + 1 } := by
        simp only [finishReplicated, fetchAdd, setKn, htarget]
      have hcores : ((s.fetchAdd t (p.raddr - off - 8 - 8)).finishReplicated t w c).cores =
          update s.cores t { s.cores t with
            replOffset := (s.cores t).replOffset + w.size
            replNumEntries := (s.cores t).replNumEntries + 1, view := .quiet } :=
        cores_setKn (s.fetchAdd t (p.raddr - off - 8 - 8)) t _
      rw [hst, hcores]
      exact ⟨ρ, h.countOwed hview fun hlv => ⟨(hlast c p off rfl hlv).1, fun hc t' hx =>
        (hlast c p off rfl hlv).2 hc t' (h.linked_iff.mpr hx)⟩⟩
    · cases hs'

/-- A step of `getReplicated` changes nothing the invariant reads. -/
theorem Inv.stepGetReplicated (h : Inv cfg s.st s.cores C ρ) {k : Key} {keyLen : ℕ} {stage : GetReplStage V}
    (hctl : (s.kn t).ctl = .getReplicated k keyLen stage)
    (hs' : s.stepGetReplicated t k keyLen stage = some s') : Inv cfg s'.st s'.cores C ρ := by
  obtain ⟨n, hn⟩ := stepGetReplicated_aside hs'
  have hcore : n.core = s.cores t := by
    rw [hn.eq]
    rcases hn.ctl with hc | ⟨stage', hc⟩ <;> simp [cores, core, hctl, hc, view]
  have hcores : s'.cores = (s.setKn t n).cores := by
    unfold cores
    rw [hn.kn]
    rfl
  rw [hn.st, hcores, cores_setKn_of_core hcore]
  exact h

/-- An idle thread with staged oplogs to send has a linked block, and batches. -/
theorem Inv.live_of_batched (h : Inv cfg s.st s.cores C ρ) (hview : (s.cores t).view = .quiet)
    (hlt : (s.kn t).flushedOffset < (s.kn t).batchedOffset) : (s.cores t).Live ∧ cfg.batching = true := by
  have hlive : (s.cores t).Live := by
    by_contra hx
    have hreset := (h.thread t).reset (by rw [hview]; rfl) hx
    have h₁ : (s.kn t).flushedOffset = 0 := hreset.flushed
    have h₂ : (s.kn t).batchedOffset = 0 := hreset.batched
    omega
  refine ⟨hlive, ?_⟩
  by_contra hx
  have : (s.kn t).flushedOffset = (s.kn t).batchedOffset :=
    (((h.thread t).liveOk hlive).immediate (by simpa using hx)).2
  omega

/-- A call starts on an idle thread. -/
theorem Inv.invoke (h : Inv cfg s.st s.cores C ρ) (hctl : (s.kn t).ctl = .idle) (c : Call V) :
    Inv cfg (s.invoke cfg t c).st (s.invoke cfg t c).cores C ρ := by
  have hview : (s.cores t).view = .quiet := by simp [cores, core, hctl, view]
  cases c with
  | write w => exact h.setCtl_of_view hview.symm
  | flush =>
    simp only [Cluster.invoke]
    split_ifs with hlt
    · obtain ⟨hlive, hb⟩ := h.live_of_batched hview hlt
      exact h.sendUnflushed hlive hview hb rfl
    · exact h
  | merge clear => exact h.startMerge hview _
  | swap k replicated =>
    simp only [Cluster.invoke]
    split_ifs
    · exact h.startMerge hview _
    · rw [cores_setKn_of_core]
      · exact h
      · simp only [cores, core, hctl]
        rfl
  | putReplicated k keyLen v valLen doUpdate => exact h.setCtl_of_view hview.symm
  | getReplicated k keyLen => exact h.setCtl_of_view hview.symm

/-- A preallocation hands out at least one block. -/
theorem Inv.pop_handedOut {st : Storage Tid V} {K : Tid → KnCore V} (h : Inv cfg st K C ρ) {n : ℕ}
    {fresh : List Addr} (hfresh : st.Fresh n fresh) (hn : 0 < n) :
    (popLogBlocksRaddr (st.handedOut n fresh)).1 ≠ 0 := by
  have hne : ∀ a ∈ st.handedOut n fresh, a ≠ 0 := by
    rintro a ha rfl
    rcases mem_append.mp ha with ha | ha
    · refine h.zero_allocated (h.allocated 0 ?_)
      rw [(h.queued 0).mp (mem_of_mem_take ha)]
      exact nofun
    · exact (hfresh.2.2 0 ha).1 rfl
  have hlen : 0 < (st.handedOut n fresh).length := by
    rw [handedOut, length_append, length_take, hfresh.1]
    omega
  rcases popLogBlocksRaddr_spec (st.handedOut n fresh) with ⟨-, hnil, -⟩ | ⟨h0, -⟩
  · obtain ⟨a, ha⟩ := exists_mem_of_length_pos hlen
    have : a ∈ (st.handedOut n fresh).filter (· ≠ 0) := mem_filter.mpr ⟨ha, by simpa using hne a ha⟩
    rw [hnil] at this
    cases this
  · exact h0

/-- A storage manager answers a preallocation request. -/
theorem Inv.preallocate (h : Inv cfg s.st s.cores C ρ) {fresh : List Addr}
    (hs' : s.preallocate cfg t fresh = some s') : ∃ ρ', Inv cfg s'.st s'.cores C ρ' := by
  obtain ⟨hfresh, hcases⟩ := preallocate_cases hs'
  have hpop := h.pop_handedOut hfresh cfg.maxPreallocNum_pos
  rcases hcases with ⟨w, ret, hctl, h0, rfl⟩ | ⟨w, hctl, h0, rfl⟩
  · have hview : (s.cores t).view = .quiet := by simp [cores, core, hctl, view]
    have ht := h.thread t
    have hnot : ¬ (s.cores t).Live := fun hl => hl.2.1 h0
    have hreset := ht.reset (by rw [hview]; rfl) hnot
    have hserve := h.serve (t := t) (by rw [hview]; exact still_quiet) hfresh
    have hchain : ∀ a ∈ C t, ((s.st.preallocate cfg.maxPreallocNum fresh).mem a).offset =
        bytesOf ((s.st.preallocate cfg.maxPreallocNum fresh).mem a).buffer := by
      refine (hserve.thread t).complete ?_ ?_ <;> rw [update_self]
      · rw [hview]
        rfl
      · exact fun hl => hl.2.1 h0
    obtain ⟨ρ', hinv⟩ := hserve.takeBlock (t := t)
      { s.cores t with
        alloc := (popLogBlocksRaddr (s.st.handedOut cfg.maxPreallocNum fresh)).1
        raddrs := (popLogBlocksRaddr (s.st.handedOut cfg.maxPreallocNum fresh)).2
        view := (write w ret .link).view }
      hchain (by rw [update_self, hview]; rfl) (by rw [update_self, hview]; rfl)
      (by rw [update_self, hview]; exact ⟨rfl, rfl, rfl⟩) (by rw [update_self])
      (by rw [update_self]) ⟨hreset.buffer, hreset.offset, hreset.valid, hreset.batched, hreset.flushed⟩
      ht.poolCounters (by rw [update_self]; exact ⟨rfl, rfl, rfl⟩) (by rw [if_neg hpop]; rfl)
    rw [update_idem] at hinv
    refine ⟨ρ', ?_⟩
    rw [cores_setKn]
    exact hinv
  · have hview : (s.cores t).view = .refilling := by simp [cores, core, hctl, view, refilling]
    have hserve := h.serve (t := t) (by rw [hview]; exact still_refilling) hfresh
    obtain ⟨ρ', hinv⟩ := hserve.takeReplicated (t := t) (by rw [update_self]; exact hview)
      (by rw [update_self]; exact hpop)
    rw [update_idem, update_self] at hinv
    refine ⟨ρ', ?_⟩
    rw [cores_setKn]
    exact hinv

/-- A storage manager installs an indirect pointer. -/
theorem Inv.install (h : Inv cfg s.st s.cores C ρ) {c : Addr} {k : Key} (hctl : (s.kn t).ctl = .install k)
    {p : Ptr} (hget : s.st.ht.get k = some (.oplog p)) (hs' : s.install t c = some s') :
    Inv cfg s'.st s'.cores C ρ := by
  have hview : (s.cores t).view = .quiet := by simp [cores, core, hctl, view]
  simp only [Cluster.install, hctl] at hs'
  split_ifs at hs' with hc
  cases hs'
  have hinv := h.installIndirect hget hc.1 hc.2
  exact Inv.setCtl_of_view (s := { s with st := s.st.installIndirect k c }) hinv hview.symm

end

section Calls

variable [DecidableEq Tid] {s s' : Cluster Tid V} {t t' : Tid}

/-- The thread an event belongs to. -/
def Event.tid : Event Tid V → Tid
  | .invoke t _ => t
  | .advance t => t
  | .preallocate t _ => t
  | .install t _ => t
  | .beginPass t _ => t
  | .passStep t => t
  | .crash t => t

variable {n : Kn V} {w : Write V} {stage : PutReplStage}

/-- An idle thread relies on nothing. -/
theorem Kn.callOk_of_idle (h : n.ctl = .idle) : n.CallOk := by simp [CallOk, h]

/-- A crashed thread relies on nothing. -/
theorem Kn.callOk_of_crashed (h : n.ctl = .crashed) : n.CallOk := by simp [CallOk, h]

/-- A `put` or `remove` under way relies on its key. -/
theorem Kn.callOk_of_write {ret : Bool} {stage : WriteStage}
    (h : n.ctl = .write w ret stage) (hk : w.key ≠ 0) : n.CallOk := by simpa [CallOk, h] using hk

/-- A replicated write under way relies on its key. -/
theorem Kn.callOk_of_putReplicated
    (h : n.ctl = .putReplicated w stage) (hk : w.key ≠ 0 ∧ w.opType.isWrite)
    (hsync : stage = .syncValid → n.replicatedAlloc ≠ 0) : n.CallOk := by
  simp only [CallOk, h]
  exact ⟨hk.1, hk.2, hsync⟩

/-- What a replicated write under way relies on. -/
theorem Kn.CallOk.putReplicated (h : n.CallOk)
    (hctl : n.ctl = .putReplicated w stage) :
    w.key ≠ 0 ∧ w.opType.isWrite ∧ (stage = .syncValid → n.replicatedAlloc ≠ 0) := by
  simpa only [CallOk, hctl] using h

/-- A replicated read under way relies on nothing. -/
theorem Kn.callOk_of_getReplicated {k : Key} {keyLen : ℕ} {stage : GetReplStage V}
    (h : n.ctl = .getReplicated k keyLen stage) : n.CallOk := by simp [CallOk, h]

/-- A step of `put` or `remove` changes one thread. -/
theorem Cluster.kn_stepWrite {ret : Bool} {stage : WriteStage}
    (hs' : s.stepWrite cfg t w ret stage = some s') :
    ∃ n, s'.kn = update s.kn t n ∧ (w.key ≠ 0 → n.CallOk) := by
  have hack : ∀ (s : Cluster Tid V) e, (s.acknowledge cfg t ret e).kn = s.kn := fun s e => by
    unfold acknowledge
    cases cfg.batching <;> cases ret <;> rfl
  cases stage with
  | retry =>
    simp only [stepWrite] at hs'
    split_ifs at hs'
    · cases hs'
      rw [hack]
      unfold append
      cases cfg.batching
      · exact ⟨_, rfl, fun _ => callOk_of_idle rfl⟩
      · exact ⟨_, rfl, fun _ => callOk_of_idle rfl⟩
    · cases hs'
      exact ⟨_, rfl, callOk_of_write rfl⟩
    · cases hs'
      exact ⟨_, rfl, callOk_of_write rfl⟩
  | header =>
    cases hs'
    exact ⟨_, update_idem _ _ _, callOk_of_write rfl⟩
  | clean =>
    cases hs'
    exact ⟨_, rfl, callOk_of_write rfl⟩
  | link =>
    cases hs'
    exact ⟨_, rfl, callOk_of_write rfl⟩
  | slot =>
    cases hs'
    exact ⟨_, rfl, callOk_of_write rfl⟩

/-- The end of `merge` changes one thread. -/
theorem Cluster.kn_afterMerge (s : Cluster Tid V) (m : AfterMerge) :
    ∃ n, (s.afterMerge t m).kn = update s.kn t n ∧ ((∀ k, m = .install k → k ≠ 0) → n.CallOk) := by
  cases m with
  | done clear =>
    cases clear
    · exact ⟨_, rfl, fun _ => callOk_of_idle rfl⟩
    · exact ⟨_, rfl, fun _ => callOk_of_idle rfl⟩
  | install k => exact ⟨_, rfl, fun hk => hk k rfl⟩

/-- The start of `merge` changes one thread. -/
theorem Cluster.kn_startMerge (s : Cluster Tid V) (cfg : Config) (t : Tid) (m : AfterMerge) :
    ∃ n, (s.startMerge cfg t m).kn = update s.kn t n ∧
      ((∀ k, m = .install k → k ≠ 0) → n.CallOk) := by
  unfold startMerge
  split_ifs
  · exact s.kn_afterMerge m
  · refine ⟨_, rfl, fun hk => ?_⟩
    cases m with
    | done clear => trivial
    | install k => exact hk k rfl
  · refine ⟨_, rfl, fun hk => ?_⟩
    cases m with
    | done clear => trivial
    | install k => exact hk k rfl
  · refine ⟨_, rfl, fun hk => ?_⟩
    cases m with
    | done clear => trivial
    | install k => exact hk k rfl

/-- A step of `putReplicated` changes one thread. -/
theorem Cluster.kn_stepPutReplicated
    (hs' : s.stepPutReplicated cfg t w stage = some s') :
    ∃ n, s'.kn = update s.kn t n ∧ (w.key ≠ 0 ∧ w.opType.isWrite → n.CallOk) := by
  obtain ⟨n, h⟩ := stepPutReplicated_aside hs'
  refine ⟨n, h.kn, fun hk => ?_⟩
  rcases h.ctl with hctl | ⟨stage', hctl, hsync⟩
  · exact callOk_of_idle hctl
  · exact callOk_of_putReplicated hctl hk hsync

/-- A step of `getReplicated` changes one thread. -/
theorem Cluster.kn_stepGetReplicated {k : Key} {keyLen : ℕ} {stage : GetReplStage V}
    (hs' : s.stepGetReplicated t k keyLen stage = some s') :
    ∃ n, s'.kn = update s.kn t n ∧ n.CallOk := by
  obtain ⟨n, h⟩ := stepGetReplicated_aside hs'
  refine ⟨n, h.kn, ?_⟩
  rcases h.ctl with hctl | ⟨stage', hctl⟩
  · exact callOk_of_idle hctl
  · exact callOk_of_getReplicated hctl

/-- An event changes the state of its own thread at most. -/
theorem Cluster.kn_step {e : Event Tid V} (hs' : step cfg s e = some s') :
    ∃ n, s'.kn = update s.kn e.tid n ∧ ((s.kn e.tid).CallOk → s.Orderly e → n.CallOk) := by
  cases stepped hs' with
  | invoke t c hctl =>
    cases c with
    | write w => exact ⟨_, rfl, fun _ hk => callOk_of_write rfl hk⟩
    | flush =>
      simp only [invoke]
      split_ifs
      · exact ⟨_, rfl, fun _ _ => trivial⟩
      · exact ⟨s.kn t, (update_eq_self _ _).symm, fun h _ => h⟩
    | merge clear =>
      obtain ⟨n, hn, hok⟩ := s.kn_startMerge cfg t (.done clear)
      exact ⟨n, hn, fun _ _ => hok (by simp)⟩
    | swap k replicated =>
      cases replicated with
      | true =>
        obtain ⟨n, hn, hok⟩ := s.kn_startMerge cfg t (.install k)
        exact ⟨n, hn, fun _ hk => hok fun k' hk' => by cases hk'; exact hk⟩
      | false => exact ⟨_, rfl, fun _ hk => hk⟩
    | putReplicated k keyLen v valLen doUpdate =>
      refine ⟨_, rfl, fun _ hk => callOk_of_putReplicated rfl ⟨hk, ?_⟩ (by simp)⟩
      cases doUpdate <;> rfl
    | getReplicated k keyLen => exact ⟨_, rfl, fun _ _ => callOk_of_getReplicated rfl⟩
  | write t w ret stage s' hctl hs' =>
    obtain ⟨n, hn, hok⟩ := kn_stepWrite hs'
    exact ⟨n, hn, fun h _ => hok (by simpa [CallOk, Event.tid, hctl] using h)⟩
  | flush t after hctl =>
    cases after with
    | done => exact ⟨_, update_idem _ _ _, fun _ _ => callOk_of_idle rfl⟩
    | merge m =>
      refine ⟨_, update_idem _ _ _, fun h _ => ?_⟩
      cases m with
      | done clear => trivial
      | install k => simpa [CallOk, Event.tid, hctl] using h
  | merge t m hctl hreply =>
    obtain ⟨n, hn, hok⟩ := kn_afterMerge (t := t)
      { s with st := { s.st with mergeReply := update s.st.mergeReply t false } } m
    refine ⟨n, hn, fun h _ => hok fun k hk => ?_⟩
    subst hk
    simpa [CallOk, Event.tid, hctl] using h
  | removeIndirect t k st hctl hst => exact ⟨_, rfl, fun _ _ => callOk_of_idle rfl⟩
  | putReplicated t w stage s' hctl hs' =>
    obtain ⟨n, hn, hok⟩ := kn_stepPutReplicated hs'
    exact ⟨n, hn, fun h _ => hok ⟨(h.putReplicated hctl).1, (h.putReplicated hctl).2.1⟩⟩
  | getReplicated t k keyLen stage s' hctl hs' =>
    obtain ⟨n, hn, hok⟩ := kn_stepGetReplicated hs'
    exact ⟨n, hn, fun _ _ => hok⟩
  | preallocate t fresh s' hs' =>
    obtain ⟨-, ⟨w, ret, hctl, -, rfl⟩ | ⟨w, hctl, -, rfl⟩⟩ := preallocate_cases hs'
    · exact ⟨_, rfl, fun h _ => callOk_of_write rfl (by simpa [CallOk, Event.tid, hctl] using h)⟩
    · refine ⟨_, rfl, fun h _ => callOk_of_putReplicated rfl ?_ (by simp)⟩
      simpa [CallOk, Event.tid, hctl] using h
  | install t c k hctl hc => exact ⟨_, rfl, fun _ _ => callOk_of_idle rfl⟩
  | beginPass t kind st henabled hst => exact ⟨s.kn t, (update_eq_self _ _).symm, fun h _ => h⟩
  | passStep t st hst => exact ⟨s.kn t, (update_eq_self _ _).symm, fun h _ => h⟩
  | crash t => exact ⟨_, rfl, fun _ _ => callOk_of_crashed rfl⟩

end Calls

section Run

variable [DecidableEq Tid] [Fintype Tid] {s s' : Cluster Tid V} {C : Tid → List Addr}

/-- An orderly event keeps the invariant. -/
theorem Cluster.Ok.step (h : s.Ok cfg C) {e : Event Tid V} (ho : s.Orderly e)
    (hs' : step cfg s e = some s') : s'.Ok cfg (s.chainsAfter C e) := by
  refine ⟨?_, fun t => ?_⟩
  · obtain ⟨ρ, hinv⟩ := h.inv
    cases stepped hs' with
    | invoke t c hctl => exact ⟨ρ, hinv.invoke hctl c⟩
    | write t w ret stage s' hctl hs' =>
      have := hinv.stepWrite hctl (by simpa [CallOk, hctl] using h.calls t) hs'
      cases stage <;> simpa [chainsAfter, hctl] using this
    | flush t after hctl =>
      simp only [chainsAfter, hctl]
      exact ⟨ρ, hinv.stepFlush hctl⟩
    | merge t m hctl hreply =>
      simp only [chainsAfter, hctl]
      obtain ⟨hst, hcores⟩ := afterMerge_eq (t := t)
        { s with st := { s.st with mergeReply := update s.st.mergeReply t false } } m
      rw [hst, hcores]
      exact ⟨ρ, hinv.resume hctl hreply⟩
    | removeIndirect t k st hctl hst =>
      simp only [chainsAfter, hctl]
      have hk : k ≠ 0 := by simpa [CallOk, hctl] using h.calls t
      have hinv' : Inv cfg ({ s with st := st } : Cluster Tid V).st ({ s with st := st } : Cluster Tid V).cores
        C ρ := hinv.removeIndirect hk hst
      exact ⟨ρ, hinv'.setCtl_of_view (by simp [cores, core, hctl, view])⟩
    | putReplicated t w stage s' hctl hs' =>
      obtain ⟨hkey, hwrite, hsync⟩ := (h.calls t).putReplicated hctl
      simp only [chainsAfter, hctl]
      simp only [Cluster.Orderly, hctl] at ho
      refine hinv.stepPutReplicated hctl hkey hwrite hsync (fun hx => ?_) (fun c expected hx => ?_)
        (fun hx => ?_) (fun c p off hx => ?_) hs'
      all_goals
        subst hx
        exact ho
    | getReplicated t k keyLen stage s' hctl hs' =>
      simp only [chainsAfter, hctl]
      exact ⟨ρ, hinv.stepGetReplicated hctl hs'⟩
    | preallocate t fresh s' hs' => exact hinv.preallocate hs'
    | install t c k hctl hc =>
      obtain ⟨p, hp⟩ := ho k hctl
      exact ⟨ρ, hinv.install hctl hp hs'⟩
    | beginPass t kind st hen hst =>
      refine ⟨ρ, hinv.beginPass (fun hk => ?_) (fun hk => ?_) hst⟩
      · subst hk
        simp only [passEnabled] at hen
        split at hen
        · rename_i m hctl
          refine ⟨Or.inl ?_, by simpa using hen⟩
          simp [cores, core, hctl, view]
        · cases hen
      · subst hk
        simp only [passEnabled] at hen
        split at hen
        · rename_i hctl
          simp [cores, core, hctl, view]
        · cases hen
    | passStep t st hst => exact hinv.passStep ho hst
    | crash t =>
      refine ⟨ρ, ?_⟩
      rw [cores_setCtl]
      exact hinv.crash
  · obtain ⟨n, hn, hok⟩ := kn_step hs'
    rw [hn]
    by_cases ht : t = e.tid
    · subst ht
      rw [update_self]
      exact hok (h.calls _) ho
    · rw [update_of_ne ht]
      exact h.calls t

/-- The invariant holds before any call. -/
theorem Cluster.ok_init (cfg : Config) (logBuckets : ℕ) :
    (init logBuckets : Cluster Tid V).Ok cfg fun _ => [] := by
  have hnone : ∀ k, k ≠ 0 → (Clht.create logBuckets : Clht IndexVal).get k = none := fun k hk =>
    Clht.get_create logBuckets hk
  have hthread : ∀ t, ThreadInv cfg (init logBuckets : Cluster Tid V).st [] (fun _ => .unowned) t
      ((init logBuckets : Cluster Tid V).cores t) := by
    intro t
    refine ⟨?_, nodup_nil, ?_, ?_, fun hl => absurd rfl hl.2.1, fun hl => absurd rfl hl.2.1,
      fun _ _ => ⟨rfl, rfl, rfl, rfl, rfl⟩, ?_, ⟨rfl, rfl⟩, fun hr => absurd rfl hr.2.1, ?_,
      fun hr => absurd rfl hr.2.1, ?_, ?_, ?_⟩ <;> simp [cores, init, Kn.init, Kn.core, view, quiet]
  refine ⟨⟨fun _ => .unowned, ?_⟩, fun _ => trivial⟩
  refine
    { log := fun t => ⟨hthread t, ⟨by simp, nodup_nil, rfl, by simp, by simp, by simp⟩, by simp [init], by simp [init],
        by simp [init], by simp [init]⟩
      check := by simp [init]
      check_unique := by simp [init]
      block := fun a => ⟨aligned_nil, by simp [init, LogBlock.zero], fun _ => rfl, by simp, by simp, by simp, fun _ => Or.inl rfl⟩
      allocated := fun a ha => absurd rfl ha
      zero_allocated := not_mem_nil
      queued := fun a => iff_of_false not_mem_nil (by simp)
      nodup_queue := nodup_nil
      index :=
        { full := Clht.full_create logBuckets
          cell_alloc := fun k c hk hc => absurd ((hnone k hk).symm.trans hc) (by simp)
          cell_some := fun k c hk hc => absurd ((hnone k hk).symm.trans hc) (by simp)
          cell_inj := fun k k' c hk _ hc => absurd ((hnone k hk).symm.trans hc) (by simp)
          ref := fun k p hk hp => ?_ }
      owed := by simp [cores, init, Kn.init, Kn.core, view, quiet]
      acct := fun a => ?_
      dead := by simp [init] }
  · have : (init logBuckets : Cluster Tid V).st.resolve k = none := by
      simp only [resolve, init, hnone k hk]
    exact absurd (this.symm.trans hp) (by simp)
  · have howed : owedTo (init logBuckets : Cluster Tid V).cores a = 0 := by
      simp [owedTo, cores, init, Kn.init, Kn.core, view, quiet]
    rw [howed]
    exact Nat.zero_le _

/-- The invariant holds after every run whose events are orderly. -/
theorem Cluster.exists_ok {logBuckets : ℕ} {es : List (Event Tid V)}
    (hrun : run cfg (.init logBuckets) es = some s)
    (hok : Transition.Guarded (step cfg) Orderly (.init logBuckets) es) : ∃ C, s.Ok cfg C := by
  refine Transition.invariant_of_guarded (P := fun s => ∃ C, Cluster.Ok cfg s C) ?_
    ⟨_, ok_init cfg logBuckets⟩ hrun hok
  rintro s e s' ⟨C, hs⟩ ho hstep
  exact ⟨_, hs.step ho hstep⟩

end Run

end Dinomo
