import Dinomo.Refinement.Calls

/-!
# Orderly runs are runs of the pipeline

Every orderly step of a cluster runs its labels in the pipeline of the cluster.  By induction the laws
of the pipeline hold in every state an orderly run reaches.
-/

namespace Dinomo

open Function Cluster

variable {Tid V : Type*} [DecidableEq Tid] [Fintype Tid] {cfg : Config} {s s' : Cluster Tid V}
  {C : Tid → List Addr} {ρ : Addr → Role Tid} {t : Tid}

/-- The oplog a replicated write has written and not finished. -/
theorem Inv.oplogAt_inflight (h : Inv cfg s.st s.cores C ρ) {w : Write V}
    (hflight : (s.cores t).view.inflight = some w) (hcrash : (s.cores t).view.crashed = false)
    (hretired : (s.cores t).view.retired = false) :
    s.st.oplogAt (s.kn t).replicatedPtr = some (w.at (s.kn t).replicatedAllocOffset) := by
  have ht := h.thread t
  have hactive : (s.cores t).ReplActive := ⟨hcrash, ht.inflight (by rw [hflight]; rfl), hretired⟩
  obtain ⟨pre, hbuf, -⟩ := (ht.replOk hactive).buffer
  rw [hflight] at hbuf
  have hmem : w.at (s.kn t).replicatedAllocOffset ∈ (s.st.mem (s.kn t).replicatedAlloc).buffer := by
    have : (s.st.mem (s.kn t).replicatedAlloc).buffer = pre ++ [w.at (s.kn t).replicatedAllocOffset] := hbuf
    rw [this]
    exact List.mem_append_right _ List.mem_cons_self
  exact LogBlock.entryAt_of_mem (h.block _).aligned hmem

/-- A replicated write swaps its oplog into the indirect pointer of its key. -/
theorem Inv.simulates_swapPointer (h : Inv cfg s.st s.cores C ρ) (hst : s.Staged cfg C) {w : Write V}
    (hview : (s.cores t).view = .writing w none) (hkey : w.key ≠ 0) {c : Addr} (expected : Option IndexVal)
    (hht : s.st.ht.get w.key = some (.indirect c)) {c' : Ctl V}
    (hc' : ∀ w, c' ≠ .write w true .retry) :
    s.Simulates cfg ((s.swapPointer t c expected).setCtl t c') C C
      [.adjust fun idx => update idx w.key
        (some ((s.kn t).replicatedPtr, w.at (s.kn t).replicatedAllocOffset))] := by
  obtain ⟨p, hp⟩ := h.index.cell_some w.key c hkey hht
  have hat := h.oplogAt_inflight (t := t) (w := w) (by rw [hview]; rfl) (by rw [hview]; rfl) (by rw [hview]; rfl)
  refine ⟨hst.of_kn rfl rfl (fun hne => hst.head t hne) fun w hw => absurd hw (hc' w), ?_⟩
  generalize hs' : (s.swapPointer t c expected).setCtl t c' = s'
  have hst' : s'.st = { s.st with
      cells := update s.st.cells c (some (.oplog (s.kn t).replicatedPtr)) } := by
    rw [← hs']
    rfl
  have hfind : s'.st.find = update s.st.find w.key
      (some ((s.kn t).replicatedPtr, w.at (s.kn t).replicatedAllocOffset)) := by
    funext k
    have hoplog : s'.st.oplogAt = s.st.oplogAt := by rw [hst']; rfl
    by_cases hk : k = 0
    · rw [hk, update_of_ne hkey.symm]
      simp [Storage.find]
    · have hres := (resolve_cell (q := (s.kn t).replicatedPtr) h.index hkey hk hht hp).2
      rw [← hst'] at hres
      unfold Storage.find
      rw [if_neg hk, hres, hoplog]
      by_cases heq : k = w.key
      · rw [if_pos heq, heq, update_self, Option.bind_some, hat]
        rfl
      · rw [if_neg heq, update_of_ne heq, if_neg hk]
  have hunsent : s'.unsent = s.unsent := funext fun t' => hst.unsent_congr
    (by rw [← hs']; by_cases ht : t' = t <;> simp [setCtl, setKn, swapPointer, ht])
    (fun _ => by rw [← hs']; by_cases ht : t' = t <;> simp [setCtl, setKn, swapPointer, ht])
    fun a _ => by rw [hst']
  have hpending : (fun t' => s'.st.pending t' (C t')) = fun t' => s.st.pending t' (C t') := by
    rw [hst']
    rfl
  have hhist : s'.written = s.written ∧ s'.batchingRequests = s.batchingRequests ∧ s'.acked = s.acked ∧
      s'.st.applied = s.st.applied := by
    rw [← hs']
    exact ⟨rfl, rfl, rfl, rfl⟩
  unfold pipeline
  rw [hhist.1, hhist.2.1, hhist.2.2.1, hhist.2.2.2, hunsent, hpending, hfind]
  rfl

/-- A step of `putReplicated`. -/
theorem Inv.simulates_stepPutReplicated (h : Inv cfg s.st s.cores C ρ) (hst : s.Staged cfg C) {w : Write V}
    {stage : PutReplStage} (hctl : (s.kn t).ctl = .putReplicated w stage) (hkey : w.key ≠ 0)
    (hcas : ∀ c expected, stage = .cas c expected → s.st.cells c = expected →
      s.st.ht.get w.key = some (.indirect c))
    (hs' : s.stepPutReplicated cfg t w stage = some s') :
    s.Simulates cfg s' C C (s.labels cfg (.advance t)) := by
  have hview : (s.cores t).view = (Ctl.putReplicated w stage).view := by simp [cores, Kn.core, hctl]
  have hmove : ∀ c : Ctl V, (∀ w, c ≠ .write w true .retry) → s.Simulates cfg (s.setCtl t c) C C [] := fun c hc =>
    hst.move rfl rfl rfl hc ⟨rfl, rfl, rfl⟩ rfl
  have hblock : ∀ (f : LogBlock V → LogBlock V) (c : Ctl V), (∀ w, c ≠ .write w true .retry) →
      (s.cores t).ReplActive → (∃ u, (f (s.st.mem (s.kn t).replicatedAlloc)).buffer =
        (s.st.mem (s.kn t).replicatedAlloc).buffer ++ u) →
      (f (s.st.mem (s.kn t).replicatedAlloc)).mergedOffset = (s.st.mem (s.kn t).replicatedAlloc).mergedOffset →
      s.Simulates cfg ((s.modBlock (s.kn t).replicatedAlloc f).setCtl t c) C C [] := by
    intro f c hc hactive hgrow hmerged
    have hrole := (h.thread t).repl hactive
    have hs'' : ((s.modBlock (s.kn t).replicatedAlloc f).setCtl t c).st =
        s.st.modBlock (s.kn t).replicatedAlloc f := rfl
    refine (h.sameLogs_modBlock hst hs'' rfl rfl rfl ⟨rfl, rfl, rfl⟩ hgrow hmerged fun t' ha => ?_).simulates
      (hst.of_kn rfl rfl (fun hne => hst.head t hne) fun w hw => absurd hw (hc w))
    exact absurd (hrole.symm.trans (((h.chain t').mem_iff _).mp ha)) (by simp)
  simp only [labels, hctl]
  cases stage with
  | start =>
    have hactive : (s.kn t).replicatedAlloc ≠ 0 → (s.cores t).ReplActive := fun h0 =>
      ⟨by rw [hview]; rfl, h0, by rw [hview]; rfl⟩
    simp only [Cluster.stepPutReplicated] at hs'
    split_ifs at hs' with h0 hfit
    · cases hs'
      exact hmove _ (by simp)
    · cases hs'
      refine hblock _ _ (by simp) (hactive h0) ⟨[w.at (s.kn t).replicatedAllocOffset], ?_⟩ rfl
      obtain ⟨pre, hbuf, hbytes, -⟩ := ((h.thread t).replOk (hactive h0)).buffer
      rw [hview] at hbuf
      refine (h.block _).aligned.writeOplog_end ?_
      have hpre : (s.st.mem (s.kn t).replicatedAlloc).buffer = pre := hbuf.trans (List.append_nil _)
      rw [hpre]
      exact hbytes.le
    · cases hs'
      exact hblock _ _ (by simp) (hactive h0) ⟨[], (List.append_nil _).symm⟩ rfl
  | syncValid =>
    cases hs'
    have hs'' : ((s.modBlock (s.kn t).replicatedAlloc fun b =>
        { b with validCounter := (s.kn t).replicatedAllocNumEntries }).setCtl t (.putReplicated w .newBlock)).st =
        s.st.modBlock (s.kn t).replicatedAlloc fun b =>
          { b with validCounter := (s.kn t).replicatedAllocNumEntries } := rfl
    exact (h.sameLogs_modBlock hst hs'' rfl rfl rfl ⟨rfl, rfl, rfl⟩ ⟨[], (List.append_nil _).symm⟩ rfl
      fun t' _ => .of_eq rfl rfl).simulates (hst.of_kn rfl rfl (fun hne => hst.head t hne) (by simp))
  | newBlock =>
    simp only [Cluster.stepPutReplicated] at hs'
    split_ifs at hs' with h0
    cases hs'
    exact hst.move rfl rfl rfl (by simp) ⟨rfl, rfl, rfl⟩ rfl
  | find =>
    simp only [Cluster.stepPutReplicated] at hs'
    split at hs'
    · cases hs'
      exact hmove _ (by simp)
    · split at hs'
      · cases hs'
        exact hmove _ (by simp)
      · cases hs'
        exact hmove _ (by simp)
      · cases hs'
  | readPtr c =>
    cases hs'
    exact hmove _ (by simp)
  | cas c expected =>
    simp only [Cluster.stepPutReplicated] at hs'
    split_ifs at hs' with hx
    · cases hs'
      simp only [if_pos hx]
      exact h.simulates_swapPointer hst hview hkey expected (hcas c expected rfl hx) (by simp)
    · cases hs'
      simp only [if_neg hx]
      exact hmove _ (by simp)
  | readOld c expected =>
    simp only [Cluster.stepPutReplicated] at hs'
    split at hs'
    · cases hs'
      exact hmove _ (by simp)
    · cases hs'
  | faa c expected off =>
    simp only [Cluster.stepPutReplicated] at hs'
    split at hs'
    · rename_i p
      cases hs'
      have hs'' : ((s.fetchAdd t (p.raddr - off - 8 - 8)).finishReplicated t w c).st =
          s.st.modBlock (p.raddr - off - 8 - 8 - globalInvalidCounterPos) fun b =>
            { b with globalInvalidCounter := b.globalInvalidCounter + 1 } := rfl
      exact (h.sameLogs_modBlock hst hs'' rfl rfl rfl ⟨rfl, rfl, rfl⟩ ⟨[], (List.append_nil _).symm⟩ rfl
        fun t' _ => .of_eq rfl rfl).simulates (hst.of_kn rfl rfl (fun hne => hst.head t hne) (by simp))
    · cases hs'

omit [Fintype Tid] in
/-- A step of `getReplicated` is not seen by the pipeline. -/
theorem Cluster.Staged.simulates_stepGetReplicated (hst : s.Staged cfg C) {k : Key} {keyLen : ℕ}
    {stage : GetReplStage V} (hs' : s.stepGetReplicated t k keyLen stage = some s') :
    s.Simulates cfg s' C C [] := by
  obtain ⟨n, h⟩ := stepGetReplicated_aside hs'
  refine hst.move h.kn (by rw [h.sameLog.pool]) h.sameLog.alloc (fun w hw => ?_) ⟨h.written, h.requests, h.acked⟩
    (by rw [h.st])
  rcases h.ctl with hc | ⟨stage', hc⟩ <;> cases hc.symm.trans hw

/-- The header write that ends a flush. -/
theorem Inv.simulates_stepFlush (h : Inv cfg s.st s.cores C ρ) (hst : s.Staged cfg C) {after : AfterFlush}
    (hctl : (s.kn t).ctl = .flush after) :
    s.Simulates cfg (s.stepFlush t after) C C (s.labels cfg (.advance t)) := by
  have hsent : (s.cores t).view.sent = true := by simp [cores, Kn.core, hctl, Ctl.view]
  simp only [labels, hctl]
  cases after with
  | done =>
    have hpub := h.simulates_publishBatch hst hsent (c := .idle) (by simp)
    have hnil : ((s.publishBatch t).setCtl t .idle).unsent t = [] := by
      have := congrFun (congrArg Pipeline.unsent (Option.some.inj hpub.run)) t
      exact this.symm.trans (update_self ..)
    exact hpub.trans (hpub.staged.simulates_respondBatched fun _ => hnil)
  | merge m => exact h.simulates_publishBatch hst hsent (by simp)

/-- A thread goes on after its merge request was answered. -/
theorem Inv.simulates_resume (h : Inv cfg s.st s.cores C ρ) (hst : s.Staged cfg C) {m : AfterMerge}
    (hctl : (s.kn t).ctl = .merge m) :
    s.Simulates cfg (({ s with st := { s.st with
      mergeReply := update s.st.mergeReply t false } } : Cluster Tid V).afterMerge t m) C C
      (s.labels cfg (.advance t)) := by
  have hview : (s.cores t).view.published = true := by simp [cores, Kn.core, hctl, Ctl.view]
  have hl := (h.thread t).publishedLive hview
  have hnil : s.unsent t = [] := h.unsent_eq_nil hl (((h.thread t).liveOk hl).published hview).2.ge
  have hreply := (hst.of_storage { s.st with
    mergeReply := update s.st.mergeReply t false }).simulates_afterMerge (t := t) hnil m
  have hlabels : s.labels cfg (.advance t) =
      if m = .done true then [.ack t (s.batchingRequests t).length] else [] := by
    simp only [labels, hctl]
    cases m with
    | done clear => cases clear <;> rfl
    | install k => rfl
  rw [hlabels]
  exact ⟨hreply.staged, hreply.run⟩

/-- A call starts on an idle thread. -/
theorem Inv.simulates_invoke (h : Inv cfg s.st s.cores C ρ) (hst : s.Staged cfg C) (hctl : (s.kn t).ctl = .idle)
    (c : Call V) : s.Simulates cfg (s.invoke cfg t c) C C (s.labels cfg (.invoke t c)) := by
  have hview : (s.cores t).view = .quiet := by simp [cores, Kn.core, hctl, Ctl.view]
  cases c with
  | write w => exact hst.move rfl rfl rfl (by simp) ⟨rfl, rfl, rfl⟩ rfl
  | flush =>
    simp only [Cluster.invoke, labels]
    split_ifs with hlt
    · obtain ⟨hl, hb⟩ := h.live_of_batched hview hlt
      exact h.simulates_sendUnflushed hst hl hview hb (by simp)
    · exact hst.simulates_respondBatched fun hb => h.unsent_of_flushed (by rw [hview]; rfl) hb hlt
  | merge clear => exact h.simulates_startMerge hst hview _
  | swap k replicated =>
    cases replicated with
    | true => exact h.simulates_startMerge hst hview _
    | false => exact hst.move rfl rfl rfl (by simp) ⟨rfl, rfl, rfl⟩ rfl
  | putReplicated k keyLen v valLen doUpdate => exact hst.move rfl rfl rfl (by simp) ⟨rfl, rfl, rfl⟩ rfl
  | getReplicated k keyLen => exact hst.move rfl rfl rfl (by simp) ⟨rfl, rfl, rfl⟩ rfl

/-- A storage manager answers a preallocation request. -/
theorem Inv.simulates_preallocate (h : Inv cfg s.st s.cores C ρ) (hst : s.Staged cfg C) {fresh : List Addr}
    (hs' : s.preallocate cfg t fresh = some s') : s.Simulates cfg s' C C [] := by
  obtain ⟨hfresh, ⟨w, ret, hctl, h0, rfl⟩ | ⟨w, hctl, -, rfl⟩⟩ := preallocate_cases hs'
  · have hview : (s.cores t).view = .quiet := by simp [cores, Kn.core, hctl, Ctl.view]
    have hnil : (s.kn t).pool.buffer = [] :=
      ((h.thread t).reset (by rw [hview]; rfl) fun hl => hl.2.1 h0).buffer
    refine Cluster.SameLogs.simulates (h.sameLogs_preallocate hst hfresh ?_ ?_) (hst.of_kn rfl rfl ?_ ?_)
    · rfl
    · exact fun hne => absurd hnil hne
    · exact fun hne => absurd hnil hne
    · exact fun _ _ => hnil
  · refine Cluster.SameLogs.simulates (h.sameLogs_preallocate hst hfresh ?_ ?_) (hst.of_kn rfl rfl ?_ ?_)
    · rfl
    · exact fun _ => rfl
    · exact fun hne => hst.head t hne
    · simp

/-- A step that changes the index but not what it refers to. -/
theorem Inv.simulates_reindex (h : Inv cfg s.st s.cores C ρ) (hst : s.Staged cfg C) {st' : Storage Tid V}
    (hmem : st'.mem = s.st.mem) (hprog : st'.progressTable = s.st.progressTable)
    (happ : st'.applied = s.st.applied) (hres : ∀ k, k ≠ 0 → st'.resolve k = s.st.resolve k) :
    s.Simulates cfg (({ s with st := st' } : Cluster Tid V).setCtl t .idle) C C [] := by
  have hfind : st'.find = s.st.find := h.find_congr hres fun k p _ _ => ⟨[], by rw [hmem, List.append_nil]⟩
  have hsame : s.SameLogs (({ s with st := st' } : Cluster Tid V).setCtl t .idle) C :=
    hst.sameLogs rfl rfl (fun _ => rfl) ⟨rfl, rfl, rfl, happ⟩
      (fun t' a _ => ⟨.of_eq (congrArg (fun m => (m a).buffer) hmem) (congrArg (fun m => (m a).offset) hmem),
        Storage.mpos_congr (congrFun hprog t') (congrArg (fun m => (m a).mergedOffset) hmem)⟩) hfind
  exact hsame.simulates (hst.of_kn rfl rfl (fun hne => hst.head t hne) nofun)

/-- Every orderly step runs its labels in the pipeline. -/
theorem Cluster.Ok.simulates (h : s.Ok cfg C) (hst : s.Staged cfg C) {e : Event Tid V} (ho : s.Orderly e)
    (hs' : Cluster.step cfg s e = some s') :
    s.Simulates cfg s' C (s.chainsAfter C e) (s.labels cfg e) := by
  obtain ⟨ρ, hinv⟩ := h.inv
  cases stepped hs' with
  | invoke t c hctl => exact hinv.simulates_invoke hst hctl c
  | write t w ret stage s' hctl hs' => exact hinv.simulates_stepWrite hst hctl hs'
  | flush t after hctl =>
    simp only [chainsAfter, hctl]
    exact hinv.simulates_stepFlush hst hctl
  | merge t m hctl hreply =>
    simp only [chainsAfter, hctl]
    exact hinv.simulates_resume hst hctl
  | removeIndirect t k st hctl hst' =>
    have hk : k ≠ 0 := by simpa [Kn.CallOk, hctl] using h.calls t
    simp only [chainsAfter, labels, hctl]
    obtain ⟨deref, rfl, -⟩ := hinv.index.removeIndirect_eq hk hst'
    exact hinv.simulates_reindex hst rfl rfl rfl fun k' hk' => hinv.index.resolve_removeIndirect hk hst' hk'
  | putReplicated t w stage s' hctl hs' =>
    obtain ⟨hkey, -⟩ := (h.calls t).putReplicated hctl
    simp only [Cluster.Orderly, hctl] at ho
    simp only [chainsAfter, hctl]
    refine hinv.simulates_stepPutReplicated hst hctl hkey (fun c expected hx => ?_) hs'
    subst hx
    exact ho
  | getReplicated t k keyLen stage s' hctl hs' =>
    simp only [chainsAfter, labels, hctl]
    exact hst.simulates_stepGetReplicated hs'
  | preallocate t fresh s' hs' => exact hinv.simulates_preallocate hst hs'
  | install t c k hctl hc =>
    obtain ⟨p, hp⟩ := ho k hctl
    exact hinv.simulates_reindex hst rfl rfl rfl fun k' hk' => hinv.index.resolve_installIndirect hp hc.2 hk'
  | beginPass t kind st hen hst' =>
    exact ((Storage.passMoves_beginPass hst').sameLogs hst).simulates (hst.of_storage st)
  | passStep t st hst' => exact hinv.simulates_passStep hst hst'
  | crash t => exact hst.move rfl rfl rfl (by simp) ⟨rfl, rfl, rfl⟩ rfl

/-- The invariant of a cluster together with the laws of its pipeline. -/
structure Cluster.Piped (cfg : Config) (s : Cluster Tid V) (C : Tid → List Addr) : Prop where
  ok : s.Ok cfg C
  staged : s.Staged cfg C
  sound : (s.pipeline C).Sound cfg.batching

/-- Every orderly step keeps the invariant and the laws of the pipeline. -/
theorem Cluster.Piped.step (h : s.Piped cfg C) {e : Event Tid V} (ho : s.Orderly e)
    (hs' : step cfg s e = some s') : s'.Piped cfg (s.chainsAfter C e) :=
  have hsim := h.ok.simulates h.staged ho hs'
  ⟨h.ok.step ho hs', hsim.staged, h.sound.run hsim.run⟩

/-- A cluster before any call. -/
theorem Cluster.piped_init (cfg : Config) (logBuckets : ℕ) :
    (init logBuckets : Cluster Tid V).Piped cfg fun _ => [] where
  ok := ok_init cfg logBuckets
  staged := ⟨fun _ _ => rfl, nofun, fun _ hne => absurd rfl hne, nofun⟩
  sound := ⟨fun _ => rfl, fun _ => rfl, fun _ _ => Nat.le_refl 0⟩

/-- The invariant and the laws of the pipeline hold after every orderly run. -/
theorem Cluster.exists_piped {logBuckets : ℕ} {es : List (Event Tid V)}
    (hrun : run cfg (.init logBuckets) es = some s)
    (hok : Transition.Guarded (step cfg) Orderly (.init logBuckets) es) : ∃ C, s.Piped cfg C := by
  refine Transition.invariant_of_guarded (P := fun s => ∃ C, Cluster.Piped cfg s C) ?_
    ⟨_, piped_init cfg logBuckets⟩ hrun hok
  rintro s e s' ⟨C, hs⟩ ho hstep
  exact ⟨_, hs.step ho hstep⟩

end Dinomo
