import Dinomo.ThreadTail

/-!
# Keys with one owner

While no key moves, each key is written by one thread, and no thread makes replicated calls.  Then a block holds keys
of one owner, so the oplog that a merge supersedes lies in a block of the same log and of no other pass: the runs of such a
cluster are orderly.
-/

namespace Dinomo

open Function Storage

variable {Tid V : Type*}

/-- The events of threads that write their own keys: no key is the empty marker, and there are no replicated calls. -/
def Event.Local (owner : Key → Tid) : Event Tid V → Prop
  | .invoke t (.write w) => owner w.key = t ∧ w.key ≠ 0
  | .invoke _ .flush => True
  | .invoke _ (.merge _) => True
  | .invoke _ _ => False
  | _ => True

/-- The write that an event starts. -/
def Event.started : Event Tid V → Option (Write V)
  | .invoke _ (.write w) => some w
  | _ => none

/-- The control states of a thread that writes its own keys. -/
def Ctl.Local (owner : Key → Tid) (t : Tid) : Ctl V → Prop
  | .idle => True
  | .crashed => True
  | .write w _ _ => owner w.key = t
  | .flush .done => True
  | .flush (.merge (.done _)) => True
  | .merge (.done _) => True
  | _ => False

/-- The keys of a cluster are where their owners are. -/
structure Cluster.Owned (owner : Key → Tid) (s : Cluster Tid V) (C : Tid → List Addr) : Prop where
  calls : ∀ t, (s.kn t).ctl.Local owner t ∧ (s.kn t).replicatedAlloc = 0
  staged : ∀ t, ∀ o ∈ (s.kn t).pool.buffer, owner o.key = t
  linked : ∀ t, ∀ a ∈ C t, ∀ o ∈ (s.st.mem a).buffer, owner o.key = t
  uniform : ∀ a, ∀ o ∈ (s.st.mem a).buffer, ∀ o' ∈ (s.st.mem a).buffer, owner o.key = owner o'.key
  check : ∀ t p a, s.st.progressTable t = some p → p.check = some a → ∀ o ∈ (s.st.mem a).buffer, owner o.key = t
  direct : ∀ k v, k ≠ 0 → s.st.ht.get k = some v → ∃ q, v = .oplog q
  written : ∀ e ∈ s.written, owner e.oplog.key = e.tid

section Passes

variable [DecidableEq Tid] {st st' : Storage Tid V} {t : Tid}

/-- What a step of a pass does to the index: it applies the next oplog, if there is one. -/
theorem Storage.passStep_ht (h : st.passStep t = some st') :
    st'.ht = st.ht ∧ st'.applied = st.applied ∨ ∃ p o, st.progressTable t = some p ∧ st.nextOplog p = some o ∧
      st'.ht = indexAfter st.ht ⟨p.next, p.offset⟩ o ∧ st'.applied = st.applied ++ [⟨t, ⟨p.next, p.offset⟩, o⟩] := by
  obtain ⟨p, hp, ⟨a, -, rfl⟩ | ⟨-, -, rfl⟩ | ⟨-, -, rfl⟩ | ⟨o, hcheck, hphase, hlt, ho, rfl⟩ | ⟨-, -, -, rfl⟩⟩ :=
    passStep_cases h
  · unfold reclaim
    split_ifs <;> exact .inl ⟨rfl, rfl⟩
  · unfold walkStep
    simp only
    split_ifs <;> exact .inl ⟨rfl, rfl⟩
  · cases p.kind <;> exact .inl ⟨rfl, rfl⟩
  · refine .inr ⟨p, o, hp, ?_, st.ht_applyOplog t _ o, st.applied_applyOplog t _ o⟩
    simp [nextOplog, hcheck, hphase, hlt, ho]
  · unfold finishBlock
    split_ifs <;> exact .inl ⟨rfl, rfl⟩

/-- A step of a pass leaves the passes of the other logs alone. -/
theorem Storage.passStep_other (h : st.passStep t = some st') {t' : Tid} (ht' : t' ≠ t) :
    st'.progressTable t' = st.progressTable t' := by
  obtain ⟨p, hp, ⟨a, -, rfl⟩ | ⟨-, -, rfl⟩ | ⟨-, -, rfl⟩ | ⟨o, -, -, -, -, rfl⟩ | ⟨-, -, -, rfl⟩⟩ := passStep_cases h
  · rw [setPass_of_ne ht']
    unfold reclaim
    split_ifs <;> rfl
  · unfold walkStep
    simp only
    split_ifs <;> exact setPass_of_ne ht' _
  · cases p.kind <;> exact setPass_of_ne ht' _
  · rw [setPass_of_ne ht', applyOplog_eq]
  · unfold finishBlock
    rw [setPass_of_ne ht']
    split_ifs <;> rfl

/-- The block a pass is about to compare after a step: the block it has finished, or the block of the oplog it has
superseded. -/
theorem Storage.passStep_check (h : st.passStep t = some st') {p' : Pass} {a : Addr}
    (hp' : st'.progressTable t = some p') (ha : p'.check = some a) : ∃ p, st.progressTable t = some p ∧
      ((p.phase = .scan ∧ a = p.next) ∨
        ∃ o v, st.nextOplog p = some o ∧ st.superseded o = some v ∧ a = st.logBlockMerged v) := by
  obtain ⟨p, hp, ⟨b, -, rfl⟩ | ⟨hcheck, -, rfl⟩ | ⟨-, -, rfl⟩ | ⟨o, hcheck, hphase, hlt, ho, rfl⟩ |
    ⟨-, hphase, -, rfl⟩⟩ := passStep_cases h
  · rw [setPass_self] at hp'
    cases hp'
    cases ha
  · unfold walkStep at hp'
    simp only at hp'
    split_ifs at hp' <;> rw [setPass_self] at hp' <;> cases hp' <;>
      exact absurd (hcheck.symm.trans ha) nofun
  · have hnone : (st.finishPass t p.kind).progressTable t = none := by
      cases p.kind <;> exact setPass_self _
    exact absurd (hnone.symm.trans hp') nofun
  · rw [setPass_self] at hp'
    cases hp'
    have hnext : st.nextOplog p = some o := by simp [nextOplog, hcheck, hphase, hlt, ho]
    simp only [checkAfter] at ha
    split at ha
    · cases ha
    · rename_i v hv
      split_ifs at ha
      exact ⟨p, hp, .inr ⟨o, v, hnext, hv, (Option.some.inj ha).symm⟩⟩
  · unfold finishBlock at hp'
    rw [setPass_self] at hp'
    cases hp'
    simp only [passAfter] at ha
    split_ifs at ha
    exact ⟨p, hp, .inl ⟨hphase, (Option.some.inj ha).symm⟩⟩

end Passes

namespace Cluster

variable [DecidableEq Tid] {owner : Key → Tid} {cfg : Config} {s s' : Cluster Tid V} {C : Tid → List Addr} {t : Tid}

/-- What a step of a thread that writes its own keys does: it stages the write it is at, and leaves the index and the
passes alone. -/
structure LocalStep (owner : Key → Tid) (s s' : Cluster Tid V) (t : Tid) (started : Option (Write V)) (n : Kn V) :
    Prop where
  kn : s'.kn = Function.update s.kn t n
  ctl : n.ctl.Local owner t
  repl : n.replicatedAlloc = 0
  staged : ∀ o ∈ n.pool.buffer, owner o.key = t
  written : s'.written = s.written ∨ ∃ w ret x, (s.kn t).ctl = .write w ret .retry ∧ n.ctl = .idle ∧
    s'.written = s.written ++ [x] ∧ x.tid = t ∧ x.oplog.toWrite = w
  call : ∀ w ret stage, n.ctl = .write w ret stage → started = some w ∨ ∃ ret stage, (s.kn t).ctl = .write w ret stage
  ht : s'.st.ht = s.st.ht
  progress : s'.st.progressTable = s.st.progressTable

variable {c : Option (Write V)} {n : Kn V} {e : Event Tid V}

/-- A step that stages nothing. -/
theorem Owned.localStep_quiet (h : s.Owned owner C) (hkn : s'.kn = update s.kn t n)
    (hctl : n.ctl.Local owner t) (hrepl : n.replicatedAlloc = (s.kn t).replicatedAlloc)
    (hbuf : n.pool.buffer = (s.kn t).pool.buffer ∨ n.pool.buffer = []) (hwritten : s'.written = s.written)
    (hcall : ∀ w ret stage, n.ctl = .write w ret stage → c = some w ∨ ∃ ret stage, (s.kn t).ctl = .write w ret stage)
    (hst : s'.st.ht = s.st.ht ∧ s'.st.progressTable = s.st.progressTable) : LocalStep owner s s' t c n where
  kn := hkn
  ctl := hctl
  repl := by rw [hrepl, (h.calls t).2]
  staged o ho := by
    rcases hbuf with hbuf | hbuf
    · exact h.staged t o (hbuf ▸ ho)
    · rw [hbuf] at ho
      cases ho
  written := .inl hwritten
  call := hcall
  ht := hst.1
  progress := hst.2

/-- The start of a merge. -/
theorem Owned.localStep_startMerge (h : s.Owned owner C) (clear : Bool) :
    ∃ n, LocalStep owner s (s.startMerge cfg t (.done clear)) t c n := by
  unfold startMerge
  split_ifs
  · cases clear
    · exact ⟨_, h.localStep_quiet rfl trivial rfl (.inl rfl) rfl nofun ⟨rfl, rfl⟩⟩
    · exact ⟨_, h.localStep_quiet rfl trivial rfl (.inl rfl) rfl nofun ⟨rfl, rfl⟩⟩
  · exact ⟨_, h.localStep_quiet rfl trivial rfl (.inl rfl) rfl nofun ⟨rfl, rfl⟩⟩
  · exact ⟨_, h.localStep_quiet rfl trivial rfl (.inl rfl) rfl nofun ⟨rfl, rfl⟩⟩
  · exact ⟨_, h.localStep_quiet rfl trivial rfl (.inl rfl) rfl nofun ⟨rfl, rfl⟩⟩

/-- The publication of a batch. -/
theorem Owned.localStep_publish (h : s.Owned owner C) {d : Ctl V} (hd : d.Local owner t)
    (hcall : ∀ w ret stage, d = .write w ret stage → c = some w ∨ ∃ ret stage, (s.kn t).ctl = .write w ret stage) :
    ∃ n, LocalStep owner s ((s.publishBatch t).setCtl t d) t c n := by
  have hself : (s.publishBatch t).kn t = { s.kn t with
      pool := { (s.kn t).pool with offset := (s.kn t).batchedOffset }, flushedOffset := (s.kn t).batchedOffset } :=
    update_self _ _ _
  refine ⟨_, h.localStep_quiet (update_idem _ _ _) hd ?_ (.inl ?_) rfl hcall ⟨rfl, rfl⟩⟩ <;> simp only [hself]

/-- A staged write goes to the end of the staging pool. -/
theorem kn_append (s : Cluster Tid V) (cfg : Config) (t : Tid) (w : Write V) :
    ∃ n, (s.append cfg t w).kn = update s.kn t n ∧ n.ctl = .idle ∧
      n.replicatedAlloc = (s.kn t).replicatedAlloc ∧
      n.pool.buffer = (s.kn t).pool.buffer ++ [(s.nextEntry cfg t w).oplog] ∧
      (s.append cfg t w).st.ht = s.st.ht ∧ (s.append cfg t w).st.progressTable = s.st.progressTable := by
  unfold append
  cases cfg.batching
  · exact ⟨_, rfl, rfl, rfl, rfl, rfl, rfl⟩
  · exact ⟨_, rfl, rfl, rfl, rfl, rfl, rfl⟩

/-- A step of `put` or `remove`. -/
theorem Owned.localStep_stepWrite (h : s.Owned owner C) {w : Write V} {ret : Bool} {stage : WriteStage}
    (hctl : (s.kn t).ctl = .write w ret stage) (hs' : s.stepWrite cfg t w ret stage = some s') :
    ∃ n, LocalStep owner s s' t c n := by
  have hw : owner w.key = t := by
    have hcall := (h.calls t).1
    rw [hctl] at hcall
    exact hcall
  have hsame : ∀ ret' stage' w' ret'' stage'', (.write w ret' stage' : Ctl V) = .write w' ret'' stage'' →
      c = some w' ∨ ∃ ret stage, (s.kn t).ctl = .write w' ret stage := by
    intro ret' stage' w' ret'' stage'' heq
    cases heq
    exact .inr ⟨ret, stage, hctl⟩
  cases stage with
  | retry =>
    simp only [stepWrite] at hs'
    split_ifs at hs'
    · cases hs'
      obtain ⟨hkn, hst, hwritten⟩ := acknowledge_frame (s.append cfg t w) cfg t ret (s.nextEntry cfg t w)
      obtain ⟨n, hn, hidle, hrepl, hbuf, hht, hprogress⟩ := s.kn_append cfg t w
      refine ⟨n, hkn.trans hn, by rw [hidle]; trivial, by rw [hrepl, (h.calls t).2], fun o ho => ?_, .inr ?_, ?_,
        by rw [hst, hht], by rw [hst, hprogress]⟩
      · rw [hbuf] at ho
        rcases List.mem_append.mp ho with ho | ho
        · exact h.staged t o ho
        · rw [List.mem_singleton.mp ho]
          exact hw
      · exact ⟨w, ret, _, hctl, hidle, hwritten.trans (s.append_frame cfg t w).1, rfl, rfl⟩
      · rw [hidle]
        simp
    · cases hs'
      exact ⟨_, h.localStep_quiet rfl hw rfl (.inl rfl) rfl (hsame _ _) ⟨rfl, rfl⟩⟩
    · cases hs'
      exact ⟨_, h.localStep_quiet rfl hw rfl (.inl rfl) rfl (hsame _ _) ⟨rfl, rfl⟩⟩
  | header =>
    cases hs'
    exact h.localStep_publish hw (hsame _ _)
  | clean =>
    cases hs'
    exact ⟨_, h.localStep_quiet rfl hw rfl (.inr rfl) rfl (hsame _ _) ⟨rfl, rfl⟩⟩
  | link =>
    cases hs'
    exact ⟨_, h.localStep_quiet rfl hw rfl (.inl rfl) rfl (hsame _ _) ⟨rfl, rfl⟩⟩
  | slot =>
    cases hs'
    exact ⟨_, h.localStep_quiet rfl hw rfl (.inl rfl) rfl (hsame _ _) ⟨rfl, rfl⟩⟩

/-- A step of a thread that writes its own keys. -/
theorem Owned.localStep (h : s.Owned owner C) (he : e.Local owner) (hpass : ∀ t, e ≠ .passStep t)
    (hbegin : ∀ t kind, e ≠ .beginPass t kind) (hs' : s.step cfg e = some s') :
    ∃ n, LocalStep owner s s' e.tid e.started n := by
  -- such a thread is in no call with indirect pointers
  have hno : ∀ {t : Tid} {c : Ctl V}, (s.kn t).ctl = c → ¬ c.Local owner t → False := fun {t c} hctl hc =>
    hc (hctl ▸ (h.calls t).1)
  cases stepped hs' with
  | invoke t call hctl =>
    cases call with
    | write w =>
      refine ⟨_, h.localStep_quiet rfl he.1 rfl (.inl rfl) rfl (fun w' ret stage heq => ?_) ⟨rfl, rfl⟩⟩
      cases heq
      exact .inl rfl
    | flush =>
      simp only [invoke]
      split_ifs
      · exact ⟨_, h.localStep_quiet rfl trivial rfl (.inl rfl) rfl (by simp) ⟨rfl, rfl⟩⟩
      · refine ⟨s.kn t, h.localStep_quiet (update_eq_self _ _).symm (h.calls t).1 rfl (.inl rfl) rfl ?_
          ⟨rfl, rfl⟩⟩
        simp [hctl]
    | merge clear => exact h.localStep_startMerge clear
    | _ => exact he.elim
  | write t w ret stage s' hctl hs' => exact h.localStep_stepWrite hctl hs'
  | flush t after hctl =>
    cases after with
    | done =>
      obtain ⟨n, hn⟩ := h.localStep_publish (t := t) (c := none) (d := .idle) trivial (by simp)
      exact ⟨n, hn.kn, hn.ctl, hn.repl, hn.staged, hn.written, hn.call, hn.ht, hn.progress⟩
    | merge m =>
      cases m with
      | done clear => exact h.localStep_publish trivial (by simp)
      | install k => exact (hno hctl id).elim
  | merge t m hctl hreply =>
    cases m with
    | done clear => cases clear <;> exact ⟨_, h.localStep_quiet rfl trivial rfl (.inl rfl) rfl (by simp) ⟨rfl, rfl⟩⟩
    | install k => exact (hno hctl id).elim
  | removeIndirect t k st hctl hst => exact (hno hctl id).elim
  | putReplicated t w stage s' hctl hs' => exact (hno hctl id).elim
  | getReplicated t k keyLen stage s' hctl hs' => exact (hno hctl id).elim
  | preallocate t fresh s' hs' =>
    obtain ⟨-, ⟨w, ret, hctl, -, rfl⟩ | ⟨w, hctl, -, -⟩⟩ := preallocate_cases hs'
    · have hcall := (h.calls t).1
      rw [hctl] at hcall
      refine ⟨_, h.localStep_quiet rfl hcall rfl (.inl rfl) rfl (fun w' ret' stage heq => ?_) ⟨rfl, rfl⟩⟩
      cases heq
      exact .inr ⟨ret, .retry, hctl⟩
    · exact (hno hctl id).elim
  | install t a k hctl hc => exact (hno hctl id).elim
  | beginPass t kind st henabled hst => exact absurd rfl (hbegin t kind)
  | passStep t st hst => exact absurd rfl (hpass t)
  | crash t => exact ⟨_, h.localStep_quiet rfl trivial rfl (.inl rfl) rfl (by simp) ⟨rfl, rfl⟩⟩

variable [Fintype Tid]

/-- The oplog that the next one of a pass supersedes lies in a block of the owner. -/
theorem Owned.superseded (h : s.Owned owner C) (hok : s.Ok cfg C) {p : Pass} {o : Oplog V} {v : IndexVal}
    (hp : s.st.progressTable t = some p) (ho : s.st.nextOplog p = some o) (hv : s.st.superseded o = some v) :
    ∃ q o', v = .oplog q ∧ o' ∈ (s.st.mem q.block).buffer ∧ o'.offset = q.off ∧ owner o'.key = t := by
  obtain ⟨ρ, hinv⟩ := hok.inv
  obtain ⟨-, hrole, hmem, -⟩ := hinv.nextOplog_mem hp ho
  have hown : owner o.key = t := h.linked t p.next (((hinv.chain t).mem_iff _).mpr hrole) o hmem
  have hget : s.st.ht.get o.key = some v := by
    unfold Storage.superseded at hv
    split at hv
    · cases hv
    · exact hv
    · exact hv
  have hk : o.key ≠ 0 := (hinv.block p.next).keys o hmem
  obtain ⟨q, rfl⟩ := h.direct _ _ hk hget
  have hres : s.st.resolve o.key = some q := by simp only [resolve, hget]
  obtain ⟨o', ho', hoff, hkey, -⟩ := hinv.index.ref _ q hk hres
  exact ⟨q, o', rfl, ho', hoff, by rw [hkey, hown]⟩

/-- The events of threads that write their own keys are orderly. -/
theorem Owned.orderly (h : s.Owned owner C) (hok : s.Ok cfg C) (he : e.Local owner) :
    s.Orderly e := by
  cases e with
  | invoke t c =>
    match c with
    | .write w => exact he.2
    | .flush => trivial
    | .merge clear => trivial
  | advance t =>
    have hcall := (h.calls t).1
    simp only [Orderly]
    split <;> first | trivial | (rename_i hctl; rw [hctl] at hcall; exact hcall.elim)
  | install t c =>
    intro k hctl
    have hcall := (h.calls t).1
    rw [hctl] at hcall
    exact hcall.elim
  | passStep t =>
    intro p o v hp ho hv
    obtain ⟨ρ, hinv⟩ := hok.inv
    obtain ⟨q, o', rfl, ho', -, hown⟩ := h.superseded hok hp ho hv
    refine ⟨q, rfl, fun _ => ⟨.inr fun t' ht' hl => ht' ?_, fun t' p' ht' hp' hc => ht' ?_⟩⟩
    · have hmem : q.block ∈ C t' := ((hinv.chain t').mem_iff _).mpr (hinv.linked_iff.mp hl)
      exact (h.linked t' _ hmem o' ho').symm.trans hown
    · exact (h.check t' p' _ hp' hc o' ho').symm.trans hown
  | _ => trivial

/-- A step of a thread adds oplogs of its own keys to its current block, and none to any other. -/
theorem Owned.buffers (h : s.Owned owner C) (hok : s.Ok cfg C)
    (hlocal : LocalStep owner s s' e.tid c n) (ho : s.Orderly e) (hs' : s.step cfg e = some s') (a : Addr) :
    (∀ o ∈ (s'.st.mem a).buffer, o ∈ (s.st.mem a).buffer) ∨
      ((s.cores e.tid).Live ∧ a = (s.kn e.tid).nonReplicatedAlloc ∧ ∀ o ∈ (s'.st.mem a).buffer, owner o.key = e.tid) := by
  obtain ⟨ρ', hinv'⟩ := (hok.step ho hs').inv
  -- a current block holds staged oplogs
  have hcurrent : (s'.kn e.tid).core.Live → (s'.kn e.tid).nonReplicatedAlloc = (s.kn e.tid).nonReplicatedAlloc →
      ∀ o ∈ (s'.st.mem (s.kn e.tid).nonReplicatedAlloc).buffer, owner o.key = e.tid := by
    intro hl halloc o hmem
    have hprefix := ((hinv'.thread e.tid).liveOk hl).isPrefix
    have hstaged : o ∈ (s'.kn e.tid).pool.buffer := hprefix.subset (by rw [← halloc] at hmem; exact hmem)
    rw [hlocal.kn, update_self] at hstaged
    exact hlocal.staged o hstaged
  by_cases h0 : a = 0
  · subst h0
    refine .inl fun o hmem => ?_
    rw [(hinv'.block 0).unalloc hinv'.zero_allocated] at hmem
    cases hmem
  rcases (outside_step hs').buffer a h0 with heq | ⟨hl, rfl⟩ | ⟨hr, -⟩ | ⟨fresh, he, -, hmem⟩
  · exact .inl fun o hmem => heq ▸ hmem
  · have hlive := (Kn.live_iff _).mp hl
    cases tail_step (t := e.tid) hs' with
    | same hsame _ _ =>
      refine .inr ⟨hl, rfl, hcurrent ?_ hsame.alloc⟩
      rw [Kn.live_iff, hsame.stage, hsame.alloc, ne_eq, hsame.crashed]
      exact hlive
    | stage w ret o he hctl _ hctl' halloc =>
      refine .inr ⟨hl, rfl, hcurrent ?_ halloc⟩
      rw [Kn.live_iff, hctl', halloc]
      exact ⟨nofun, hlive.2.1, rfl⟩
    | rotate w ret _ _ _ _ _ hst => exact .inl fun o hmem => by rwa [hst] at hmem
    | allocate w ret fresh _ _ halloc => exact absurd halloc hlive.2.1
    | link w ret _ hctl => exact absurd hlive.2.2 (by rw [hctl]; nofun)
    | slot w ret _ hctl => exact absurd hlive.2.2 (by rw [hctl]; nofun)
    | crash he =>
      generalize e.tid = t at he
      subst he
      cases hs'
      exact .inl fun o hmem => hmem
  · exact absurd (h.calls e.tid).2 hr.2.1
  · generalize e.tid = t at he
    subst he
    have hst : s'.st = s.st.preallocate cfg.maxPreallocNum fresh := by
      obtain ⟨-, ⟨w, ret, -, -, rfl⟩ | ⟨w, -, -, rfl⟩⟩ := preallocate_cases hs' <;> rfl
    refine .inl fun o hx => ?_
    rw [hst] at hx
    simp only [Storage.preallocate, if_pos hmem] at hx
    cases hx

/-- A block that a pass compares and that is linked belongs to the owner of both. -/
theorem Owned.tid_eq_of_check (h : s.Owned owner C) (hok : s.Ok cfg C) {t' : Tid} {p : Pass} {a : Addr}
    (hp : s.st.progressTable t' = some p) (ha : p.check = some a) (hmem : a ∈ C t) : t' = t := by
  obtain ⟨ρ, hinv⟩ := hok.inv
  have hrole := ((hinv.chain t).mem_iff a).mp hmem
  rcases (hinv.check t' p a hp ha).role with ⟨hr, -⟩ | ⟨_, hr, -⟩ | ⟨_, hr, hvalid, -⟩
  · exact absurd (hrole.symm.trans hr) nofun
  · exact absurd (hrole.symm.trans hr) nofun
  · -- the block counts a valid oplog, so it holds one
    rw [((hinv.chain t).block a hmem).valid, writesIn, List.countP_pos_iff] at hvalid
    obtain ⟨o, ho, -⟩ := hvalid
    exact (h.check t' p a hp ha o ho).symm.trans (h.linked t a hmem o ho)

/-- A step of a thread keeps the keys where their owners are. -/
theorem Owned.step_thread (h : s.Owned owner C) (hok : s.Ok cfg C)
    (hlocal : LocalStep owner s s' e.tid c n) (ho : s.Orderly e) (hs' : s.step cfg e = some s')
    (hpass : ∀ t, e ≠ .passStep t) : s'.Owned owner (s.chainsAfter C e) := by
  obtain ⟨ρ, hinv⟩ := hok.inv
  have hbuffers := h.buffers hok hlocal ho hs'
  have hlive : (s.cores e.tid).Live → (s.kn e.tid).nonReplicatedAlloc ∈ C e.tid := fun hl =>
    List.mem_of_mem_head? ((hinv.thread e.tid).live hl)
  have hlinked : ∀ t, ∀ a ∈ C t, ∀ o ∈ (s'.st.mem a).buffer, owner o.key = t := by
    intro t a ha o hmem
    rcases hbuffers a with hsub | ⟨hl, rfl, hown⟩
    · exact h.linked t a ha o (hsub o hmem)
    · have hrole := ((hinv.chain t).mem_iff _).mp ha
      have hrole' := ((hinv.chain e.tid).mem_iff _).mp (hlive hl)
      rw [hown o hmem]
      simpa using hrole'.symm.trans hrole
  refine ⟨fun t => ?_, fun t => ?_, fun t a ha o hmem => ?_, fun a o hmem o' hmem' => ?_, fun t p a hp ha o hmem => ?_,
    fun k v hk hv => h.direct k v hk (by rw [← hlocal.ht]; exact hv), fun x hx => ?_⟩
  · rw [hlocal.kn]
    by_cases ht : t = e.tid
    · rw [ht, update_self]
      exact ⟨hlocal.ctl, hlocal.repl⟩
    · rw [update_of_ne ht]
      exact h.calls t
  · rw [hlocal.kn]
    by_cases ht : t = e.tid
    · rw [ht, update_self]
      exact hlocal.staged
    · rw [update_of_ne ht]
      exact h.staged t
  · rcases hinv.chainsAfter_cases t e with hC | ⟨he, -⟩ | ⟨w, ret, he, hctl, hC⟩
    · exact hlinked t a (hC ▸ ha) o hmem
    · exact absurd he (hpass t)
    · rw [hC] at ha
      rcases List.mem_cons.mp ha with rfl | ha
      · -- a block that is entered in the slot is empty
        subst he
        have hview : (s.cores t).view.linking = true := by
          change (s.kn t).ctl.view.linking = true
          rw [hctl]
          rfl
        have hzero := (hinv.block _).linking t ((hinv.thread t).linking hview)
        rcases hbuffers (s.kn t).nonReplicatedAlloc with hsub | ⟨hl, -⟩
        · have := hsub o hmem
          rw [show (s.st.mem (s.kn t).nonReplicatedAlloc).buffer = [] from congrArg LogBlock.buffer hzero] at this
          cases this
        · exact absurd hl.2.2 (by rw [show (s.cores (Event.advance t : Event Tid V).tid).view.linking = true from hview]; nofun)
      · exact hlinked t a ha o hmem
  · rcases hbuffers a with hsub | ⟨-, -, hown⟩
    · exact h.uniform a o (hsub o hmem) o' (hsub o' hmem')
    · rw [hown o hmem, hown o' hmem']
  · rw [hlocal.progress] at hp
    rcases hbuffers a with hsub | ⟨hl, rfl, hown⟩
    · exact h.check t p a hp ha o (hsub o hmem)
    · rw [hown o hmem]
      exact (h.tid_eq_of_check hok hp ha (hlive hl)).symm
  · rcases hlocal.written with hw | ⟨w, ret, y, hctl, -, hw, ht, hy⟩
    · exact h.written x (hw ▸ hx)
    · rw [hw] at hx
      rcases List.mem_append.mp hx with hx | hx
      · exact h.written x hx
      · have hcall := (h.calls e.tid).1
        rw [hctl] at hcall
        rw [List.mem_singleton.mp hx, ht, hy]
        exact hcall

/-- The start of a pass keeps the keys where their owners are. -/
theorem Owned.step_beginPass (h : s.Owned owner C) {kind : PassKind} {st : Storage Tid V}
    (hst : s.st.beginPass t kind = some st) : ({ s with st := st } : Cluster Tid V).Owned owner C := by
  have hbuf := (beginPass_frame hst).2
  have hht : st.ht = s.st.ht := (passMoves_beginPass hst).ht
  have hcheck : ∀ t' p a, st.progressTable t' = some p → p.check = some a → s.st.progressTable t' = some p := by
    intro t' p a hp ha
    unfold beginPass at hst
    split at hst
    · cases hst
    simp only at hst
    by_cases ht : t' = t
    · subst ht
      split_ifs at hst <;> cases hst
      · have hnone : (s.st.finishPass t' kind).progressTable t' = none := by
          cases kind <;> exact setPass_self _
        exact absurd (hnone.symm.trans hp) nofun
      · rw [setPass_self] at hp
        cases hp
        cases ha
      · rw [setPass_self] at hp
        cases hp
        cases ha
    · split_ifs at hst <;> cases hst
      · rw [← hp]
        cases kind <;> exact (setPass_of_ne ht _).symm
      · rwa [setPass_of_ne ht] at hp
      · rwa [setPass_of_ne ht] at hp
  refine ⟨h.calls, h.staged, fun t' a ha o hmem => h.linked t' a ha o (by rwa [← hbuf]), fun a o hmem o' hmem' =>
    h.uniform a o (by rwa [← hbuf]) o' (by rwa [← hbuf]), fun t' p a hp ha o hmem => ?_, fun k v hk hv =>
    h.direct k v hk (by rwa [← hht]), h.written⟩
  exact h.check t' p a (hcheck t' p a hp ha) ha o (by rwa [← hbuf])

/-- A step of a pass keeps the keys where their owners are. -/
theorem Owned.step_passStep (h : s.Owned owner C) (hok : s.Ok cfg C) {st : Storage Tid V}
    (hst : s.st.passStep t = some st) :
    ({ s with st := st } : Cluster Tid V).Owned owner (s.chainsAfter C (.passStep t)) := by
  obtain ⟨ρ, hinv⟩ := hok.inv
  have hbuf := (passStep_frame hst).2
  refine ⟨h.calls, h.staged, fun t' a ha o hmem => ?_, fun a o hmem o' hmem' =>
    h.uniform a o (by rwa [← hbuf]) o' (by rwa [← hbuf]), fun t' p a hp ha o hmem => ?_, fun k v hk hv => ?_, h.written⟩
  · have hsub : a ∈ C t' := by
      rcases hinv.chainsAfter_cases t' (.passStep t) with hC | ⟨-, hC, -⟩ | ⟨_, _, he, -⟩
      · exact hC ▸ ha
      · rw [hC] at ha
        exact List.mem_of_mem_dropLast ha
      · cases he
    exact h.linked t' a hsub o (by rwa [← hbuf])
  · have hmem' : o ∈ (s.st.mem a).buffer := by rwa [← hbuf]
    by_cases ht : t' = t
    · subst ht
      obtain ⟨p₀, hp₀, ⟨hphase, rfl⟩ | ⟨o₀, v, ho₀, hv, rfl⟩⟩ := passStep_check hst hp ha
      · have hpos := ((hinv.log t').pass p₀ hp₀).pos
        simp only [PassPos, hphase] at hpos
        obtain ⟨pre, hC, -⟩ := hpos
        exact h.linked t' p₀.next (by rw [hC]; simp) o hmem'
      · obtain ⟨q, o', rfl, ho', hoff, hown⟩ := h.superseded hok hp₀ ho₀ hv
        have hat : s.st.oplogAt q = some o' := by
          rw [oplogAt, ← hoff]
          exact LogBlock.entryAt_of_mem (hinv.block _).aligned ho'
        rw [logBlockMerged_oplog hat hoff] at hmem'
        rw [h.uniform _ o hmem' o' ho', hown]
    · exact h.check t' p a (by rwa [← passStep_other hst ht]) ha o hmem'
  · rcases passStep_ht hst with ⟨hht, -⟩ | ⟨p, o, -, -, hht, -⟩
    · exact h.direct k v hk (by rwa [← hht])
    · have hget : (indexAfter s.st.ht ⟨p.next, p.offset⟩ o).get k = some v := by rwa [← hht]
      rw [get_indexAfter hinv.index.full _ _ hk] at hget
      split_ifs at hget with hkey
      · subst hkey
        cases v with
        | oplog q => exact ⟨q, rfl⟩
        | indirect c => exact h.direct o.key _ hk (OpType.eq_indirect_of_wordAfter hget)
      · exact h.direct k v hk hget

/-- Every event of threads that write their own keys keeps the keys where their owners are. -/
theorem Owned.step (h : s.Owned owner C) (hok : s.Ok cfg C) (he : e.Local owner)
    (hs' : s.step cfg e = some s') : s'.Owned owner (s.chainsAfter C e) := by
  have ho := h.orderly hok he
  cases e with
  | beginPass t kind =>
    obtain ⟨-, hs'⟩ := Option.ite_none_right_eq_some.mp hs'
    obtain ⟨st, hst, rfl⟩ := Option.map_eq_some_iff.mp hs'
    exact h.step_beginPass hst
  | passStep t =>
    obtain ⟨st, hst, rfl⟩ := Option.map_eq_some_iff.mp hs'
    exact h.step_passStep hok hst
  | _ =>
    obtain ⟨n, hlocal⟩ := h.localStep he nofun nofun hs'
    exact h.step_thread hok hlocal ho hs' nofun

omit [Fintype Tid] in
/-- Before any call. -/
theorem owned_init (owner : Key → Tid) (logBuckets : ℕ) : (init logBuckets : Cluster Tid V).Owned owner fun _ => [] where
  calls _ := ⟨trivial, rfl⟩
  staged _ := nofun
  linked _ := nofun
  uniform _ := nofun
  check _ _ _ := nofun
  direct k v hk hv := by
    have := Clht.get_create (α := IndexVal) logBuckets hk
    exact absurd (hv.symm.trans this) nofun
  written := nofun

end Cluster

end Dinomo
