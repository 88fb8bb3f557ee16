import Dinomo.Cluster

/-!
# What a step can do

`step` is taken apart once, by the control state of the thread; invariants are then proved case by case.  The steps of
`putReplicated`, `getReplicated` and the calls that start or end a `merge` leave the thread's own log aside, and what
they do to the rest of the cluster is stated once for all of them.
-/

namespace Dinomo

open Function

variable {Tid V : Type*}

/-- Two states of a thread with the same staging pool, current block and batching offsets. -/
structure Kn.SameLog (n n' : Kn V) : Prop where
  pool : n'.pool = n.pool
  alloc : n'.nonReplicatedAlloc = n.nonReplicatedAlloc
  batched : n'.batchedOffset = n.batchedOffset
  flushed : n'.flushedOffset = n.flushedOffset

/-- Changing the header of a block writes no oplog. -/
theorem Storage.buffer_modBlock (st : Storage Tid V) {a : Addr} {f : LogBlock V → LogBlock V}
    (hf : (f (st.mem a)).buffer = (st.mem a).buffer) (b : Addr) :
    ((st.modBlock a f).mem b).buffer = (st.mem b).buffer := by
  by_cases h : b = a
  · subst h
    rw [mem_modBlock_self, hf]
  · rw [mem_modBlock_of_ne _ h]

namespace Cluster

variable [DecidableEq Tid]

/-- What an event that is enabled does. -/
inductive Stepped (cfg : Config) (s : Cluster Tid V) : Event Tid V → Cluster Tid V → Prop
  | invoke (t : Tid) (c : Call V) (hctl : (s.kn t).ctl = .idle) : Stepped cfg s (.invoke t c) (s.invoke cfg t c)
  | write (t : Tid) (w : Write V) (ret : Bool) (stage : WriteStage) (s' : Cluster Tid V)
      (hctl : (s.kn t).ctl = .write w ret stage) (hs' : s.stepWrite cfg t w ret stage = some s') :
      Stepped cfg s (.advance t) s'
  | flush (t : Tid) (after : AfterFlush) (hctl : (s.kn t).ctl = .flush after) :
      Stepped cfg s (.advance t) (s.stepFlush t after)
  | merge (t : Tid) (m : AfterMerge) (hctl : (s.kn t).ctl = .merge m) (hreply : s.st.mergeReply t = true) :
      Stepped cfg s (.advance t) (({ s with st := { s.st with
        mergeReply := Function.update s.st.mergeReply t false } } : Cluster Tid V).afterMerge t m)
  | removeIndirect (t : Tid) (k : Key) (st : Storage Tid V) (hctl : (s.kn t).ctl = .removeIndirect k)
      (hst : s.st.removeIndirect k = some st) :
      Stepped cfg s (.advance t) (({ s with st := st } : Cluster Tid V).setCtl t .idle)
  | putReplicated (t : Tid) (w : Write V) (stage : PutReplStage) (s' : Cluster Tid V)
      (hctl : (s.kn t).ctl = .putReplicated w stage) (hs' : s.stepPutReplicated cfg t w stage = some s') :
      Stepped cfg s (.advance t) s'
  | getReplicated (t : Tid) (k : Key) (keyLen : ℕ) (stage : GetReplStage V) (s' : Cluster Tid V)
      (hctl : (s.kn t).ctl = .getReplicated k keyLen stage) (hs' : s.stepGetReplicated t k keyLen stage = some s') :
      Stepped cfg s (.advance t) s'
  | preallocate (t : Tid) (fresh : List Addr) (s' : Cluster Tid V) (hs' : s.preallocate cfg t fresh = some s') :
      Stepped cfg s (.preallocate t fresh) s'
  | install (t : Tid) (c : Addr) (k : Key) (hctl : (s.kn t).ctl = .install k) (hc : c ≠ 0 ∧ c ∉ s.st.allocated) :
      Stepped cfg s (.install t c) (({ s with st := s.st.installIndirect k c } : Cluster Tid V).setCtl t .idle)
  | beginPass (t : Tid) (kind : PassKind) (st : Storage Tid V) (henabled : s.passEnabled t kind = true)
      (hst : s.st.beginPass t kind = some st) : Stepped cfg s (.beginPass t kind) { s with st := st }
  | passStep (t : Tid) (st : Storage Tid V) (hst : s.st.passStep t = some st) :
      Stepped cfg s (.passStep t) { s with st := st }
  | crash (t : Tid) : Stepped cfg s (.crash t) (s.setCtl t .crashed)

variable {cfg : Config} {s s' : Cluster Tid V} {t : Tid}

/-- Every event does one of these things. -/
theorem stepped {e : Event Tid V} (hs' : s.step cfg e = some s') : Stepped cfg s e s' := by
  cases e with
  | invoke t c =>
    simp only [step] at hs'
    split at hs' <;> cases hs'
    exact .invoke t c ‹_›
  | advance t =>
    simp only [step, advance] at hs'
    split at hs'
    · exact .write t _ _ _ _ ‹_› hs'
    · cases hs'
      exact .flush t _ ‹_›
    · obtain ⟨hreply, hs'⟩ := Option.ite_none_right_eq_some.mp hs'
      cases hs'
      exact .merge t _ ‹_› hreply
    · split at hs' <;> cases hs'
      exact .removeIndirect t _ _ ‹_› ‹_›
    · exact .putReplicated t _ _ _ ‹_› hs'
    · exact .getReplicated t _ _ _ _ ‹_› hs'
    · cases hs'
  | preallocate t fresh => exact .preallocate t fresh s' hs'
  | install t c =>
    simp only [step, install] at hs'
    split at hs'
    · obtain ⟨hc, hs'⟩ := Option.ite_none_right_eq_some.mp hs'
      cases hs'
      exact .install t c _ ‹_› hc
    · cases hs'
  | beginPass t kind =>
    obtain ⟨henabled, hs'⟩ := Option.ite_none_right_eq_some.mp hs'
    obtain ⟨st, hst, rfl⟩ := Option.map_eq_some_iff.mp hs'
    exact .beginPass t kind st henabled hst
  | passStep t =>
    obtain ⟨st, hst, rfl⟩ := Option.map_eq_some_iff.mp hs'
    exact .passStep t st hst
  | crash t =>
    cases hs'
    exact .crash t

@[simp] theorem setKn_kn_self (s : Cluster Tid V) (t : Tid) (n : Kn V) : (s.setKn t n).kn t = n :=
  update_self ..

@[simp] theorem setCtl_kn_self (s : Cluster Tid V) (t : Tid) (c : Ctl V) :
    (s.setCtl t c).kn t = { s.kn t with ctl := c } := update_self ..

/-- A thread in the control state it was moved to. -/
theorem setCtl_ctl_self (s : Cluster Tid V) (t : Tid) (c : Ctl V) : ((s.setCtl t c).kn t).ctl = c := by
  rw [setCtl_kn_self]

/-- A step that leaves the log of its thread aside. -/
structure Aside (s s' : Cluster Tid V) (t : Tid) (n : Kn V) : Prop where
  kn : s'.kn = Function.update s.kn t n
  sameLog : (s.kn t).SameLog n
  written : s'.written = s.written
  slot : s'.st.logMappingTable = s.st.logMappingTable

/-- The thread after such a step. -/
theorem Aside.kn_self {n : Kn V} (h : s.Aside s' t n) : s'.kn t = n := by rw [h.kn, update_self]

/-- A step of `putReplicated` ends the call or goes on with it.  It takes a preallocated block in one stage and writes
an oplog, to the replicated block, in another. -/
structure PutsAside (s s' : Cluster Tid V) (t : Tid) (w : Write V) (stage : PutReplStage) (n : Kn V) : Prop
    extends s.Aside s' t n where
  requests : s'.batchingRequests = s.batchingRequests
  acked : s'.acked = s.acked
  ctl : n.ctl = .idle ∨ ∃ stage', n.ctl = .putReplicated w stage' ∧ (stage' = .syncValid → n.replicatedAlloc ≠ 0)
  raddrs : stage ≠ .newBlock → n.logBlocksRaddrs = (s.kn t).logBlocksRaddrs
  buffer : ∀ a, (s'.st.mem a).buffer = (s.st.mem a).buffer ∨
    (stage = .start ∧ (s.kn t).replicatedAlloc ≠ 0 ∧ a = (s.kn t).replicatedAlloc)

/-- A stage of `putReplicated` that writes no oplog and takes no block. -/
theorem PutsAside.go {s₁ : Cluster Tid V} {w : Write V} {stage stage' : PutReplStage} (hkn : s₁.kn = s.kn)
    (hsync : stage' = .syncValid → (s.kn t).replicatedAlloc ≠ 0)
    (hhist : s₁.written = s.written ∧ s₁.batchingRequests = s.batchingRequests ∧ s₁.acked = s.acked)
    (hslot : s₁.st.logMappingTable = s.st.logMappingTable)
    (hbuf : ∀ a, (s₁.st.mem a).buffer = (s.st.mem a).buffer) :
    s.PutsAside (s₁.setCtl t (.putReplicated w stage')) t w stage { s.kn t with ctl := .putReplicated w stage' } where
  kn := by rw [setCtl, setKn, hkn]
  sameLog := ⟨rfl, rfl, rfl, rfl⟩
  written := hhist.1
  slot := hslot
  requests := hhist.2.1
  acked := hhist.2.2
  ctl := .inr ⟨stage', rfl, hsync⟩
  raddrs := fun _ => rfl
  buffer := fun a => .inl (hbuf a)

/-- What a step of `putReplicated` does. -/
theorem stepPutReplicated_aside {w : Write V} {stage : PutReplStage}
    (hs' : s.stepPutReplicated cfg t w stage = some s') : ∃ n, s.PutsAside s' t w stage n := by
  cases stage with
  | start =>
    simp only [stepPutReplicated] at hs'
    split_ifs at hs' with h0 <;> cases hs'
    · exact ⟨_, .go rfl (by simp) ⟨rfl, rfl, rfl⟩ rfl fun _ => rfl⟩
    · refine ⟨{ s.kn t with ctl := .putReplicated w .find }, ⟨rfl, ⟨rfl, rfl, rfl, rfl⟩, rfl, rfl⟩, rfl, rfl,
        .inr ⟨.find, rfl, by simp⟩, fun _ => rfl, fun a => ?_⟩
      by_cases ha : a = (s.kn t).replicatedAlloc
      · exact .inr ⟨rfl, h0, ha⟩
      · left
        exact congrArg LogBlock.buffer (s.st.mem_modBlock_of_ne ha fun b =>
          { b with buffer := writeOplog b.buffer (w.at (s.kn t).replicatedAllocOffset) })
    · exact ⟨_, .go rfl (fun _ => h0) ⟨rfl, rfl, rfl⟩ rfl fun a =>
        s.st.buffer_modBlock (f := fun b => { b with offset := (s.kn t).replicatedAllocOffset }) rfl a⟩
  | syncValid =>
    cases hs'
    exact ⟨_, .go rfl (by simp) ⟨rfl, rfl, rfl⟩ rfl fun a =>
      s.st.buffer_modBlock (f := fun b => { b with validCounter := (s.kn t).replicatedAllocNumEntries }) rfl a⟩
  | newBlock =>
    simp only [stepPutReplicated] at hs'
    split_ifs at hs'
    cases hs'
    exact ⟨{ (s.kn t).newReplicated with ctl := .putReplicated w .start }, ⟨rfl, ⟨rfl, rfl, rfl, rfl⟩, rfl, rfl⟩, rfl, rfl,
      .inr ⟨.start, rfl, by simp⟩, fun h => absurd rfl h, fun _ => .inl rfl⟩
  | find =>
    simp only [stepPutReplicated] at hs'
    split at hs'
    · cases hs'
      exact ⟨_, .go rfl (by simp) ⟨rfl, rfl, rfl⟩ rfl fun _ => rfl⟩
    · split at hs' <;> cases hs'
      · exact ⟨{ s.kn t with ctl := .idle }, ⟨rfl, ⟨rfl, rfl, rfl, rfl⟩, rfl, rfl⟩, rfl, rfl, .inl rfl, fun _ => rfl,
          fun _ => .inl rfl⟩
      · exact ⟨_, .go rfl (by simp) ⟨rfl, rfl, rfl⟩ rfl fun _ => rfl⟩
  | readPtr c =>
    cases hs'
    exact ⟨_, .go rfl (by simp) ⟨rfl, rfl, rfl⟩ rfl fun _ => rfl⟩
  | cas c expected =>
    simp only [stepPutReplicated] at hs'
    split_ifs at hs' <;> cases hs' <;> exact ⟨_, .go rfl (by simp) ⟨rfl, rfl, rfl⟩ rfl fun _ => rfl⟩
  | readOld c expected =>
    simp only [stepPutReplicated] at hs'
    split at hs' <;> cases hs'
    exact ⟨_, .go rfl (by simp) ⟨rfl, rfl, rfl⟩ rfl fun _ => rfl⟩
  | faa c expected off =>
    simp only [stepPutReplicated] at hs'
    split at hs' <;> cases hs'
    refine ⟨_, ⟨rfl, ⟨rfl, rfl, rfl, rfl⟩, rfl, rfl⟩, rfl, rfl, .inl rfl, fun _ => rfl, fun a => .inl ?_⟩
    exact s.st.buffer_modBlock (f := fun b => { b with globalInvalidCounter := b.globalInvalidCounter + 1 }) rfl a

/-- A step of `getReplicated` ends the call or goes on with it, and does nothing to the pool. -/
structure GetsAside (s s' : Cluster Tid V) (t : Tid) (k : Key) (keyLen : ℕ) (n : Kn V) : Prop
    extends s.Aside s' t n where
  requests : s'.batchingRequests = s.batchingRequests
  acked : s'.acked = s.acked
  ctl : n.ctl = .idle ∨ ∃ stage', n.ctl = .getReplicated k keyLen stage'
  eq : n = { s.kn t with indirectPointerCache := n.indirectPointerCache, ctl := n.ctl }
  st : s'.st = s.st

/-- The preallocated blocks are left alone. -/
theorem GetsAside.raddrs {k : Key} {keyLen : ℕ} {n : Kn V} (h : s.GetsAside s' t k keyLen n) :
    n.logBlocksRaddrs = (s.kn t).logBlocksRaddrs := by rw [h.eq]

/-- What a step of `getReplicated` does. -/
theorem stepGetReplicated_aside {k : Key} {keyLen : ℕ} {stage : GetReplStage V}
    (hs' : s.stepGetReplicated t k keyLen stage = some s') : ∃ n, s.GetsAside s' t k keyLen n := by
  have hsame : ∀ c (f : Key → Option (IndirectEntry V)),
      (s.kn t).SameLog { s.kn t with indirectPointerCache := f, ctl := c } := fun _ _ => ⟨rfl, rfl, rfl, rfl⟩
  have hgo : ∀ stage', s.GetsAside (s.setCtl t (.getReplicated k keyLen stage')) t k keyLen
      { s.kn t with ctl := .getReplicated k keyLen stage' } := fun stage' =>
    ⟨⟨rfl, hsame _ _, rfl, rfl⟩, rfl, rfl, .inr ⟨stage', rfl⟩, rfl, rfl⟩
  have hend : ∀ f r o, s.GetsAside ((s.setKn t { s.kn t with indirectPointerCache := f }).answer t k r o) t k keyLen
      { s.kn t with indirectPointerCache := f, ctl := .idle } := fun f r o => by
    refine ⟨⟨?_, hsame _ _, rfl, rfl⟩, rfl, rfl, .inl rfl, rfl, rfl⟩
    change update (update s.kn t _) t _ = _
    rw [update_idem, setKn_kn_self]
  have hanswer : ∀ r o, s.GetsAside (s.answer t k r o) t k keyLen { s.kn t with ctl := .idle } := fun r o =>
    ⟨⟨rfl, hsame _ _, rfl, rfl⟩, rfl, rfl, .inl rfl, rfl, rfl⟩
  have hretry : s.GetsAside (s.setKn t { (s.kn t).dropIndirect k with ctl := .getReplicated k keyLen .find }) t k keyLen
      { (s.kn t).dropIndirect k with ctl := .getReplicated k keyLen .find } :=
    ⟨⟨rfl, hsame _ _, rfl, rfl⟩, rfl, rfl, .inr ⟨.find, rfl⟩, rfl, rfl⟩
  cases stage with
  | find =>
    simp only [stepGetReplicated] at hs'
    split at hs'
    · cases hs'
      exact ⟨_, hgo _⟩
    · split at hs' <;> cases hs'
      · exact ⟨_, hanswer _ _⟩
      · exact ⟨_, hgo _⟩
  | readPtr c =>
    simp only [stepGetReplicated] at hs'
    split at hs'
    · cases hs'
      exact ⟨_, hend _ _ _⟩
    · split at hs'
      · split_ifs at hs' <;> cases hs'
        · exact ⟨_, hanswer _ _⟩
        · exact ⟨_, hgo _⟩
      · cases hs'
        exact ⟨_, hgo _⟩
  | readHeader c v seen =>
    cases hs'
    exact ⟨_, hgo _⟩
  | readBody c v seen =>
    simp only [stepGetReplicated] at hs'
    split at hs'
    · split_ifs at hs' <;> cases hs'
      · exact ⟨_, hend _ _ _⟩
      · exact ⟨_, hretry⟩
    · cases hs'
      exact ⟨_, hretry⟩

/-- A call that starts, or a `merge` that ends, keeps the preallocated blocks of its thread and writes oplogs to the
current block at most. -/
structure CallsAside (s s' : Cluster Tid V) (t : Tid) (n : Kn V) : Prop extends s.Aside s' t n where
  running : n.ctl ≠ .crashed
  retry : ∀ w ret stage, n.ctl = .write w ret stage → stage = .retry
  raddrs : n.logBlocksRaddrs = (s.kn t).logBlocksRaddrs
  buffer : ∀ a, a ≠ (s.kn t).nonReplicatedAlloc → (s'.st.mem a).buffer = (s.st.mem a).buffer
  requests : ∀ t' ≠ t, s'.batchingRequests t' = s.batchingRequests t'

/-- What the end of `merge` does. -/
theorem afterMerge_aside (s : Cluster Tid V) (t : Tid) (m : AfterMerge) : ∃ n, s.CallsAside (s.afterMerge t m) t n := by
  cases m with
  | done clear =>
    refine ⟨{ s.kn t with
      indirectPointerCache := if clear then fun _ => none else (s.kn t).indirectPointerCache, ctl := .idle }, ?_⟩
    cases clear with
    | false => exact ⟨⟨rfl, ⟨rfl, rfl, rfl, rfl⟩, rfl, rfl⟩, by simp, by simp, rfl, fun _ _ => rfl, fun _ _ => rfl⟩
    | true =>
      exact ⟨⟨rfl, ⟨rfl, rfl, rfl, rfl⟩, rfl, rfl⟩, by simp, by simp, rfl, fun _ _ => rfl, fun _ ht =>
        update_of_ne ht _ _⟩
  | install k =>
    exact ⟨_, ⟨rfl, ⟨rfl, rfl, rfl, rfl⟩, rfl, rfl⟩, by simp, by simp, rfl, fun _ _ => rfl, fun _ _ => rfl⟩

/-- What the end of `merge` does once its answer is taken. -/
theorem mergeReply_aside (s : Cluster Tid V) (t : Tid) (m : AfterMerge) : ∃ n, s.CallsAside (({ s with st := { s.st with
    mergeReply := update s.st.mergeReply t false } } : Cluster Tid V).afterMerge t m) t n := by
  obtain ⟨n, h⟩ := afterMerge_aside
    ({ s with st := { s.st with mergeReply := update s.st.mergeReply t false } } : Cluster Tid V) t m
  exact ⟨n, ⟨h.kn, h.sameLog, h.written, h.slot⟩, h.running, h.retry, h.raddrs, h.buffer, h.requests⟩

/-- Sending the staged oplogs writes to the current block. -/
theorem sendUnflushed_aside (s : Cluster Tid V) (t : Tid) {c : Ctl V} (hc : c ≠ .crashed)
    (hw : ∀ w ret stage, c = .write w ret stage → stage = .retry) :
    s.CallsAside ((s.sendUnflushed t).setCtl t c) t { s.kn t with ctl := c } :=
  ⟨⟨rfl, ⟨rfl, rfl, rfl, rfl⟩, rfl, rfl⟩, hc, hw, rfl, fun _ ha => congrArg LogBlock.buffer
    (s.st.mem_modBlock_of_ne ha fun b => { b with buffer := writeOplogs b.buffer (s.kn t).unflushed }), fun _ _ => rfl⟩

/-- What the start of `merge` does. -/
theorem startMerge_aside (s : Cluster Tid V) (cfg : Config) (t : Tid) (m : AfterMerge) :
    ∃ n, s.CallsAside (s.startMerge cfg t m) t n := by
  unfold startMerge
  split_ifs
  · exact s.afterMerge_aside t m
  · exact ⟨_, s.sendUnflushed_aside t (by simp) (by simp)⟩
  · exact ⟨_, ⟨rfl, ⟨rfl, rfl, rfl, rfl⟩, rfl, rfl⟩, by simp, by simp, rfl, fun _ _ => rfl, fun _ _ => rfl⟩
  · exact ⟨_, ⟨rfl, ⟨rfl, rfl, rfl, rfl⟩, rfl, rfl⟩, by simp, by simp, rfl, fun a _ =>
      s.st.buffer_modBlock (f := fun b => b.withHeader (s.kn t).pool) rfl a, fun _ _ => rfl⟩

/-- What the start of a call does. -/
theorem invoke_aside (cfg : Config) (hctl : (s.kn t).ctl = .idle) (c : Call V) : ∃ n, s.CallsAside (s.invoke cfg t c) t n := by
  have hgo : ∀ n : Kn V, (s.kn t).SameLog n → n.ctl ≠ .crashed →
      (∀ w ret stage, n.ctl = .write w ret stage → stage = .retry) →
      n.logBlocksRaddrs = (s.kn t).logBlocksRaddrs → s.CallsAside (s.setKn t n) t n := fun n hs hc hw hr =>
    ⟨⟨rfl, hs, rfl, rfl⟩, hc, hw, hr, fun _ _ => rfl, fun _ _ => rfl⟩
  cases c with
  | write w => exact ⟨_, hgo _ ⟨rfl, rfl, rfl, rfl⟩ (by simp) (by simp) rfl⟩
  | flush =>
    simp only [invoke]
    split_ifs
    · exact ⟨_, s.sendUnflushed_aside t (by simp) (by simp)⟩
    · exact ⟨s.kn t, ⟨(update_eq_self _ _).symm, ⟨rfl, rfl, rfl, rfl⟩, rfl, rfl⟩, by simp [hctl],
        by simp [hctl], rfl, fun _ _ => rfl, fun _ ht => update_of_ne ht _ _⟩
  | merge clear => exact s.startMerge_aside cfg t _
  | swap k replicated =>
    cases replicated with
    | true => exact s.startMerge_aside cfg t _
    | false => exact ⟨_, hgo _ ⟨rfl, rfl, rfl, rfl⟩ (by simp) (by simp) rfl⟩
  | putReplicated k keyLen v valLen doUpdate => exact ⟨_, hgo _ ⟨rfl, rfl, rfl, rfl⟩ (by simp) (by simp) rfl⟩
  | getReplicated k keyLen => exact ⟨_, hgo _ ⟨rfl, rfl, rfl, rfl⟩ (by simp) (by simp) rfl⟩

end Cluster

end Dinomo
