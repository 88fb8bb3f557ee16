import Dinomo.Preallocation
import Dinomo.Refinement.Step

/-!
# The tail of a thread's log

What an event does to the block a thread appends to: an operation is staged, the block is rotated out, a new
block is allocated, linked to its predecessor and entered in the log-mapping slot, or the block is left alone.
Besides, which blocks of the pool an event can write oplogs to.
-/

namespace Dinomo

open Function Storage Event

variable {Tid V : Type*}

/-- Whether a thread has a block that it still has to link or to enter in its slot. -/
def Ctl.linkStage : Ctl V → Option WriteStage
  | .write _ _ .link => some .link
  | .write _ _ .slot => some .slot
  | _ => none

/-- A block is being linked at two stages of a write. -/
theorem Ctl.view_linking (c : Ctl V) : c.view.linking = c.linkStage.isSome := by
  cases c with
  | write w ret stage => cases stage <;> rfl
  | putReplicated w stage => cases stage <;> rfl
  | _ => rfl

/-- A crashed thread is seen as crashed. -/
theorem Ctl.view_crashed_iff (c : Ctl V) : c.view.crashed = false ↔ c ≠ .crashed := by
  refine ⟨?_, Ctl.view_crashed⟩
  rintro h rfl
  simp [view] at h

/-- A thread with a linked block it appends to. -/
theorem Kn.live_iff (n : Kn V) :
    n.core.Live ↔ n.ctl ≠ .crashed ∧ n.nonReplicatedAlloc ≠ 0 ∧ n.ctl.linkStage = none := by
  unfold KnCore.Live
  simp only [Kn.core, Ctl.view_crashed_iff, Ctl.view_linking, Option.isSome_eq_false_iff, Option.isNone_iff_eq_none]

/-- The linked block a thread appends to, if it has one. -/
def Kn.current (n : Kn V) : List Addr :=
  if n.nonReplicatedAlloc ≠ 0 ∧ n.ctl.linkStage = none then [n.nonReplicatedAlloc] else []

/-- The current block of a thread that has one. -/
theorem Kn.current_of_live {n : Kn V} (h : n.core.Live) : n.current = [n.nonReplicatedAlloc] :=
  if_pos ((Kn.live_iff n).mp h).2

/-- A thread that runs and has no current block. -/
theorem Kn.current_eq_nil {n : Kn V} (hc : n.ctl ≠ .crashed) (h : ¬ n.core.Live) : n.current = [] :=
  if_neg fun hx => h ((Kn.live_iff n).mpr ⟨hc, hx⟩)

section Steps

variable [DecidableEq Tid]

namespace Cluster

/-- The tail of a thread's log is left alone. -/
structure SameTail (t : Tid) (s s' : Cluster Tid V) : Prop where
  crashed : (s'.kn t).ctl = .crashed ↔ (s.kn t).ctl = .crashed
  stage : (s'.kn t).ctl.linkStage = (s.kn t).ctl.linkStage
  alloc : (s'.kn t).nonReplicatedAlloc = (s.kn t).nonReplicatedAlloc
  next : (s'.kn t).pool.next = (s.kn t).pool.next
  buffer : (s'.kn t).pool.buffer = (s.kn t).pool.buffer
  written : entriesBy t s'.written = entriesBy t s.written
  slot : s'.st.logMappingTable t = s.st.logMappingTable t

/-- A block stays the current one while its thread goes from one stage to another. -/
structure KeepsBlock (t : Tid) (s s' : Cluster Tid V) : Prop where
  alloc : (s'.kn t).nonReplicatedAlloc = (s.kn t).nonReplicatedAlloc
  buffer : (s'.kn t).pool.buffer = (s.kn t).pool.buffer
  written : entriesBy t s'.written = entriesBy t s.written

/-- What an event does to the tail of a thread's log. -/
inductive TailStep (t : Tid) (s s' : Cluster Tid V) (e : Event Tid V) : Prop
  | same (h : SameTail t s s') (he : e = .advance t → ∀ w ret stage, (s.kn t).ctl = .write w ret stage →
      stage ≠ .clean ∧ stage ≠ .slot) (hc : e ≠ .crash t)
  | stage (w : Write V) (ret : Bool) (o : Oplog V) (he : e = .advance t) (hctl : (s.kn t).ctl = .write w ret .retry)
      (h0 : (s.kn t).nonReplicatedAlloc ≠ 0) (hctl' : (s'.kn t).ctl = .idle)
      (halloc : (s'.kn t).nonReplicatedAlloc = (s.kn t).nonReplicatedAlloc)
      (hnext : (s'.kn t).pool.next = (s.kn t).pool.next) (hbuf : (s'.kn t).pool.buffer = (s.kn t).pool.buffer ++ [o])
      (hwritten : entriesBy t s'.written = entriesBy t s.written ++ [.ofOplog t (s.kn t).nonReplicatedAlloc o])
      (hslot : s'.st.logMappingTable t = s.st.logMappingTable t)
  | rotate (w : Write V) (ret : Bool) (he : e = .advance t) (hctl : (s.kn t).ctl = .write w ret .clean)
      (hctl' : (s'.kn t).ctl = .write w true (if (s'.kn t).nonReplicatedAlloc = 0 then .retry else .link))
      (hbuf : (s'.kn t).pool.buffer = []) (hwritten : entriesBy t s'.written = entriesBy t s.written)
      (hst : s'.st = s.st)
  | allocate (w : Write V) (ret : Bool) (fresh : List Addr) (he : e = .preallocate t fresh)
      (hctl : (s.kn t).ctl = .write w ret .retry) (h0 : (s.kn t).nonReplicatedAlloc = 0)
      (hctl' : (s'.kn t).ctl = .write w ret .link) (hbuf : (s'.kn t).pool.buffer = (s.kn t).pool.buffer)
      (hwritten : entriesBy t s'.written = entriesBy t s.written)
      (hslot : s'.st.logMappingTable t = s.st.logMappingTable t)
  | link (w : Write V) (ret : Bool) (he : e = .advance t) (hctl : (s.kn t).ctl = .write w ret .link)
      (hctl' : (s'.kn t).ctl = .write w ret .slot) (h : KeepsBlock t s s')
      (hnext : (s'.kn t).pool.next = s.st.logMappingTable t)
      (hslot : s'.st.logMappingTable t = s.st.logMappingTable t)
  | slot (w : Write V) (ret : Bool) (he : e = .advance t) (hctl : (s.kn t).ctl = .write w ret .slot)
      (hctl' : (s'.kn t).ctl = .write w ret .retry) (h : KeepsBlock t s s')
      (hnext : (s'.kn t).pool.next = (s.kn t).pool.next)
      (hslot : s'.st.logMappingTable t = (s.kn t).nonReplicatedAlloc)
  | crash (he : e = .crash t) (hctl' : (s'.kn t).ctl = .crashed)

/-- The places an event may write oplogs to: the current block of its thread, the replicated block, and blocks that
storage hands out. -/
def MayWrite (cfg : Config) (s : Cluster Tid V) (e : Event Tid V) (a : Addr) : Prop :=
  ((s.cores e.tid).Live ∧ a = (s.kn e.tid).nonReplicatedAlloc) ∨
    ((s.cores e.tid).ReplActive ∧ a = (s.kn e.tid).replicatedAlloc) ∨
    ∃ fresh, e = .preallocate e.tid fresh ∧ s.st.Fresh cfg.maxPreallocNum fresh ∧
      a ∈ s.st.handedOut cfg.maxPreallocNum fresh

/-- What an event leaves alone outside of its thread. -/
structure Outside (cfg : Config) (s s' : Cluster Tid V) (e : Event Tid V) : Prop where
  written : s'.written = s.written ∨ ∃ x : LogEntry Tid V, x.tid = e.tid ∧ s'.written = s.written ++ [x]
  slot : ∀ t, t ≠ e.tid → s'.st.logMappingTable t = s.st.logMappingTable t
  buffer : ∀ a, a ≠ 0 → (s'.st.mem a).buffer = (s.st.mem a).buffer ∨ s.MayWrite cfg e a

variable {cfg : Config} {s s' : Cluster Tid V} {t : Tid} {e : Event Tid V}

omit [DecidableEq Tid] in
/-- An event that writes no oplog. -/
theorem Outside.quiet (hw : s'.written = s.written) (hslot : s'.st.logMappingTable = s.st.logMappingTable)
    (hbuf : ∀ a, (s'.st.mem a).buffer = (s.st.mem a).buffer) : Outside cfg s s' e :=
  ⟨.inl hw, fun t _ => by rw [hslot], fun a _ => .inl (hbuf a)⟩

omit [DecidableEq Tid] in
/-- An event that writes oplogs to the current block of its thread. -/
theorem Outside.current (hc : (s.kn e.tid).ctl ≠ .crashed) (hstage : (s.kn e.tid).ctl.linkStage = none)
    (hw : s'.written = s.written ∨ ∃ x : LogEntry Tid V, x.tid = e.tid ∧ s'.written = s.written ++ [x])
    (hslot : s'.st.logMappingTable = s.st.logMappingTable)
    (hbuf : ∀ a, a ≠ (s.kn e.tid).nonReplicatedAlloc → (s'.st.mem a).buffer = (s.st.mem a).buffer) :
    Outside cfg s s' e := by
  refine ⟨hw, fun t _ => by rw [hslot], fun a h0 => ?_⟩
  by_cases ha : a = (s.kn e.tid).nonReplicatedAlloc
  · exact .inr (.inl ⟨(Kn.live_iff _).mpr ⟨hc, ha ▸ h0, hstage⟩, ha⟩)
  · exact .inl (hbuf a ha)

omit [DecidableEq Tid] in
/-- Changing a block writes oplogs to that block only. -/
theorem buffer_modBlock_of_ne (s : Cluster Tid V) {a b : Addr} (h : b ≠ a) (f : LogBlock V → LogBlock V) :
    ((s.modBlock a f).st.mem b).buffer = (s.st.mem b).buffer := by
  rw [st_modBlock, mem_modBlock_of_ne _ h]

end Cluster

omit [DecidableEq Tid] in
/-- Applying an oplog writes none and leaves the slots alone. -/
theorem Storage.applyOplog_frame (st : Storage Tid V) (t : Tid) (q : Ptr) (o : Oplog V) :
    (st.applyOplog t q o).logMappingTable = st.logMappingTable ∧
      ∀ a, ((st.applyOplog t q o).mem a).buffer = (st.mem a).buffer := by
  unfold applyOplog
  cases hsup : st.superseded o with
  | none => exact ⟨rfl, fun _ => rfl⟩
  | some v =>
    refine ⟨rfl, fun a => ?_⟩
    exact buffer_modBlock _ (f := fun b => { b with localInvalidCounter := b.localInvalidCounter + 1 }) rfl a

/-- The end of a block of a pass writes no oplog and leaves the slots alone. -/
theorem Storage.finishBlock_frame (st : Storage Tid V) (t : Tid) (p : Pass) :
    (st.finishBlock t p).logMappingTable = st.logMappingTable ∧
      ∀ a, ((st.finishBlock t p).mem a).buffer = (st.mem a).buffer := by
  have hmerged : ∀ a, ((st.modBlock p.next fun b => { b with mergedOffset := b.offset }).mem a).buffer =
      (st.mem a).buffer := fun a => st.buffer_modBlock (by rfl) a
  unfold finishBlock
  by_cases hfirst : p.next = p.first
  · simp only [if_pos hfirst]
    exact ⟨rfl, hmerged⟩
  · simp only [if_neg hfirst]
    refine ⟨rfl, fun a => Eq.trans ?_ (hmerged a)⟩
    exact buffer_modBlock (st.modBlock p.next fun b => { b with mergedOffset := b.offset })
      (f := fun b => { b with next := 0 }) rfl a

/-- A step of a pass writes no oplog and leaves the slots alone. -/
theorem Storage.passStep_frame {st st' : Storage Tid V} {t : Tid} (h : st.passStep t = some st') :
    st'.logMappingTable = st.logMappingTable ∧ ∀ a, (st'.mem a).buffer = (st.mem a).buffer := by
  obtain ⟨p, -, ⟨a, -, rfl⟩ | ⟨-, -, rfl⟩ | ⟨-, -, rfl⟩ | ⟨o, -, -, -, -, rfl⟩ | ⟨-, -, -, rfl⟩⟩ := passStep_cases h
  · unfold reclaim
    split_ifs <;> exact ⟨rfl, fun _ => rfl⟩
  · unfold walkStep
    simp only
    split_ifs <;> exact ⟨rfl, fun _ => rfl⟩
  · cases p.kind <;> exact ⟨rfl, fun _ => rfl⟩
  · exact st.applyOplog_frame t ⟨p.next, p.offset⟩ o
  · exact st.finishBlock_frame t p

/-- The start of a pass writes no oplog and leaves the slots alone. -/
theorem Storage.beginPass_frame {st st' : Storage Tid V} {t : Tid} {kind : PassKind}
    (h : st.beginPass t kind = some st') :
    st'.logMappingTable = st.logMappingTable ∧ ∀ a, (st'.mem a).buffer = (st.mem a).buffer := by
  unfold beginPass at h
  split at h
  · cases h
  simp only at h
  split_ifs at h <;> cases h
  · cases kind <;> exact ⟨rfl, fun _ => rfl⟩
  · exact ⟨rfl, fun _ => rfl⟩
  · exact ⟨rfl, fun _ => rfl⟩

namespace Cluster

variable {cfg : Config} {s s' : Cluster Tid V} {t : Tid} {e : Event Tid V}

/-- The answers to batched requests. -/
theorem acknowledge_frame (s : Cluster Tid V) (cfg : Config) (t : Tid) (ret : Bool) (e : LogEntry Tid V) :
    (s.acknowledge cfg t ret e).kn = s.kn ∧ (s.acknowledge cfg t ret e).st = s.st ∧
      (s.acknowledge cfg t ret e).written = s.written := by
  unfold acknowledge
  cases cfg.batching <;> cases ret <;> exact ⟨rfl, rfl, rfl⟩

omit [DecidableEq Tid] in
/-- Sending staged oplogs touches the current block. -/
theorem buffer_sendUnflushed (s : Cluster Tid V) (t : Tid) {a : Addr} (ha : a ≠ (s.kn t).nonReplicatedAlloc) :
    ((s.sendUnflushed t).st.mem a).buffer = (s.st.mem a).buffer := s.buffer_modBlock_of_ne ha _

omit [DecidableEq Tid] in
/-- Writing a header writes no oplog. -/
theorem buffer_sendHeader (s : Cluster Tid V) (t : Tid) (a : Addr) :
    ((s.sendHeader t).st.mem a).buffer = (s.st.mem a).buffer :=
  s.st.buffer_modBlock (f := fun b => b.withHeader (s.kn t).pool) rfl a

/-- Publishing a batch writes no oplog. -/
theorem buffer_publishBatch (s : Cluster Tid V) (t : Tid) (a : Addr) :
    ((s.publishBatch t).st.mem a).buffer = (s.st.mem a).buffer := buffer_sendHeader _ t a

/-- A write is staged. -/
theorem append_frame (s : Cluster Tid V) (cfg : Config) (t : Tid) (w : Write V) :
    (s.append cfg t w).written = s.written ++ [s.nextEntry cfg t w] ∧
      (s.append cfg t w).st.logMappingTable = s.st.logMappingTable ∧
      ∀ a, a ≠ (s.kn t).nonReplicatedAlloc → ((s.append cfg t w).st.mem a).buffer = (s.st.mem a).buffer := by
  unfold append
  cases cfg.batching
  · refine ⟨rfl, rfl, fun a ha => ?_⟩
    exact s.buffer_modBlock_of_ne ha fun b => { b with buffer := writeOplog b.buffer (s.nextEntry cfg t w).oplog }
  · exact ⟨rfl, rfl, fun a _ => rfl⟩

/-- Outside of its thread, a step of `put` or `remove` touches the current block. -/
theorem outside_stepWrite {w : Write V} {ret : Bool} {stage : WriteStage} (hctl : (s.kn t).ctl = .write w ret stage)
    (hs' : s.stepWrite cfg t w ret stage = some s') : Outside cfg s s' (.advance t) := by
  have hc : (s.kn t).ctl ≠ .crashed := by rw [hctl]; nofun
  cases stage with
  | retry =>
    have hstage : (s.kn t).ctl.linkStage = none := by rw [hctl]; rfl
    simp only [stepWrite] at hs'
    split_ifs at hs' <;> cases hs'
    · obtain ⟨-, hst, hw⟩ := (s.append cfg t w).acknowledge_frame cfg t ret (s.nextEntry cfg t w)
      obtain ⟨hw', hslot, hbuf⟩ := s.append_frame cfg t w
      refine .current hc hstage (.inr ⟨s.nextEntry cfg t w, rfl, by rw [hw, hw']⟩) (by rw [hst, hslot]) ?_
      intro a ha
      rw [hst]
      exact hbuf a ha
    · exact .current hc hstage (.inl rfl) rfl fun a ha => s.buffer_sendUnflushed t ha
    · exact .quiet rfl rfl fun a => s.buffer_sendHeader t a
  | header =>
    cases hs'
    exact .quiet rfl rfl fun a => s.buffer_publishBatch t a
  | clean =>
    cases hs'
    exact .quiet rfl rfl fun a => rfl
  | link =>
    cases hs'
    exact .quiet rfl rfl fun a => s.st.buffer_modBlock (f := fun b => { b with next := s.st.logMappingTable t }) rfl a
  | slot =>
    cases hs'
    exact ⟨.inl rfl, fun t' ht => update_of_ne ht _ _, fun a _ => .inl rfl⟩

/-- Outside of its thread, a step of `putReplicated` touches the replicated block. -/
theorem outside_stepPutReplicated {w : Write V} {stage : PutReplStage}
    (hctl : (s.kn t).ctl = .putReplicated w stage) (hs' : s.stepPutReplicated cfg t w stage = some s') :
    Outside cfg s s' (.advance t) := by
  obtain ⟨n, h⟩ := stepPutReplicated_aside hs'
  refine ⟨.inl h.written, fun t _ => by rw [h.slot], fun a _ => ?_⟩
  rcases h.buffer a with hbuf | ⟨rfl, h0, ha⟩
  · exact .inl hbuf
  · refine .inr (.inr (.inl ⟨⟨?_, h0, ?_⟩, ha⟩)) <;> simp [cores, Kn.core, tid, hctl, Ctl.view, CtlView.quiet]

/-- The start of a call touches the current block. -/
theorem outside_invoke (hctl : (s.kn t).ctl = .idle) (c : Call V) : Outside cfg s (s.invoke cfg t c) (.invoke t c) := by
  obtain ⟨n, h⟩ := invoke_aside cfg hctl c
  refine .current ?_ ?_ (.inl h.written) h.slot h.buffer
  · simp [tid, hctl]
  · simp [tid, hctl, Ctl.linkStage]

/-- What an event leaves alone outside of its thread. -/
theorem outside_step (hs' : s.step cfg e = some s') : Outside cfg s s' e := by
  cases stepped hs' with
  | invoke t c hctl => exact outside_invoke hctl c
  | write t w ret stage s' hctl hs' => exact outside_stepWrite hctl hs'
  | flush t after hctl => cases after <;> exact .quiet rfl rfl fun a => s.buffer_publishBatch t a
  | merge t m hctl hreply =>
    cases m with
    | done clear => cases clear <;> exact .quiet rfl rfl fun a => rfl
    | install k => exact .quiet rfl rfl fun a => rfl
  | removeIndirect t k st hctl hst =>
    unfold Storage.removeIndirect at hst
    split at hst <;> cases hst
    exact .quiet rfl rfl fun a => rfl
  | putReplicated t w stage s' hctl hs' => exact outside_stepPutReplicated hctl hs'
  | getReplicated t k keyLen stage s' hctl hs' =>
    obtain ⟨n, h⟩ := stepGetReplicated_aside hs'
    exact .quiet h.written h.slot fun a => by rw [h.st]
  | preallocate t fresh s' hs' =>
    obtain ⟨hfresh, hcases⟩ := preallocate_cases hs'
    have hst : s'.written = s.written ∧ s'.st = s.st.preallocate cfg.maxPreallocNum fresh := by
      obtain ⟨w, ret, -, -, rfl⟩ | ⟨w, -, -, rfl⟩ := hcases <;> exact ⟨rfl, rfl⟩
    refine ⟨.inl hst.1, fun t' _ => by rw [hst.2]; rfl, fun a _ => ?_⟩
    by_cases ha : a ∈ s.st.handedOut cfg.maxPreallocNum fresh
    · exact .inr (.inr (.inr ⟨fresh, rfl, hfresh, ha⟩))
    · refine .inl ?_
      rw [hst.2]
      simp [Storage.preallocate, ha]
  | install t c k hctl hc => exact .quiet rfl rfl fun a => rfl
  | beginPass t kind st henabled hst =>
    exact .quiet rfl (Storage.beginPass_frame hst).1 (Storage.beginPass_frame hst).2
  | passStep t st hst => exact .quiet rfl (Storage.passStep_frame hst).1 (Storage.passStep_frame hst).2
  | crash t => exact .quiet rfl rfl fun a => rfl

/-- A step of a thread between other stages than those of a rotation leaves the tail of its log alone. -/
theorem TailStep.quiet (hc : (s.kn t).ctl ≠ .crashed) (hc' : (s'.kn t).ctl ≠ .crashed)
    (hstage : (s.kn t).ctl.linkStage = none) (hstage' : (s'.kn t).ctl.linkStage = none)
    (hclean : ∀ w ret, (s.kn t).ctl ≠ .write w ret .clean) (hcrash : e ≠ .crash t)
    (htail : (s'.kn t).nonReplicatedAlloc = (s.kn t).nonReplicatedAlloc ∧
      (s'.kn t).pool.next = (s.kn t).pool.next ∧ (s'.kn t).pool.buffer = (s.kn t).pool.buffer)
    (hw : s'.written = s.written) (hslot : s'.st.logMappingTable = s.st.logMappingTable) : TailStep t s s' e := by
  refine .same ⟨iff_of_false hc' hc, by rw [hstage', hstage], htail.1, htail.2.1, htail.2.2, by rw [hw],
    by rw [hslot]⟩ (fun _ w ret stage hctl => ⟨?_, ?_⟩) hcrash
  · rintro rfl
    exact hclean w ret hctl
  · rintro rfl
    rw [hctl] at hstage
    cases hstage

/-- The tail of the log in a step of `put` or `remove`. -/
theorem tail_stepWrite {w : Write V} {ret : Bool} {stage : WriteStage} (hctl : (s.kn t).ctl = .write w ret stage)
    (hs' : s.stepWrite cfg t w ret stage = some s') : TailStep t s s' (.advance t) := by
  have hc : (s.kn t).ctl ≠ .crashed := by rw [hctl]; simp
  cases stage with
  | retry =>
    have hstage : (s.kn t).ctl.linkStage = none := by rw [hctl]; rfl
    have hclean : ∀ w ret, (s.kn t).ctl ≠ .write w ret .clean := by simp [hctl]
    simp only [stepWrite] at hs'
    split_ifs at hs' with h0 <;> cases hs'
    · obtain ⟨hkn, hst, hw⟩ := (s.append cfg t w).acknowledge_frame cfg t ret (s.nextEntry cfg t w)
      obtain ⟨hw', hslot, -⟩ := s.append_frame cfg t w
      have hn : ((s.append cfg t w).kn t).nonReplicatedAlloc = (s.kn t).nonReplicatedAlloc ∧
          ((s.append cfg t w).kn t).pool.next = (s.kn t).pool.next ∧
          ((s.append cfg t w).kn t).pool.buffer = (s.kn t).pool.buffer ++ [(s.nextEntry cfg t w).oplog] := by
        unfold append
        cases cfg.batching <;> simp [LogBlock.stage]
      have hentry : s.nextEntry cfg t w = .ofOplog t (s.kn t).nonReplicatedAlloc (s.nextEntry cfg t w).oplog := rfl
      refine .stage w ret (s.nextEntry cfg t w).oplog rfl hctl h0 (append_acknowledge_ctl ..) (by rw [hkn, hn.1])
        (by rw [hkn, hn.2.1]) (by rw [hkn, hn.2.2]) ?_ (by rw [hst, hslot])
      rw [hw, hw', entriesBy_concat, ← hentry]
      exact if_pos rfl
    · exact .quiet hc (by simp) hstage (by simp [Ctl.linkStage]) hclean (by simp) (by simp [sendUnflushed, modBlock])
        rfl rfl
    · exact .quiet hc (by simp) hstage (by simp [Ctl.linkStage]) hclean (by simp) (by simp [sendHeader, modBlock]) rfl rfl
  | header =>
    cases hs'
    refine .quiet hc (by simp) (by rw [hctl]; rfl) (by simp [Ctl.linkStage]) (by simp [hctl]) (by simp) ?_ rfl rfl
    simp [publishBatch, sendHeader, modBlock]
  | clean =>
    cases hs'
    exact .rotate w ret rfl hctl (by simp) (by simp [Kn.rotate]) rfl rfl
  | link =>
    cases hs'
    exact .link w ret rfl hctl (by simp) ⟨by simp, by simp [modBlock], rfl⟩ (by simp) rfl
  | slot =>
    cases hs'
    exact .slot w ret rfl hctl (by simp) ⟨by simp, by simp, rfl⟩ (by simp) (update_self ..)

/-- A step that leaves the log of its thread aside, between other stages than those of a rotation. -/
theorem TailStep.aside {n : Kn V} (h : s.Aside s' t n) (hc : (s.kn t).ctl ≠ .crashed)
    (hstage : (s.kn t).ctl.linkStage = none) (hclean : ∀ w ret, (s.kn t).ctl ≠ .write w ret .clean)
    (hc' : n.ctl ≠ .crashed) (hstage' : n.ctl.linkStage = none) (hcrash : e ≠ .crash t) : TailStep t s s' e := by
  rw [← h.kn_self] at hc' hstage'
  refine .quiet hc hc' hstage hstage' hclean hcrash ?_ h.written h.slot
  rw [h.kn_self, h.sameLog.alloc, h.sameLog.pool]
  exact ⟨rfl, rfl, rfl⟩

/-- A call that starts or goes on outside of `put` and `remove`. -/
theorem CallsAside.tail {n : Kn V} (h : s.CallsAside s' t n) (hc : (s.kn t).ctl ≠ .crashed)
    (hstage : (s.kn t).ctl.linkStage = none) (hclean : ∀ w ret, (s.kn t).ctl ≠ .write w ret .clean)
    (hcrash : e ≠ .crash t) : TailStep t s s' e := by
  refine .aside h.toAside hc hstage hclean h.running ?_ hcrash
  cases hctl : n.ctl with
  | write w ret stage =>
    rw [h.retry w ret stage hctl]
    rfl
  | _ => rfl

/-- The tail of the log in a step of its thread. -/
theorem tail_advance (hs' : s.step cfg (.advance t) = some s') : TailStep t s s' (.advance t) := by
  cases stepped hs' with
  | write _ w ret stage s' hctl hs' => exact tail_stepWrite hctl hs'
  | flush _ after hctl =>
    cases after <;>
      exact .quiet (by simp [hctl]) (by simp [stepFlush, respondBatched]) (by simp [hctl, Ctl.linkStage])
        (by simp [stepFlush, respondBatched, Ctl.linkStage]) (by simp [hctl]) (by simp)
        (by simp [stepFlush, respondBatched, publishBatch, sendHeader, modBlock]) rfl rfl
  | merge _ m hctl hreply =>
    obtain ⟨n, h⟩ := s.mergeReply_aside t m
    exact h.tail (by simp [hctl]) (by simp [hctl, Ctl.linkStage]) (by simp [hctl]) (by simp)
  | removeIndirect _ k st hctl hst =>
    have hslot : st.logMappingTable = s.st.logMappingTable := by
      unfold removeIndirect at hst
      split at hst <;> cases hst
      rfl
    exact .quiet (by simp [hctl]) (by simp) (by simp [hctl, Ctl.linkStage]) (by simp [Ctl.linkStage])
      (by simp [hctl]) (by simp) (by simp) rfl hslot
  | putReplicated _ w stage s' hctl hs' =>
    obtain ⟨n, h⟩ := stepPutReplicated_aside hs'
    refine .aside h.toAside (by simp [hctl]) (by simp [hctl, Ctl.linkStage]) (by simp [hctl]) ?_ ?_ (by simp) <;>
      rcases h.ctl with hn | ⟨_, hn, -⟩ <;> simp [hn, Ctl.linkStage]
  | getReplicated _ k keyLen stage s' hctl hs' =>
    obtain ⟨n, h⟩ := stepGetReplicated_aside hs'
    refine .aside h.toAside (by simp [hctl]) (by simp [hctl, Ctl.linkStage]) (by simp [hctl]) ?_ ?_ (by simp) <;>
      rcases h.ctl with hn | ⟨_, hn⟩ <;> simp [hn, Ctl.linkStage]

/-- What every event does to the tail of a thread's log. -/
theorem tail_step (hs' : s.step cfg e = some s') : TailStep t s s' e := by
  have hout := outside_step hs'
  by_cases ht : e.tid = t
  swap
  · obtain ⟨n, hn, -⟩ := kn_step hs'
    have hkn : s'.kn t = s.kn t := by rw [hn, update_of_ne (Ne.symm ht)]
    have hwritten : entriesBy t s'.written = entriesBy t s.written := by
      rcases hout.written with hw | ⟨x, hx, hw⟩
      · rw [hw]
      · rw [hw, entriesBy_concat, if_neg (hx ▸ ht)]
    refine .same ⟨by rw [hkn], by rw [hkn], by rw [hkn], by rw [hkn], by rw [hkn], hwritten,
      hout.slot t (Ne.symm ht)⟩ ?_ ?_
    · rintro rfl
      exact absurd rfl ht
    · rintro rfl
      exact ht rfl
  subst ht
  cases e with
  | invoke t c =>
    cases stepped hs' with
    | invoke _ _ hctl =>
      obtain ⟨n, h⟩ := invoke_aside cfg hctl c
      exact h.tail (by simp [hctl]) (by simp [hctl, Ctl.linkStage]) (by simp [hctl]) (by simp)
  | advance t => exact tail_advance hs'
  | preallocate t fresh =>
    obtain ⟨-, ⟨w, ret, hctl, h0, rfl⟩ | ⟨w, hctl, -, rfl⟩⟩ := preallocate_cases hs'
    · exact .allocate w ret fresh rfl hctl h0 (by simp [tid]) (by simp [tid]) rfl rfl
    · exact .aside ⟨rfl, ⟨rfl, rfl, rfl, rfl⟩, rfl, rfl⟩ (by simp [tid, hctl]) (by simp [tid, hctl, Ctl.linkStage])
        (by simp [tid, hctl]) (by simp) rfl (by simp)
  | install t c =>
    cases stepped hs' with
    | install _ _ k hctl hc =>
      exact .aside ⟨rfl, ⟨rfl, rfl, rfl, rfl⟩, rfl, rfl⟩ (by simp [tid, hctl])
        (by simp [tid, hctl, Ctl.linkStage]) (by simp [tid, hctl]) (by simp) rfl (by simp)
  | beginPass t kind =>
    cases stepped hs' with
    | beginPass _ _ st henabled hst =>
      exact .same ⟨Iff.rfl, rfl, rfl, rfl, rfl, rfl, by rw [(beginPass_frame hst).1]⟩ (by simp) (by simp)
  | passStep t =>
    cases stepped hs' with
    | passStep _ st hst =>
      exact .same ⟨Iff.rfl, rfl, rfl, rfl, rfl, rfl, by rw [(passStep_frame hst).1]⟩ (by simp) (by simp)
  | crash t =>
    cases hs'
    exact .crash rfl (by simp [tid])

end Cluster

section Chains

variable [Fintype Tid] {cfg : Config} {s : Cluster Tid V} {C : Tid → List Addr} {ρ : Addr → Role Tid}

/-- What an event does to the blocks of a log. -/
theorem Inv.chainsAfter_cases (h : Inv cfg s.st s.cores C ρ) (t : Tid) (e : Event Tid V) :
    s.chainsAfter C e t = C t ∨
      (e = .passStep t ∧ s.chainsAfter C e t = (C t).dropLast ∧ 2 ≤ (C t).length) ∨
      (∃ w ret, e = .advance t ∧ (s.kn t).ctl = .write w ret .slot ∧
        s.chainsAfter C e t = (s.kn t).nonReplicatedAlloc :: C t) := by
  cases e with
  | advance t' =>
    have hfun : s.chainsAfter C (.advance t') = C ∨ ∃ w ret, (s.kn t').ctl = .write w ret .slot ∧
        s.chainsAfter C (.advance t') = update C t' ((s.kn t').nonReplicatedAlloc :: C t') := by
      simp only [Cluster.chainsAfter]
      split
      · rename_i w ret hctl
        exact .inr ⟨w, ret, hctl, rfl⟩
      · exact .inl rfl
    rcases hfun with hfun | ⟨w, ret, hctl, hfun⟩
    · exact .inl (by rw [hfun])
    · by_cases ht : t' = t
      · subst ht
        exact .inr (.inr ⟨w, ret, rfl, hctl, by rw [hfun, update_self]⟩)
      · exact .inl (by rw [hfun, update_of_ne (Ne.symm ht)])
  | passStep t' =>
    have hfun : s.chainsAfter C (.passStep t') = C ∨ ∃ p, s.st.progressTable t' = some p ∧ p.phase = .scan ∧
        p.next ≠ p.first ∧ s.chainsAfter C (.passStep t') = update C t' (C t').dropLast := by
      simp only [Cluster.chainsAfter]
      split
      · rename_i p hprog
        split_ifs with hcond
        · exact .inr ⟨p, hprog, hcond.2.1, hcond.2.2.2, rfl⟩
        · exact .inl rfl
      · exact .inl rfl
    rcases hfun with hfun | ⟨p, hprog, hphase, hfirst, hfun⟩
    · exact .inl (by rw [hfun])
    · by_cases ht : t' = t
      · subst ht
        refine .inr (.inl ⟨rfl, by rw [hfun, update_self], ?_⟩)
        -- the pass stands at a block behind the first
        have hpos := ((h.log t').pass p hprog).pos
        simp only [PassPos, hphase] at hpos
        obtain ⟨pre, hC, hhead, -⟩ := hpos
        have hne : p.workStack.reverse ≠ [] := by
          intro hnil
          rw [hnil, List.nil_append, List.head?_cons] at hhead
          exact hfirst (Option.some.inj hhead)
        have hlen := List.length_pos_iff.mpr hne
        rw [hC]
        simp only [List.length_append, List.length_singleton]
        omega
      · exact .inl (by rw [hfun, update_of_ne (Ne.symm ht)])
  | _ => exact .inl rfl

end Chains

end Steps

end Dinomo
