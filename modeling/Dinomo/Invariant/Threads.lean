import Dinomo.Invariant.Owner

/-!
# The write path of a thread keeps the invariant

Staging and writing oplogs, publishing a header and writing the `next` pointer of a new block change
one block of the thread; they are instances of the rule for a thread's own steps.
-/

namespace Dinomo

open Chain Function Cluster List

variable {Tid V : Type*} {cfg : Config}

section Blocks

variable {st : Storage Tid V} {C : List Addr} {ρ : Addr → Role Tid} {t : Tid} {a : Addr}

/-- Appending to a linked block keeps its published part. -/
theorem LinkedOk.append {b : LogBlock V} (h : LinkedOk b) {u : List (Oplog V)}
    (hl : Aligned (b.buffer ++ u)) : LinkedOk { b with buffer := b.buffer ++ u } where
  offset := Records.Boundary.append h.offset hl
  merged := Records.Boundary.append h.merged hl
  merged_le := h.merged_le
  valid := by
    have hu : writesIn u (fun o => o.offset < b.offset) = 0 := by
      refine countP_eq_zero.mpr fun o ho => ?_
      have h₁ := ((Records.laidOut_append.mp hl).2.bounds ho).1
      have h₂ := Records.Boundary.le_extent hl.left h.offset
      simp only [Bool.and_eq_true, decide_eq_true_eq, not_and]
      omega
    rw [writesIn_append, hu, Nat.add_zero]
    exact h.valid

/-- Publishing the whole buffer with its number of insertions and updates. -/
theorem LinkedOk.publish {b pool : LogBlock V} (h : LinkedOk b) (hl : Aligned b.buffer)
    (hoff : pool.offset = bytesOf b.buffer) (hvalid : pool.validCounter = writes b.buffer) :
    LinkedOk (b.withHeader pool) where
  offset := Or.inl hoff
  merged := h.merged
  merged_le := by
    have := Records.Boundary.le_extent hl h.merged
    change b.mergedOffset ≤ pool.offset
    rw [hoff]
    exact this
  valid := by
    change pool.validCounter = writesIn b.buffer fun o => o.offset < pool.offset
    rw [hvalid, writesIn_eq_writes]
    intro o ho
    have h₁ := (hl.bounds ho).2
    have h₂ := o.size_pos
    have h₃ : bytesOf b.buffer = Records.extent Oplog.size b.buffer := rfl
    simp only [decide_eq_true_eq]
    omega

/-- Changing the head block of a log without touching its links. -/
theorem ChainInv.modHead (h : ChainInv st C ρ t) (hhead : C.head? = some a) {f : LogBlock V → LogBlock V}
    (hnext : (f (st.mem a)).next = (st.mem a).next)
    (hmerged : (f (st.mem a)).mergedOffset = (st.mem a).mergedOffset)
    (hok : LinkedOk (f (st.mem a))) : ChainInv (st.modBlock a f) C ρ t := by
  obtain ⟨rest, rfl⟩ : ∃ rest, C = a :: rest := by
    cases C with
    | nil => cases hhead
    | cons b rest => exact ⟨rest, by simpa using hhead⟩
  have hnotin : a ∉ rest := (nodup_cons.mp h.nodup).1
  have hmem : ∀ b, b ≠ a → (st.modBlock a f).mem b = st.mem b := fun b hb => st.mem_modBlock_of_ne hb f
  have hmema := st.mem_modBlock_self a f
  refine
    { mem_iff := h.mem_iff
      nodup := h.nodup
      links := h.links.congr fun b _ => ?_
      block := fun b hb => ?_
      tail_complete := fun b hb => ?_
      merged_zero := fun b hb => ?_ }
  · by_cases hb : b = a
    · rw [hb, hmema, hnext]
    · rw [hmem b hb]
  · by_cases hba : b = a
    · rwa [hba, hmema]
    · rw [hmem b hba]
      exact h.block b hb
  · have hba : b ≠ a := fun hba => hnotin (hba ▸ hb)
    rw [hmem b hba]
    exact h.tail_complete b hb
  · by_cases hba : b = a
    · rw [hba, hmema, hmerged]
      exact h.merged_zero a (hba ▸ hb)
    · rw [hmem b hba]
      exact h.merged_zero b hb

/-- The head block of a log is not among the blocks behind it. -/
theorem ChainInv.head_notMem_tail (h : ChainInv st C ρ t) (hhead : C.head? = some a) : a ∉ C.tail := by
  cases C with
  | nil => cases hhead
  | cons b rest =>
    simp only [List.head?_cons, Option.some.injEq] at hhead
    subst hhead
    exact (nodup_cons.mp h.nodup).1

/-- A linked block changed by its thread: only its buffer has to be checked again. -/
theorem BlockInv.modChain (hrole : ρ a = .chain t) {f : LogBlock V → LogBlock V}
    (ha : a ∈ st.allocated) (haligned : Aligned (f (st.mem a)).buffer)
    (hkeys : ∀ o ∈ (f (st.mem a)).buffer, o.key ≠ 0) : BlockInv (st.modBlock a f) ρ a := by
  have hmema := st.mem_modBlock_self a f
  exact .of_role hrole ha (by rwa [hmema]) (by rwa [hmema]) trivial

end Blocks

section Threads

variable [DecidableEq Tid] [Fintype Tid] {s : Cluster Tid V} {C : Tid → List Addr} {ρ : Addr → Role Tid}
  {t : Tid}

omit [Fintype Tid] in
/-- The threads after one of them changed. -/
@[simp] theorem Cluster.cores_setKn (s : Cluster Tid V) (t : Tid) (n : Kn V) :
    (s.setKn t n).cores = update s.cores t n.core := by
  funext t'
  by_cases h : t' = t
  · subst h
    simp [cores, setKn]
  · simp [cores, setKn, h]

omit [Fintype Tid] in
/-- The storage side after a thread changed. -/
@[simp] theorem Cluster.st_setKn (s : Cluster Tid V) (t : Tid) (n : Kn V) : (s.setKn t n).st = s.st := rfl

omit [Fintype Tid] in
/-- The threads after one of them moved to another control state. -/
theorem Cluster.cores_setCtl (s : Cluster Tid V) (t : Tid) (c : Ctl V) :
    (s.setCtl t c).cores = update s.cores t { s.cores t with view := c.view } :=
  cores_setKn s t _

omit [DecidableEq Tid] [Fintype Tid] in
/-- The threads after a block changed. -/
@[simp] theorem Cluster.cores_modBlock (s : Cluster Tid V) (a : Addr) (f : LogBlock V → LogBlock V) :
    (s.modBlock a f).cores = s.cores := rfl

omit [DecidableEq Tid] [Fintype Tid] in
/-- The storage side after a block changed. -/
@[simp] theorem Cluster.st_modBlock (s : Cluster Tid V) (a : Addr) (f : LogBlock V → LogBlock V) :
    (s.modBlock a f).st = s.st.modBlock a f := rfl

variable {st : Storage Tid V} {K : Tid → KnCore V} {b : LogBlock V} {k : KnCore V} {w : Write V} {v : CtlView V}

omit [DecidableEq Tid] in
/-- The block a running thread appends to is the linked head of its log. -/
theorem Inv.live_chain (h : Inv cfg st K C ρ)
    (hl : (K t).Live) : ρ (K t).alloc = .chain t :=
  ((h.chain t).mem_iff _).mp (mem_of_mem_head? ((h.thread t).live hl))

/-- What a running thread may do to the block it appends to: what is written, the links and the merged offset stay,
and no counted entry becomes invalid. -/
structure LiveEdit (b b' : LogBlock V) : Prop where
  buffer : b.buffer <+: b'.buffer
  next : b'.next = b.next
  merged : b'.mergedOffset = b.mergedOffset
  invalid : b'.localInvalidCounter + b'.globalInvalidCounter ≤ b.localInvalidCounter + b.globalInvalidCounter
  compare : 0 < b.validCounter → ¬ b.allInvalid → 0 < b'.validCounter ∧ ¬ b'.allInvalid
  aligned : Aligned b'.buffer
  keys : ∀ o ∈ b'.buffer, o.key ≠ 0
  linked : LinkedOk b'

/-- Oplogs are written behind the last one. -/
theorem LiveEdit.write {buf : List (Oplog V)} (h : LinkedOk b) (hpre : b.buffer <+: buf) (hl : Aligned buf)
    (hkeys : ∀ o ∈ buf, o.key ≠ 0) : LiveEdit b { b with buffer := buf } := by
  obtain ⟨u, rfl⟩ := hpre
  exact ⟨prefix_append _ _, rfl, rfl, le_rfl, And.intro, hl, hkeys, h.append hl⟩

/-- The header is written over a block with counted writes: it shows entries that are not invalid. -/
theorem LiveEdit.header (pool : LogBlock V) (h : LinkedOk b) (hl : Aligned b.buffer)
    (hkeys : ∀ o ∈ b.buffer, o.key ≠ 0) (hoff : pool.offset = bytesOf b.buffer)
    (hvalid : pool.validCounter = writes b.buffer)
    (hcounters : pool.localInvalidCounter = 0 ∧ pool.globalInvalidCounter = 0) : LiveEdit b (b.withHeader pool) := by
  refine ⟨prefix_refl _, rfl, rfl, ?_, fun hpos _ => ?_, hl, hkeys, h.publish hl hoff hvalid⟩
  · change pool.localInvalidCounter + pool.globalInvalidCounter ≤ _
    omega
  · have hle : b.validCounter ≤ writes b.buffer := h.valid.trans_le (writesIn_mono fun _ _ _ => rfl)
    have hpos' : 0 < pool.validCounter := by omega
    refine ⟨hpos', fun hall => ?_⟩
    have : pool.validCounter = pool.localInvalidCounter + pool.globalInvalidCounter := hall
    omega

/-- Control states that differ in how far the current block is sent and published. -/
structure CtlView.Plain (v : CtlView V) : Prop where
  crashed : v.crashed = false
  linking : v.linking = false
  slotPending : v.slotPending = false
  retired : v.retired = false
  inflight : v.inflight = none
  owed : v.owed = none

/-- A step of a running thread that changes the block it appends to. -/
theorem Inv.liveStep (h : Inv cfg st K C ρ) (hl : (K t).Live) (hwait : (K t).view.waiting = false)
    (hview : (K t).view.Plain) {f : LogBlock V → LogBlock V} (hf : f (st.mem (K t).alloc) = b)
    (hedit : LiveEdit (st.mem (K t).alloc) b) {k' : KnCore V}
    (hcore : k' = { K t with
      pool := k'.pool, batchedOffset := k'.batchedOffset, flushedOffset := k'.flushedOffset, view := k'.view })
    (hview' : k'.view.Plain) (hcounters : k'.pool.localInvalidCounter = 0 ∧ k'.pool.globalInvalidCounter = 0)
    (hok : LiveOk cfg b k') : Inv cfg (st.modBlock (K t).alloc f) (update K t k') C ρ := by
  subst hf
  have hrole := h.live_chain hl
  have ht := h.thread t
  have hhead := ht.live hl
  have halloc : k'.alloc = (K t).alloc := by rw [hcore]
  have hraddrs : k'.raddrs = (K t).raddrs := by rw [hcore]
  have hrepl : k'.replAlloc = (K t).replAlloc := by rw [hcore]
  have hreploff : k'.replOffset = (K t).replOffset := by rw [hcore]
  have hreplnum : k'.replNumEntries = (K t).replNumEntries := by rw [hcore]
  have hret : k'.view.retired = (K t).view.retired := by rw [hview.retired, hview'.retired]
  have hinf : k'.view.inflight = (K t).view.inflight := by rw [hview.inflight, hview'.inflight]
  have hl' : k'.Live := ⟨hview'.crashed, halloc ▸ hl.2.1, hview'.linking⟩
  have hactive : k'.ReplActive → (K t).ReplActive := fun hr => ⟨hl.1, hrepl ▸ hr.2.1, hview.retired⟩
  have hmema := st.mem_modBlock_self (K t).alloc f
  refine h.threadStep hwait hl.1 (by rw [hrole, Role.owner]) ((h.chain t).head_notMem_tail hhead) hedit.buffer
    hedit.merged hedit.invalid (by rw [hview.owed, hview'.owed]) hview'.crashed hreploff ?_ ?_
    ((h.chain t).modHead hhead hedit.next hedit.merged hedit.linked) ?_
  · exact BlockInv.modChain hrole (h.allocated _ fun hx => by rw [hrole] at hx; cases hx) hedit.aligned hedit.keys
  · intro hc
    refine ⟨hc.alloc, Or.inr (Or.inr ⟨t, hrole, ?_⟩)⟩
    rw [hmema]
    rcases hc.role with ⟨hr, -⟩ | ⟨_, hr, -⟩ | ⟨_, -, hv, hne⟩
    · rw [hrole] at hr
      cases hr
    · rw [hrole] at hr
      cases hr
    · exact hedit.compare hv hne
  · refine
      { raddrs := hraddrs ▸ ht.raddrs
        nodup_raddrs := hraddrs ▸ ht.nodup_raddrs
        linking := fun hx => by rw [hview'.linking] at hx; cases hx
        slotNext := fun hx => by rw [hview'.slotPending] at hx; cases hx
        live := fun _ => halloc ▸ hhead
        liveOk := fun _ => by rw [halloc, hmema]; exact hok
        reset := fun _ hx => absurd hl' hx
        complete := fun _ hx => absurd hl' hx
        poolCounters := hcounters
        repl := fun hr => hrepl ▸ ht.repl (hactive hr)
        repl_only := fun a ha => by rw [hrepl, hret]; exact ht.repl_only a ha
        replOk := fun hr => ?_
        inflight := fun hx => hrepl ▸ ht.inflight (hinf ▸ hx)
        sentLive := fun _ => hl'
        publishedLive := fun _ => hl' }
    have hro := ht.replOk (hactive hr)
    have hne : (K t).replAlloc ≠ (K t).alloc := by
      intro heq
      have := ht.repl (hactive hr)
      rw [heq, hrole] at this
      cases this
    rw [hrepl, st.mem_modBlock_of_ne hne]
    exact ⟨by rw [hinf, hreploff, hreplnum]; exact hro.buffer, hro.writes⟩

omit [DecidableEq Tid] [Fintype Tid] in
/-- Leaving a block as it is changes nothing. -/
theorem Storage.modBlock_id (st : Storage Tid V) (a : Addr) : st.modBlock a id = st := by
  simp [Storage.modBlock]

/-- A step of a running thread that changes the staging of its current block only. -/
theorem Inv.stageStep (h : Inv cfg st K C ρ) (hl : (K t).Live) (hwait : (K t).view.waiting = false)
    (hview : (K t).view.Plain) {k' : KnCore V}
    (hcore : k' = { K t with
      pool := k'.pool, batchedOffset := k'.batchedOffset, flushedOffset := k'.flushedOffset, view := k'.view })
    (hview' : k'.view.Plain) (hcounters : k'.pool.localInvalidCounter = 0 ∧ k'.pool.globalInvalidCounter = 0)
    (hok : LiveOk cfg (st.mem (K t).alloc) k') : Inv cfg st (update K t k') C ρ := by
  have hb := h.block (K t).alloc
  have hlinked := (h.chain t).block _ (mem_of_mem_head? ((h.thread t).live hl))
  have := h.liveStep (f := id) hl hwait hview rfl (.write hlinked (prefix_refl _) hb.aligned hb.keys) hcore hview'
    hcounters hok
  rwa [Storage.modBlock_id] at this

/-- One more oplog in a buffer. -/
theorem writes_concat (buf : List (Oplog V)) (o : Oplog V) :
    writes (buf ++ [o]) = if o.opType.isWrite then writes buf + 1 else writes buf := by
  rw [writes, writesIn_append]
  cases h : o.opType.isWrite <;> simp [writes, writesIn, h]

/-- The staging pool with one more oplog at its end. -/
theorem LiveOk.staged (h : LiveOk cfg b k) (hkey : w.key ≠ 0) :
    Aligned (k.pool.stage (w.at (k.tail cfg.batching))).buffer ∧
      (∀ o ∈ (k.pool.stage (w.at (k.tail cfg.batching))).buffer, o.key ≠ 0) ∧
      (k.pool.stage (w.at (k.tail cfg.batching))).validCounter =
        writes (k.pool.stage (w.at (k.tail cfg.batching))).buffer := by
  refine ⟨?_, ?_, ?_⟩
  · rw [h.tail]
    exact Aligned.append_at h.aligned w
  · intro o ho
    rcases mem_append.mp ho with ho | ho
    · exact h.keys o ho
    · rw [mem_singleton.mp ho]
      exact hkey
  · change _ = writes (k.pool.buffer ++ [w.at (k.tail cfg.batching)])
    rw [writes_concat, ← h.valid]
    rfl

/-- With batching an operation is only staged. -/
theorem LiveOk.stageBatched (h : LiveOk cfg b k) (hb : cfg.batching = true)
    (hsent : k.view.sent = false) (hkey : w.key ≠ 0) :
    LiveOk cfg b { k with
      pool := k.pool.stage (w.at (k.tail cfg.batching)), batchedOffset := k.batchedOffset + w.size
      view := .quiet } := by
  obtain ⟨halign, hkeys, hvalid⟩ := h.staged hkey
  obtain ⟨hoff, hpool, hle⟩ := h.batched hb
  have htail : k.batchedOffset = bytesOf k.pool.buffer := by simpa [KnCore.tail, hb] using h.tail
  exact
    { aligned := halign
      keys := hkeys
      tail := by simp [KnCore.tail, hb, LogBlock.stage, htail]
      isPrefix := h.isPrefix.trans (prefix_append _ _)
      valid := hvalid
      immediate := fun hx => by rw [hb] at hx; cases hx
      batched := fun _ => ⟨hoff, hpool, Nat.le_add_right_of_le hle⟩
      unsent := fun _ _ => h.unsent hb hsent
      sent := fun hx => by cases hx
      published := fun hx => by cases hx }

/-- Without batching an operation is staged and written to the end of the remote buffer. -/
theorem LiveOk.appendNow (h : LiveOk cfg b k) (hb : cfg.batching = false) (hkey : w.key ≠ 0) :
    LiveOk cfg { b with buffer := b.buffer ++ [w.at (k.tail cfg.batching)] } { k with
      pool := { k.pool.stage (w.at (k.tail cfg.batching)) with offset := k.pool.offset + w.size }
      view := .quiet } := by
  obtain ⟨halign, hkeys, hvalid⟩ := h.staged hkey
  have htail : k.pool.offset = bytesOf k.pool.buffer := by simpa [KnCore.tail, hb] using h.tail
  have hbuf : b.buffer ++ [w.at (k.tail cfg.batching)] = (k.pool.stage (w.at (k.tail cfg.batching))).buffer := by
    rw [(h.immediate hb).1]
    rfl
  exact
    { aligned := halign
      keys := hkeys
      tail := by simp [KnCore.tail, hb, LogBlock.stage, htail]
      isPrefix := by rw [hbuf]
      valid := hvalid
      immediate := fun _ => ⟨hbuf, (h.immediate hb).2⟩
      batched := fun hx => by rw [hb] at hx; cases hx
      unsent := fun hx => by rw [hb] at hx; cases hx
      sent := fun hx => by cases hx
      published := fun hx => by cases hx }

/-- Staging an operation, and writing it at once when there is no batching. -/
theorem Inv.append (h : Inv cfg s.st s.cores C ρ) {ret : Bool}
    (hctl : (s.kn t).ctl = .write w ret .retry) (halloc : (s.kn t).nonReplicatedAlloc ≠ 0)
    (hkey : w.key ≠ 0) : Inv cfg (s.append cfg t w).st (s.append cfg t w).cores C ρ := by
  have hview : (s.cores t).view = .quiet := by simp [cores, Kn.core, hctl, Ctl.view]
  have hl : (s.cores t).Live := ⟨by rw [hview]; rfl, halloc, by rw [hview]; rfl⟩
  have hwait : (s.cores t).view.waiting = false := by rw [hview]; rfl
  have hplain : (s.cores t).view.Plain := by rw [hview]; exact ⟨rfl, rfl, rfl, rfl, rfl, rfl⟩
  have hok := (h.thread t).liveOk hl
  have hcounters := (h.thread t).poolCounters
  cases hb : cfg.batching with
  | true =>
    have hst : (s.append cfg t w).st = s.st := by simp [Cluster.append, hb]
    have hcores : (s.append cfg t w).cores = update s.cores t { s.cores t with
        pool := (s.cores t).pool.stage (w.at ((s.cores t).tail cfg.batching))
        batchedOffset := (s.cores t).batchedOffset + w.size, view := .quiet } := by
      simp only [Cluster.append, hb, if_true, nextEntry]
      exact cores_setKn s t _
    rw [hst, hcores]
    exact h.stageStep hl hwait hplain rfl ⟨rfl, rfl, rfl, rfl, rfl, rfl⟩ hcounters
      (hok.stageBatched hb (by rw [hview]; rfl) hkey)
  | false =>
    have hok' := hok.appendNow hb hkey
    have hwrite : writeOplog (s.st.mem (s.cores t).alloc).buffer (w.at ((s.cores t).tail cfg.batching)) =
        (s.st.mem (s.cores t).alloc).buffer ++ [w.at ((s.cores t).tail cfg.batching)] := by
      rw [(hok.immediate hb).1, Aligned.writeOplog_end hok.aligned]
      rw [Write.at_offset, hok.tail]
    have hbuf : (s.st.mem (s.cores t).alloc).buffer ++ [w.at ((s.cores t).tail cfg.batching)] =
        ((s.cores t).pool.stage (w.at ((s.cores t).tail cfg.batching))).buffer := (hok'.immediate hb).1
    have hst : (s.append cfg t w).st = s.st.modBlock (s.cores t).alloc fun b =>
        { b with buffer := writeOplog b.buffer (w.at ((s.cores t).tail cfg.batching)) } := by
      simp only [Cluster.append, hb, nextEntry]
      rfl
    have hcores : (s.append cfg t w).cores = update s.cores t { s.cores t with
        pool := { (s.cores t).pool.stage (w.at ((s.cores t).tail cfg.batching)) with
          offset := (s.cores t).pool.offset + w.size }
        view := .quiet } := by
      simp only [Cluster.append, hb, nextEntry]
      exact cores_setKn _ t _
    have hlinked := (h.chain t).block _ (mem_of_mem_head? ((h.thread t).live hl))
    rw [hst, hcores]
    refine h.liveStep hl hwait hplain (by rw [hwrite]) (.write hlinked (prefix_append _ _) ?_ ?_) rfl
      ⟨rfl, rfl, rfl, rfl, rfl, rfl⟩ hcounters hok' <;> rw [hbuf]
    · exact hok'.aligned
    · exact hok'.keys

/-- The staged oplogs that were not sent continue the remote buffer. -/
theorem LiveOk.unflushed (h : LiveOk cfg b k) (hb : cfg.batching = true)
    (hsent : k.view.sent = false) :
    writeOplogs b.buffer (entriesFrom k.pool.buffer k.flushedOffset) = k.pool.buffer := by
  obtain ⟨u, hu⟩ := h.isPrefix
  have halign : Aligned (b.buffer ++ u) := by rw [hu]; exact h.aligned
  rw [← h.unsent hb hsent, ← hu, halign.entriesFrom_append, halign.writeOplogs_end]

/-- Sending the staged oplogs. -/
theorem LiveOk.send (h : LiveOk cfg b k) (hb : cfg.batching = true) (hv : v.sent = true) (hv' : v.published = false) :
    LiveOk cfg { b with buffer := k.pool.buffer } { k with view := v } :=
  { h with
    isPrefix := prefix_refl _
    immediate := fun hx => by rw [hb] at hx; cases hx
    unsent := fun _ hx => by rw [hv] at hx; cases hx
    sent := fun _ => ⟨hb, rfl⟩
    published := fun hx => by rw [hv'] at hx; cases hx }

/-- Publishing a batch that was sent. -/
theorem LiveOk.publishBatch (h : LiveOk cfg b k)
    (hsent : k.view.sent = true) (hv : v.sent = false) :
    LiveOk cfg (b.withHeader { k.pool with offset := k.batchedOffset }) { k with
      pool := { k.pool with offset := k.batchedOffset }, flushedOffset := k.batchedOffset, view := v } := by
  obtain ⟨hb, hbuf⟩ := h.sent hsent
  have htail : k.batchedOffset = bytesOf k.pool.buffer := by simpa [KnCore.tail, hb] using h.tail
  exact
    { h with
      tail := by simpa [KnCore.tail, hb] using htail
      immediate := fun hx => by rw [hb] at hx; cases hx
      batched := fun _ => ⟨rfl, rfl, le_rfl⟩
      unsent := fun _ _ => (congrArg bytesOf hbuf).trans htail.symm
      sent := fun hx => by rw [hv] at hx; cases hx
      published := fun _ => ⟨hbuf, htail⟩ }

/-- Writing the header of a block whose oplogs are written as they come. -/
theorem LiveOk.header (h : LiveOk cfg b k) (hb : cfg.batching = false) (hv : v.sent = false) :
    LiveOk cfg (b.withHeader k.pool) { k with view := v } := by
  have htail : k.pool.offset = bytesOf k.pool.buffer := by simpa [KnCore.tail, hb] using h.tail
  exact
    { h with
      batched := fun hx => by rw [hb] at hx; cases hx
      unsent := fun hx => by rw [hb] at hx; cases hx
      sent := fun hx => by rw [hv] at hx; cases hx
      published := fun _ => ⟨(h.immediate hb).1, htail⟩ }

/-- With batching and nothing left to flush, the block is published as it is. -/
theorem LiveOk.await (h : LiveOk cfg b k) (hb : cfg.batching = true)
    (hsent : k.view.sent = false) (hflushed : ¬ k.flushedOffset < k.batchedOffset)
    (hv : v.sent = false) : LiveOk cfg b { k with view := v } := by
  obtain ⟨hoff, hpool, hle⟩ := h.batched hb
  have htail : k.batchedOffset = bytesOf k.pool.buffer := by simpa [KnCore.tail, hb] using h.tail
  have hbytes := h.unsent hb hsent
  have hall : bytesOf b.buffer = bytesOf k.pool.buffer := by omega
  have hoff' : b.offset = bytesOf k.pool.buffer := by omega
  exact
    { h with
      unsent := fun _ _ => hbytes
      sent := fun hx => by rw [hv] at hx; cases hx
      published := fun _ => ⟨eq_of_isPrefix_of_bytesOf h.isPrefix hall, hoff'⟩ }

variable {c : Ctl V}

/-- A thread sends the staged oplogs of its current block. -/
theorem Inv.sendUnflushed (h : Inv cfg s.st s.cores C ρ) (hl : (s.cores t).Live)
    (hp : (s.cores t).view = .quiet) (hb : cfg.batching = true)
    (hc : c.view = { (CtlView.quiet : CtlView V) with sent := true }) :
    Inv cfg ((s.sendUnflushed t).setCtl t c).st ((s.sendUnflushed t).setCtl t c).cores C ρ := by
  have hok := (h.thread t).liveOk hl
  have hlinked := (h.chain t).block _ (mem_of_mem_head? ((h.thread t).live hl))
  have hsend : writeOplogs (s.st.mem (s.cores t).alloc).buffer (s.kn t).unflushed = (s.cores t).pool.buffer :=
    hok.unflushed hb (by rw [hp]; rfl)
  have hst : ((s.sendUnflushed t).setCtl t c).st = s.st.modBlock (s.cores t).alloc fun b =>
      { b with buffer := writeOplogs b.buffer (s.kn t).unflushed } := rfl
  have hcores : ((s.sendUnflushed t).setCtl t c).cores =
      update s.cores t { s.cores t with view := c.view } := cores_setCtl _ t c
  rw [hst, hcores]
  refine h.liveStep hl (by rw [hp]; rfl) ?_ (by rw [hsend]) (.write hlinked hok.isPrefix hok.aligned hok.keys) rfl ?_
    (h.thread t).poolCounters (hok.send hb (by rw [hc]) (by rw [hc]; rfl))
  · rw [hp]
    exact ⟨rfl, rfl, rfl, rfl, rfl, rfl⟩
  · rw [hc]
    exact ⟨rfl, rfl, rfl, rfl, rfl, rfl⟩

/-- A thread publishes the batch it has sent. -/
theorem Inv.publishBatch (h : Inv cfg s.st s.cores C ρ) (hl : (s.cores t).Live)
    (hp : (s.cores t).view = { (CtlView.quiet : CtlView V) with sent := true }) (hc : c.view.Plain)
    (hsent : c.view.sent = false) :
    Inv cfg ((s.publishBatch t).setCtl t c).st ((s.publishBatch t).setCtl t c).cores C ρ := by
  have hok := (h.thread t).liveOk hl
  have hlinked := (h.chain t).block _ (mem_of_mem_head? ((h.thread t).live hl))
  have hsent' : (s.cores t).view.sent = true := by rw [hp]
  obtain ⟨hb, hbuf⟩ := hok.sent hsent'
  have htail : (s.cores t).batchedOffset = bytesOf (s.cores t).pool.buffer := by
    simpa [KnCore.tail, hb] using hok.tail
  have hst : ((s.publishBatch t).setCtl t c).st = s.st.modBlock (s.cores t).alloc fun b =>
      b.withHeader { (s.cores t).pool with offset := (s.cores t).batchedOffset } := by
    simp [Cluster.publishBatch, Cluster.sendHeader, setCtl, setKn, modBlock,
      cores, Kn.core]
  have hcores : ((s.publishBatch t).setCtl t c).cores = update s.cores t { s.cores t with
      pool := { (s.cores t).pool with offset := (s.cores t).batchedOffset }
      flushedOffset := (s.cores t).batchedOffset, view := c.view } := by
    have hpub : (s.publishBatch t).cores = update s.cores t { s.cores t with
        pool := { (s.cores t).pool with offset := (s.cores t).batchedOffset }
        flushedOffset := (s.cores t).batchedOffset } := cores_setKn s t _
    rw [cores_setCtl, hpub, update_self, update_idem]
  rw [hst, hcores]
  have hcounters := (h.thread t).poolCounters
  refine h.liveStep hl (by rw [hp]; rfl) ?_ rfl (.header { (s.cores t).pool with offset := (s.cores t).batchedOffset }
    hlinked (h.block _).aligned (h.block _).keys ?_ ?_ hcounters) rfl hc hcounters (hok.publishBatch hsent' hsent)
  · rw [hp]
    exact ⟨rfl, rfl, rfl, rfl, rfl, rfl⟩
  · rw [hbuf]
    exact htail
  · rw [hbuf]
    exact hok.valid

/-- A thread without batching writes the header of its current block. -/
theorem Inv.sendHeader (h : Inv cfg s.st s.cores C ρ) (hl : (s.cores t).Live)
    (hp : (s.cores t).view = .quiet) (hb : cfg.batching = false) (hc : c.view.Plain)
    (hsent : c.view.sent = false) :
    Inv cfg ((s.sendHeader t).setCtl t c).st ((s.sendHeader t).setCtl t c).cores C ρ := by
  have hok := (h.thread t).liveOk hl
  have hlinked := (h.chain t).block _ (mem_of_mem_head? ((h.thread t).live hl))
  have hbuf := (hok.immediate hb).1
  have hst : ((s.sendHeader t).setCtl t c).st = s.st.modBlock (s.cores t).alloc fun b =>
      b.withHeader (s.cores t).pool := rfl
  have hcores : ((s.sendHeader t).setCtl t c).cores =
      update s.cores t { s.cores t with view := c.view } := cores_setCtl _ t c
  rw [hst, hcores]
  have hcounters := (h.thread t).poolCounters
  refine h.liveStep hl (by rw [hp]; rfl) ?_ rfl (.header (s.cores t).pool hlinked (h.block _).aligned (h.block _).keys
    ?_ ?_ hcounters) rfl hc hcounters (hok.header hb hsent)
  · rw [hp]
    exact ⟨rfl, rfl, rfl, rfl, rfl, rfl⟩
  · rw [hbuf]
    simpa [KnCore.tail, hb] using hok.tail
  · rw [hbuf]
    exact hok.valid

/-- A thread with batching and nothing to flush asks for a merge. -/
theorem Inv.await (h : Inv cfg s.st s.cores C ρ) (hl : (s.cores t).Live)
    (hp : (s.cores t).view = .quiet) (hb : cfg.batching = true)
    (hflushed : ¬ (s.kn t).flushedOffset < (s.kn t).batchedOffset) (hc : c.view.Plain)
    (hsent : c.view.sent = false) : Inv cfg (s.setCtl t c).st (s.setCtl t c).cores C ρ := by
  have hok := (h.thread t).liveOk hl
  rw [cores_setCtl]
  refine h.stageStep hl (by rw [hp]; rfl) ?_ rfl hc (h.thread t).poolCounters
    (hok.await hb (by rw [hp]; rfl) hflushed hsent)
  rw [hp]
  exact ⟨rfl, rfl, rfl, rfl, rfl, rfl⟩

end Threads

end Dinomo
