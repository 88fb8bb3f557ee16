import Mathlib.Data.Fintype.Card
import Dinomo.Cluster
import Dinomo.Library.Chain

/-!
# The invariant of the log system

Every block of the pool has one role: it is unused or retired, waits in `reserved_alloc_queue`, is
linked in the log of a thread, is about to be linked, is preallocated for a thread, or is the block a
thread writes replicated oplogs to.  The invariant ties the roles to the addresses the threads and
the storage side hold, the contents of a block to its role, and the counters of a block to the index
entries that refer to it.

What the invariant needs to know about a thread is collected in `KnCore`; the control state enters
through the few distinctions that matter for the pool.
-/

namespace Dinomo

open Chain

/-- What a block is used for. -/
inductive Role (Tid : Type*)
  | unowned
  | queued
  | chain (t : Tid)
  | linking (t : Tid)
  | prealloc (t : Tid)
  | repl (t : Tid)

/-- The thread whose steps may change a block in this role. -/
def Role.owner {Tid : Type*} : Role Tid → Option Tid
  | .unowned => none
  | .queued => none
  | .chain t => some t
  | .linking t => some t
  | .prealloc t => some t
  | .repl t => some t

/-- The distinctions between control states that matter for the contents of the pool.  `owed` is the
oplog a replicated write has superseded and not yet counted, with its `offset` field once read. -/
structure CtlView (V : Type*) where
  crashed : Bool
  linking : Bool
  slotPending : Bool
  sent : Bool
  published : Bool
  waiting : Bool
  retired : Bool
  inflight : Option (Write V)
  owed : Option (Ptr × Option ℕ)

variable {Tid V : Type*}

/-- A control state in which nothing is under way in the pool. -/
def CtlView.quiet : CtlView V := ⟨false, false, false, false, false, false, false, none, none⟩

/-- The operation whose oplog a replicated write has written but not finished. -/
def PutReplStage.inflight (w : Write V) : PutReplStage → Option (Write V)
  | .start => none
  | .syncValid => none
  | .newBlock => none
  | _ => some w

/-- The superseded oplog a replicated write still has to count. -/
def PutReplStage.owed : PutReplStage → Option (Ptr × Option ℕ)
  | .readOld _ (some (.oplog p)) => some (p, none)
  | .faa _ (some (.oplog p)) off => some (p, some off)
  | _ => none

/-- The view of a control state. -/
def Ctl.view : Ctl V → CtlView V
  | .crashed => { CtlView.quiet with crashed := true }
  | .write _ _ .header => { CtlView.quiet with sent := true }
  | .write _ _ .clean => { CtlView.quiet with published := true }
  | .write _ _ .link => { CtlView.quiet with linking := true }
  | .write _ _ .slot => { CtlView.quiet with linking := true, slotPending := true }
  | .flush _ => { CtlView.quiet with sent := true }
  | .merge _ => { CtlView.quiet with published := true, waiting := true }
  | .putReplicated _ .newBlock => { CtlView.quiet with retired := true }
  | .putReplicated w stage =>
    { (CtlView.quiet : CtlView V) with inflight := stage.inflight w, owed := stage.owed }
  | _ => .quiet

/-- Only a crashed thread is seen as crashed. -/
theorem Ctl.view_crashed {c : Ctl V} (h : c ≠ .crashed) : c.view.crashed = false := by
  unfold Ctl.view
  split <;> first | rfl | exact absurd rfl h

/-- A thread that waits for a merge request has published its block. -/
theorem Ctl.view_published {c : Ctl V} (h : c.view.waiting = true) : c.view.published = true := by
  unfold Ctl.view at h ⊢
  split <;> first | rfl | (simp [CtlView.quiet] at h)

/-- The part of a thread's state that the pool invariant speaks about. -/
structure KnCore (V : Type*) where
  pool : LogBlock V
  alloc : Addr
  raddrs : List Addr
  batchedOffset : ℕ
  flushedOffset : ℕ
  replAlloc : Addr
  replOffset : ℕ
  replNumEntries : ℕ
  view : CtlView V

/-- The part of a thread's state that the pool invariant speaks about. -/
def Kn.core (n : Kn V) : KnCore V :=
  ⟨n.pool, n.nonReplicatedAlloc, n.logBlocksRaddrs, n.batchedOffset, n.flushedOffset,
    n.replicatedAlloc, n.replicatedAllocOffset, n.replicatedAllocNumEntries, n.ctl.view⟩

/-- The threads of a cluster as the pool invariant sees them. -/
def Cluster.cores (s : Cluster Tid V) : Tid → KnCore V := fun t => (s.kn t).core

/-- The thread has a linked block it appends to. -/
def KnCore.Live (k : KnCore V) : Prop :=
  k.view.crashed = false ∧ k.alloc ≠ 0 ∧ k.view.linking = false

/-- The thread has a block it writes replicated oplogs to. -/
def KnCore.ReplActive (k : KnCore V) : Prop :=
  k.view.crashed = false ∧ k.replAlloc ≠ 0 ∧ k.view.retired = false

/-- The offset at which the next operation is staged. -/
def KnCore.tail (k : KnCore V) (batching : Bool) : ℕ := if batching then k.batchedOffset else k.pool.offset

/-- The number of insertions and updates among the oplogs that satisfy a condition. -/
def writesIn (buf : List (Oplog V)) (P : Oplog V → Bool) : ℕ :=
  buf.countP fun o => o.opType.isWrite && P o

/-- The number of insertions and updates. -/
def writes (buf : List (Oplog V)) : ℕ := writesIn buf fun _ => true

/-- The staging pool of a thread and the block `b` it appends to. -/
structure LiveOk (cfg : Config) (b : LogBlock V) (k : KnCore V) : Prop where
  aligned : Aligned k.pool.buffer
  keys : ∀ o ∈ k.pool.buffer, o.key ≠ 0
  tail : k.tail cfg.batching = bytesOf k.pool.buffer
  isPrefix : b.buffer <+: k.pool.buffer
  valid : k.pool.validCounter = writes k.pool.buffer
  immediate : cfg.batching = false → b.buffer = k.pool.buffer ∧ k.flushedOffset = k.batchedOffset
  batched : cfg.batching = true → b.offset = k.flushedOffset ∧ k.pool.offset = k.flushedOffset ∧
    k.flushedOffset ≤ k.batchedOffset
  unsent : cfg.batching = true → k.view.sent = false → bytesOf b.buffer = k.flushedOffset
  sent : k.view.sent = true → cfg.batching = true ∧ b.buffer = k.pool.buffer
  published : k.view.published = true → b.buffer = k.pool.buffer ∧ b.offset = bytesOf k.pool.buffer

/-- A staging pool with nothing in it. -/
structure PoolReset (k : KnCore V) : Prop where
  buffer : k.pool.buffer = []
  offset : k.pool.offset = 0
  valid : k.pool.validCounter = 0
  batched : k.batchedOffset = 0
  flushed : k.flushedOffset = 0

/-- The block `b` a thread writes replicated oplogs to. -/
structure ReplOk (b : LogBlock V) (k : KnCore V) : Prop where
  buffer : ∃ pre, b.buffer = pre ++ (k.view.inflight.map fun w => w.at k.replOffset).toList ∧
    bytesOf pre = k.replOffset ∧ pre.length = k.replNumEntries
  writes : ∀ o ∈ b.buffer, o.opType.isWrite

/-- What holds between a thread, its blocks and the blocks linked in its log. -/
structure ThreadInv (cfg : Config) (st : Storage Tid V) (C : List Addr) (ρ : Addr → Role Tid) (t : Tid)
    (k : KnCore V) : Prop where
  raddrs : ∀ a ∈ k.raddrs, a ≠ 0 → ρ a = .prealloc t
  nodup_raddrs : (k.raddrs.filter (· ≠ 0)).Nodup
  linking : k.view.linking = true → ρ k.alloc = .linking t
  slotNext : k.view.slotPending = true → k.view.linking = true ∧
    (st.mem k.alloc).next = st.logMappingTable t
  live : k.Live → C.head? = some k.alloc
  liveOk : k.Live → LiveOk cfg (st.mem k.alloc) k
  reset : k.view.crashed = false → ¬ k.Live → PoolReset k
  complete : k.view.crashed = false → ¬ k.Live → ∀ a ∈ C, (st.mem a).offset = bytesOf (st.mem a).buffer
  poolCounters : k.pool.localInvalidCounter = 0 ∧ k.pool.globalInvalidCounter = 0
  repl : k.ReplActive → ρ k.replAlloc = .repl t
  repl_only : ∀ a, ρ a = .repl t → a = k.replAlloc ∧ k.view.retired = false
  replOk : k.ReplActive → ReplOk (st.mem k.replAlloc) k
  inflight : k.view.inflight.isSome → k.replAlloc ≠ 0
  sentLive : k.view.sent = true → k.Live
  publishedLive : k.view.published = true → k.Live

/-- A block linked in a log: its offsets are entry boundaries and its published entries are counted. -/
structure LinkedOk (b : LogBlock V) : Prop where
  offset : AtBoundary b.buffer b.offset
  merged : AtBoundary b.buffer b.mergedOffset
  merged_le : b.mergedOffset ≤ b.offset
  valid : b.validCounter = writesIn b.buffer fun o => o.offset < b.offset

/-- The log of a thread, newest block first.  All blocks but the newest are complete, and only the
oldest may have merged entries. -/
structure ChainInv (st : Storage Tid V) (C : List Addr) (ρ : Addr → Role Tid) (t : Tid) : Prop where
  mem_iff : ∀ a, a ∈ C ↔ ρ a = .chain t
  nodup : C.Nodup
  links : IsChain (fun a => (st.mem a).next) (st.logMappingTable t) C
  block : ∀ a ∈ C, LinkedOk (st.mem a)
  tail_complete : ∀ a ∈ C.tail, (st.mem a).offset = bytesOf (st.mem a).buffer
  merged_zero : ∀ a ∈ C.dropLast, (st.mem a).mergedOffset = 0

/-- Nothing published in a log is left to merge. -/
def Drained (st : Storage Tid V) (C : List Addr) : Prop :=
  C.length ≤ 1 ∧ ∀ a ∈ C, (st.mem a).mergedOffset = (st.mem a).offset

/-- Where a pass is in the chain. -/
def PassPos (st : Storage Tid V) (C : List Addr) (p : Pass) : Prop :=
  match p.phase with
  | .walk => ∃ pre rest, C = pre ++ (p.workStack.reverse ++ p.prev :: p.next :: rest) ∧
      (p.workStack.reverse ++ [p.prev]).head? = some p.first ∧ (p.kind ≠ .worker → pre = [])
  | .scan => ∃ pre, C = pre ++ (p.workStack.reverse ++ [p.next]) ∧
      (p.workStack.reverse ++ [p.next]).head? = some p.first ∧
      p.prev = p.workStack.head?.getD 0 ∧ (p.kind = .worker → p.workStack ≠ []) ∧
      (p.kind ≠ .worker → pre = []) ∧
      AtBoundary (st.mem p.next).buffer p.offset ∧ (st.mem p.next).mergedOffset ≤ p.offset ∧
      p.offset ≤ (st.mem p.next).offset
  | .stop => p.kind ≠ .worker → Drained st C

/-- A pass and the thread whose log it merges. -/
structure PassInv (st : Storage Tid V) (C : List Addr) (k : KnCore V) (p : Pass) : Prop where
  pos : PassPos st C p
  request : p.kind = .request → k.view.waiting = true ∨ k.view.crashed = true
  failover : p.kind = .failover → k.view.crashed = true

/-- A block whose counters a pass is about to compare: they can only be equal when the block is in no
log and all its entries are counted as invalid. -/
structure CheckOk (st : Storage Tid V) (ρ : Addr → Role Tid) (a : Addr) : Prop where
  alloc : a ∈ st.allocated
  role : (ρ a = .unowned ∧ ((st.mem a).validCounter = writes (st.mem a).buffer ∨
      ((st.mem a).validCounter = 0 ∧
        0 < (st.mem a).localInvalidCounter + (st.mem a).globalInvalidCounter))) ∨
    (∃ t, ρ a = .repl t ∧ 0 < (st.mem a).localInvalidCounter + (st.mem a).globalInvalidCounter) ∨
    (∃ t, ρ a = .chain t ∧ 0 < (st.mem a).validCounter ∧ ¬ (st.mem a).allInvalid)

/-- The block can be reached from the log-mapping slot of a thread. -/
def Storage.Linked (st : Storage Tid V) (t : Tid) (a : Addr) : Prop :=
  Reaches (fun b => (st.mem b).next) (st.logMappingTable t) a

/-- A pass is about to compare the counters of the block. -/
def Storage.Compared (st : Storage Tid V) (a : Addr) : Prop :=
  ∃ t p, st.progressTable t = some p ∧ p.check = some a

/-- At most one pass is about to compare the counters of the block. -/
def Storage.ComparedOnce (st : Storage Tid V) (a : Addr) : Prop :=
  ∀ t t' p p', st.progressTable t = some p → st.progressTable t' = some p' →
    p.check = some a → p'.check = some a → t = t'

/-- One more superseded oplog makes the counters of the block agree. -/
def LogBlock.lastValid (b : LogBlock V) : Prop :=
  b.validCounter = b.localInvalidCounter + b.globalInvalidCounter + 1

/-- The contents of a block, by its role. -/
structure BlockInv (st : Storage Tid V) (ρ : Addr → Role Tid) (a : Addr) : Prop where
  aligned : Aligned (st.mem a).buffer
  keys : ∀ o ∈ (st.mem a).buffer, o.key ≠ 0
  unalloc : a ∉ st.allocated → st.mem a = .zero
  prealloc : ∀ t, ρ a = .prealloc t → st.mem a = .zero
  linking : ∀ t, ρ a = .linking t → { st.mem a with next := 0 } = (.zero : LogBlock V)
  repl : ∀ t, ρ a = .repl t → (st.mem a).validCounter = 0
  retired : ρ a = .unowned → (st.mem a).validCounter = 0 ∨
    (st.mem a).validCounter = writes (st.mem a).buffer

/-- How far the log block of a thread is merged, counting the pass in progress. -/
def Storage.mpos (st : Storage Tid V) (t : Tid) (a : Addr) : ℕ :=
  match st.progressTable t with
  | some p => if p.phase = .scan ∧ p.next = a then p.offset else (st.mem a).mergedOffset
  | none => (st.mem a).mergedOffset

/-- The oplog the index refers to for a key, directly or through an indirect pointer. -/
def Storage.resolve (st : Storage Tid V) (k : Key) : Option Ptr :=
  match st.ht.get k with
  | some (.oplog p) => some p
  | some (.indirect c) =>
    match st.cells c with
    | some (.oplog p) => some p
    | _ => none
  | none => none

/-- The number of oplogs of a block the index refers to. -/
def Storage.refs (st : Storage Tid V) (a : Addr) : ℕ :=
  (st.mem a).buffer.countP fun o => st.resolve o.key = some ⟨a, o.offset⟩

/-- A replicated oplog that its thread has installed in an indirect pointer. -/
def KnCore.installed (k : KnCore V) (o : Oplog V) : Bool :=
  o.offset < k.replOffset || k.view.crashed || k.view.owed.isSome

/-- The oplogs of a block that may have reached the index: the merged ones of a linked block, the
installed ones of a replicated block, all of any other. -/
def Storage.isReleased (st : Storage Tid V) (K : Tid → KnCore V) (ρ : Addr → Role Tid) (a : Addr)
    (o : Oplog V) : Bool :=
  match ρ a with
  | .chain t => o.offset < st.mpos t a
  | .repl t => (K t).installed o
  | _ => true

/-- The number of insertions and updates of a block that may have reached the index. -/
def Storage.released (st : Storage Tid V) (K : Tid → KnCore V) (ρ : Addr → Role Tid) (a : Addr) : ℕ :=
  writesIn (st.mem a).buffer (st.isReleased K ρ a)

/-- The number of replicated writes that still have to count an oplog of a block as superseded. -/
def owedTo [Fintype Tid] (K : Tid → KnCore V) (a : Addr) : ℕ :=
  (Finset.univ.filter fun t => (K t).view.owed.map (·.1.block) = some a).card

/-- The index refers to existing oplogs of its keys, and its cells are its own. -/
structure IndexInv (st : Storage Tid V) (K : Tid → KnCore V) (ρ : Addr → Role Tid) : Prop where
  full : st.ht.Full
  cell_alloc : ∀ k c, k ≠ 0 → st.ht.get k = some (.indirect c) → c ∈ st.allocated
  cell_some : ∀ k c, k ≠ 0 → st.ht.get k = some (.indirect c) → ∃ p, st.cells c = some (.oplog p)
  cell_inj : ∀ k k' c, k ≠ 0 → k' ≠ 0 → st.ht.get k = some (.indirect c) →
    st.ht.get k' = some (.indirect c) → k = k'
  ref : ∀ k p, k ≠ 0 → st.resolve k = some p → ∃ o ∈ (st.mem p.block).buffer,
    o.offset = p.off ∧ o.key = k ∧ o.opType.isWrite ∧ st.isReleased K ρ p.block o

/-- The invariant of one thread, its log and the pass over it. -/
structure LogInv (cfg : Config) (st : Storage Tid V) (C : List Addr) (ρ : Addr → Role Tid) (t : Tid)
    (k : KnCore V) : Prop where
  thread : ThreadInv cfg st C ρ t k
  chain : ChainInv st C ρ t
  pass : ∀ p, st.progressTable t = some p → PassInv st C k p
  request_open : ∀ p, st.progressTable t = some p → p.kind = .request → st.mergeReply t = false
  reply : st.mergeReply t = true → (k.view.waiting = true ∨ k.view.crashed = true) ∧ Drained st C
  failover : st.failoverDone t = true → k.view.crashed = true ∧ Drained st C

/-- The invariant of the blocks and their counters. -/
structure PoolInv [Fintype Tid] (st : Storage Tid V) (K : Tid → KnCore V) (ρ : Addr → Role Tid) : Prop where
  check : ∀ t p a, st.progressTable t = some p → p.check = some a → CheckOk st ρ a
  check_unique : ∀ t t' p p' a, st.progressTable t = some p → st.progressTable t' = some p' →
    p.check = some a → p'.check = some a → (st.mem a).allInvalid → t = t'
  block : ∀ a, BlockInv st ρ a
  allocated : ∀ a, ρ a ≠ .unowned → a ∈ st.allocated
  zero_allocated : 0 ∉ st.allocated
  queued : ∀ a, a ∈ st.reservedAllocQueue ↔ ρ a = .queued
  nodup_queue : st.reservedAllocQueue.Nodup
  index : IndexInv st K ρ
  owed : ∀ t p off, (K t).view.owed = some (p, off) →
    (∃ o ∈ (st.mem p.block).buffer, o.offset = p.off) ∧ ∀ n, off = some n → n = p.off
  acct : ∀ a, st.refs a + (st.mem a).localInvalidCounter + (st.mem a).globalInvalidCounter +
    owedTo K a ≤ st.released K ρ a
  dead : ∀ a ∈ st.reservedAllocQueue, st.released K ρ a ≤
    (st.mem a).localInvalidCounter + (st.mem a).globalInvalidCounter

/-- The invariant of the log system: `C` lists the blocks of each log, `ρ` gives the role of each block. -/
structure Inv [Fintype Tid] (cfg : Config) (st : Storage Tid V) (K : Tid → KnCore V)
    (C : Tid → List Addr) (ρ : Addr → Role Tid) : Prop extends PoolInv st K ρ where
  log : ∀ t, LogInv cfg st (C t) ρ t (K t)

section

variable [Fintype Tid] {cfg : Config} {st : Storage Tid V} {K : Tid → KnCore V} {C : Tid → List Addr}
  {ρ : Addr → Role Tid} {t : Tid}

/-- What holds between a thread, its blocks and its log. -/
theorem Inv.thread (h : Inv cfg st K C ρ) (t : Tid) : ThreadInv cfg st (C t) ρ t (K t) := (h.log t).thread

/-- The log of a thread. -/
theorem Inv.chain (h : Inv cfg st K C ρ) (t : Tid) : ChainInv st (C t) ρ t := (h.log t).chain

/-- The blocks that can be reached from the slot of a thread are those with the role of its log. -/
theorem Inv.linked_iff (h : Inv cfg st K C ρ) {a : Addr} : st.Linked t a ↔ ρ a = .chain t :=
  (h.chain t).links.reaches_iff.trans ((h.chain t).mem_iff a)

end

end Dinomo
