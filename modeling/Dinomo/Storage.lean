import Dinomo.ClhtSpec

/-!
# The storage side

The state behind `dinomo_storage.cpp` and the passes that merge a thread's log into the index: the
worker passes of `server_worker_thread`, which skip the head block, and the passes of `merge`, run
by a manager for a merge request or a failover, which include it.

A pass holds the lock `progress_table[k]` of its log and is executed in small steps: one block of the
first traversal, one oplog, one comparison of invalidation counters, one finished block at a time.
Steps of different passes and of the threads that write the logs interleave freely.  Applying one
oplog to the index and incrementing the counter of the block it supersedes is one step.

The shared-nothing build, the metadata store and the statistics counters are left out.
-/

namespace Dinomo

/-- A pointer to the oplog at a buffer offset of a block. -/
structure Ptr where
  block : Addr
  off : ℕ
deriving DecidableEq, Repr

/-- The pool address of an oplog. -/
def Ptr.raddr (p : Ptr) : ℕ := p.block + logBlockHeaderLen + p.off

/-- A value word of the index: the address of an oplog, or of an indirect pointer to one. -/
inductive IndexVal
  | oplog (p : Ptr)
  | indirect (c : Addr)
deriving DecidableEq, Repr

/-- An oplog of a thread's log together with its place. -/
structure LogEntry (Tid V : Type*) where
  tid : Tid
  ptr : Ptr
  oplog : Oplog V
deriving DecidableEq, Repr

/-- Who runs a pass: a worker, a manager for a merge request, or a manager for a failover. -/
inductive PassKind
  | worker
  | request
  | failover
deriving DecidableEq, Repr

/-- A pass first walks the chain, then merges blocks from the oldest on, then unlocks. -/
inductive PassPhase
  | walk
  | scan
  | stop
deriving DecidableEq, Repr

/-- The local variables of a pass.  `check` is a block whose counters are about to be compared. -/
structure Pass where
  kind : PassKind
  phase : PassPhase
  first : Addr
  prev : Addr
  next : Addr
  workStack : List Addr
  offset : ℕ
  check : Option Addr
deriving DecidableEq, Repr

/-- The storage side.  `allocated` lists the pool objects handed out by the allocator, `mergeReply`
and `failoverDone` the answers of the managers; `applied` records the oplogs applied to the index. -/
structure Storage (Tid V : Type*) where
  mem : Addr → LogBlock V
  cells : Addr → Option IndexVal
  ht : Clht IndexVal
  logMappingTable : Tid → Addr
  reservedAllocQueue : List Addr
  allocated : List Addr
  progressTable : Tid → Option Pass
  mergeReply : Tid → Bool
  failoverDone : Tid → Bool
  applied : List (LogEntry Tid V)

variable {Tid V : Type*}

/-- An oplog of a block as an entry of a thread's log. -/
def LogEntry.ofOplog (t : Tid) (a : Addr) (o : Oplog V) : LogEntry Tid V := ⟨t, ⟨a, o.offset⟩, o⟩

namespace Storage

/-- Change one block in place. -/
def modBlock (st : Storage Tid V) (a : Addr) (f : LogBlock V → LogBlock V) : Storage Tid V :=
  { st with mem := Function.update st.mem a (f (st.mem a)) }

@[simp] theorem mem_modBlock_self (st : Storage Tid V) (a : Addr) (f : LogBlock V → LogBlock V) :
    (st.modBlock a f).mem a = f (st.mem a) := Function.update_self ..

theorem mem_modBlock_of_ne (st : Storage Tid V) {a b : Addr} (h : b ≠ a) (f : LogBlock V → LogBlock V) :
    (st.modBlock a f).mem b = st.mem b := Function.update_of_ne h ..

/-- The oplog a pointer designates. -/
def oplogAt (st : Storage Tid V) (p : Ptr) : Option (Oplog V) := (st.mem p.block).entryAt p.off

/-- `log_block_merged`: the block header computed back from an oplog and its `offset` field.  Memory
without an oplog reads as zero; the `offset` field of an indirect pointer lies outside its cell. -/
def logBlockMerged (st : Storage Tid V) : IndexVal → Addr
  | .oplog p => p.raddr - (st.oplogAt p).elim 0 Oplog.offset - logBlockHeaderLen
  | .indirect c => c - logBlockHeaderLen

/-- Count an overwritten or removed oplog as invalid in its block. -/
def invalidate (st : Storage Tid V) (v : IndexVal) : Storage Tid V :=
  st.modBlock (st.logBlockMerged v) fun b => { b with localInvalidCounter := b.localInvalidCounter + 1 }

/-- The word an oplog takes out of the index, if its operation finds the key. -/
def superseded (st : Storage Tid V) (o : Oplog V) : Option IndexVal :=
  match o.opType with
  | .insert => none
  | .update => st.ht.get o.key
  | .delete => st.ht.get o.key

/-- The index after an oplog at `p` is applied. -/
def indexAfter (ht : Clht IndexVal) (p : Ptr) (o : Oplog V) : Clht IndexVal :=
  match o.opType with
  | .insert => (ht.put o.key (.oplog p)).1
  | .update => (ht.update o.key (.oplog p)).1
  | .delete => (ht.remove o.key).1

/-- Apply one oplog: change the index and count the superseded oplog as invalid. -/
def applyOplog (st : Storage Tid V) (t : Tid) (p : Ptr) (o : Oplog V) : Storage Tid V :=
  let st' := { st with ht := indexAfter st.ht p o, applied := st.applied ++ [⟨t, p, o⟩] }
  match st.superseded o with
  | none => st'
  | some v => st'.invalidate v

/-- The block whose counters are compared after an oplog of block `next` was applied. -/
def checkAfter (st : Storage Tid V) (next : Addr) (o : Oplog V) : Option Addr :=
  match st.superseded o with
  | none => none
  | some v => if st.logBlockMerged v = next then none else some (st.logBlockMerged v)

/-- Push a block without live entries to the queue of blocks that may be handed out again. -/
def reclaim (st : Storage Tid V) (a : Addr) : Storage Tid V :=
  if (st.mem a).allInvalid then { st with reservedAllocQueue := st.reservedAllocQueue ++ [a] } else st

section Passes

variable [DecidableEq Tid]

/-- Set the pass that holds the lock of a log. -/
def setPass (st : Storage Tid V) (t : Tid) (p : Option Pass) : Storage Tid V :=
  { st with progressTable := Function.update st.progressTable t p }

/-- Unlock a log and answer the request that asked for the pass. -/
def finishPass (st : Storage Tid V) (t : Tid) (kind : PassKind) : Storage Tid V :=
  match kind with
  | .worker => st.setPass t none
  | .request => { st.setPass t none with mergeReply := Function.update st.mergeReply t true }
  | .failover => { st.setPass t none with failoverDone := Function.update st.failoverDone t true }

/-- Lock a log and read its head.  A worker leaves a log of fewer than two blocks alone. -/
def beginPass (st : Storage Tid V) (t : Tid) (kind : PassKind) : Option (Storage Tid V) :=
  match st.progressTable t with
  | some _ => none
  | none =>
    let first := st.logMappingTable t
    if first = 0 then
      if kind = .worker then none else some (st.finishPass t kind)
    else if (st.mem first).next = 0 then
      if kind = .worker then none
      else some (st.setPass t (some ⟨kind, .scan, first, 0, first, [], (st.mem first).mergedOffset, none⟩))
    else some (st.setPass t (some ⟨kind, .walk, first, first, (st.mem first).next, [], 0, none⟩))

/-- One block of the traversal to the end of the chain. -/
def walkStep (st : Storage Tid V) (t : Tid) (p : Pass) : Storage Tid V :=
  let snapshot := (st.mem p.next).next
  if snapshot = 0 then
    st.setPass t (some { p with
      phase := .scan, workStack := p.prev :: p.workStack, offset := (st.mem p.next).mergedOffset })
  else
    st.setPass t (some { p with
      prev := p.next, next := snapshot, workStack := p.prev :: p.workStack })

/-- The local variables after a block is done: the next newer block, or the end of the pass. -/
def passAfter (st : Storage Tid V) (p : Pass) : Pass :=
  let rest := p.workStack.tail
  { p with
    phase := if p.prev = 0 ∨ (p.kind = .worker ∧ p.prev = p.first) then .stop else .scan
    next := p.prev
    prev := if p.prev = p.first then 0 else rest.head?.getD 0
    workStack := rest
    offset := (st.mem p.prev).mergedOffset
    check := if p.next = p.first then none else some p.next }

/-- Finish a block: everything published is merged, and all but the head is cut off the chain. -/
def finishBlock (st : Storage Tid V) (t : Tid) (p : Pass) : Storage Tid V :=
  let st₁ := st.modBlock p.next fun b => { b with mergedOffset := b.offset }
  let st₂ := if p.next = p.first then st₁ else st₁.modBlock p.prev fun b => { b with next := 0 }
  st₂.setPass t (some (st₂.passAfter p))

/-- The next step of the pass that holds the lock of a log. -/
def passStep (st : Storage Tid V) (t : Tid) : Option (Storage Tid V) :=
  match st.progressTable t with
  | none => none
  | some p =>
    match p.check with
    | some a => some ((st.reclaim a).setPass t (some { p with check := none }))
    | none =>
      match p.phase with
      | .walk => some (st.walkStep t p)
      | .stop => some (st.finishPass t p.kind)
      | .scan =>
        if p.offset < (st.mem p.next).offset then
          match (st.mem p.next).entryAt p.offset with
          | some o =>
            some ((st.applyOplog t ⟨p.next, p.offset⟩ o).setPass t
              (some { p with offset := p.offset + o.size, check := st.checkAfter p.next o }))
          | none => some (st.finishBlock t p)
        else some (st.finishBlock t p)

/-- What a step of a pass does: it compares counters, walks on, unlocks the log, applies an oplog or finishes a block. -/
theorem passStep_cases {st st' : Storage Tid V} {t : Tid} (h : st.passStep t = some st') :
    ∃ p, st.progressTable t = some p ∧
      ((∃ a, p.check = some a ∧ st' = (st.reclaim a).setPass t (some { p with check := none })) ∨
      (p.check = none ∧ p.phase = .walk ∧ st' = st.walkStep t p) ∨
      (p.check = none ∧ p.phase = .stop ∧ st' = st.finishPass t p.kind) ∨
      (∃ o, p.check = none ∧ p.phase = .scan ∧ p.offset < (st.mem p.next).offset ∧
        (st.mem p.next).entryAt p.offset = some o ∧
        st' = (st.applyOplog t ⟨p.next, p.offset⟩ o).setPass t
          (some { p with offset := p.offset + o.size, check := st.checkAfter p.next o })) ∨
      (p.check = none ∧ p.phase = .scan ∧
        (p.offset < (st.mem p.next).offset → (st.mem p.next).entryAt p.offset = none) ∧ st' = st.finishBlock t p)) := by
  unfold passStep at h
  split at h
  · cases h
  rename_i p hp
  refine ⟨p, hp, ?_⟩
  split at h
  · rename_i a hcheck
    exact .inl ⟨a, hcheck, (Option.some.inj h).symm⟩
  rename_i hcheck
  split at h
  · rename_i hphase
    exact .inr (.inl ⟨hcheck, hphase, (Option.some.inj h).symm⟩)
  · rename_i hphase
    exact .inr (.inr (.inl ⟨hcheck, hphase, (Option.some.inj h).symm⟩))
  · rename_i hphase
    split_ifs at h with hlt
    · split at h
      · rename_i o ho
        exact .inr (.inr (.inr (.inl ⟨o, hcheck, hphase, hlt, ho, (Option.some.inj h).symm⟩)))
      · rename_i hnone
        exact .inr (.inr (.inr (.inr ⟨hcheck, hphase, fun _ => hnone, (Option.some.inj h).symm⟩)))
    · exact .inr (.inr (.inr (.inr ⟨hcheck, hphase, fun hx => absurd hx hlt, (Option.some.inj h).symm⟩)))

end Passes

/-- The blocks a preallocation hands out: blocks of the queue first, then new ones. -/
def handedOut (st : Storage Tid V) (n : ℕ) (fresh : List Addr) : List Addr :=
  st.reservedAllocQueue.take n ++ fresh

/-- Serve a preallocation; every block handed out is zeroed. -/
def preallocate (st : Storage Tid V) (n : ℕ) (fresh : List Addr) : Storage Tid V :=
  { st with
    mem := fun a => if a ∈ st.handedOut n fresh then .zero else st.mem a
    reservedAllocQueue := st.reservedAllocQueue.drop n
    allocated := fresh ++ st.allocated }

/-- The allocator returns new nonzero addresses, as many as the queue cannot provide. -/
def Fresh (st : Storage Tid V) (n : ℕ) (fresh : List Addr) : Prop :=
  fresh.length = n - st.reservedAllocQueue.length ∧
    fresh.Nodup ∧ ∀ a ∈ fresh, a ≠ 0 ∧ a ∉ st.allocated

instance (st : Storage Tid V) (n : ℕ) (fresh : List Addr) : Decidable (st.Fresh n fresh) :=
  inferInstanceAs (Decidable (_ ∧ _ ∧ _))

/-- `clht_install_indirect` into a new zeroed cell: the cell takes the word of the key, if it has one. -/
def installIndirect (st : Storage Tid V) (k : Key) (c : Addr) : Storage Tid V :=
  { st with
    cells := Function.update st.cells c (st.ht.get k)
    ht := st.ht.redirect k fun _ => some (.indirect c)
    allocated := c :: st.allocated }

/-- `clht_remove_indirect`: the word of the key becomes what the cell holds.  A key whose word is not
an indirect pointer would be given eight bytes of an oplog header; this is not modelled. -/
def removeIndirect (st : Storage Tid V) (k : Key) : Option (Storage Tid V) :=
  match st.ht.get k with
  | some (.oplog _) => none
  | _ => some { st with
      ht := st.ht.redirect k fun w =>
        match w with
        | some (.indirect c) => st.cells c
        | _ => none }

end Storage

end Dinomo
