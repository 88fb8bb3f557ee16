import Dinomo.Storage

/-!
# The compute side

The state of one thread of a key-value node (KN), the object `Dinomo<T>` of `dinomo_compute.hpp`, as
far as it writes to the pool: the staging pool, the block it appends to, the preallocated blocks, the
batching offsets and the cache of indirect pointers.  The cache `T` and the list of rotated blocks,
which only serve reads, are kept apart.

A call is executed in steps of one access to the pool each.  The control state records where in
`put`, `remove`, `flush`, `merge`, `swap`, `putReplicated` or `getReplicated` a thread is.
-/

namespace Dinomo

/-- The configuration a cluster is started with.  Block offsets are 32-bit words. -/
structure Config where
  maxLogBlockLen : ℕ
  maxPreallocNum : ℕ
  batching : Bool
  maxLogBlockLen_lt : maxLogBlockLen < 2 ^ 32
  maxPreallocNum_pos : 0 < maxPreallocNum

/-- The values `server.cpp` starts with. -/
def Config.initial (batching : Bool) : Config :=
  ⟨2 * 1024 * 1024 - logBlockHeaderLen, 2, batching, by decide, by decide⟩

/-- What `indirect_pointer_cache` holds for a key: the cell, the oplog seen there and its value. -/
structure IndirectEntry (V : Type*) where
  cell : Addr
  oplog : IndexVal
  valLen : ℕ
  value : V
deriving DecidableEq, Repr

/-- Where a thread is inside `put` or `remove`: at `retry`, before the header write of a full block,
before the clean-up of the rotated blocks, before the write of the new block's `next` pointer, or
before the write of the log-mapping slot. -/
inductive WriteStage
  | retry
  | header
  | clean
  | link
  | slot
deriving DecidableEq, Repr

/-- What follows a completed merge request: the end of `merge(clear)`, or the second half of `swap`. -/
inductive AfterMerge
  | done (clear : Bool)
  | install (k : Key)
deriving DecidableEq, Repr

/-- What follows a completed `flush`: the answers to the batched requests, or a merge request. -/
inductive AfterFlush
  | done
  | merge (m : AfterMerge)
deriving DecidableEq, Repr

/-- Where a thread is inside `putReplicated`. -/
inductive PutReplStage
  | start
  | syncValid
  | newBlock
  | find
  | readPtr (cell : Addr)
  | cas (cell : Addr) (expected : Option IndexVal)
  | readOld (cell : Addr) (expected : Option IndexVal)
  | faa (cell : Addr) (expected : Option IndexVal) (off : ℕ)
deriving DecidableEq, Repr

/-- Where a thread is inside `getReplicated`.  `seen` records the oplog the pointer designated when it
was read. -/
inductive GetReplStage (V : Type*)
  | find
  | readPtr (cell : Addr)
  | readHeader (cell : Addr) (oplog : IndexVal) (seen : Option (Oplog V))
  | readBody (cell : Addr) (oplog : IndexVal) (seen : Option (Oplog V))
deriving DecidableEq, Repr

/-- The control state of a thread. -/
inductive Ctl (V : Type*)
  | idle
  | crashed
  | write (w : Write V) (ret : Bool) (stage : WriteStage)
  | flush (after : AfterFlush)
  | merge (after : AfterMerge)
  | install (k : Key)
  | removeIndirect (k : Key)
  | putReplicated (w : Write V) (stage : PutReplStage)
  | getReplicated (k : Key) (keyLen : ℕ) (stage : GetReplStage V)
deriving DecidableEq, Repr

/-- The write side of a KN thread. -/
structure Kn (V : Type*) where
  pool : LogBlock V
  nonReplicatedAlloc : Addr
  logBlocksRaddrs : List Addr
  batchedOffset : ℕ
  flushedOffset : ℕ
  replicatedAlloc : Addr
  replicatedAllocOffset : ℕ
  replicatedAllocNumEntries : ℕ
  indirectPointerCache : Key → Option (IndirectEntry V)
  ctl : Ctl V

variable {V : Type*}

/-- A thread after construction. -/
def Kn.init : Kn V := ⟨.zero, 0, [], 0, 0, 0, 0, 0, fun _ => none, .idle⟩

/-- `pop_log_blocks_raddr`: take the first block still in the array of preallocated addresses. -/
def popLogBlocksRaddr : List Addr → Addr × List Addr
  | [] => (0, [])
  | a :: l => if a = 0 then ((popLogBlocksRaddr l).1, a :: (popLogBlocksRaddr l).2) else (a, 0 :: l)

/-- Stage an oplog in the local image of a block; deletions are not counted as valid entries. -/
def LogBlock.stage (b : LogBlock V) (o : Oplog V) : LogBlock V :=
  { b with
    validCounter := if o.opType.isWrite then b.validCounter + 1 else b.validCounter
    buffer := b.buffer ++ [o] }

/-- The write of header bytes 4 to 31: everything but `merged_offset` and `next`. -/
def LogBlock.withHeader (b pool : LogBlock V) : LogBlock V :=
  { b with
    offset := pool.offset
    validCounter := pool.validCounter
    localInvalidCounter := pool.localInvalidCounter
    globalInvalidCounter := pool.globalInvalidCounter }

/-- The staged oplogs that were not yet sent to the remote block. -/
def Kn.unflushed (n : Kn V) : List (Oplog V) := entriesFrom n.pool.buffer n.flushedOffset

/-- The offset at which the next operation is staged. -/
def Kn.tailOffset (n : Kn V) (batching : Bool) : ℕ := if batching then n.batchedOffset else n.pool.offset

/-- The staging pool is reset and the next preallocated block, if any, becomes the current one. -/
def Kn.rotate (n : Kn V) : Kn V :=
  { n with
    pool := { n.pool with validCounter := 0, offset := 0, buffer := [] }
    batchedOffset := 0
    flushedOffset := 0
    nonReplicatedAlloc := (popLogBlocksRaddr n.logBlocksRaddrs).1
    logBlocksRaddrs := (popLogBlocksRaddr n.logBlocksRaddrs).2 }

/-- `invalidate_cache`, as far as indirect pointers go. -/
def Kn.dropIndirect (n : Kn V) (k : Key) : Kn V :=
  { n with indirectPointerCache := Function.update n.indirectPointerCache k none }

/-- The next preallocated block becomes the current replicated block. -/
def Kn.newReplicated (n : Kn V) : Kn V :=
  { n with
    replicatedAlloc := (popLogBlocksRaddr n.logBlocksRaddrs).1
    logBlocksRaddrs := (popLogBlocksRaddr n.logBlocksRaddrs).2
    replicatedAllocOffset := 0
    replicatedAllocNumEntries := 0 }

/-- The pointer to the oplog a replicated write has written. -/
def Kn.replicatedPtr (n : Kn V) : Ptr := ⟨n.replicatedAlloc, n.replicatedAllocOffset⟩

end Dinomo
