import Dinomo.Compute
import Dinomo.Library.Transition

/-!
# The cluster: any number of KN threads over one storage side

An event is one call, one pool access of a thread, one step of a storage pass, one answer of a storage
manager, or a crash.  `step` executes an event and is undefined when the event is not enabled.  Runs
are lists of events, so every interleaving of the threads and the passes is a run.

Besides the program's state the cluster records histories that properties are stated with: the oplogs
in the order the threads staged them, the acknowledged requests, the compare-and-swaps and
fetch-and-adds of replicated writes, the replicated calls that returned and the answers of replicated
reads.  No step reads them.
-/

namespace Dinomo

/-- A successful compare-and-swap of a replicated write. -/
structure Install (Tid : Type*) where
  tid : Tid
  cell : Addr
  superseded : Option IndexVal
  ptr : Ptr
deriving DecidableEq, Repr

/-- The answer of a replicated read, with the oplog its pointer designated when it was read. -/
structure ReplicatedRead (Tid V : Type*) where
  tid : Tid
  key : Key
  result : Option (V × ℕ)
  seen : Option (Oplog V)

/-- The state of a cluster. -/
structure Cluster (Tid V : Type*) where
  st : Storage Tid V
  kn : Tid → Kn V
  batchingRequests : Tid → List (LogEntry Tid V)
  written : List (LogEntry Tid V)
  acked : List (LogEntry Tid V)
  installs : List (Install Tid)
  increments : List (Tid × ℕ)
  returned : List (LogEntry Tid V)
  reads : List (ReplicatedRead Tid V)

/-- The calls of a KN thread. -/
inductive Call (V : Type*)
  | write (w : Write V)
  | flush
  | merge (clear : Bool)
  | swap (k : Key) (replicated : Bool)
  | putReplicated (k : Key) (keyLen : ℕ) (v : V) (valLen : ℕ) (doUpdate : Bool)
  | getReplicated (k : Key) (keyLen : ℕ)

/-- The events of a cluster. -/
inductive Event (Tid V : Type*)
  | invoke (t : Tid) (c : Call V)
  | advance (t : Tid)
  | preallocate (t : Tid) (fresh : List Addr)
  | install (t : Tid) (cell : Addr)
  | beginPass (t : Tid) (kind : PassKind)
  | passStep (t : Tid)
  | crash (t : Tid)

/-- `put(key, key_len, value, val_len, do_update)` as a logged operation. -/
def putWrite {V : Type*} (k : Key) (keyLen : ℕ) (v : V) (valLen : ℕ) (doUpdate : Bool) : Write V :=
  ⟨if doUpdate then .update else .insert, k, keyLen, valLen, v⟩

/-- `remove(key, key_len)` as a logged operation: no value bytes. -/
def removeWrite {V : Type*} [Inhabited V] (k : Key) (keyLen : ℕ) : Write V :=
  ⟨.delete, k, keyLen, 0, default⟩

variable {Tid V : Type*}

namespace Cluster

/-- A cluster before any call. -/
def init (logBuckets : ℕ) : Cluster Tid V where
  st :=
    { mem := fun _ => .zero
      cells := fun _ => none
      ht := Clht.create logBuckets
      logMappingTable := fun _ => 0
      reservedAllocQueue := []
      allocated := []
      progressTable := fun _ => none
      mergeReply := fun _ => false
      failoverDone := fun _ => false
      applied := [] }
  kn := fun _ => .init
  batchingRequests := fun _ => []
  written := []
  acked := []
  installs := []
  increments := []
  returned := []
  reads := []

section Steps

variable [DecidableEq Tid]

/-- Replace the state of one thread. -/
def setKn (s : Cluster Tid V) (t : Tid) (n : Kn V) : Cluster Tid V :=
  { s with kn := Function.update s.kn t n }

/-- Move one thread to a control state. -/
def setCtl (s : Cluster Tid V) (t : Tid) (c : Ctl V) : Cluster Tid V :=
  s.setKn t { s.kn t with ctl := c }

/-- Change one block of the pool. -/
def modBlock (s : Cluster Tid V) (a : Addr) (f : LogBlock V → LogBlock V) : Cluster Tid V :=
  { s with st := s.st.modBlock a f }

/-- `response_batching_requests`: acknowledge every batched request of a thread. -/
def respondBatched (s : Cluster Tid V) (t : Tid) : Cluster Tid V :=
  { s with
    acked := s.acked ++ s.batchingRequests t
    batchingRequests := Function.update s.batchingRequests t [] }

/-- The request handler after `put` returned `ret`: an immediate acknowledgement without batching;
with batching, earlier requests are acknowledged if `ret` is set and this one is kept back. -/
def acknowledge (cfg : Config) (s : Cluster Tid V) (t : Tid) (ret : Bool) (e : LogEntry Tid V) :
    Cluster Tid V :=
  if cfg.batching then
    let s' := if ret then s.respondBatched t else s
    { s' with batchingRequests := Function.update s'.batchingRequests t (s'.batchingRequests t ++ [e]) }
  else { s with acked := s.acked ++ [e] }

/-- The oplog of an operation at the end of the current block. -/
def nextEntry (cfg : Config) (s : Cluster Tid V) (t : Tid) (w : Write V) : LogEntry Tid V :=
  ⟨t, ⟨(s.kn t).nonReplicatedAlloc, (s.kn t).tailOffset cfg.batching⟩,
    w.at ((s.kn t).tailOffset cfg.batching)⟩

/-- Stage an operation in the current block; without batching it is written to the pool at once. -/
def append (cfg : Config) (s : Cluster Tid V) (t : Tid) (w : Write V) : Cluster Tid V :=
  let n := s.kn t
  let e := s.nextEntry cfg t w
  let s' :=
    if cfg.batching then
      s.setKn t { n with
        pool := n.pool.stage e.oplog, batchedOffset := n.batchedOffset + w.size, ctl := .idle }
    else
      (s.modBlock n.nonReplicatedAlloc fun b => { b with buffer := writeOplog b.buffer e.oplog }).setKn t
        { n with
          pool := { n.pool.stage e.oplog with offset := n.pool.offset + w.size }, ctl := .idle }
  { s' with written := s'.written ++ [e] }

/-- Write the staged oplogs that were not yet sent. -/
def sendUnflushed (s : Cluster Tid V) (t : Tid) : Cluster Tid V :=
  s.modBlock (s.kn t).nonReplicatedAlloc fun b =>
    { b with buffer := writeOplogs b.buffer (s.kn t).unflushed }

/-- Write the header of the current block from the staging pool. -/
def sendHeader (s : Cluster Tid V) (t : Tid) : Cluster Tid V :=
  s.modBlock (s.kn t).nonReplicatedAlloc fun b => b.withHeader (s.kn t).pool

/-- Publish a batch: the staged offset becomes the block's offset, and the header is written. -/
def publishBatch (s : Cluster Tid V) (t : Tid) : Cluster Tid V :=
  let n := s.kn t
  (s.setKn t { n with
    pool := { n.pool with offset := n.batchedOffset }, flushedOffset := n.batchedOffset }).sendHeader t

/-- The steps of `put` and `remove`. -/
def stepWrite (cfg : Config) (s : Cluster Tid V) (t : Tid) (w : Write V) (ret : Bool) :
    WriteStage → Option (Cluster Tid V)
  | .retry =>
    if (s.kn t).nonReplicatedAlloc = 0 then none
    else if (s.kn t).tailOffset cfg.batching + w.size ≤ cfg.maxLogBlockLen then
      some ((s.append cfg t w).acknowledge cfg t ret (s.nextEntry cfg t w))
    else if cfg.batching then some ((s.sendUnflushed t).setCtl t (.write w ret .header))
    else some ((s.sendHeader t).setCtl t (.write w ret .clean))
  | .header => some ((s.publishBatch t).setCtl t (.write w ret .clean))
  | .clean =>
    let n := (s.kn t).rotate
    some (s.setKn t { n with
      ctl := .write w true (if n.nonReplicatedAlloc = 0 then .retry else .link) })
  | .link =>
    let n := s.kn t
    let head := s.st.logMappingTable t
    some ((s.modBlock n.nonReplicatedAlloc fun b => { b with next := head }).setKn t
      { n with pool := { n.pool with next := head }, ctl := .write w ret .slot })
  | .slot =>
    some (({ s with st := { s.st with
      logMappingTable := Function.update s.st.logMappingTable t (s.kn t).nonReplicatedAlloc } }).setCtl t
        (.write w ret .retry))

/-- The end of `merge`: `swap` goes on; `node_join_handler` answers the batched requests. -/
def afterMerge (s : Cluster Tid V) (t : Tid) : AfterMerge → Cluster Tid V
  | .done clear =>
    let n := s.kn t
    if clear then
      (s.setKn t { n with indirectPointerCache := fun _ => none, ctl := .idle }).respondBatched t
    else s.setCtl t .idle
  | .install k => s.setKn t { (s.kn t).dropIndirect k with ctl := .install k }

/-- The start of `merge`: publish the current block, then send the request and wait. -/
def startMerge (cfg : Config) (s : Cluster Tid V) (t : Tid) (m : AfterMerge) : Cluster Tid V :=
  if (s.kn t).nonReplicatedAlloc = 0 then s.afterMerge t m
  else if cfg.batching then
    if (s.kn t).flushedOffset < (s.kn t).batchedOffset then
      (s.sendUnflushed t).setCtl t (.flush (.merge m))
    else s.setCtl t (.merge m)
  else (s.sendHeader t).setCtl t (.merge m)

/-- The header write that ends `flush`. -/
def stepFlush (s : Cluster Tid V) (t : Tid) : AfterFlush → Cluster Tid V
  | .done => ((s.publishBatch t).setCtl t .idle).respondBatched t
  | .merge m => (s.publishBatch t).setCtl t (.merge m)

/-- A successful compare-and-swap of an indirect pointer to the thread's new oplog. -/
def swapPointer (s : Cluster Tid V) (t : Tid) (c : Addr) (expected : Option IndexVal) : Cluster Tid V :=
  { s with
    st := { s.st with cells := Function.update s.st.cells c (some (.oplog (s.kn t).replicatedPtr)) }
    installs := s.installs ++ [⟨t, c, expected, (s.kn t).replicatedPtr⟩] }

/-- A remote fetch-and-add at a pool address, which is the `global_invalid_counter` of the block whose
header starts at that field's distance before it. -/
def fetchAdd (s : Cluster Tid V) (t : Tid) (target : ℕ) : Cluster Tid V :=
  { s with
    st := s.st.modBlock (target - globalInvalidCounterPos) fun b =>
      { b with globalInvalidCounter := b.globalInvalidCounter + 1 }
    increments := s.increments ++ [(t, target)] }

/-- The bookkeeping at the end of `putReplicated`. -/
def finishReplicated (s : Cluster Tid V) (t : Tid) (w : Write V) (c : Addr) : Cluster Tid V :=
  let n := s.kn t
  { s.setKn t { n with
      indirectPointerCache := Function.update n.indirectPointerCache w.key
        (some ⟨c, .oplog n.replicatedPtr, w.valLen, w.value⟩)
      replicatedAllocNumEntries := n.replicatedAllocNumEntries + 1
      replicatedAllocOffset := n.replicatedAllocOffset + w.size
      ctl := .idle } with
    returned := s.returned ++ [⟨t, n.replicatedPtr, w.at n.replicatedAllocOffset⟩] }

/-- The steps of `putReplicated`.  A missing key ends the call with an error; an index word that is not
an indirect pointer is not modelled. -/
def stepPutReplicated (cfg : Config) (s : Cluster Tid V) (t : Tid) (w : Write V) :
    PutReplStage → Option (Cluster Tid V)
  | .start =>
    let n := s.kn t
    if n.replicatedAlloc = 0 then some (s.setCtl t (.putReplicated w .newBlock))
    else if n.replicatedAllocOffset + w.size ≤ cfg.maxLogBlockLen then
      some ((s.modBlock n.replicatedAlloc fun b =>
        { b with buffer := writeOplog b.buffer (w.at n.replicatedAllocOffset) }).setCtl t
          (.putReplicated w .find))
    else
      some ((s.modBlock n.replicatedAlloc fun b => { b with offset := n.replicatedAllocOffset }).setCtl t
        (.putReplicated w .syncValid))
  | .syncValid =>
    some ((s.modBlock (s.kn t).replicatedAlloc fun b =>
      { b with validCounter := (s.kn t).replicatedAllocNumEntries }).setCtl t (.putReplicated w .newBlock))
  | .newBlock =>
    let n := (s.kn t).newReplicated
    if n.replicatedAlloc = 0 then none else some (s.setKn t { n with ctl := .putReplicated w .start })
  | .find =>
    match (s.kn t).indirectPointerCache w.key with
    | some e => some (s.setCtl t (.putReplicated w (.readPtr e.cell)))
    | none =>
      match s.st.ht.get w.key with
      | none => some (s.setCtl t .idle)
      | some (.indirect c) => some (s.setCtl t (.putReplicated w (.readPtr c)))
      | some (.oplog _) => none
  | .readPtr c => some (s.setCtl t (.putReplicated w (.cas c (s.st.cells c))))
  | .cas c expected =>
    if s.st.cells c = expected then
      some ((s.swapPointer t c expected).setCtl t (.putReplicated w (.readOld c expected)))
    else some (s.setCtl t (.putReplicated w (.cas c (s.st.cells c))))
  | .readOld c expected =>
    match expected with
    | some (.oplog p) =>
      some (s.setCtl t (.putReplicated w (.faa c expected ((s.st.oplogAt p).elim 0 Oplog.offset))))
    | _ => none
  | .faa c expected off =>
    match expected with
    | some (.oplog p) => some ((s.fetchAdd t (p.raddr - off - 8 - 8)).finishReplicated t w c)
    | _ => none

/-- A replicated read answers. -/
def answer (s : Cluster Tid V) (t : Tid) (k : Key) (result : Option (V × ℕ)) (seen : Option (Oplog V)) :
    Cluster Tid V :=
  { s.setCtl t .idle with reads := s.reads ++ [⟨t, k, result, seen⟩] }

/-- The oplog an index word designates. -/
def oplogOf (s : Cluster Tid V) : Option IndexVal → Option (Oplog V)
  | some (.oplog p) => s.st.oplogAt p
  | _ => none

/-- The steps of `getReplicated`.  The two reads of the oplog, of its header and then of the whole, are
two steps; what is returned is what the second one finds. -/
def stepGetReplicated (s : Cluster Tid V) (t : Tid) (k : Key) (keyLen : ℕ) :
    GetReplStage V → Option (Cluster Tid V)
  | .find =>
    match (s.kn t).indirectPointerCache k with
    | some e => some (s.setCtl t (.getReplicated k keyLen (.readPtr e.cell)))
    | none =>
      match s.st.ht.get k with
      | none => some (s.answer t k none none)
      | some (.indirect c) => some (s.setCtl t (.getReplicated k keyLen (.readPtr c)))
      | some (.oplog _) => none
  | .readPtr c =>
    match s.st.cells c with
    | none => some ((s.setKn t ((s.kn t).dropIndirect k)).answer t k none none)
    | some v =>
      match (s.kn t).indirectPointerCache k with
      | some e =>
        if e.oplog = v then some (s.answer t k (some (e.value, e.valLen)) (s.oplogOf (some v)))
        else some (s.setCtl t (.getReplicated k keyLen (.readHeader c v (s.oplogOf (some v)))))
      | none => some (s.setCtl t (.getReplicated k keyLen (.readHeader c v (s.oplogOf (some v)))))
  | .readHeader c v seen => some (s.setCtl t (.getReplicated k keyLen (.readBody c v seen)))
  | .readBody c v seen =>
    match s.oplogOf (some v) with
    | some o =>
      if o.key = k ∧ o.keyLen = keyLen then
        some ((s.setKn t { s.kn t with
          indirectPointerCache := Function.update (s.kn t).indirectPointerCache k
            (some ⟨c, v, o.valLen, o.value⟩) }).answer t k (some (o.value, o.valLen)) seen)
      else some (s.setKn t { (s.kn t).dropIndirect k with ctl := .getReplicated k keyLen .find })
    | none => some (s.setKn t { (s.kn t).dropIndirect k with ctl := .getReplicated k keyLen .find })

/-- A call starts on an idle thread. -/
def invoke (cfg : Config) (s : Cluster Tid V) (t : Tid) : Call V → Cluster Tid V
  | .write w => s.setCtl t (.write w false .retry)
  | .flush =>
    if (s.kn t).flushedOffset < (s.kn t).batchedOffset then
      (s.sendUnflushed t).setCtl t (.flush .done)
    else s.respondBatched t
  | .merge clear => s.startMerge cfg t (.done clear)
  | .swap k replicated =>
    if replicated then s.startMerge cfg t (.install k)
    else s.setKn t { (s.kn t).dropIndirect k with ctl := .removeIndirect k }
  | .putReplicated k keyLen v valLen doUpdate =>
    s.setCtl t (.putReplicated (putWrite k keyLen v valLen doUpdate) .start)
  | .getReplicated k keyLen => s.setCtl t (.getReplicated k keyLen .find)

/-- The next pool access of a thread. -/
def advance (cfg : Config) (s : Cluster Tid V) (t : Tid) : Option (Cluster Tid V) :=
  match (s.kn t).ctl with
  | .write w ret stage => s.stepWrite cfg t w ret stage
  | .flush after => some (s.stepFlush t after)
  | .merge after =>
    if s.st.mergeReply t then
      some (({ s with st := { s.st with
        mergeReply := Function.update s.st.mergeReply t false } }).afterMerge t after)
    else none
  | .removeIndirect k =>
    match s.st.removeIndirect k with
    | none => none
    | some st => some ({ s with st := st }.setCtl t .idle)
  | .putReplicated w stage => s.stepPutReplicated cfg t w stage
  | .getReplicated k keyLen stage => s.stepGetReplicated t k keyLen stage
  | _ => none

/-- A storage manager answers a preallocation request; the answer replaces the array of addresses. -/
def preallocate (cfg : Config) (s : Cluster Tid V) (t : Tid) (fresh : List Addr) :
    Option (Cluster Tid V) :=
  let served : Cluster Tid V := { s with st := s.st.preallocate cfg.maxPreallocNum fresh }
  let n := { s.kn t with logBlocksRaddrs := s.st.handedOut cfg.maxPreallocNum fresh }
  if s.st.Fresh cfg.maxPreallocNum fresh then
    match (s.kn t).ctl with
    | .write w ret .retry =>
      if (s.kn t).nonReplicatedAlloc = 0 then
        some (served.setKn t { n with
          nonReplicatedAlloc := (popLogBlocksRaddr n.logBlocksRaddrs).1
          logBlocksRaddrs := (popLogBlocksRaddr n.logBlocksRaddrs).2
          ctl := .write w ret .link })
      else none
    | .putReplicated w .newBlock =>
      if (popLogBlocksRaddr (s.kn t).logBlocksRaddrs).1 = 0 then
        some (served.setKn t { n.newReplicated with ctl := .putReplicated w .start })
      else none
    | _ => none
  else none

/-- A storage manager installs an indirect pointer in a new cell. -/
def install (s : Cluster Tid V) (t : Tid) (c : Addr) : Option (Cluster Tid V) :=
  match (s.kn t).ctl with
  | .install k =>
    if c ≠ 0 ∧ c ∉ s.st.allocated then
      some ({ s with st := s.st.installIndirect k c }.setCtl t .idle)
    else none
  | _ => none

/-- Whether a pass may start: workers any time, managers when a request for it is pending. -/
def passEnabled (s : Cluster Tid V) (t : Tid) : PassKind → Bool
  | .worker => true
  | .request =>
    match (s.kn t).ctl with
    | .merge _ => !s.st.mergeReply t
    | _ => false
  | .failover =>
    match (s.kn t).ctl with
    | .crashed => true
    | _ => false

/-- Execute one event. -/
def step (cfg : Config) (s : Cluster Tid V) : Event Tid V → Option (Cluster Tid V)
  | .invoke t c =>
    match (s.kn t).ctl with
    | .idle => some (s.invoke cfg t c)
    | _ => none
  | .advance t => s.advance cfg t
  | .preallocate t fresh => s.preallocate cfg t fresh
  | .install t c => s.install t c
  | .beginPass t kind =>
    if s.passEnabled t kind then (s.st.beginPass t kind).map fun st => { s with st := st } else none
  | .passStep t => (s.st.passStep t).map fun st => { s with st := st }
  | .crash t => some (s.setCtl t .crashed)

/-- What an answer to a preallocation request does: the first block of it becomes the current block of a `put`,
or the replicated block of a `putReplicated` that found the array empty. -/
theorem preallocate_cases {cfg : Config} {s s' : Cluster Tid V} {t : Tid} {fresh : List Addr}
    (hs' : s.preallocate cfg t fresh = some s') :
    s.st.Fresh cfg.maxPreallocNum fresh ∧
      ((∃ w ret, (s.kn t).ctl = .write w ret .retry ∧ (s.kn t).nonReplicatedAlloc = 0 ∧
        s' = ({ s with st := s.st.preallocate cfg.maxPreallocNum fresh } : Cluster Tid V).setKn t
          { s.kn t with
            nonReplicatedAlloc := (popLogBlocksRaddr (s.st.handedOut cfg.maxPreallocNum fresh)).1
            logBlocksRaddrs := (popLogBlocksRaddr (s.st.handedOut cfg.maxPreallocNum fresh)).2
            ctl := .write w ret .link }) ∨
      (∃ w, (s.kn t).ctl = .putReplicated w .newBlock ∧ (popLogBlocksRaddr (s.kn t).logBlocksRaddrs).1 = 0 ∧
        s' = ({ s with st := s.st.preallocate cfg.maxPreallocNum fresh } : Cluster Tid V).setKn t
          { ({ s.kn t with logBlocksRaddrs := s.st.handedOut cfg.maxPreallocNum fresh } : Kn V).newReplicated with
            ctl := .putReplicated w .start })) := by
  unfold preallocate at hs'
  by_cases hfresh : s.st.Fresh cfg.maxPreallocNum fresh
  swap
  · simp only [if_neg hfresh] at hs'
    cases hs'
  refine ⟨hfresh, ?_⟩
  simp only [if_pos hfresh] at hs'
  split at hs'
  · rename_i w ret hctl
    obtain ⟨h0, hs'⟩ := Option.ite_none_right_eq_some.mp hs'
    exact .inl ⟨w, ret, hctl, h0, (Option.some.inj hs').symm⟩
  · rename_i w hctl
    obtain ⟨h0, hs'⟩ := Option.ite_none_right_eq_some.mp hs'
    exact .inr ⟨w, hctl, h0, (Option.some.inj hs').symm⟩
  · cases hs'

/-- Execute a list of events. -/
def run (cfg : Config) (s : Cluster Tid V) (es : List (Event Tid V)) : Option (Cluster Tid V) :=
  Transition.run (step cfg) s es

end Steps

end Cluster

end Dinomo
