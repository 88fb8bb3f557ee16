import Dinomo.ReplicationChange
import Dinomo.Library.Transition

/-!
# Replication factors across the cluster

The threads of all KVS nodes with their rings, replication maps and cached indirect pointers, the monitor
with its own ring and map, and the index with the kind of entry it has for a key.  `change_replication_factor`
sends the new factors of a key to the nodes of the larger of the old and the new memory factor, to some of
them first and to the others once the first have answered or the monitor has given up waiting.  Thread `0` of
a node passes an update on to the other threads and answers when they have; here the updates of all threads
of a node are on their way at once, and they arrive in any order.
-/

namespace Dinomo

/-- The constants and hash functions of a deployment; `virtualThreads` is `kVirtualThreadNum`. -/
structure FleetConfig (K N H L : Type*) where
  params : ClusterParams
  hash : Hashers K N H L
  virtualThreads : ℕ

/-- The kind of an index entry: an oplog, an indirect pointer with what it points at, or what is left when a
pointer is removed that is none. -/
inductive Entry
  | oplog
  | pointer (id : ℕ) (target : Entry)
  | garbage
deriving DecidableEq, Repr

/-- `clht_remove_indirect` follows the entry whatever it is. -/
def Entry.removeIndirect : Entry → Entry
  | .pointer _ target => target
  | _ => .garbage

/-- The entry is an indirect pointer. -/
def Entry.isPointer : Entry → Bool
  | .pointer _ _ => true
  | _ => false

/-- An update of the factors of a key on its way to a thread; `waits` if the monitor waits for the answer. -/
structure Notice (K N : Type*) where
  dest : ServerThread N
  key : K
  rep : KeyReplication
  waits : Bool

/-- The cluster as far as replication factors go.  `logged` has the keys whose first write is in the log of a
thread and not merged yet, `pointers` the entries of `indirect_pointer_cache`, `inFlight` the updates on their
way and `deferred` those that the monitor sends when it has the answers it waits for. -/
structure Fleet (K N H L : Type*) [LinearOrder H] [LinearOrder L] where
  rings : ServerThread N → HashRing H N
  maps : ServerThread N → ReplicationMap K
  pointers : ServerThread N → K → Option Entry
  logged : ServerThread N → List K
  monitorRing : HashRing H N
  monitor : ReplicationMap K
  index : K → Option Entry
  nextPointer : ℕ
  inFlight : List (Notice K N)
  deferred : List (Notice K N)

/-- What can happen. -/
inductive FleetEvent (K N : Type*)
  | insertNode (st : ServerThread N) (n : N)
  | insertMonitor (n : N)
  | monitorKey (k : K)
  | change (requests : List (K × KeyReplication))
  | sendDeferred
  | deliver (i : ℕ)
  | serve (st : ServerThread N) (k : K) (write : Bool)
  | mergeLog (st : ServerThread N)

namespace FleetConfig

variable {K N H L : Type*} [DecidableEq K] [DecidableEq N] [LinearOrder H] [LinearOrder L]
variable (cfg : FleetConfig K N H L)

/-- Insert a node at all its places in a ring. -/
def insertNode (r : HashRing H N) (n : N) : HashRing H N :=
  (List.range cfg.virtualThreads).foldl (fun r v => r.insert (cfg.hash.globalThread n v) n) r

/-- The local ring: every thread of a node at all its places. -/
def localRing : HashRing L ℕ :=
  (List.range cfg.params.threadNum).foldl
    (fun r tid => (List.range cfg.virtualThreads).foldl (fun r v => r.insert (cfg.hash.localThread tid v) tid) r) .empty

/-- The nodes of a key under a memory factor. -/
def nodesOf (r : HashRing H N) (k : K) (rep : ℕ) : List N := r.responsible (cfg.hash.globalKey k) rep

/-- Whether the monitor waits for the answer of a node: that of the key's first node when the memory factor leaves
the default, and those of the other nodes when it comes back. -/
def waitsFor (r : HashRing H N) (k : K) (orig new : ℕ) (n : N) : Bool :=
  let isPrimary := new ≠ 0 ∧ r.find (cfg.hash.globalKey k) = some n
  if orig < new then orig = cfg.params.defaultGlobalReplication .memory ∧ isPrimary
  else if new < orig then new = cfg.params.defaultGlobalReplication .memory ∧ ¬isPrimary
  else false

/-- The updates of a key: to the threads of the nodes of the larger factor. -/
def notices (r : HashRing H N) (k : K) (orig new : KeyReplication) : List (Notice K N) :=
  (cfg.nodesOf r k (max (new.globalReplication .memory) (orig.globalReplication .memory))).flatMap fun n =>
    (List.range cfg.params.threadNum).map fun tid =>
      ⟨⟨n, tid⟩, k, new, cfg.waitsFor r k (orig.globalReplication .memory) (new.globalReplication .memory) n⟩

/-- An update as the threads receive it. -/
def updateOf (n : Notice K N) : ReplicationFactor K :=
  ⟨n.key, [(.memory, n.rep.globalReplication .memory), (.storage, n.rep.globalReplication .storage)],
    [(.memory, n.rep.localReplication .memory), (.storage, n.rep.localReplication .storage)]⟩

end FleetConfig

/-- New factors for some keys. -/
def ReplicationMap.setAll {K : Type*} [DecidableEq K] (m : ReplicationMap K) (requests : List (K × KeyReplication)) :
    ReplicationMap K :=
  requests.foldl (fun m r => Function.update m r.1 (some r.2)) m

namespace Fleet

variable {K N H L : Type*} [DecidableEq K] [DecidableEq N] [LinearOrder H] [LinearOrder L]
variable (cfg : FleetConfig K N H L)

/-- A cluster of some nodes that know each other, with nothing stored. -/
def init (nodes : List N) : Fleet K N H L :=
  let ring := nodes.foldl cfg.insertNode .empty
  { rings := fun st => if st.node ∈ nodes then ring else .empty
    maps := fun _ _ => none, pointers := fun _ _ => none, logged := fun _ => []
    monitorRing := ring, monitor := fun _ => none, index := fun _ => none, nextPointer := 0
    inFlight := [], deferred := [] }

/-- The rings of a thread. -/
def ringsOf (s : Fleet K N H L) (st : ServerThread N) : Rings N H L := ⟨s.rings st, cfg.localRing⟩

/-- The threads that a thread takes to be responsible for a key. -/
def threads (s : Fleet K N H L) (st : ServerThread N) (k : K) : List (ServerThread N) :=
  (getResponsibleThreads cfg.params cfg.hash (s.ringsOf cfg st) (s.maps st) k).1

/-- The log of a thread is merged: keys that are new get an entry. -/
def merge (s : Fleet K N H L) (st : ServerThread N) : Fleet K N H L :=
  { s with
    index := fun k => if s.index k = none ∧ k ∈ s.logged st then some .oplog else s.index k
    logged := Function.update s.logged st [] }

/-- What an action of a thread that handles an update does to the rest of the cluster. -/
def act (st : ServerThread N) (s : Fleet K N H L) : ChangeAction K → Fleet K N H L
  | .merge => s.merge st
  | .invalidateCache k => { s with pointers := Function.update s.pointers st (Function.update (s.pointers st) k none) }
  | .installPointer k =>
    { s with
      index := Function.update s.index k ((s.index k).map (.pointer s.nextPointer))
      nextPointer := s.nextPointer + 1 }
  | .removePointer k => { s with index := Function.update s.index k ((s.index k).map Entry.removeIndirect) }
  | _ => s

/-- A thread handles an update. -/
def handle (s : Fleet K N H L) (n : Notice K N) : Fleet K N H L :=
  let done := changeKey cfg.params cfg.hash (s.ringsOf cfg n.dest) n.dest (s.maps n.dest) (FleetConfig.updateOf n)
  let s' := done.2.foldl (act n.dest) s
  { s' with maps := Function.update s'.maps n.dest done.1 }

/-- `change_replication_factor`, up to the wait for the answers, for the keys whose new factors were stored. -/
def changeFactors (s : Fleet K N H L) (requests : List (K × KeyReplication)) : Fleet K N H L :=
  let all := requests.flatMap fun r => cfg.notices s.monitorRing r.1 (s.monitor.read r.1) r.2
  { s with
    monitor := s.monitor.setAll requests
    inFlight := s.inFlight ++ all.filter Notice.waits
    deferred := all.filter fun n => !n.waits }

/-- A thread keeps the pointer of a key that it has cached, or looks the key up in the index and keeps what it
finds there. -/
def keepPointer (s : Fleet K N H L) (st : ServerThread N) (k : K) : Fleet K N H L :=
  let cached := Function.update (s.pointers st) k ((s.pointers st k).or (s.index k))
  { s with pointers := Function.update s.pointers st cached }

/-- The lookup of the responsible threads of a key leaves an entry in the map of a thread. -/
def lookUp (s : Fleet K N H L) (st : ServerThread N) (k : K) : Fleet K N H L :=
  let found := getResponsibleThreads cfg.params cfg.hash (s.ringsOf cfg st) (s.maps st) k
  { s with maps := Function.update s.maps st found.2 }

/-- A thread gets a request of a key.  If it takes itself to be responsible with other threads, it takes the
replicated path, which needs the key's pointer.  If it is the only one, a write puts the key into its log. -/
def serve (s : Fleet K N H L) (st : ServerThread N) (k : K) (write : Bool) : Fleet K N H L :=
  if st ∈ s.threads cfg st k then
    if 1 < (s.threads cfg st k).length then (s.lookUp cfg st k).keepPointer st k
    else if write then { s.lookUp cfg st k with logged := Function.update s.logged st (k :: s.logged st) }
    else s.lookUp cfg st k
  else s.lookUp cfg st k

/-- One event; `none` if it cannot happen. -/
def step (s : Fleet K N H L) : FleetEvent K N → Option (Fleet K N H L)
  | .insertNode st n => some { s with rings := Function.update s.rings st (cfg.insertNode (s.rings st) n) }
  | .insertMonitor n => some { s with monitorRing := cfg.insertNode s.monitorRing n }
  | .monitorKey k =>
    some { s with monitor := if s.monitor k = none then s.monitor.initReplication cfg.params k else s.monitor }
  | .change requests => if s.deferred = [] then some (s.changeFactors cfg requests) else none
  | .sendDeferred => some { s with inFlight := s.inFlight ++ s.deferred, deferred := [] }
  | .deliver i =>
    match s.inFlight[i]? with
    | none => none
    | some n => some { s.handle cfg n with inFlight := s.inFlight.eraseIdx i }
  | .serve st k write => some (s.serve cfg st k write)
  | .mergeLog st => some (s.merge st)

/-- A run from a cluster of some nodes. -/
def run (nodes : List N) (es : List (FleetEvent K N)) : Option (Fleet K N H L) :=
  Transition.run (step cfg) (init cfg nodes) es

end Fleet

end Dinomo
