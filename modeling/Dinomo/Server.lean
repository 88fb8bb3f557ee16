import Dinomo.Replication

/-!
# Requests at a KVS thread

The data a KVS thread keeps between the messages of its event loop, as far as the handlers of client
requests and of replication responses use it, and what they do to it.  The key-value store behind the
serializer is a parameter; every call to it is recorded.  Addresses, identifiers and values are texts.
-/

namespace Dinomo

/-- `RequestType`. -/
inductive RequestType
  | unspecified
  | get
  | put
  | read
  | insert
  | update
deriving DecidableEq, Repr

/-- `LatticeType`. -/
inductive LatticeType
  | none
  | lww
  | set
  | singleCausal
  | multiCausal
  | orderedSet
  | priority
deriving DecidableEq, Repr

/-- `AnnaError`. -/
inductive AnnaError
  | noError
  | keyDne
  | wrongThread
  | timeout
  | lattice
  | noServers
deriving DecidableEq, Repr

/-- `KeyTuple`: a key of a request or of a response. -/
structure KeyTuple (K : Type*) where
  key : K
  latticeType : LatticeType := .none
  error : AnnaError := .noError
  payload : String := ""
  addressCacheSize : ℕ := 0
  invalidate : Bool := false
  ips : List String := []
deriving DecidableEq, Repr

/-- `KeyRequest`. -/
structure KeyRequest (K : Type*) where
  type : RequestType
  tuples : List (KeyTuple K)
  responseAddress : String
  requestId : String
deriving DecidableEq, Repr

/-- `KeyResponse`. -/
structure KeyResponse (K : Type*) where
  type : RequestType
  tuples : List (KeyTuple K)
  responseId : String
deriving DecidableEq, Repr

/-- `PendingRequest`. -/
structure PendingRequest where
  type : RequestType
  latticeType : LatticeType
  payload : String
  addr : String
  responseId : String
deriving DecidableEq, Repr

/-- The calls of the serializer; `put` and `update` return whether the log block was rotated. -/
structure Serializer (σ K : Type*) where
  get : K → σ → (String × AnnaError) × σ
  getReplicated : K → σ → (String × AnnaError) × σ
  getMeta : K → σ → (String × AnnaError) × σ
  put : K → String → σ → Bool × σ
  update : K → String → σ → Bool × σ
  putReplicated : K → String → σ → σ
  updateReplicated : K → String → σ → σ
  putMeta : K → String → σ → σ

/-- A call of the serializer. -/
inductive Executed (K : Type*)
  | get (replicated : Bool) (key : K)
  | put (replicated : Bool) (key : K) (payload : String)
  | update (replicated : Bool) (key : K) (payload : String)
  | getMeta (key : K)
  | putMeta (key : K) (payload : String)
deriving DecidableEq, Repr

/-- The data of a KVS thread.  `sent` lists the responses sent to clients, `issued` the keys whose
replication factor was asked for, `executed` the calls of the serializer, `accesses` the keys added to the
access statistics, and `released` the requests that `response_batching_requests` took out of
`batching_requests`. -/
structure Server (σ K : Type*) where
  store : σ
  replication : ReplicationMap K
  pendingRequests : K → List PendingRequest
  batchingRequests : List (K × PendingRequest)
  sent : List (String × KeyResponse K)
  issued : List K
  executed : List (Executed K)
  accesses : List K
  released : List (K × PendingRequest)

/-- What a thread knows about the cluster and itself. -/
structure Environment (σ K N H L : Type*) [LinearOrder H] [LinearOrder L] where
  params : ClusterParams
  hash : Hashers K N H L
  rings : Rings N H L
  self : ServerThread N
  isMetadata : K → Bool
  keyRequestAddress : ServerThread N → String
  serializer : Serializer σ K

namespace Server

variable {σ K : Type*}

/-- The answer to a batched request. -/
def batchResponse (x : K × PendingRequest) : Option (String × KeyResponse K) :=
  if x.2.addr = "" then none else some (x.2.addr, ⟨x.2.type, [{ key := x.1 }], x.2.responseId⟩)

/-- `response_batching_requests`. -/
def responseBatchingRequests (s : Server σ K) : Server σ K :=
  { s with
    sent := s.sent ++ s.batchingRequests.filterMap batchResponse
    released := s.released ++ s.batchingRequests
    batchingRequests := [] }

/-- An access enters the statistics. -/
def recordAccess (s : Server σ K) (k : K) : Server σ K := { s with accesses := s.accesses ++ [k] }

/-- Keep a request back until its batch is durable. -/
def pushBatching (s : Server σ K) (k : K) (r : PendingRequest) : Server σ K :=
  { s with batchingRequests := s.batchingRequests ++ [(k, r)] }

/-- Send a response. -/
def send (s : Server σ K) (addr : String) (r : KeyResponse K) : Server σ K := { s with sent := s.sent ++ [(addr, r)] }

variable {N H L : Type*} [LinearOrder H] [LinearOrder L] (env : Environment σ K N H L)

/-- `process_get` and `process_get_replicated`. -/
def processGet (s : Server σ K) (replicated : Bool) (k : K) : (String × AnnaError) × Server σ K :=
  let (res, store) := (if replicated then env.serializer.getReplicated else env.serializer.get) k s.store
  (res, { s with store := store, executed := s.executed ++ [.get replicated k] })

/-- `process_get_meta`. -/
def processGetMeta (s : Server σ K) (k : K) : (String × AnnaError) × Server σ K :=
  let (res, store) := env.serializer.getMeta k s.store
  (res, { s with store := store, executed := s.executed ++ [.getMeta k] })

/-- `process_put_meta`. -/
def processPutMeta (s : Server σ K) (k : K) (payload : String) : Server σ K :=
  { s with store := env.serializer.putMeta k payload s.store, executed := s.executed ++ [.putMeta k payload] }

/-- `process_put_replicated` and `process_update_replicated`. -/
def processWriteReplicated (s : Server σ K) (doUpdate : Bool) (k : K) (payload : String) : Server σ K :=
  { s with
    store := (if doUpdate then env.serializer.updateReplicated else env.serializer.putReplicated) k payload s.store
    executed := s.executed ++ [if doUpdate then .update true k payload else .put true k payload] }

/-- `process_put` and `process_update`. -/
def processWrite (s : Server σ K) (doUpdate : Bool) (k : K) (payload : String) : Bool × Server σ K :=
  let (ret, store) := (if doUpdate then env.serializer.update else env.serializer.put) k payload s.store
  (ret, { s with
    store := store, executed := s.executed ++ [if doUpdate then .update false k payload else .put false k payload] })

/-- The tuple that answers a read: an empty value means that the key does not exist. -/
def readTuple (k : K) (res : String × AnnaError) : KeyTuple K :=
  if res.1 = "" then { key := k, error := .keyDne }
  else { key := k, latticeType := .lww, payload := res.1, error := res.2 }

end Server

end Dinomo
