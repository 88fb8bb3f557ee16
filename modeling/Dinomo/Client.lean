import Dinomo.Fleet
import Dinomo.Server

/-!
# The client

A client computes the threads of a key from hash rings and replication factors of its own and sends its
requests to one of them.  A request without a thread waits in `pending_request_map_`; a request that was
sent waits in the response map of its type.  An answer from a thread that does not serve the key, and a
timeout, bring a request back among the waiting ones, which are sent again when the routing tier has
answered with the members of the cluster.

A call of `receive_async` takes at most one answer of the routing tier, then at most one response, and
then looks for timeouts; the three parts are separate steps here.  What has timed out is any part of the
maps, in any order.
-/

namespace Dinomo

/-- A request of the client, for one key. -/
structure ClientRequest (K : Type*) where
  requestId : ℕ
  type : RequestType
  key : K
  latticeType : LatticeType := .none
  payload : String := ""
  addressCacheSize : ℕ := 0
deriving DecidableEq, Repr

/-- A response of a KVS thread, for one key. -/
structure ClientResponse (K N : Type*) where
  responseId : ℕ
  type : RequestType
  key : K
  error : AnnaError := .noError
  invalidate : Bool := false
  ips : List (ServerThread N) := []
deriving DecidableEq, Repr

/-- The response maps. -/
inductive ResponseMap
  | get
  | put
  | update
deriving DecidableEq, Repr

/-- The map in which a request waits for its response. -/
def ResponseMap.ofRequest : RequestType → ResponseMap
  | .get | .read => .get
  | .update => .update
  | .unspecified | .put | .insert => .put

/-- The map in which the request of a response is looked for. -/
def ResponseMap.ofResponse : RequestType → ResponseMap
  | .get => .get
  | .update => .update
  | .unspecified | .put | .insert | .read => .put

/-- The state of a client.  `sent` lists the requests that were sent, `issued` those that the caller made
and `returned` the identifiers of the responses that the caller got. -/
structure Client (K N H L : Type*) [LinearOrder H] [LinearOrder L] where
  rid : ℕ
  globalRings : Tier → HashRing H N
  localRing : HashRing L ℕ
  keyReplicationMap : ReplicationMap K
  keyAddressCache : K → List (ServerThread N)
  waitingNewMembership : Bool
  pendingRequestMap : List (K × List (ClientRequest K))
  pendingResponseMap : ResponseMap → List (ClientRequest K)
  sent : List (ClientRequest K)
  issued : List (ClientRequest K)
  returned : List ℕ

/-- What happens to a client. -/
inductive ClientEvent (K N : Type*)
  | putAsync (key : K) (payload : String) (latticeType : LatticeType)
  | updateAsync (key : K) (payload : String) (latticeType : LatticeType)
  | getAsync (key : K)
  | membership (tiers : List (Tier × List N))
  | response (r : ClientResponse K N)
  | timeouts (keys : List K) (requests : List (ResponseMap × K × ℕ))

namespace Client

variable {K N H L : Type*} [LinearOrder K] [DecidableEq N] [LinearOrder H] [LinearOrder L]
variable (cfg : FleetConfig K N H L)

/-- A client that knows nothing of the cluster. -/
def init : Client K N H L where
  rid := 0
  globalRings _ := .empty
  localRing := .empty
  keyReplicationMap _ := none
  keyAddressCache _ := []
  waitingNewMembership := false
  pendingRequestMap := []
  pendingResponseMap _ := []
  sent := []
  issued := []
  returned := []

/-- `query_routing_async`. -/
def queryRoutingAsync (c : Client K N H L) : Client K N H L :=
  { c with rid := c.rid + 1, waitingNewMembership := true }

/-- `invalidate_cache_for_key` and `invalidate_cache_for_worker`. -/
def invalidateCache (c : Client K N H L) : Client K N H L :=
  if c.waitingNewMembership then c else c.queryRoutingAsync

/-- The rings in which a key's threads are looked for. -/
def rings (c : Client K N H L) : Rings N H L := ⟨c.globalRings .memory, c.localRing⟩

/-- `get_all_worker_threads`; it does not return when the search for the threads does not end. -/
def getAllWorkerThreads (c : Client K N H L) (k : K) : Option (List (ServerThread N) × Client K N H L) :=
  if c.waitingNewMembership then some ([], c)
  else if c.keyAddressCache k ≠ [] then some (c.keyAddressCache k, c)
  else if ResponsibleEnds cfg.params cfg.hash c.rings c.keyReplicationMap k then
    let found := getResponsibleThreads cfg.params cfg.hash c.rings c.keyReplicationMap k
    let c := { c with keyReplicationMap := found.2 }
    if found.1 ≠ [] then
      some (found.1.eraseDups, { c with keyAddressCache := Function.update c.keyAddressCache k found.1.eraseDups })
    else some ([], c.queryRoutingAsync)
  else none

/-- Add a request to the vector of a key of `pending_request_map_`. -/
def pushBack (k : K) (r : ClientRequest K) : List (K × List (ClientRequest K)) → List (K × List (ClientRequest K))
  | [] => [(k, [r])]
  | (k', rs) :: l =>
    if k < k' then (k, [r]) :: (k', rs) :: l
    else if k = k' then (k', rs ++ [r]) :: l
    else (k', rs) :: pushBack k r l

/-- A request waits for an address. -/
def pushPending (c : Client K N H L) (r : ClientRequest K) : Client K N H L :=
  { c with pendingRequestMap := pushBack r.key r c.pendingRequestMap }

/-- A request waits for its response, unless it already does. -/
def awaitResponse (c : Client K N H L) (r : ClientRequest K) : Client K N H L :=
  let i := ResponseMap.ofRequest r.type
  if ∃ x ∈ c.pendingResponseMap i, x.key = r.key ∧ x.requestId = r.requestId then c
  else { c with pendingResponseMap := Function.update c.pendingResponseMap i (c.pendingResponseMap i ++ [r]) }

/-- `try_request`. -/
def tryRequest (c : Client K N H L) (r : ClientRequest K) : Option (Client K N H L) :=
  match c.getAllWorkerThreads cfg r.key with
  | none => none
  | some (workers, c) =>
    if workers = [] then some (c.pushPending r)
    else
      let r := { r with addressCacheSize := workers.length }
      some (({ c with sent := c.sent ++ [r] } : Client K N H L).awaitResponse r)

/-- `prepare_data_request` and `try_request`. -/
def issue (c : Client K N H L) (type : RequestType) (key : K) (latticeType : LatticeType) (payload : String) :
    Option (Client K N H L) :=
  let r : ClientRequest K := { requestId := c.rid, type, key, latticeType, payload }
  ({ c with rid := c.rid + 1, issued := c.issued ++ [r] } : Client K N H L).tryRequest cfg r

/-- The global rings of an answer of the routing tier. -/
def ringsOf (tiers : List (Tier × List N)) : Tier → HashRing H N :=
  tiers.foldl (fun rings x => Function.update rings x.1 (x.2.foldl cfg.insertNode (rings x.1))) fun _ => .empty

/-- Try a list of requests. -/
def tryAll (c : Client K N H L) : List (ClientRequest K) → Option (Client K N H L)
  | [] => some c
  | r :: rs =>
    match c.tryRequest cfg r with
    | none => none
    | some c => tryAll c rs

/-- The client with the rings of an answer of the routing tier, before it tries the waiting requests. -/
def rebuilt (c : Client K N H L) (tiers : List (Tier × List N)) : Client K N H L :=
  { c with
    waitingNewMembership := false
    globalRings := ringsOf cfg tiers
    localRing := cfg.localRing
    keyAddressCache := fun _ => [] }

/-- An answer of the routing tier.  The waiting requests are tried in turn and none of them waits afterwards. -/
def receiveMembership (c : Client K N H L) (tiers : List (Tier × List N)) : Option (Client K N H L) :=
  if c.pendingRequestMap = [] then some { c with waitingNewMembership := false }
  else
    let rings : Tier → HashRing H N := ringsOf cfg tiers
    if (rings .memory).nodes.length + (rings .storage).nodes.length = 0 then
      some (queryRoutingAsync { c.rebuilt cfg tiers with localRing := .empty })
    else
      ((c.rebuilt cfg tiers).tryAll cfg (c.pendingRequestMap.flatMap Prod.snd)).map
        fun c => { c with pendingRequestMap := [] }

/-- `update_cache_for_key`: the number of nodes, and the largest number of threads of one of them. -/
def updateCacheForKey [DecidableEq K] (c : Client K N H L) (k : K) (ips : List (ServerThread N)) : Client K N H L :=
  let nodes := (ips.map ServerThread.node).eraseDups
  let threads := nodes.map fun n => (ips.filter fun st => st.node = n).eraseDups.length
  let m := c.keyReplicationMap.setGlobal k .memory nodes.length
  { c with keyReplicationMap := m.setLocal k .memory (threads.foldl max 1) }

/-- A response; `check_tuple` is in its two branches. -/
def receiveResponse (c : Client K N H L) (r : ClientResponse K N) : Client K N H L :=
  let i := ResponseMap.ofResponse r.type
  match (c.pendingResponseMap i).find? fun x => x.key = r.key ∧ x.requestId = r.responseId with
  | none => c
  | some request =>
    if r.error = .wrongThread then c.invalidateCache.pushPending request
    else
      let c :=
        if r.invalidate then
          ({ c with keyAddressCache := Function.update c.keyAddressCache r.key [] } : Client K N H L).updateCacheForKey
            r.key r.ips
        else c
      { c with
        returned := c.returned ++ [r.responseId]
        pendingResponseMap := Function.update c.pendingResponseMap i
          ((c.pendingResponseMap i).filter fun x => ¬(x.key = r.key ∧ x.requestId = r.responseId)) }

/-- A request that waited too long for its response waits for an address. -/
def expire (c : Client K N H L) (x : ResponseMap × K × ℕ) : Client K N H L :=
  match (c.pendingResponseMap x.1).find? fun r => r.key = x.2.1 ∧ r.requestId = x.2.2 with
  | none => c
  | some request =>
    let c := c.invalidateCache.pushPending request
    { c with
      pendingResponseMap := Function.update c.pendingResponseMap x.1
        ((c.pendingResponseMap x.1).filter fun r => ¬(r.key = x.2.1 ∧ r.requestId = x.2.2)) }

/-- The timeouts of a call of `receive_async`, with reconfiguration support. -/
def receiveTimeouts (c : Client K N H L) (keys : List K) (requests : List (ResponseMap × K × ℕ)) : Client K N H L :=
  let c := (keys.filter fun k => k ∈ c.pendingRequestMap.map Prod.fst).foldl (fun c _ => c.queryRoutingAsync) c
  requests.foldl expire c

/-- One event. -/
def step (c : Client K N H L) : ClientEvent K N → Option (Client K N H L)
  | .putAsync key payload latticeType => c.issue cfg .put key latticeType payload
  | .updateAsync key payload latticeType => c.issue cfg .update key latticeType payload
  | .getAsync key => c.issue cfg .get key .none ""
  | .membership tiers => c.receiveMembership cfg tiers
  | .response r => some (c.receiveResponse r)
  | .timeouts keys requests => some (c.receiveTimeouts keys requests)

end Client

end Dinomo
