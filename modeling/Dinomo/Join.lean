import Dinomo.Fleet.Balance

/-!
# Joining of a node

Before a new node announces itself to the routing and monitoring nodes, its thread `0` asks the nodes that come
right after one of its places in the ring, one after the other.  Thread `0` of a node that is asked inserts the
new node into its ring, asks the other threads of its node, merges its own log, waits for the answers of these
threads, answers the new node and stops until it is told to go on.  The other threads insert the new node, merge
their logs, answer thread `0` and stop too.  The nodes that are not asked are told only.  After its announcement the
new node does all this once more, now asking the nodes at the same time.  Routing nodes tell the nodes of a new node
they have heard of.  Messages arrive in any order and after any time, and no request times out.

Every thread takes a message from the socket for the answers to its requests for one of them if the number in the
message's identifier is one of those it waits for.
-/

namespace Dinomo

open Function

/-- A cluster before a node joins: the ring of all threads, the servers in it, the factors of the keys, and the node,
which is not in the ring. -/
structure JoinConfig (K N H L : Type*) [LinearOrder H] where
  fleet : FleetConfig K N H L
  factors : K → KeyReplication
  ring : HashRing H N
  servers : List N
  joiner : N
  fresh : ∀ x ∈ ring.nodes, x.2 ≠ joiner

/-- `NodeJoinRequest`, with the thread that waits for the response and the number of the request if there is one; and
`NodeJoinRequestResponse` or `NodeJoinRequestUnblock`, with the number of the request and, for the former, the thread
that sent it. -/
inductive JoinMessage (N : Type*)
  | request (dest : ServerThread N) (reply : Option (ServerThread N × ℕ))
  | answer (dest : ServerThread N) (id : ℕ) (sender : Option (ServerThread N))
deriving DecidableEq, Repr

/-- What a thread of a node does: it serves requests; it merges its log for a request, and will have to wait for some
threads; it waits for them; or it waits to be told to go on, and will tell the threads that have answered it. -/
inductive JoinPhase (N : Type*)
  | idle
  | merging (reply : ServerThread N × ℕ) (awaited : List ℕ)
  | collecting (reply : ServerThread N × ℕ) (awaited : List ℕ) (answers : List (ServerThread N))
  | blocked (answers : List (ServerThread N))
deriving DecidableEq, Repr

/-- What thread `0` of the new node does, in the first and in the second round. -/
inductive JoinerPhase (N : Type*)
  | first (rid : ℕ) (answers : List (ServerThread N))
  | firstWaits (rid : ℕ) (answers : List (ServerThread N))
  | second
  | secondWaits (awaited : List ℕ) (answers : List (ServerThread N))
  | done
deriving DecidableEq, Repr

/-- A cluster while a node joins.  `joined` has the threads with the new node in their ring, `merged` those that have
finished `merge(true)`, and `logs` the keys of the oplogs of each thread that are not merged. -/
structure Join (K N : Type*) where
  joined : ServerThread N → Bool
  merged : ServerThread N → Bool
  logs : ServerThread N → List K
  phase : ServerThread N → JoinPhase N
  joiner : JoinerPhase N
  announced : Bool
  inFlight : List (JoinMessage N)

/-- What can happen: a thread gets a request to write a key, the storage side merges oplogs of a thread, a thread finishes
`merge(true)`, the new node goes on, a routing node that has heard of it tells a node, and a message arrives. -/
inductive JoinEvent (K N : Type*)
  | put (st : ServerThread N) (k : K)
  | mergeLog (st : ServerThread N) (count : ℕ)
  | finishMerge (st : ServerThread N)
  | joiner
  | gossip (n : N)
  | deliver (i : ℕ)
deriving DecidableEq, Repr

namespace JoinConfig

variable {K N H L : Type*} [DecidableEq N] [LinearOrder H] [LinearOrder L]
variable (c : JoinConfig K N H L)

/-- The ring with the new node. -/
def newRing : HashRing H N := c.fleet.insertNode c.ring c.joiner

/-- `get_partition_range_changed_threads`: the nodes right after the places of the new node, in the order of its virtual
threads. -/
def partitionRangeChanged : List N :=
  ((List.range c.fleet.virtualThreads).filterMap fun v =>
    c.newRing.next (c.fleet.hash.globalThread c.joiner v)).eraseDups

/-- The nodes that are asked. -/
def sync : List N := c.partitionRangeChanged.filter fun n => n ≠ c.joiner

/-- The nodes that are told. -/
def async : List N := c.servers.filter fun n => n ≠ c.joiner ∧ n ∉ c.partitionRangeChanged

/-- The threads of a node that thread `0` asks. -/
def localTids : List ℕ := List.range' 1 (c.fleet.params.threadNum - 1)

/-- The threads that serve a key in a ring. -/
def threads (r : HashRing H N) (k : K) : List (ServerThread N) :=
  threadsFor c.fleet.hash ⟨r, c.fleet.localRing⟩ k (c.factors k)

end JoinConfig

namespace Join

variable {K N H L : Type*} [DecidableEq N] [LinearOrder H] [LinearOrder L]
variable (c : JoinConfig K N H L)

/-- Only the new node knows of itself. -/
def init : Join K N where
  joined st := st.node = c.joiner
  merged _ := false
  logs _ := []
  phase _ := .idle
  joiner := .first 0 []
  announced := false
  inFlight := []

/-- The ring of a thread. -/
def ringOf (s : Join K N) (st : ServerThread N) : HashRing H N := if s.joined st then c.newRing else c.ring

/-- A thread takes itself to be responsible for a key. -/
def Serves (s : Join K N) (st : ServerThread N) (k : K) : Prop := st ∈ c.threads (s.ringOf c st) k

instance (s : Join K N) (st : ServerThread N) (k : K) : Decidable (s.Serves c st k) :=
  inferInstanceAs (Decidable (_ ∈ _))

/-- `node_join_handler`, up to `merge(true)`: only if a response is wanted are the threads of the node asked, and is the
log merged. -/
def handleRequest (s : Join K N) (st : ServerThread N) (reply : Option (ServerThread N × ℕ)) : Join K N :=
  let awaited := if st.tid = 0 ∧ s.joined st = false then c.localTids else []
  { s with
    joined := Function.update s.joined st true
    phase := match reply with
      | none => s.phase
      | some r => Function.update s.phase st (.merging r awaited)
    inFlight := s.inFlight ++ awaited.map fun tid => .request ⟨st.node, tid⟩ (reply.map fun _ => (st, tid)) }

/-- A thread answers the request it handles and waits to be told to go on. -/
def respond (s : Join K N) (st : ServerThread N) (reply : ServerThread N × ℕ) (answers : List (ServerThread N)) : Join K N :=
  { s with
    phase := Function.update s.phase st (.blocked answers)
    inFlight := s.inFlight ++ [.answer reply.1 reply.2 (some st)] }

/-- A thread finishes `merge(true)`; it answers if it has nothing to wait for. -/
def finishMerge (s : Join K N) (st : ServerThread N) (reply : ServerThread N × ℕ) (awaited : List ℕ) : Join K N :=
  let s' := { s with merged := Function.update s.merged st true, logs := Function.update s.logs st [] }
  if awaited = [] then s'.respond st reply []
  else { s' with phase := Function.update s'.phase st (.collecting reply awaited []) }

/-- A thread of a node takes a message from its socket for answers, which it reads only while it waits for one. -/
def takeAnswer (s : Join K N) (st : ServerThread N) (id : ℕ) (sender : Option (ServerThread N)) : Option (Join K N) :=
  match s.phase st with
  | .collecting reply awaited answers =>
    if id ∈ awaited then
      if awaited.erase id = [] then some (s.respond st reply (answers ++ sender.toList))
      else some { s with
        phase := Function.update s.phase st (.collecting reply (awaited.erase id) (answers ++ sender.toList)) }
    else some s
  | .blocked answers =>
    if id = 0 then some { s with
      phase := Function.update s.phase st .idle
      inFlight := s.inFlight ++ answers.map fun a => .answer a 0 none }
    else some s
  | _ => none

/-- The new node ends a round: it tells those that have answered to go on, tells the nodes it has not asked, and
announces itself. -/
def finishRound (s : Join K N) (answers : List (ServerThread N)) (next : JoinerPhase N) : Join K N :=
  { s with
    joiner := next
    announced := true
    inFlight := s.inFlight ++ (answers.map fun a => .answer a 0 none) ++ c.async.map fun n => .request ⟨n, 0⟩ none }

/-- Thread `0` of the new node takes a message from its socket for answers. -/
def takeJoinerAnswer (s : Join K N) (id : ℕ) (sender : Option (ServerThread N)) : Option (Join K N) :=
  match s.joiner with
  | .firstWaits rid answers =>
    if id = rid then some { s with joiner := .first (rid + 1) (answers ++ sender.toList) } else some s
  | .secondWaits awaited answers =>
    if id ∈ awaited then
      if awaited.erase id = [] then some (s.finishRound c (answers ++ sender.toList) .done)
      else some { s with joiner := .secondWaits (awaited.erase id) (answers ++ sender.toList) }
    else some s
  | _ => none

/-- Thread `0` of the new node goes on: it asks the next node or ends the first round, and begins the second. -/
def stepJoiner (s : Join K N) : Option (Join K N) :=
  match s.joiner with
  | .first rid answers =>
    match c.sync[rid]? with
    | some n => some { s with
        joiner := .firstWaits rid answers
        inFlight := s.inFlight ++ [.request ⟨n, 0⟩ (some (⟨c.joiner, 0⟩, rid))] }
    | none => some (s.finishRound c answers .second)
  | .second =>
    if c.sync = [] then some (s.finishRound c [] .done)
    else some { s with
      joiner := .secondWaits (List.range c.sync.length) []
      inFlight := s.inFlight ++ c.sync.zipIdx.map fun x => .request ⟨x.1, 0⟩ (some (⟨c.joiner, 0⟩, x.2)) }
  | _ => none

/-- A message arrives; a request waits until the thread serves requests. -/
def receive (s : Join K N) : JoinMessage N → Option (Join K N)
  | .request st reply => if s.phase st = .idle then some (s.handleRequest c st reply) else none
  | .answer st id sender => if st = ⟨c.joiner, 0⟩ then s.takeJoinerAnswer c id sender else s.takeAnswer st id sender

/-- One event; `none` if it cannot happen. -/
def step (s : Join K N) : JoinEvent K N → Option (Join K N)
  | .put st k =>
    if s.phase st = .idle then
      if s.Serves c st k then some { s with logs := Function.update s.logs st (s.logs st ++ [k]) } else some s
    else none
  | .mergeLog st count => some { s with logs := Function.update s.logs st ((s.logs st).drop count) }
  | .finishMerge st =>
    match s.phase st with
    | .merging reply awaited => some (s.finishMerge st reply awaited)
    | _ => none
  | .joiner => s.stepJoiner c
  | .gossip n => if s.announced then some { s with inFlight := s.inFlight ++ [.request ⟨n, 0⟩ none] } else none
  | .deliver i =>
    match s.inFlight[i]? with
    | none => none
    | some m => receive c { s with inFlight := s.inFlight.eraseIdx i } m

/-- A run of a join. -/
def run (es : List (JoinEvent K N)) : Option (Join K N) := Transition.run (step c) (init c) es

/-- Every thread that owned a key with one replica that the new node now owns has finished `merge(true)`, refuses the key
and has no oplog of it left. -/
def HandedOver (s : Join K N) : Prop :=
  ∀ (st : ServerThread N) (k : K), (c.factors k).globalReplication .memory = 1 → (c.factors k).localReplication .memory = 1 →
    st ∈ c.threads c.ring k → (∃ tid, ⟨c.joiner, tid⟩ ∈ c.threads c.newRing k) →
      s.merged st = true ∧ ¬s.Serves c st k ∧ k ∉ s.logs st

section Ready

variable {c} {s s' : Join K N} {st : ServerThread N}

/-- A thread has the new node in its ring, has finished `merge(true)`, and all oplogs in its log are of keys it still
owns. -/
structure Ready (c : JoinConfig K N H L) (s : Join K N) (st : ServerThread N) : Prop where
  joined : s.joined st = true
  merged : s.merged st = true
  logs : ∀ k ∈ s.logs st, st ∈ c.threads c.newRing k

/-- All threads of a node are ready. -/
def NodeReady (c : JoinConfig K N H L) (s : Join K N) (n : N) : Prop :=
  ∀ tid < c.fleet.params.threadNum, s.Ready c ⟨n, tid⟩

/-- A thread that handles a request inserts the new node. -/
theorem Ready.handleRequest (h : s.Ready c st) (st' : ServerThread N) (reply : Option (ServerThread N × ℕ)) :
    (s.handleRequest c st' reply).Ready c st := by
  refine ⟨?_, h.merged, h.logs⟩
  by_cases hst : st = st'
  · simp only [Join.handleRequest, hst, update_self]
  · simp only [Join.handleRequest, update_of_ne hst, h.joined]

/-- A thread finishes `merge(true)`. -/
theorem Ready.finishMerge (h : s.Ready c st) (st' : ServerThread N) (reply : ServerThread N × ℕ) (awaited : List ℕ) :
    (s.finishMerge st' reply awaited).Ready c st := by
  have hkept : ({ s with
      merged := update s.merged st' true, logs := update s.logs st' [] } : Join K N).Ready c st := by
    by_cases hst : st = st'
    · subst hst
      exact ⟨h.joined, by simp only [update_self], by simp only [update_self, List.not_mem_nil,
        false_implies, implies_true]⟩
    · exact ⟨h.joined, by simp only [update_of_ne hst, h.merged], by
        simpa only [update_of_ne hst] using h.logs⟩
  unfold Join.finishMerge
  split_ifs
  · exact ⟨hkept.joined, hkept.merged, hkept.logs⟩
  · exact ⟨hkept.joined, hkept.merged, hkept.logs⟩

/-- A thread that finishes `merge(true)` with the new node in its ring is ready. -/
theorem ready_finishMerge (hjoined : s.joined st = true) (reply : ServerThread N × ℕ) (awaited : List ℕ) :
    (s.finishMerge st reply awaited).Ready c st := by
  unfold Join.finishMerge
  split_ifs
  · exact ⟨hjoined, by simp [respond], by simp [respond]⟩
  · exact ⟨hjoined, by simp, by simp⟩

/-- The log of a thread changes, to one with oplogs of keys that the thread owned in its ring. -/
theorem Ready.withLog (h : s.Ready c st) (st' : ServerThread N) {log : List K}
    (hlog : st = st' → ∀ k ∈ log, k ∈ s.logs st ∨ s.Serves c st k) :
    ({ s with logs := update s.logs st' log } : Join K N).Ready c st := by
  refine ⟨h.joined, h.merged, fun k hk => ?_⟩
  by_cases hst : st = st'
  · simp only [← hst, update_self] at hk
    rcases hlog hst k hk with hk | hk
    · exact h.logs k hk
    · rwa [Serves, ringOf, if_pos h.joined] at hk
  · simp only [update_of_ne hst] at hk
    exact h.logs k hk

/-- A message from the socket for answers changes no ring, log or merge. -/
theorem takeAnswer_same {id : ℕ} {sender : Option (ServerThread N)} (hstep : s.takeAnswer st id sender = some s') :
    s'.joined = s.joined ∧ s'.merged = s.merged ∧ s'.logs = s.logs := by
  unfold takeAnswer at hstep
  cases hphase : s.phase st with
  | idle => simp [hphase] at hstep
  | merging reply awaited => simp [hphase] at hstep
  | collecting reply awaited answers =>
    simp only [hphase] at hstep
    split_ifs at hstep <;> cases hstep <;> exact ⟨rfl, rfl, rfl⟩
  | blocked answers =>
    simp only [hphase] at hstep
    split_ifs at hstep <;> cases hstep <;> exact ⟨rfl, rfl, rfl⟩

/-- Nor does one at the new node. -/
theorem takeJoinerAnswer_same {id : ℕ} {sender : Option (ServerThread N)}
    (hstep : s.takeJoinerAnswer c id sender = some s') :
    s'.joined = s.joined ∧ s'.merged = s.merged ∧ s'.logs = s.logs := by
  unfold takeJoinerAnswer at hstep
  cases hjoiner : s.joiner with
  | first rid answers => simp [hjoiner] at hstep
  | second => simp [hjoiner] at hstep
  | done => simp [hjoiner] at hstep
  | firstWaits rid answers =>
    simp only [hjoiner] at hstep
    split_ifs at hstep <;> cases hstep <;> exact ⟨rfl, rfl, rfl⟩
  | secondWaits awaited answers =>
    simp only [hjoiner] at hstep
    split_ifs at hstep <;> cases hstep <;> exact ⟨rfl, rfl, rfl⟩

/-- Nor does a step of the new node. -/
theorem stepJoiner_same (hstep : s.stepJoiner c = some s') :
    s'.joined = s.joined ∧ s'.merged = s.merged ∧ s'.logs = s.logs := by
  unfold stepJoiner at hstep
  cases hjoiner : s.joiner with
  | firstWaits rid answers => simp [hjoiner] at hstep
  | secondWaits awaited answers => simp [hjoiner] at hstep
  | done => simp [hjoiner] at hstep
  | first rid answers =>
    simp only [hjoiner] at hstep
    cases hn : c.sync[rid]? with
    | none =>
      simp only [hn] at hstep
      cases hstep
      exact ⟨rfl, rfl, rfl⟩
    | some n =>
      simp only [hn] at hstep
      cases hstep
      exact ⟨rfl, rfl, rfl⟩
  | second =>
    simp only [hjoiner] at hstep
    split_ifs at hstep <;> cases hstep <;> exact ⟨rfl, rfl, rfl⟩

/-- A state with the same rings, merges and logs has the same ready threads. -/
theorem Ready.of_same (h : s.Ready c st) (hsame : s'.joined = s.joined ∧ s'.merged = s.merged ∧ s'.logs = s.logs) :
    s'.Ready c st :=
  ⟨by rw [hsame.1, h.joined], by rw [hsame.2.1, h.merged], by rw [hsame.2.2]; exact h.logs⟩

/-- A thread that is ready stays ready. -/
theorem Ready.step {e : JoinEvent K N} (h : s.Ready c st) (hstep : s.step c e = some s') : s'.Ready c st := by
  cases e with
  | put st' k =>
    simp only [Join.step] at hstep
    split_ifs at hstep with hidle hserves
    · cases hstep
      refine h.withLog st' fun hst j hj => ?_
      rcases List.mem_append.mp hj with hj | hj
      · exact .inl (hst ▸ hj)
      · exact .inr (hst ▸ List.mem_singleton.mp hj ▸ hserves)
    · cases hstep
      exact h
  | mergeLog st' count =>
    simp only [Join.step] at hstep
    cases hstep
    exact h.withLog st' fun hst j hj => .inl (hst ▸ List.mem_of_mem_drop hj)
  | finishMerge st' =>
    simp only [Join.step] at hstep
    cases hphase : s.phase st' with
    | merging reply awaited =>
      simp only [hphase] at hstep
      cases hstep
      exact h.finishMerge st' reply awaited
    | idle => simp [hphase] at hstep
    | collecting reply awaited answers => simp [hphase] at hstep
    | blocked answers => simp [hphase] at hstep
  | joiner => exact h.of_same (stepJoiner_same hstep)
  | gossip n =>
    simp only [Join.step] at hstep
    split_ifs at hstep
    cases hstep
    exact h.of_same ⟨rfl, rfl, rfl⟩
  | deliver i =>
    simp only [Join.step] at hstep
    cases hm : s.inFlight[i]? with
    | none => simp [hm] at hstep
    | some m =>
      simp only [hm] at hstep
      have hrest : ({ s with inFlight := s.inFlight.eraseIdx i } : Join K N).Ready c st := h.of_same ⟨rfl, rfl, rfl⟩
      cases m with
      | request st' reply =>
        simp only [receive] at hstep
        split_ifs at hstep
        cases hstep
        exact hrest.handleRequest st' reply
      | answer st' id sender =>
        simp only [receive] at hstep
        split_ifs at hstep
        · exact hrest.of_same (takeJoinerAnswer_same hstep)
        · exact hrest.of_same (takeAnswer_same hstep)

end Ready

end Join

end Dinomo
