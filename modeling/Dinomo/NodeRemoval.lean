import Mathlib.Algebra.Order.BigOperators.Group.Finset
import Mathlib.Data.Finset.Card
import Dinomo.Server
import Dinomo.Library.Transition

/-!
# Nodes that are removed

The monitor tells thread `0` of a node to depart and counts the threads of the node that have reported back; at the last
report it tells the management node to remove the node.  A thread that is told removes its node from the ring, waits for
the merge of its log, answers the requests it still has and reports to the monitor; then it ends.  Thread `0` passes the
order on to the other threads when its own log is merged.

What a thread does before it is told is not restricted.  A request that arrives after the loop over the queue has found
it empty is not received any more.
-/

namespace Dinomo

open Function List

/-- What a client waits for: an answer about a key, to an address and with an identifier. -/
structure Ticket (K : Type*) where
  addr : String
  responseId : String
  key : K
deriving DecidableEq, Repr

/-- How far a thread is in `self_depart_handler`. -/
inductive DepartStage
  | serving
  | merging
  | draining
  | left
deriving DecidableEq, Repr

/-- Thread `0` has passed the order to depart on. -/
def DepartStage.Passed (stage : DepartStage) : Prop := stage = .draining ∨ stage = .left

/-- What a thread has: the keys of its oplogs that are not merged, the requests in its socket, its `pending_requests` and
`batching_requests`, and the responses it has sent. -/
structure ThreadData (K : Type*) where
  log : List K
  queue : List (KeyRequest K)
  pending : List (K × PendingRequest)
  batching : List (K × PendingRequest)
  sent : List (String × KeyResponse K)

open ThreadData

/-- A worker thread.  `closed` tells that the loop over the queue has ended and `late` lists the requests that have
arrived since; `owes` has the tickets of the requests it had when it was told to depart and of those that came until the
loop ended. -/
structure WorkerThread (K : Type*) extends ThreadData K where
  stage : DepartStage
  closed : Bool
  owes : List (Ticket K)
  late : List (KeyRequest K)

open WorkerThread

section Tickets

variable {K : Type*}

/-- The tickets of a request. -/
def KeyRequest.tickets (req : KeyRequest K) : List (Ticket K) :=
  if req.responseAddress = "" then [] else req.tuples.map fun t => ⟨req.responseAddress, req.requestId, t.key⟩

/-- The ticket of a pending or batched request. -/
def PendingRequest.tickets (x : K × PendingRequest) : List (Ticket K) :=
  if x.2.addr = "" then [] else [⟨x.2.addr, x.2.responseId, x.1⟩]

/-- A response answers a ticket. -/
def Ticket.Answers (o : Ticket K) (x : String × KeyResponse K) : Prop :=
  x.1 = o.addr ∧ x.2.responseId = o.responseId ∧ o.key ∈ x.2.tuples.map (·.key)

instance [DecidableEq K] (o : Ticket K) (x : String × KeyResponse K) : Decidable (o.Answers x) :=
  inferInstanceAs (Decidable (_ ∧ _ ∧ _))

/-- The answer to a request that is still in the queue. -/
def KeyRequest.refusal (req : KeyRequest K) : List (String × KeyResponse K) :=
  if req.tuples ≠ [] ∧ req.responseAddress ≠ "" then
    [(req.responseAddress, ⟨req.type,
      req.tuples.map fun t => { key := t.key, latticeType := t.latticeType, error := .wrongThread }, req.requestId⟩)]
  else []

/-- The answer to a request that is still pending. -/
def PendingRequest.refusal (x : K × PendingRequest) : Option (String × KeyResponse K) :=
  if x.2.addr = "" then none
  else some (x.2.addr, ⟨x.2.type, [{ key := x.1, error := .wrongThread }], x.2.responseId⟩)

variable {o : Ticket K}

/-- A request in the queue is answered about all its keys. -/
theorem KeyRequest.answers_refusal {req : KeyRequest K} (h : o ∈ req.tickets) :
    ∃ x ∈ req.refusal, o.Answers x := by
  unfold KeyRequest.tickets at h
  split_ifs at h with haddr
  · cases h
  · obtain ⟨t, ht, rfl⟩ := mem_map.mp h
    rw [KeyRequest.refusal, if_pos ⟨ne_nil_of_mem ht, haddr⟩]
    refine ⟨_, mem_singleton.mpr rfl, rfl, rfl, ?_⟩
    rw [map_map]
    exact mem_map.mpr ⟨t, ht, rfl⟩

/-- A pending request is answered. -/
theorem PendingRequest.answers_refusal {x : K × PendingRequest} (h : o ∈ PendingRequest.tickets x) :
    ∃ y ∈ PendingRequest.refusal x, o.Answers y := by
  unfold PendingRequest.tickets at h
  split_ifs at h with haddr
  · cases h
  · rw [mem_singleton.mp h, PendingRequest.refusal, if_neg haddr]
    exact ⟨_, rfl, rfl, rfl, mem_singleton.mpr rfl⟩

/-- A batched request is answered. -/
theorem Server.answers_batchResponse {x : K × PendingRequest} (h : o ∈ PendingRequest.tickets x) :
    ∃ y ∈ Server.batchResponse x, o.Answers y := by
  unfold PendingRequest.tickets at h
  split_ifs at h with haddr
  · cases h
  · rw [mem_singleton.mp h, Server.batchResponse, if_neg haddr]
    exact ⟨_, rfl, rfl, rfl, mem_singleton.mpr rfl⟩

end Tickets

/-- The tickets of all requests a thread has. -/
def ThreadData.tickets {K : Type*} (d : ThreadData K) : List (Ticket K) :=
  d.queue.flatMap KeyRequest.tickets ++ d.batching.flatMap PendingRequest.tickets ++
    d.pending.flatMap PendingRequest.tickets

namespace WorkerThread

variable {K : Type*}

/-- A thread that serves requests and has some data. -/
def serving (d : ThreadData K) : WorkerThread K := ⟨d, .serving, false, [], []⟩

/-- A request arrives in the socket of the thread. -/
def arrive (w : WorkerThread K) (req : KeyRequest K) : WorkerThread K :=
  if w.closed then { w with late := w.late ++ [req] }
  else { w with queue := w.queue ++ [req], owes := if w.stage = .serving then w.owes else w.owes ++ req.tickets }

/-- The thread is told to depart and asks for the merge of its log. -/
def depart (w : WorkerThread K) : WorkerThread K := { w with stage := .merging, owes := w.toThreadData.tickets }

/-- The merge is done. -/
def merged (w : WorkerThread K) : WorkerThread K := { w with stage := .draining, log := [] }

/-- One round of the loop of `drain_user_requests` over the queue. -/
def drain (w : WorkerThread K) : WorkerThread K :=
  match w.queue with
  | [] => { w with closed := true }
  | req :: rest => { w with queue := rest, sent := w.sent ++ req.refusal }

/-- `drain_user_requests` after the loop: the batched and the pending requests are answered, and the thread ends. -/
def leave (w : WorkerThread K) : WorkerThread K :=
  { w with
    sent := w.sent ++ w.batching.filterMap Server.batchResponse ++ w.pending.filterMap PendingRequest.refusal
    batching := []
    pending := []
    stage := .left }

/-- The steps of the departure that a thread has before it, at the least. -/
def todo (w : WorkerThread K) : ℕ :=
  match w.stage with
  | .serving => w.queue.length + 4
  | .merging => w.queue.length + 3
  | .draining => w.queue.length + if w.closed then 1 else 2
  | .left => 0

/-- The thread has merged its log and answered all requests it had. -/
structure Finished (w : WorkerThread K) : Prop where
  left : w.stage = .left
  log : w.log = []
  queue : w.queue = []
  batching : w.batching = []
  pending : w.pending = []
  answered : ∀ o ∈ w.owes, ∃ x ∈ w.sent, o.Answers x

/-- What holds at all times: tickets are answered or belong to a request the thread has, and each part of the routine has
done its work when the next one starts. -/
structure Ok (w : WorkerThread K) : Prop where
  kept : ∀ o ∈ w.owes, o ∈ w.toThreadData.tickets ∨ ∃ x ∈ w.sent, o.Answers x
  drained : w.closed = true → w.queue = [] ∧ (w.stage = .draining ∨ w.stage = .left)
  log : w.stage = .draining ∨ w.stage = .left → w.log = []
  left : w.stage = .left → w.closed = true ∧ w.batching = [] ∧ w.pending = []

variable {w : WorkerThread K}

/-- A thread that serves requests owes nothing to the routine. -/
theorem Ok.serving (d : ThreadData K) : (WorkerThread.serving d).Ok :=
  ⟨fun _ h => absurd h not_mem_nil, fun h => (Bool.false_ne_true h).elim,
    fun h => by simp [WorkerThread.serving] at h, fun h => by simp [WorkerThread.serving] at h⟩

/-- A thread that has ended is finished. -/
theorem Ok.finished (h : w.Ok) (hleft : w.stage = .left) : w.Finished := by
  obtain ⟨hclosed, hbatching, hpending⟩ := h.left hleft
  have hqueue : w.queue = [] := (h.drained hclosed).1
  refine ⟨hleft, h.log (.inr hleft), hqueue, hbatching, hpending, fun o ho => ?_⟩
  rcases h.kept o ho with hmem | hsent
  · simp [tickets, hqueue, hbatching, hpending] at hmem
  · exact hsent

theorem Ok.arrive (h : w.Ok) (req : KeyRequest K) : (w.arrive req).Ok := by
  unfold WorkerThread.arrive
  split_ifs with hclosed hserving
  · exact ⟨h.kept, h.drained, h.log, h.left⟩
  all_goals
    refine ⟨fun o ho => ?_, fun hc => absurd hc hclosed, h.log, fun hl => absurd (h.left hl).1 hclosed⟩
  · exact (h.kept o ho).imp_left fun hmem => by
      simp only [tickets, flatMap_append, mem_append] at hmem ⊢
      tauto
  · rcases mem_append.mp ho with ho | ho
    · exact (h.kept o ho).imp_left fun hmem => by
        simp only [tickets, flatMap_append, mem_append] at hmem ⊢
        tauto
    · refine .inl ?_
      simp only [tickets, flatMap_append, mem_append, flatMap_singleton]
      tauto

theorem Ok.depart (h : w.Ok) (hserving : w.stage = .serving) : w.depart.Ok := by
  have hopen : w.closed ≠ true := fun hc => by simpa [hserving] using (h.drained hc).2
  exact ⟨fun _ ho => .inl ho, fun hc => absurd hc hopen, fun hs => by simp [WorkerThread.depart] at hs,
    fun hs => by simp [WorkerThread.depart] at hs⟩

theorem Ok.merged (h : w.Ok) (hmerging : w.stage = .merging) : w.merged.Ok := by
  have hopen : w.closed ≠ true := fun hc => by simpa [hmerging] using (h.drained hc).2
  exact ⟨h.kept, fun hc => absurd hc hopen, fun _ => rfl, fun hs => by simp [WorkerThread.merged] at hs⟩

theorem Ok.drain (h : w.Ok) (hdraining : w.stage = .draining) : w.drain.Ok := by
  unfold WorkerThread.drain
  split
  · next hqueue => exact ⟨h.kept, fun _ => ⟨hqueue, .inl hdraining⟩, h.log, fun hl => by simp [hdraining] at hl⟩
  · next req rest hqueue =>
    refine ⟨fun o ho => ?_, fun hc => ?_, h.log, fun hl => by simp [hdraining] at hl⟩
    · rcases h.kept o ho with hmem | ⟨x, hx, hans⟩
      · simp only [tickets, hqueue, flatMap_cons, mem_append] at hmem ⊢
        rcases hmem with (((hreq | hrest) | hbatching) | hpending)
        · obtain ⟨x, hx, hans⟩ := KeyRequest.answers_refusal hreq
          exact .inr ⟨x, .inr hx, hans⟩
        all_goals tauto
      · exact .inr ⟨x, mem_append_left _ hx, hans⟩
    · have hnil := (h.drained hc).1
      rw [hqueue] at hnil
      cases hnil

theorem Ok.leave (h : w.Ok) (hclosed : w.closed = true) : w.leave.Ok := by
  obtain ⟨hqueue, hstage⟩ := h.drained hclosed
  refine ⟨fun o ho => .inr ?_, fun _ => ⟨hqueue, .inr rfl⟩, fun _ => h.log hstage, fun _ => ⟨hclosed, rfl, rfl⟩⟩
  simp only [WorkerThread.leave, mem_append, mem_filterMap]
  rcases h.kept o ho with hmem | ⟨x, hx, hans⟩
  · simp only [tickets, hqueue, flatMap_nil, nil_append, mem_append, mem_flatMap] at hmem
    rcases hmem with ⟨y, hy, hmem⟩ | ⟨y, hy, hmem⟩
    · obtain ⟨x, hx, hans⟩ := Server.answers_batchResponse hmem
      exact ⟨x, .inl (.inr ⟨y, hy, hx⟩), hans⟩
    · obtain ⟨x, hx, hans⟩ := PendingRequest.answers_refusal hmem
      exact ⟨x, .inr ⟨y, hy, hx⟩, hans⟩
  · exact ⟨x, .inl (.inl hx), hans⟩

theorem todo_depart (h : w.stage = .serving) : w.depart.todo < w.todo := by
  simp [todo, depart, h]

theorem todo_merged (h : w.stage = .merging) : w.merged.todo < w.todo := by
  cases hclosed : w.closed <;> simp [todo, merged, h, hclosed]

theorem todo_drain (h : w.stage = .draining) (hclosed : w.closed = false) : w.drain.todo < w.todo := by
  unfold drain
  split
  · next hqueue => simp [todo, h, hclosed, hqueue]
  · next hqueue => simp [todo, h, hclosed, hqueue]

theorem todo_leave (h : w.stage = .draining) : w.leave.todo < w.todo := by
  cases hclosed : w.closed <;> simp [todo, leave, h, hclosed]

end WorkerThread

/-- A message of a removal: to a thread of the node, or of a thread of the node to the monitor. -/
inductive RemovalMessage (N : Type*)
  | selfDepart (st : ServerThread N)
  | departDone (n : N)
deriving DecidableEq, Repr

/-- A monitor and the threads of the nodes.  `asked` lists the nodes that the monitor has told to depart and `removed` those
that it has told the management node to remove. -/
structure Removal (K N : Type*) where
  departingNodeMap : N → Option ℕ
  removing : Bool
  asked : List N
  removed : List N
  threads : ServerThread N → WorkerThread K
  inFlight : List (RemovalMessage N)

/-- What can happen: a policy removes a node, a thread does anything it does before it departs, a request or a message
arrives, and a thread goes on with its departure. -/
inductive RemovalEvent (K N : Type*)
  | removeNode (n : N)
  | work (st : ServerThread N) (d : ThreadData K)
  | arrive (st : ServerThread N) (req : KeyRequest K)
  | deliver (m : RemovalMessage N)
  | mergeDone (st : ServerThread N)
  | drain (st : ServerThread N)
  | leave (st : ServerThread N)

/-- The events of the departure itself. -/
def RemovalEvent.departs {K N : Type*} : RemovalEvent K N → Bool
  | .deliver _ => true
  | .mergeDone _ => true
  | .drain _ => true
  | .leave _ => true
  | _ => false

namespace Removal

variable {K N : Type*} [DecidableEq N] (threadNum : ℕ)

/-- No node has been told to depart; the threads have any data. -/
def init (data : ServerThread N → ThreadData K) : Removal K N :=
  ⟨fun _ => none, false, [], [], fun st => .serving (data st), []⟩

/-- A thread changes. -/
def setThread (s : Removal K N) (st : ServerThread N) (w : WorkerThread K) : Removal K N :=
  { s with threads := Function.update s.threads st w }

/-- A message is sent. -/
def send (s : Removal K N) (ms : List (RemovalMessage N)) : Removal K N := { s with inFlight := s.inFlight ++ ms }

/-- A message arrives. -/
def receive (s : Removal K N) (m : RemovalMessage N) : Removal K N := { s with inFlight := s.inFlight.erase m }

/-- `remove_node`. -/
def removeNode (s : Removal K N) (n : N) : Removal K N :=
  { s.send [.selfDepart ⟨n, 0⟩] with
    departingNodeMap := Function.update s.departingNodeMap n (some threadNum)
    removing := true
    asked := n :: s.asked }

/-- `depart_done_handler`. -/
def departDone (s : Removal K N) (n : N) : Removal K N :=
  match s.departingNodeMap n with
  | none => s
  | some c =>
    if c - 1 = 0 then
      { s with
        departingNodeMap := Function.update s.departingNodeMap n none
        removing := false
        removed := n :: s.removed }
    else { s with departingNodeMap := Function.update s.departingNodeMap n (some (c - 1)) }

/-- The orders that thread `0` passes on. -/
def orders (st : ServerThread N) : List (RemovalMessage N) :=
  if st.tid = 0 then (List.range' 1 (threadNum - 1)).map fun tid => .selfDepart ⟨st.node, tid⟩ else []

/-- One event; `none` if it cannot happen.  `slo_policy` removes a node only if no removal is under way, and a thread
receives no further order when it has been told to depart. -/
def step (s : Removal K N) : RemovalEvent K N → Option (Removal K N)
  | .removeNode n => if s.removing then none else some (s.removeNode threadNum n)
  | .work st d => if (s.threads st).stage = .serving then some (s.setThread st (.serving d)) else none
  | .arrive st req => some (s.setThread st ((s.threads st).arrive req))
  | .deliver (.selfDepart st) =>
    if .selfDepart st ∈ s.inFlight ∧ st.tid < threadNum ∧ (s.threads st).stage = .serving then
      some ((s.receive (.selfDepart st)).setThread st (s.threads st).depart)
    else none
  | .deliver (.departDone n) =>
    if .departDone n ∈ s.inFlight then
      some ((s.receive (.departDone n)).departDone n)
    else none
  | .mergeDone st =>
    if (s.threads st).stage = .merging then
      some ((s.setThread st (s.threads st).merged).send (orders threadNum st))
    else none
  | .drain st =>
    if (s.threads st).stage = .draining ∧ (s.threads st).closed = false then
      some (s.setThread st (s.threads st).drain)
    else none
  | .leave st =>
    if (s.threads st).stage = .draining ∧ (s.threads st).closed = true then
      some ((s.setThread st (s.threads st).leave).send [.departDone st.node])
    else none

/-- A run from threads with some data. -/
def run (data : ServerThread N → ThreadData K) (es : List (RemovalEvent K N)) : Option (Removal K N) :=
  Transition.run (step threadNum) (init data) es

/-- Nothing of a departure is left to be done. -/
def Quiet (s : Removal K N) : Prop := ∀ e : RemovalEvent K N, e.departs → s.step threadNum e = none

/-- The threads of a node that have ended. -/
def leftThreads (s : Removal K N) (n : N) : Finset ℕ :=
  (Finset.range threadNum).filter fun tid => (s.threads ⟨n, tid⟩).stage = .left

/-- The reports of the threads of a node that have not reached the monitor. -/
def reports (s : Removal K N) (n : N) : ℕ := s.inFlight.count (.departDone n)

/-- A node that has not been told to depart. -/
structure Idle (s : Removal K N) (n : N) : Prop where
  asked : n ∉ s.asked
  removed : s.removed.count n = 0
  serving : ∀ tid, (s.threads ⟨n, tid⟩).stage = .serving
  orders : ∀ tid, .selfDepart ⟨n, tid⟩ ∉ s.inFlight
  reports : s.reports n = 0

/-- A node that has been told to depart and is not removed: the count of the monitor and the threads that have ended add
up, and the threads that still serve will get the order. -/
structure Leaving (s : Removal K N) (n : N) : Prop where
  removing : s.removing = true
  removed : s.removed.count n = 0
  balance : ∃ c, s.departingNodeMap n = some c ∧ 0 < c ∧ c + (s.leftThreads threadNum n).card = threadNum + s.reports n
  told : ∀ tid, tid < threadNum → (s.threads ⟨n, tid⟩).stage = .serving → tid = 0 ∨ (s.threads ⟨n, 0⟩).stage.Passed →
    .selfDepart ⟨n, tid⟩ ∈ s.inFlight

/-- A node that has been removed, once all its threads had ended. -/
structure Gone (s : Removal K N) (n : N) : Prop where
  removed : s.removed.count n = 1
  left : ∀ tid, tid < threadNum → (s.threads ⟨n, tid⟩).stage = .left
  reports : s.reports n = 0

/-- At most one node leaves at a time, and the others have not been told to or are removed. -/
structure Inv (s : Removal K N) : Prop where
  threads : ∀ st, (s.threads st).Ok
  range : ∀ st, (s.threads st).stage ≠ .serving → st.tid < threadNum
  nodes : ∃ cur : Option N, (∀ n ∈ cur, s.Leaving threadNum n) ∧ ∀ n, n ∉ cur → s.Idle n ∨ s.Gone threadNum n

/-- Nothing has changed about a node. -/
structure Unchanged (s s' : Removal K N) (n : N) : Prop where
  asked : n ∈ s'.asked ↔ n ∈ s.asked
  removed : s'.removed.count n = s.removed.count n
  map : s'.departingNodeMap n = s.departingNodeMap n
  stage : ∀ tid, (s'.threads ⟨n, tid⟩).stage = (s.threads ⟨n, tid⟩).stage
  orders : ∀ tid, .selfDepart ⟨n, tid⟩ ∈ s'.inFlight ↔ .selfDepart ⟨n, tid⟩ ∈ s.inFlight
  reports : s'.reports n = s.reports n

variable {threadNum} {s s' : Removal K N} {n : N} {st : ServerThread N}

namespace Unchanged

theorem idle (h : s.Unchanged s' n) (hn : s.Idle n) : s'.Idle n where
  asked := fun hmem => hn.asked (h.asked.mp hmem)
  removed := h.removed.trans hn.removed
  serving tid := (h.stage tid).trans (hn.serving tid)
  orders tid hmem := hn.orders tid ((h.orders tid).mp hmem)
  reports := h.reports.trans hn.reports

theorem leftThreads (h : s.Unchanged s' n) : s'.leftThreads threadNum n = s.leftThreads threadNum n := by
  simp only [Removal.leftThreads, h.stage]

theorem leaving (h : s.Unchanged s' n) (hremoving : s'.removing = true) (hn : s.Leaving threadNum n) :
    s'.Leaving threadNum n where
  removing := hremoving
  removed := h.removed.trans hn.removed
  balance := by
    obtain ⟨c, hc, hpos, hsum⟩ := hn.balance
    exact ⟨c, h.map.trans hc, hpos, by rw [h.leftThreads, h.reports, hsum]⟩
  told tid hlt hs hpassed := (h.orders tid).mpr (hn.told tid hlt (h.stage tid ▸ hs) (h.stage 0 ▸ hpassed))

theorem gone (h : s.Unchanged s' n) (hn : s.Gone threadNum n) : s'.Gone threadNum n where
  removed := h.removed.trans hn.removed
  left tid hlt := (h.stage tid).trans (hn.left tid hlt)
  reports := h.reports.trans hn.reports

theorem idle_or_gone (h : s.Unchanged s' n) (hn : s.Idle n ∨ s.Gone threadNum n) :
    s'.Idle n ∨ s'.Gone threadNum n := hn.imp h.idle h.gone

end Unchanged

/-- The stage of a thread after a change of one thread. -/
theorem stage_setThread_of_ne {st' : ServerThread N} (h : st' ≠ st) (w : WorkerThread K) :
    (s.setThread st w).threads st' = s.threads st' := update_of_ne h ..

theorem setThread_self (w : WorkerThread K) : (s.setThread st w).threads st = w := update_self ..

variable {w : WorkerThread K}

/-- The invariant of the threads after a change of one thread. -/
theorem ok_setThread (h : ∀ st, (s.threads st).Ok) (hw : w.Ok) (st' : ServerThread N) :
    ((s.setThread st w).threads st').Ok := by
  by_cases hst : st' = st
  · rw [hst, setThread_self]
    exact hw
  · rw [stage_setThread_of_ne hst]
    exact h st'

/-- Only threads of the node are in the departure after a change of one thread. -/
theorem range_setThread (h : ∀ st, (s.threads st).stage ≠ .serving → st.tid < threadNum)
    (hw : w.stage ≠ .serving → st.tid < threadNum) (st' : ServerThread N)
    (hs : ((s.setThread st w).threads st').stage ≠ .serving) : st'.tid < threadNum := by
  by_cases hst : st' = st
  · subst hst
    rw [setThread_self] at hs
    exact hw hs
  · rw [stage_setThread_of_ne hst] at hs
    exact h st' hs

/-- A thread of another node changes. -/
theorem Unchanged.setThread_of_ne (h : st.node ≠ n) (w : WorkerThread K) : s.Unchanged (s.setThread st w) n where
  asked := .rfl
  removed := rfl
  map := rfl
  stage tid := by rw [stage_setThread_of_ne fun heq => h (congrArg ServerThread.node heq).symm]
  orders _ := .rfl
  reports := rfl

/-- A thread changes and stays in its stage. -/
theorem Unchanged.setThread (h : w.stage = (s.threads st).stage) (n : N) :
    s.Unchanged (s.setThread st w) n where
  asked := .rfl
  removed := rfl
  map := rfl
  stage tid := by
    by_cases hst : (⟨n, tid⟩ : ServerThread N) = st
    · rw [hst, setThread_self, h]
    · rw [stage_setThread_of_ne hst]
  orders _ := .rfl
  reports := rfl

/-- Messages of other nodes are sent. -/
theorem Unchanged.send {ms : List (RemovalMessage N)} (horders : ∀ tid, .selfDepart ⟨n, tid⟩ ∉ ms)
    (hreports : .departDone n ∉ ms) : s.Unchanged (s.send ms) n where
  asked := .rfl
  removed := rfl
  map := rfl
  stage _ := rfl
  orders tid := by simp [Removal.send, horders tid]
  reports := by simp [Removal.reports, Removal.send, count_eq_zero_of_not_mem hreports]

/-- A message of another node arrives. -/
theorem Unchanged.receive {m : RemovalMessage N} (horders : ∀ tid, .selfDepart ⟨n, tid⟩ ≠ m)
    (hreports : .departDone n ≠ m) : s.Unchanged (s.receive m) n where
  asked := .rfl
  removed := rfl
  map := rfl
  stage _ := rfl
  orders tid := mem_erase_of_ne (horders tid)
  reports := count_erase_of_ne hreports

theorem Unchanged.trans {s'' : Removal K N} (h : s.Unchanged s' n) (h' : s'.Unchanged s'' n) : s.Unchanged s'' n where
  asked := h'.asked.trans h.asked
  removed := h'.removed.trans h.removed
  map := h'.map.trans h.map
  stage tid := (h'.stage tid).trans (h.stage tid)
  orders tid := (h'.orders tid).trans (h.orders tid)
  reports := h'.reports.trans h.reports

/-- A change of one thread within its stage. -/
theorem Inv.setThread (h : s.Inv threadNum) (hw : w.Ok) (hstage : w.stage = (s.threads st).stage) :
    (s.setThread st w).Inv threadNum := by
  obtain ⟨cur, hcur, hothers⟩ := h.nodes
  refine ⟨ok_setThread h.threads hw, range_setThread h.range fun hs => h.range st (hstage ▸ hs), cur, fun n hn => ?_,
    fun n hn => (Unchanged.setThread hstage n).idle_or_gone (hothers n hn)⟩
  exact (Unchanged.setThread hstage n).leaving (hcur n hn).removing (hcur n hn)

/-- A node that is neither untouched nor removed is the one that leaves. -/
theorem Inv.leaving (h : s.Inv threadNum) (hidle : ¬s.Idle n) (hgone : ¬s.Gone threadNum n) :
    s.Leaving threadNum n ∧ ∀ m, m ≠ n → s.Idle m ∨ s.Gone threadNum m := by
  obtain ⟨cur, hcur, hothers⟩ := h.nodes
  have hn : n ∈ cur := by
    by_contra hn
    exact (hothers n hn).elim hidle hgone
  refine ⟨hcur n hn, fun m hm => hothers m fun hm' => hm ?_⟩
  exact Option.mem_unique hm' hn

/-- A thread that is in the departure belongs to the node that leaves. -/
theorem Inv.leaving_of_busy (h : s.Inv threadNum) (hserving : (s.threads st).stage ≠ .serving)
    (hleft : (s.threads st).stage ≠ .left) :
    s.Leaving threadNum st.node ∧ ∀ m, m ≠ st.node → s.Idle m ∨ s.Gone threadNum m :=
  h.leaving (fun hidle => hserving (hidle.serving st.tid)) fun hgone => hleft (hgone.left st.tid (h.range st hserving))

/-- The node that leaves still does, and nothing has changed about the others. -/
theorem nodes_of_leaving (hn : s'.Leaving threadNum n) (hothers : ∀ m, m ≠ n → s.Idle m ∨ s.Gone threadNum m)
    (hframe : ∀ m, m ≠ n → s.Unchanged s' m) :
    ∃ cur : Option N, (∀ m ∈ cur, s'.Leaving threadNum m) ∧ ∀ m, m ∉ cur → s'.Idle m ∨ s'.Gone threadNum m := by
  refine ⟨some n, fun m hm => Option.mem_some.mp hm ▸ hn, fun m hm => ?_⟩
  have hne : m ≠ n := fun heq => hm (Option.mem_some.mpr heq.symm)
  exact (hframe m hne).idle_or_gone (hothers m hne)

/-- No node leaves. -/
theorem nodes_of_none (h : ∀ m, s.Idle m ∨ s.Gone threadNum m) :
    ∃ cur : Option N, (∀ m ∈ cur, s.Leaving threadNum m) ∧ ∀ m, m ∉ cur → s.Idle m ∨ s.Gone threadNum m :=
  ⟨none, by simp, fun m _ => h m⟩

/-- The reports on their way after messages are sent. -/
theorem reports_send (ms : List (RemovalMessage N)) : (s.send ms).reports n = s.reports n + ms.count (.departDone n) :=
  count_append

/-- The threads that have ended, after a change of a thread that has not and does not. -/
theorem leftThreads_setThread (h : (s.threads st).stage ≠ .left) (hw : w.stage ≠ .left) (n : N) :
    (s.setThread st w).leftThreads threadNum n = s.leftThreads threadNum n := by
  refine Finset.filter_congr fun tid _ => ?_
  by_cases hst : (⟨n, tid⟩ : ServerThread N) = st
  · rw [hst, setThread_self]
    exact iff_of_false hw h
  · rw [stage_setThread_of_ne hst]

/-- Another thread still serves after a change of one thread that does not. -/
theorem serving_setThread (hw : w.stage ≠ .serving) {st' : ServerThread N}
    (hs : ((s.setThread st w).threads st').stage = .serving) : st' ≠ st ∧ (s.threads st').stage = .serving := by
  have hne : st' ≠ st := fun heq => hw (by rwa [heq, setThread_self] at hs)
  exact ⟨hne, by rwa [stage_setThread_of_ne hne] at hs⟩

/-- A thread gets the order to depart. -/
theorem Inv.selfDepart (h : s.Inv threadNum) (hmem : .selfDepart st ∈ s.inFlight) (hlt : st.tid < threadNum)
    (hserving : (s.threads st).stage = .serving) :
    ((s.receive (.selfDepart st)).setThread st (s.threads st).depart).Inv threadNum := by
  have hleft : (s.threads st).stage ≠ .left := by simp [hserving]
  obtain ⟨hleaving, hothers⟩ := h.leaving (fun hidle : s.Idle st.node => hidle.orders st.tid hmem)
    fun hgone => hleft (hgone.left st.tid hlt)
  refine ⟨ok_setThread h.threads ((h.threads st).depart hserving), range_setThread h.range fun _ => hlt,
    nodes_of_leaving ?_ hothers fun m hm => ?_⟩
  · obtain ⟨c, hc, hpos, hsum⟩ := hleaving.balance
    refine ⟨hleaving.removing, hleaving.removed, ⟨c, hc, hpos, ?_⟩, fun tid htid hs hpassed => ?_⟩
    · have hcard : ((s.receive (.selfDepart st)).setThread st (s.threads st).depart).leftThreads threadNum st.node =
          s.leftThreads threadNum st.node := leftThreads_setThread hleft (by simp [depart]) st.node
      have hcount : (s.inFlight.erase (.selfDepart st)).count (.departDone st.node) = s.reports st.node :=
        count_erase_of_ne (by simp)
      rw [hcard, hsum]
      exact congrArg _ hcount.symm
    · obtain ⟨hne, hs⟩ := serving_setThread (by simp [depart]) hs
      refine (mem_erase_of_ne (by simpa using hne)).mpr (hleaving.told tid htid hs (hpassed.imp_right fun hpassed => ?_))
      by_cases hst0 : (⟨st.node, 0⟩ : ServerThread N) = st
      · rw [hst0, setThread_self] at hpassed
        simp [depart, DepartStage.Passed] at hpassed
      · rwa [stage_setThread_of_ne hst0] at hpassed
  · refine (Unchanged.receive (fun tid => ?_) (by simp)).trans (Unchanged.setThread_of_ne hm.symm _)
    rintro ⟨⟩
    exact hm rfl

omit [DecidableEq N] in
/-- The orders are not reports. -/
theorem departDone_not_mem_orders (m : N) : .departDone m ∉ orders threadNum st := fun hmem => by
  unfold orders at hmem
  split_ifs at hmem
  · simp at hmem
  · cases hmem

/-- A thread has merged its log, and thread `0` passes the order on. -/
theorem Inv.mergeDone (h : s.Inv threadNum) (hmerging : (s.threads st).stage = .merging) :
    ((s.setThread st (s.threads st).merged).send (orders threadNum st)).Inv threadNum := by
  have hserving : (s.threads st).stage ≠ .serving := by simp [hmerging]
  have hleft : (s.threads st).stage ≠ .left := by simp [hmerging]
  obtain ⟨hleaving, hothers⟩ := h.leaving_of_busy hserving hleft
  refine ⟨ok_setThread h.threads ((h.threads st).merged hmerging), range_setThread h.range fun _ => h.range st hserving,
    nodes_of_leaving ?_ hothers fun m hm => ?_⟩
  · obtain ⟨c, hc, hpos, hsum⟩ := hleaving.balance
    refine ⟨hleaving.removing, hleaving.removed, ⟨c, hc, hpos, ?_⟩, fun tid htid hs hpassed => ?_⟩
    · have hcard : ((s.setThread st (s.threads st).merged).send (orders threadNum st)).leftThreads threadNum st.node =
          s.leftThreads threadNum st.node := leftThreads_setThread hleft (by simp [merged]) st.node
      rw [hcard, hsum, reports_send, count_eq_zero_of_not_mem (departDone_not_mem_orders _)]
      rfl
    · obtain ⟨hne, hs⟩ := serving_setThread (by simp [merged]) hs
      by_cases hst0 : st.tid = 0
      · -- every other thread gets the order
        have htid0 : tid ≠ 0 := fun heq => hne (by rw [heq, ← hst0])
        refine mem_append_right _ ?_
        rw [orders, if_pos hst0]
        exact mem_map.mpr ⟨tid, mem_range'_1.mpr ⟨Nat.one_le_iff_ne_zero.mpr htid0, by omega⟩, rfl⟩
      · have hne0 : (⟨st.node, 0⟩ : ServerThread N) ≠ st := fun heq => hst0 (congrArg ServerThread.tid heq).symm
        have hzero : ((s.setThread st (s.threads st).merged).send (orders threadNum st)).threads ⟨st.node, 0⟩ =
            s.threads ⟨st.node, 0⟩ := stage_setThread_of_ne hne0 _
        rw [hzero] at hpassed
        exact mem_append_left _ (hleaving.told tid htid hs hpassed)
  · refine (Unchanged.setThread_of_ne hm.symm _).trans (Unchanged.send (fun tid hmem => ?_) (departDone_not_mem_orders m))
    unfold orders at hmem
    split_ifs at hmem
    · obtain ⟨_, -, heq⟩ := mem_map.mp hmem
      cases heq
      exact hm rfl
    · cases hmem

/-- A thread that ends is one more of those that have ended. -/
theorem card_leftThreads_leave (hlt : st.tid < threadNum) (hleft : (s.threads st).stage ≠ .left) :
    ((s.setThread st (s.threads st).leave).leftThreads threadNum st.node).card =
      (s.leftThreads threadNum st.node).card + 1 := by
  have hinsert : (s.setThread st (s.threads st).leave).leftThreads threadNum st.node =
      insert st.tid (s.leftThreads threadNum st.node) := by
    ext tid
    simp only [leftThreads, Finset.mem_filter, Finset.mem_range, Finset.mem_insert]
    by_cases hst : tid = st.tid
    · subst hst
      simp [setThread_self, leave, hlt]
    · rw [stage_setThread_of_ne fun heq => hst (congrArg ServerThread.tid heq)]
      simp [hst]
  have hnotMem : st.tid ∉ s.leftThreads threadNum st.node := fun hmem => hleft (Finset.mem_filter.mp hmem).2
  rw [hinsert, Finset.card_insert_of_notMem hnotMem]

/-- A thread ends and reports to the monitor. -/
theorem Inv.leave (h : s.Inv threadNum) (hdraining : (s.threads st).stage = .draining)
    (hclosed : (s.threads st).closed = true) :
    ((s.setThread st (s.threads st).leave).send [.departDone st.node]).Inv threadNum := by
  have hserving : (s.threads st).stage ≠ .serving := by simp [hdraining]
  have hleft : (s.threads st).stage ≠ .left := by simp [hdraining]
  obtain ⟨hleaving, hothers⟩ := h.leaving_of_busy hserving hleft
  refine ⟨ok_setThread h.threads ((h.threads st).leave hclosed), range_setThread h.range fun _ => h.range st hserving,
    nodes_of_leaving ?_ hothers fun m hm => ?_⟩
  · obtain ⟨c, hc, hpos, hsum⟩ := hleaving.balance
    refine ⟨hleaving.removing, hleaving.removed, ⟨c, hc, hpos, ?_⟩, fun tid htid hs hpassed => ?_⟩
    · have hcard : (((s.setThread st (s.threads st).leave).send [.departDone st.node]).leftThreads threadNum st.node).card =
          (s.leftThreads threadNum st.node).card + 1 := card_leftThreads_leave (h.range st hserving) hleft
      rw [hcard, ← Nat.add_assoc, hsum, reports_send, count_singleton_self]
      rfl
    · obtain ⟨hne, hs⟩ := serving_setThread (by simp [WorkerThread.leave]) hs
      refine mem_append_left _ (hleaving.told tid htid hs (hpassed.imp_right fun hpassed => ?_))
      by_cases hst0 : (⟨st.node, 0⟩ : ServerThread N) = st
      · rw [hst0]
        exact .inl hdraining
      · have hzero : ((s.setThread st (s.threads st).leave).send [.departDone st.node]).threads ⟨st.node, 0⟩ =
            s.threads ⟨st.node, 0⟩ := stage_setThread_of_ne hst0 _
        rwa [hzero] at hpassed
  · exact (Unchanged.setThread_of_ne hm.symm _).trans (Unchanged.send (by simp) (by simpa using hm))

/-- The report of a thread reaches the monitor, which removes the node at the last one. -/
theorem Inv.departDone (h : s.Inv threadNum) (hmem : .departDone n ∈ s.inFlight) :
    ((s.receive (.departDone n)).departDone n).Inv threadNum := by
  have hreports : 0 < s.reports n := count_pos_iff.mpr hmem
  obtain ⟨hleaving, hothers⟩ := h.leaving (fun hidle => hreports.ne' hidle.reports) fun hgone => hreports.ne' hgone.reports
  obtain ⟨c, hc, hpos, hsum⟩ := hleaving.balance
  have hcount : (s.receive (.departDone n)).reports n = s.reports n - 1 := count_erase_self ..
  have hframe : ∀ m, m ≠ n → s.Unchanged (s.receive (.departDone n)) m := fun m hm =>
    Unchanged.receive (by simp) (by simpa using hm)
  have hmap : (s.receive (.departDone n)).departingNodeMap n = some c := hc
  unfold Removal.departDone
  rw [hmap]
  dsimp only
  split_ifs with hlast
  · -- all threads have ended, and none of their reports is on its way
    have hall : s.leftThreads threadNum n = Finset.range threadNum :=
      Finset.eq_of_subset_of_card_le (Finset.filter_subset _ _) (by rw [Finset.card_range]; omega)
    refine ⟨h.threads, h.range, nodes_of_none fun m => ?_⟩
    by_cases hm : m = n
    · subst hm
      refine .inr ⟨?_, fun tid htid => ?_, ?_⟩
      · change (m :: s.removed).count m = 1
        rw [count_cons_self, hleaving.removed]
      · have htid' : tid ∈ s.leftThreads threadNum m := hall ▸ Finset.mem_range.mpr htid
        exact (Finset.mem_filter.mp htid').2
      · change (s.receive (.departDone m)).reports m = 0
        rw [hall, Finset.card_range] at hsum
        omega
    · refine Unchanged.idle_or_gone (s := s) ⟨.rfl, ?_, ?_, fun _ => rfl, (hframe m hm).orders, (hframe m hm).reports⟩ (hothers m hm)
      · exact count_cons_of_ne (Ne.symm hm)
      · exact update_of_ne hm ..
  · refine ⟨h.threads, h.range, nodes_of_leaving ⟨hleaving.removing, hleaving.removed, ⟨c - 1, update_self .., ?_, ?_⟩,
      fun tid htid hs hpassed => ?_⟩ hothers fun m hm => ?_⟩
    · omega
    · change c - 1 + (s.leftThreads threadNum n).card = threadNum + (s.receive (.departDone n)).reports n
      omega
    · exact (mem_erase_of_ne (by simp)).mpr (hleaving.told tid htid hs hpassed)
    · exact ⟨.rfl, rfl, update_of_ne hm .., fun _ => rfl, (hframe m hm).orders, (hframe m hm).reports⟩

/-- The monitor tells a node to depart while no removal is under way. -/
theorem Inv.removeNode (h : s.Inv threadNum) (hpos : 0 < threadNum) (hremoving : s.removing = false) (n : N) :
    (s.removeNode threadNum n).Inv threadNum := by
  obtain ⟨cur, hcur, hothers⟩ := h.nodes
  have hnone : ∀ m, m ∉ cur := fun m hm => by simpa [hremoving] using (hcur m hm).removing
  have hframe : ∀ m, m ≠ n → s.Unchanged (s.removeNode threadNum n) m := fun m hm =>
    ⟨by simp [Removal.removeNode, Removal.send, hm], rfl, update_of_ne hm .., fun _ => rfl,
      fun tid => by simp [Removal.removeNode, Removal.send, hm], by simp [reports, Removal.removeNode, Removal.send]⟩
  have hreports : (s.removeNode threadNum n).reports n = s.reports n := by
    simp [reports, Removal.removeNode, Removal.send]
  refine ⟨h.threads, h.range, ?_⟩
  rcases hothers n (hnone n) with hidle | hgone
  · have hempty : s.leftThreads threadNum n = ∅ := Finset.filter_eq_empty_iff.mpr fun tid _ => by simp [hidle.serving tid]
    refine nodes_of_leaving ⟨rfl, hidle.removed, ⟨threadNum, update_self .., hpos, ?_⟩, fun tid _ _ hpassed => ?_⟩
      (fun m _ => hothers m (hnone m)) hframe
    · change threadNum + (s.leftThreads threadNum n).card = _
      rw [hempty, Finset.card_empty, hreports, hidle.reports]
    · have htid : tid = 0 := hpassed.resolve_right fun hp => by
        simp [DepartStage.Passed, Removal.removeNode, Removal.send, hidle.serving 0] at hp
      rw [htid]
      exact mem_append_right _ (mem_singleton.mpr rfl)
  · refine nodes_of_none fun m => ?_
    by_cases hm : m = n
    · subst hm
      exact .inr ⟨hgone.removed, hgone.left, hreports.trans hgone.reports⟩
    · exact (hframe m hm).idle_or_gone (hothers m (hnone m))

/-- Every event keeps the invariant. -/
theorem Inv.step (h : s.Inv threadNum) (hpos : 0 < threadNum) {e : RemovalEvent K N}
    (hstep : s.step threadNum e = some s') : s'.Inv threadNum := by
  cases e with
  | removeNode n =>
    simp only [Removal.step] at hstep
    split_ifs at hstep with hremoving
    cases hstep
    exact h.removeNode hpos (Bool.eq_false_iff.mpr hremoving) n
  | work st d =>
    obtain ⟨hserving, hs'⟩ := Option.ite_none_right_eq_some.mp hstep
    cases hs'
    exact h.setThread (.serving d) hserving.symm
  | arrive st req =>
    cases hstep
    refine h.setThread ((h.threads st).arrive req) ?_
    unfold arrive
    split <;> rfl
  | deliver m =>
    cases m with
    | selfDepart st =>
      obtain ⟨⟨hmem, hlt, hserving⟩, hs'⟩ := Option.ite_none_right_eq_some.mp hstep
      cases hs'
      exact h.selfDepart hmem hlt hserving
    | departDone n =>
      obtain ⟨hmem, hs'⟩ := Option.ite_none_right_eq_some.mp hstep
      cases hs'
      exact h.departDone hmem
  | mergeDone st =>
    obtain ⟨hmerging, hs'⟩ := Option.ite_none_right_eq_some.mp hstep
    cases hs'
    exact h.mergeDone hmerging
  | drain st =>
    obtain ⟨⟨hdraining, -⟩, hs'⟩ := Option.ite_none_right_eq_some.mp hstep
    cases hs'
    refine h.setThread ((h.threads st).drain hdraining) ?_
    unfold drain
    split <;> rfl
  | leave st =>
    obtain ⟨⟨hdraining, hclosed⟩, hs'⟩ := Option.ite_none_right_eq_some.mp hstep
    cases hs'
    exact h.leave hdraining hclosed

/-- A node that has been told to depart stays on the list. -/
theorem mem_asked_step {e : RemovalEvent K N} (h : n ∈ s.asked) (hstep : s.step threadNum e = some s') : n ∈ s'.asked := by
  cases e with
  | removeNode m =>
    simp only [Removal.step] at hstep
    split_ifs at hstep
    cases hstep
    exact mem_cons_of_mem _ h
  | arrive st req =>
    cases hstep
    exact h
  | deliver m =>
    cases m with
    | selfDepart st =>
      cases (Option.ite_none_right_eq_some.mp hstep).2
      exact h
    | departDone m =>
      cases (Option.ite_none_right_eq_some.mp hstep).2
      unfold Removal.departDone
      split
      · exact h
      · split_ifs <;> exact h
  | _ =>
    cases (Option.ite_none_right_eq_some.mp hstep).2
    exact h

omit [DecidableEq N] in
/-- Before the first removal all nodes are untouched. -/
theorem Inv.init [DecidableEq N] (data : ServerThread N → ThreadData K) : (init data).Inv threadNum :=
  ⟨fun st => .serving (data st), fun _ hs => absurd rfl hs,
    nodes_of_none fun _ => .inl ⟨not_mem_nil, rfl, fun _ => rfl, fun _ => not_mem_nil, rfl⟩⟩

/-- What is left to be done of the departure of a node. -/
def remaining (threadNum : ℕ) (s : Removal K N) (n : N) : ℕ :=
  2 * ∑ tid ∈ Finset.range threadNum, (s.threads ⟨n, tid⟩).todo + s.reports n

/-- Reports that are sent have to arrive. -/
theorem remaining_send (ms : List (RemovalMessage N)) :
    (s.send ms).remaining threadNum n = s.remaining threadNum n + ms.count (.departDone n) := by
  rw [remaining, reports_send, ← Nat.add_assoc]
  rfl

/-- A thread goes on with its departure. -/
theorem remaining_setThread_lt {tid : ℕ} (hlt : tid < threadNum)
    (hw : w.todo < (s.threads ⟨n, tid⟩).todo) :
    (s.setThread ⟨n, tid⟩ w).remaining threadNum n + 1 < s.remaining threadNum n := by
  have hsum : ∑ i ∈ Finset.range threadNum, ((s.setThread ⟨n, tid⟩ w).threads ⟨n, i⟩).todo <
      ∑ i ∈ Finset.range threadNum, (s.threads ⟨n, i⟩).todo := by
    refine Finset.sum_lt_sum (fun i _ => ?_) ⟨tid, Finset.mem_range.mpr hlt, by rwa [setThread_self]⟩
    by_cases hi : i = tid
    · rw [hi, setThread_self]
      exact hw.le
    · rw [stage_setThread_of_ne fun heq => hi (ServerThread.mk.inj heq).2]
  have hreports : (s.setThread ⟨n, tid⟩ w).reports n = s.reports n := rfl
  unfold remaining
  omega

/-- A leaving node can go on with its departure. -/
theorem Leaving.exists_step (h : s.Leaving threadNum n) (hpos : 0 < threadNum) :
    ∃ e s', e.departs ∧ s.step threadNum e = some s' ∧ s'.remaining threadNum n < s.remaining threadNum n := by
  obtain ⟨c, -, hc, hsum⟩ := h.balance
  by_contra hno
  have hstuck : ∀ e s', e.departs → s.step threadNum e = some s' → ¬s'.remaining threadNum n < s.remaining threadNum n :=
    fun e s' he hs hlt => hno ⟨e, s', he, hs, hlt⟩
  -- no thread of the node is within the routine
  have hstage : ∀ tid, tid < threadNum →
      (s.threads ⟨n, tid⟩).stage = .serving ∨ (s.threads ⟨n, tid⟩).stage = .left := fun tid htid => by
    cases hs : (s.threads ⟨n, tid⟩).stage with
    | serving => exact .inl rfl
    | merging =>
      have hlt := remaining_setThread_lt htid (todo_merged hs)
      refine absurd ?_ (hstuck (.mergeDone ⟨n, tid⟩) _ rfl (if_pos hs))
      rw [remaining_send, count_eq_zero_of_not_mem (departDone_not_mem_orders _)]
      omega
    | draining =>
      cases hclosed : (s.threads ⟨n, tid⟩).closed with
      | false =>
        have hlt := remaining_setThread_lt htid (todo_drain hs hclosed)
        exact absurd (by omega) (hstuck (.drain ⟨n, tid⟩) _ rfl (if_pos ⟨hs, hclosed⟩))
      | true =>
        have hlt := remaining_setThread_lt htid (todo_leave hs)
        refine absurd ?_ (hstuck (.leave ⟨n, tid⟩) _ rfl (if_pos ⟨hs, hclosed⟩))
        rw [remaining_send, count_singleton_self]
        omega
    | left => exact .inr rfl
  -- no order waits for a thread that serves
  have horder : ∀ tid, tid < threadNum → (s.threads ⟨n, tid⟩).stage = .serving → .selfDepart ⟨n, tid⟩ ∉ s.inFlight :=
    fun tid htid hs hmem => by
      have hlt : ((s.receive (.selfDepart ⟨n, tid⟩)).setThread ⟨n, tid⟩ (s.threads ⟨n, tid⟩).depart).remaining threadNum n +
          1 < (s.receive (.selfDepart ⟨n, tid⟩)).remaining threadNum n :=
        remaining_setThread_lt htid (todo_depart hs)
      have hreports : (s.inFlight.erase (.selfDepart ⟨n, tid⟩)).count (.departDone n) = s.reports n :=
        count_erase_of_ne (by simp)
      have hremaining : (s.receive (.selfDepart ⟨n, tid⟩)).remaining threadNum n = s.remaining threadNum n :=
        congrArg (2 * _ + ·) hreports
      exact absurd (by omega) (hstuck (.deliver (.selfDepart ⟨n, tid⟩)) _ rfl (if_pos ⟨hmem, htid, hs⟩))
  have hzero : (s.threads ⟨n, 0⟩).stage = .left :=
    (hstage 0 hpos).resolve_left fun hs => horder 0 hpos hs (h.told 0 hpos hs (.inl rfl))
  have hall : s.leftThreads threadNum n = Finset.range threadNum := Finset.filter_true_of_mem fun tid htid => by
    have hlt := Finset.mem_range.mp htid
    exact (hstage tid hlt).resolve_left fun hs => horder tid hlt hs (h.told tid hlt hs (.inr (.inr hzero)))
  -- so a report waits for the monitor
  have hreports : 0 < s.reports n := by
    rw [hall, Finset.card_range] at hsum
    omega
  have hmem : .departDone n ∈ s.inFlight := count_pos_iff.mp hreports
  refine absurd ?_ (hstuck (.deliver (.departDone n)) _ rfl (if_pos hmem))
  have herase : (s.inFlight.erase (.departDone n)).count (.departDone n) = s.reports n - 1 := count_erase_self ..
  have hremaining : ((s.receive (.departDone n)).departDone n).remaining threadNum n =
      2 * ∑ tid ∈ Finset.range threadNum, (s.threads ⟨n, tid⟩).todo + (s.reports n - 1) := by
    rw [← herase]
    unfold Removal.departDone
    split
    · rfl
    · split_ifs <;> rfl
  rw [hremaining, remaining]
  omega

/-- The departure of a node that has been told to depart can be completed from every state. -/
theorem Inv.exists_removal (h : s.Inv threadNum) (hpos : 0 < threadNum) (hasked : n ∈ s.asked) :
    ∃ es s', (∀ e ∈ es, e.departs) ∧ Transition.run (Removal.step threadNum) s es = some s' ∧
      s'.removed.count n = 1 := by
  induction hk : s.remaining threadNum n using Nat.strong_induction_on generalizing s with
  | _ k ih =>
    by_cases hgone : s.Gone threadNum n
    · exact ⟨[], s, by simp, rfl, hgone.removed⟩
    · obtain ⟨hleaving, -⟩ := h.leaving (fun hidle => hidle.asked hasked) hgone
      obtain ⟨e, t, he, ht, hlt⟩ := hleaving.exists_step hpos
      have hasked' : n ∈ t.asked := mem_asked_step hasked ht
      obtain ⟨es, s', hes, hrun, hremoved⟩ := ih _ (hk ▸ hlt) (h.step hpos ht) hasked' rfl
      exact ⟨e :: es, s', by simpa [he] using hes, Transition.run_cons_eq_some.mpr ⟨t, ht, hrun⟩, hremoved⟩

/-- The monitor tells the management node at most once to remove a node, and only when all threads of the node have merged
their logs and answered their requests; and once the node has been told to depart, its departure can be completed, and the
node is removed when nothing of it is left to be done. -/
theorem removed_once_after_threads (threadNum : ℕ) (hpos : 0 < threadNum) (data : ServerThread N → ThreadData K)
    (es : List (RemovalEvent K N)) (s : Removal K N) (hrun : run threadNum data es = some s) (n : N) :
    s.removed.count n ≤ 1 ∧
      (n ∈ s.removed → ∀ tid, tid < threadNum → (s.threads ⟨n, tid⟩).Finished) ∧
      (n ∈ s.asked → s.Quiet threadNum → s.removed.count n = 1) ∧
      (n ∈ s.asked → ∃ es' s', (∀ e ∈ es', e.departs) ∧ Transition.run (step threadNum) s es' = some s' ∧
        s'.removed.count n = 1) := by
  have hinv : s.Inv threadNum :=
    Transition.invariant (P := Inv threadNum) hrun (.init data) fun _ _ _ h hstep => h.step hpos hstep
  have hnode : s.removed.count n = 0 ∨ s.Gone threadNum n := by
    by_cases hidle : s.Idle n
    · exact .inl hidle.removed
    · by_cases hgone : s.Gone threadNum n
      · exact .inr hgone
      · exact .inl (hinv.leaving hidle hgone).1.removed
  refine ⟨?_, fun hremoved tid htid => ?_, fun hasked hquiet => ?_, hinv.exists_removal hpos⟩
  · rcases hnode with hzero | hgone
    · omega
    · exact hgone.removed.le
  · rcases hnode with hzero | hgone
    · exact absurd hremoved (List.count_eq_zero.mp hzero)
    · exact (hinv.threads _).finished (hgone.left tid htid)
  · obtain ⟨es', s', hes', hrun', hremoved⟩ := hinv.exists_removal hpos hasked
    cases es' with
    | nil => exact Option.some.inj hrun' ▸ hremoved
    | cons e es' =>
      obtain ⟨t, ht, -⟩ := Transition.run_cons_eq_some.mp hrun'
      rw [hquiet e (hes' e List.mem_cons_self)] at ht
      cases ht

/-- Nothing waits at any thread, except a request and two writes at thread `1` of node `7`. -/
def busyThread (st : ServerThread ℕ) : ThreadData ℕ :=
  if st = ⟨7, 1⟩ then
    ⟨[1], [⟨.get, [{ key := 3 }], "client", "a"⟩], [(4, ⟨.put, .lww, "x", "client", "b"⟩)], [(1, ⟨.put, .lww, "", "client", "c"⟩)], []⟩
  else ⟨[], [], [], [], []⟩

/-- Node `7` with two threads is removed: a request arrives at thread `1` while it departs, and the report of thread `0`
comes last. -/
def removeSeven : List (RemovalEvent ℕ ℕ) :=
  [.removeNode 7, .deliver (.selfDepart ⟨7, 0⟩), .mergeDone ⟨7, 0⟩, .deliver (.selfDepart ⟨7, 1⟩), .drain ⟨7, 0⟩,
    .arrive ⟨7, 1⟩ ⟨.get, [{ key := 5 }], "client", "d"⟩, .mergeDone ⟨7, 1⟩, .drain ⟨7, 1⟩, .drain ⟨7, 1⟩, .drain ⟨7, 1⟩,
    .leave ⟨7, 1⟩, .deliver (.departDone 7), .leave ⟨7, 0⟩, .deliver (.departDone 7)]

/-- Node `7` is removed once, with the four requests of its thread `1` answered. -/
theorem removed_once_after_threads_removeSeven : ∃ s, run 2 busyThread removeSeven = some s ∧ s.removed = [7] ∧
    (s.threads ⟨7, 1⟩).sent.map (fun x => x.2.responseId) = ["a", "d", "c", "b"] ∧
      ∀ tid, tid < 2 → (s.threads ⟨7, tid⟩).Finished := by
  refine ⟨_, rfl, rfl, by decide +kernel, ?_⟩
  exact (removed_once_after_threads 2 (by decide) busyThread removeSeven _ rfl 7).2.1 (by decide +kernel)

end Removal

end Dinomo
