import Dinomo.UserRequests
import Mathlib.Data.List.Forall2

/-!
# Pending requests

A request for a key the thread is not known to serve waits in `pending_requests` for the key's replication
factor.  `replication_response_handler` stores the factor and goes through the waiting requests.  A write
that is batched takes the whole entry of the key out of `pending_requests`, is queued for the batch
acknowledgement with what the released memory of the entry reads as, and ends the handler.  The server loop
passes `kBatchingThreshold` as the flag that turns batching on, while its timer asks `kEnableBatching`.
-/

namespace Dinomo

open List

variable {σ K N H L : Type*} [DecidableEq K] [DecidableEq N] [LinearOrder H] [LinearOrder L]

/-- The response to a replication factor request. -/
structure FactorResponse (K : Type*) where
  key : K
  error : AnnaError
  globalFactors : List (Tier × ℕ)
  localFactors : List (Tier × ℕ)
deriving DecidableEq, Repr

/-- The batching settings of a node. -/
structure BatchingPolicy where
  enableBatching : Bool
  batchingThreshold : ℕ
deriving DecidableEq, Repr

/-- Store the factors of a message. -/
def ReplicationMap.storeFactors (m : ReplicationMap K) (k : K) (globals locals : List (Tier × ℕ)) : ReplicationMap K :=
  locals.foldl (fun m x => m.setLocal k x.1 x.2) (globals.foldl (fun m x => m.setGlobal k x.1 x.2) m)

/-- The replication map after a successful response. -/
def FactorResponse.apply (params : ClusterParams) (resp : FactorResponse K) (m : ReplicationMap K) :
    Option (ReplicationMap K) :=
  match resp.error with
  | .noError => some (m.storeFactors resp.key resp.globalFactors resp.localFactors)
  | .keyDne => some (m.initReplication params resp.key)
  | _ => none

namespace Server

variable (env : Environment σ K N H L) (freed : PendingRequest → PendingRequest)

/-- Answer a pending request that has an address. -/
def reply (s : Server σ K) (p : PendingRequest) (tuple : KeyTuple K) : Server σ K :=
  if p.addr = "" then s else s.send p.addr ⟨p.type, [tuple], p.responseId⟩

/-- A pending request of a key this thread is responsible for; the flag says whether the handler returns. -/
def serveOne (batching : Bool) (threads : List (ServerThread N)) (k : K) (s : Server σ K) (p : PendingRequest) :
    Bool × Server σ K :=
  if p.type.isWrite then
    if 1 < threads.length then
      (false, ((s.processWriteReplicated env (p.type = .update) k p.payload).recordAccess k).reply p
        { key := k, latticeType := p.latticeType })
    else
      let put := s.processWrite env (p.type = .update) k p.payload
      let s' := put.2.recordAccess k
      if batching then
        -- the entry of the key is erased before the request in it is read
        let erased := { s' with pendingRequests := Function.update s'.pendingRequests k [] }
        (true, (if put.1 then erased.responseBatchingRequests else erased).pushBatching k
          { freed p with payload := "" })
      else (false, s'.reply p { key := k, latticeType := p.latticeType })
  else if p.addr = "" then (false, s)
  else if p.type.isRead then
    let got := s.processGet env (1 < threads.length) k
    (false, (got.2.recordAccess k).reply p (readTuple k got.1))
  else (false, (s.recordAccess k).reply p { key := k })

/-- The loop over the pending requests; the flag says whether the handler returned. -/
def servePending (batching : Bool) (threads : List (ServerThread N)) (k : K) :
    Server σ K → List PendingRequest → Bool × Server σ K
  | s, [] => (false, s)
  | s, p :: ps =>
    let served := s.serveOne env freed batching threads k p
    if served.1 then served else servePending batching threads k served.2 ps

/-- The loop of a thread that is not responsible for the key. -/
def refusePending (k : K) (s : Server σ K) (ps : List PendingRequest) : Server σ K :=
  ps.foldl (fun s p => s.reply p { key := k, error := .wrongThread }) s

/-- The lookup of the responsible threads of a key leaves an entry in the replication map. -/
def lookUp (s : Server σ K) (k : K) : Server σ K :=
  { s with replication := (getResponsibleThreads env.params env.hash env.rings s.replication k).2 }

/-- The part of the handler behind a successful response. -/
def handlePending (batching : Bool) (s : Server σ K) (k : K) : Server σ K :=
  if s.pendingRequests k = [] then s
  else if env.self ∈ threadsOf env s.replication k then
    let served := (s.lookUp env k).servePending env freed batching (threadsOf env s.replication k) k (s.pendingRequests k)
    if served.1 then served.2
    else { served.2 with pendingRequests := Function.update served.2.pendingRequests k [] }
  else
    let refused := (s.lookUp env k).refusePending k (s.pendingRequests k)
    { refused with pendingRequests := Function.update refused.pendingRequests k [] }

/-- `replication_response_handler`. -/
def replicationResponseHandler (batching : Bool) (s : Server σ K) (resp : FactorResponse K) : Server σ K :=
  match resp.apply env.params s.replication with
  | some m => handlePending env freed batching { s with replication := m } resp.key
  | none => if resp.error = .wrongThread then { s with issued := s.issued ++ [resp.key] } else s

/-- The server loop on a replication factor response. -/
def onReplicationResponse (policy : BatchingPolicy) (s : Server σ K) (resp : FactorResponse K) : Server σ K :=
  s.replicationResponseHandler env freed (policy.batchingThreshold ≠ 0) resp

/-- The timer of the server loop, once its time has passed. -/
def batchTimer (policy : BatchingPolicy) (s : Server σ K) : Server σ K :=
  if policy.enableBatching then s.responseBatchingRequests else s

end Server

/-- A call of the serializer that executes a pending request of a key. -/
def PendingRequest.Executes (k : K) (p : PendingRequest) : Executed K → Prop
  | .get _ j => p.type.isRead ∧ j = k
  | .put _ j payload => (p.type = .put ∨ p.type = .insert) ∧ j = k ∧ payload = p.payload
  | .update _ j payload => p.type = .update ∧ j = k ∧ payload = p.payload
  | .getMeta _ => False
  | .putMeta _ _ => False

open PendingRequest

/-- Where the answer to a pending request goes, and what it answers. -/
def PendingRequest.ticket (p : PendingRequest) : String × RequestType × String := (p.addr, p.type, p.responseId)

/-- Where a response goes, and what it answers. -/
def KeyResponse.ticket (x : String × KeyResponse K) : String × RequestType × String := (x.1, x.2.type, x.2.responseId)

/-- A response goes to one of the pending requests of a key. -/
def PendingRequest.Answers (k : K) (ps : List PendingRequest) (x : String × KeyResponse K) : Prop :=
  ∃ p ∈ ps, KeyResponse.ticket x = p.ticket ∧ x.2.tuples.map KeyTuple.key = [k]

/-- The batch acknowledgements that the server loop is certain to send for a queue. -/
def BatchingPolicy.acknowledgements (policy : BatchingPolicy) (queue : List (K × PendingRequest)) :
    List (String × KeyResponse K) :=
  if policy.enableBatching then queue.filterMap Server.batchResponse else []

/-- Between two states every pending request of a key was executed exactly once, those with an address were
answered exactly once or are queued for an acknowledgement that is certain, and none is pending any more.
The requests of the batch queue, old and new, were released or are still in it. -/
structure Server.ServesPending (policy : BatchingPolicy) (k : K) (s s' : Server σ K) : Prop where
  pending : s'.pendingRequests = Function.update s.pendingRequests k []
  executed : ∃ calls ps, s'.executed = s.executed ++ calls ∧ ps.Perm (s.pendingRequests k) ∧
    List.Forall₂ (PendingRequest.Executes k) ps calls
  answered : ∃ released resp batched, s'.released = s.released ++ released ∧
    released ++ s'.batchingRequests = s.batchingRequests ++ batched ∧
      s'.sent = s.sent ++ resp ++ released.filterMap Server.batchResponse ∧
        (∀ x ∈ resp ++ policy.acknowledgements batched, x.2.tuples.map KeyTuple.key = [k]) ∧
          ((resp ++ policy.acknowledgements batched).map KeyResponse.ticket).Perm
            (((s.pendingRequests k).filter fun p => p.addr ≠ "").map PendingRequest.ticket)

/-- The handler executes a pending request of this kind: a write, or a read with an address. -/
def PendingRequest.Runs (p : PendingRequest) : Prop := p.type.isWrite ∨ (p.type.isRead ∧ p.addr ≠ "")

instance (p : PendingRequest) : Decidable p.Runs := inferInstanceAs (Decidable (_ ∨ _))

namespace Server

variable (env : Environment σ K N H L) (freed : PendingRequest → PendingRequest) (policy : BatchingPolicy)

/-- The handler batches a pending request of a key. -/
def Batches (m : ReplicationMap K) (k : K) (p : PendingRequest) : Prop :=
  policy.batchingThreshold ≠ 0 ∧ (threadsOf env m k).length ≤ 1 ∧ p.type.isWrite

/-- The acknowledgement of a batched request is certain and is that of the request. -/
def Acknowledges (k : K) (p : PendingRequest) : Prop :=
  policy.acknowledgements [(k, freed p)] = ([(k, p)] : List (K × PendingRequest)).filterMap batchResponse

/-- The thread serves the key under the new factors, every pending request is a write or a read with an address,
and a write that is batched is the last one and will be acknowledged. -/
def ServesAll (m : ReplicationMap K) (k : K) (ps : List PendingRequest) : Prop :=
  env.self ∈ threadsOf env m k ∧ (∀ p ∈ ps, p.Runs) ∧
    ∀ pre p post, ps = pre ++ p :: post → Batches env policy m k p → post = [] ∧ Acknowledges freed policy k p

end Server

section Replies

/-- Between two states the calls were made and the responses sent, and nothing entered or left a queue. -/
structure Server.Replies (s s' : Server σ K) (calls : List (Executed K)) (resp : List (String × KeyResponse K)) :
    Prop where
  executed : s'.executed = s.executed ++ calls
  sent : s'.sent = s.sent ++ resp
  pending : s'.pendingRequests = s.pendingRequests
  batching : s'.batchingRequests = s.batchingRequests
  released : s'.released = s.released

variable {s s' s'' : Server σ K} {calls calls' : List (Executed K)} {resp resp' : List (String × KeyResponse K)}

omit [DecidableEq K] in
/-- One step after another. -/
theorem Server.Replies.trans (h : s.Replies s' calls resp) (h' : s'.Replies s'' calls' resp') :
    s.Replies s'' (calls ++ calls') (resp ++ resp') where
  executed := by rw [h'.executed, h.executed, append_assoc]
  sent := by rw [h'.sent, h.sent, append_assoc]
  pending := h'.pending.trans h.pending
  batching := h'.batching.trans h.batching
  released := h'.released.trans h.released

omit [DecidableEq K] in
/-- A request with an address gets one response, another one none. -/
theorem Server.Replies.reply (h : s.Replies s' calls []) (p : PendingRequest) (tuple : KeyTuple K) :
    s.Replies (s'.reply p tuple) calls (if p.addr = "" then [] else [(p.addr, ⟨p.type, [tuple], p.responseId⟩)]) := by
  unfold Server.reply
  split_ifs
  · exact h
  · exact ⟨h.executed, by simp [send, h.sent], h.pending, h.batching, h.released⟩

/-- The calls and responses the handler makes for pending requests it does not batch. -/
structure PendingRequest.Served (k : K) (ps : List PendingRequest) (calls : List (Executed K))
    (resp : List (String × KeyResponse K)) : Prop where
  executes : List.Forall₂ (PendingRequest.Executes k) (ps.filter fun p => p.Runs) calls
  tickets : resp.map KeyResponse.ticket = (ps.filter fun p => p.addr ≠ "").map PendingRequest.ticket
  keys : ∀ x ∈ resp, x.2.tuples.map KeyTuple.key = [k]

omit [DecidableEq K] in
/-- One list of requests after another. -/
theorem PendingRequest.Served.append {k : K} {ps qs : List PendingRequest} (h : Served k ps calls resp)
    (h' : Served k qs calls' resp') : Served k (ps ++ qs) (calls ++ calls') (resp ++ resp') where
  executes := by
    rw [filter_append]
    exact rel_append h.executes h'.executes
  tickets := by rw [map_append, h.tickets, h'.tickets, filter_append, map_append]
  keys := by
    intro x hx
    rcases mem_append.mp hx with hx | hx
    · exact h.keys x hx
    · exact h'.keys x hx

omit [DecidableEq K] in
/-- A request with its call and its response. -/
theorem PendingRequest.served_singleton {k : K} {p : PendingRequest} {tuple : KeyTuple K} (hkey : tuple.key = k)
    (hcalls : List.Forall₂ (Executes k) ([p].filter fun p => p.Runs) calls) :
    Served k [p] calls (if p.addr = "" then [] else [(p.addr, ⟨p.type, [tuple], p.responseId⟩)]) := by
  refine ⟨hcalls, ?_, ?_⟩
  · by_cases ha : p.addr = "" <;> simp [ha, KeyResponse.ticket, ticket]
  · by_cases ha : p.addr = "" <;> simp [ha, hkey]

omit [DecidableEq K] in
/-- A request whose call was made and which is answered. -/
theorem Server.Replies.served {k : K} {p : PendingRequest} {tuple : KeyTuple K} (h : s.Replies s' calls [])
    (hkey : tuple.key = k) (hcalls : List.Forall₂ (Executes k) ([p].filter fun p => p.Runs) calls) :
    ∃ s'' calls resp, (false, s'.reply p tuple) = (false, s'') ∧ s.Replies s'' calls resp ∧
      Served k [p] calls resp :=
  ⟨_, _, _, rfl, h.reply p tuple, served_singleton hkey hcalls⟩

end Replies

section Loop

variable {env : Environment σ K N H L} {freed : PendingRequest → PendingRequest} {batching : Bool}
  {threads : List (ServerThread N)} {k : K} {s : Server σ K}

/-- The call of a write. -/
theorem PendingRequest.executes_write {p : PendingRequest} (hp : p.type.isWrite = true) (replicated : Bool) :
    List.Forall₂ (Executes k) ([p].filter fun p => p.Runs)
      [if p.type = .update then .update replicated k p.payload else .put replicated k p.payload] := by
  have hruns : p.Runs := .inl hp
  rw [filter_cons_of_pos (by simpa using hruns), filter_nil]
  refine .cons ?_ .nil
  cases htype : p.type <;> simp_all [RequestType.isWrite, Executes]

/-- A pending request that is not batched. -/
theorem Server.serveOne_served (p : PendingRequest) (h : ¬(batching ∧ threads.length ≤ 1 ∧ p.type.isWrite)) :
    ∃ s' calls resp, s.serveOne env freed batching threads k p = (false, s') ∧ s.Replies s' calls resp ∧
      Served k [p] calls resp := by
  unfold serveOne
  by_cases hw : p.type.isWrite = true
  · rw [if_pos hw]
    by_cases hthreads : 1 < threads.length
    · have hcall : s.Replies ((s.processWriteReplicated env (p.type = .update) k p.payload).recordAccess k)
          [if p.type = .update then .update true k p.payload else .put true k p.payload] [] :=
        ⟨by simp [recordAccess, processWriteReplicated], by simp [recordAccess, processWriteReplicated], rfl, rfl, rfl⟩
      rw [if_pos hthreads]
      exact hcall.served rfl (executes_write hw true)
    · have hb : ¬batching = true := fun hb => h ⟨hb, by omega, hw⟩
      have hcall : s.Replies ((s.processWrite env (p.type = .update) k p.payload).2.recordAccess k)
          [if p.type = .update then .update false k p.payload else .put false k p.payload] [] :=
        ⟨by simp [recordAccess, processWrite], by simp [recordAccess, processWrite], rfl, rfl, rfl⟩
      simp only [if_neg hthreads, if_neg hb]
      exact hcall.served rfl (executes_write hw false)
  · rw [if_neg hw]
    by_cases ha : p.addr = ""
    · have hruns : ¬p.Runs := by simp [Runs, hw, ha]
      rw [if_pos ha]
      exact ⟨s, [], [], rfl, ⟨by simp, by simp, rfl, rfl, rfl⟩, by simp [hruns], by simp [ha], by simp⟩
    · rw [if_neg ha]
      by_cases hr : p.type.isRead = true
      · have hruns : p.Runs := .inr ⟨hr, ha⟩
        have hkey : (readTuple k (s.processGet env (1 < threads.length) k).1).key = k := by
          unfold readTuple
          split_ifs <;> rfl
        have hcall : s.Replies ((s.processGet env (1 < threads.length) k).2.recordAccess k)
            [.get (1 < threads.length) k] [] :=
          ⟨rfl, by simp [recordAccess, processGet], rfl, rfl, rfl⟩
        rw [if_pos hr]
        exact hcall.served hkey (by simp [hruns, Executes, hr])
      · have hruns : ¬p.Runs := by simp [Runs, hw, hr]
        have hcall : s.Replies (s.recordAccess k) [] [] := ⟨by simp [recordAccess], by simp [recordAccess], rfl, rfl, rfl⟩
        rw [if_neg hr]
        exact hcall.served rfl (by simp [hruns])

/-- The loop over pending requests none of which is batched. -/
theorem Server.servePending_served (ps : List PendingRequest)
    (h : ∀ p ∈ ps, ¬(batching ∧ threads.length ≤ 1 ∧ p.type.isWrite)) (rest : List PendingRequest) :
    ∃ s' calls resp, s.servePending env freed batching threads k (ps ++ rest) =
        s'.servePending env freed batching threads k rest ∧
      s.Replies s' calls resp ∧ Served k ps calls resp := by
  induction ps generalizing s with
  | nil => exact ⟨s, [], [], rfl, ⟨by simp, by simp, rfl, rfl, rfl⟩, .nil, rfl, by simp⟩
  | cons p ps ih =>
    obtain ⟨s₁, calls, resp, heq, hreplies, hserved⟩ : ∃ s₁ calls resp,
        s.serveOne env freed batching threads k p = (false, s₁) ∧ s.Replies s₁ calls resp ∧
          Served k [p] calls resp := s.serveOne_served p (h p mem_cons_self)
    obtain ⟨s', calls', resp', heq', hreplies', hserved'⟩ := @ih s₁ fun q hq => h q (mem_cons_of_mem _ hq)
    refine ⟨s', _, _, ?_, hreplies.trans hreplies', hserved.append hserved'⟩
    rw [cons_append, servePending, heq]
    exact heq'

/-- A pending request that is batched. -/
theorem Server.serveOne_batched (p : PendingRequest) (hb : batching = true) (hthreads : threads.length ≤ 1)
    (hw : p.type.isWrite = true) :
    ∃ s' call released, s.serveOne env freed batching threads k p = (true, s') ∧ p.Executes k call ∧
      s'.executed = s.executed ++ [call] ∧ s'.pendingRequests = Function.update s.pendingRequests k [] ∧
        s'.released = s.released ++ released ∧
          released ++ s'.batchingRequests = s.batchingRequests ++ [(k, { freed p with payload := "" })] ∧
            s'.sent = s.sent ++ released.filterMap batchResponse := by
  have hruns : p.Runs := .inl hw
  have hexec := executes_write (k := k) hw false
  rw [filter_cons_of_pos (by simpa using hruns), filter_nil, forall₂_cons] at hexec
  unfold serveOne
  simp only [if_pos hw, if_neg (not_lt.mpr hthreads), if_pos hb]
  cases hret : (s.processWrite env (p.type = .update) k p.payload).1
  · refine ⟨_, _, [], rfl, hexec.1, ?_, ?_, ?_, ?_, ?_⟩ <;>
      simp [pushBatching, recordAccess, processWrite]
  · refine ⟨_, _, s.batchingRequests, rfl, hexec.1, ?_, ?_, ?_, ?_, ?_⟩ <;>
      simp [pushBatching, recordAccess, processWrite, responseBatchingRequests]

end Loop

section Settled

/-- Between two states the handler emptied the pending list of a key, made the calls, sent the responses and
queued the requests. -/
structure Server.Settles (k : K) (s s' : Server σ K) (calls : List (Executed K)) (resp : List (String × KeyResponse K))
    (batched : List (K × PendingRequest)) : Prop where
  pending : s'.pendingRequests = Function.update s.pendingRequests k []
  executed : s'.executed = s.executed ++ calls
  queues : ∃ released, s'.released = s.released ++ released ∧
    released ++ s'.batchingRequests = s.batchingRequests ++ batched ∧
      s'.sent = s.sent ++ resp ++ released.filterMap Server.batchResponse

variable {policy : BatchingPolicy} {k : K} {s s' : Server σ K} {calls : List (Executed K)}
  {resp : List (String × KeyResponse K)} {batched : List (K × PendingRequest)}

/-- What was done determines whether the pending requests were served. -/
theorem Server.Settles.servesPending_iff (h : s.Settles k s' calls resp batched) :
    s.ServesPending policy k s' ↔
      (∃ ps, ps.Perm (s.pendingRequests k) ∧ List.Forall₂ (Executes k) ps calls) ∧
        (∀ x ∈ resp ++ policy.acknowledgements batched, x.2.tuples.map KeyTuple.key = [k]) ∧
          ((resp ++ policy.acknowledgements batched).map KeyResponse.ticket).Perm
            (((s.pendingRequests k).filter fun p => p.addr ≠ "").map ticket) := by
  obtain ⟨released, hr, hb, hs⟩ := h.queues
  constructor
  · rintro ⟨-, ⟨calls', ps, hcalls, hps, hexec⟩, ⟨released', resp', batched', hr', hb', hs', hkeys, htickets⟩⟩
    obtain rfl : released = released' := append_cancel_left (hr.symm.trans hr')
    obtain rfl : batched = batched' := append_cancel_left (hb.symm.trans hb')
    obtain rfl : resp = resp' := append_cancel_left (append_cancel_right (hs.symm.trans hs'))
    obtain rfl : calls = calls' := append_cancel_left (h.executed.symm.trans hcalls)
    exact ⟨⟨ps, hps, hexec⟩, hkeys, htickets⟩
  · rintro ⟨⟨ps, hps, hexec⟩, hkeys, htickets⟩
    exact ⟨h.pending, ⟨calls, ps, h.executed, hps, hexec⟩, released, resp, batched, hr, hb, hs, hkeys, htickets⟩

omit [DecidableEq K] in
/-- The requests that were executed are all the pending ones exactly if all of them could be and none was left. -/
theorem PendingRequest.Served.executes_iff {ps : List PendingRequest} (h : Served k ps calls resp)
    {last lastCalls : List _} {rest : List PendingRequest} (hlast : List.Forall₂ (Executes k) last lastCalls) :
    (∃ qs, qs.Perm (ps ++ last ++ rest) ∧ List.Forall₂ (Executes k) qs (calls ++ lastCalls)) ↔
      (∀ p ∈ ps, p.Runs) ∧ rest = [] := by
  constructor
  · rintro ⟨qs, hqs, hexec⟩
    have hlen := hexec.length_eq
    have hcalls := h.executes.length_eq
    have hle := length_filter_le (fun p : PendingRequest => decide p.Runs) ps
    simp only [hqs.length_eq, length_append, ← hcalls, ← hlast.length_eq] at hlen
    refine ⟨fun p hp => ?_, eq_nil_of_length_eq_zero (by omega)⟩
    have hall := length_filter_eq_length_iff.mp (by omega :
      (ps.filter fun p => decide p.Runs).length = ps.length)
    simpa using hall p hp
  · rintro ⟨hall, rfl⟩
    have hfilter : ps.filter (fun p => p.Runs) = ps := filter_eq_self.mpr fun p hp => by simpa using hall p hp
    have hexec := h.executes
    rw [hfilter] at hexec
    exact ⟨ps ++ last, by simp, rel_append hexec hlast⟩

end Settled

section Handler

variable {env : Environment σ K N H L} {freed : PendingRequest → PendingRequest} {batching : Bool} {k : K}
  {s s' s'' : Server σ K} {calls calls' : List (Executed K)} {resp resp' : List (String × KeyResponse K)}

/-- What was done with the queues as they are, and then the emptied pending list. -/
theorem Server.Replies.settles (h : s.Replies s' calls resp) :
    s.Settles k { s' with pendingRequests := Function.update s'.pendingRequests k [] } calls resp [] where
  pending := by rw [h.pending]
  executed := h.executed
  queues := ⟨[], by simp [h.released], by simp [h.batching], by simp [h.sent]⟩

omit [DecidableEq K] in
/-- A thread that is not responsible executes nothing, and answers the pending requests. -/
theorem Server.refusePending_replies (s : Server σ K) (ps : List PendingRequest) :
    ∃ resp, s.Replies (s.refusePending k ps) [] resp ∧ ∀ x ∈ resp, Answers k ps x := by
  induction ps generalizing s with
  | nil => exact ⟨[], ⟨by simp [refusePending], by simp [refusePending], rfl, rfl, rfl⟩, by simp⟩
  | cons p ps ih =>
    have hself : s.Replies s [] [] := ⟨by simp, by simp, rfl, rfl, rfl⟩
    obtain ⟨resp, hresp, hanswers⟩ := ih (s.reply p { key := k, error := .wrongThread })
    refine ⟨_, (hself.reply p { key := k, error := .wrongThread }).trans hresp, fun x hx => ?_⟩
    rcases mem_append.mp hx with hx | hx
    · split_ifs at hx
      · cases hx
      · rw [mem_singleton.mp hx]
        exact ⟨p, mem_cons_self, rfl, rfl⟩
    · obtain ⟨q, hq, hticket⟩ := hanswers x hx
      exact ⟨q, mem_cons_of_mem _ hq, hticket⟩

/-- The handler of a thread that is not responsible. -/
theorem Server.handlePending_refused (hne : s.pendingRequests k ≠ []) (hself : env.self ∉ threadsOf env s.replication k) :
    ∃ resp, s.Settles k (s.handlePending env freed batching k) [] resp [] ∧
      ∀ x ∈ resp, Answers k (s.pendingRequests k) x := by
  obtain ⟨resp, hresp, hanswers⟩ := refusePending_replies (k := k) (s.lookUp env k) (s.pendingRequests k)
  have hsettles := hresp.settles (k := k)
  refine ⟨resp, ?_, hanswers⟩
  rw [handlePending, if_neg hne, if_neg hself]
  exact ⟨hsettles.pending, hsettles.executed, hsettles.queues⟩

omit [DecidableEq K] in
/-- Requests that were served were answered. -/
theorem PendingRequest.Served.answers {ps : List PendingRequest} (h : Served k ps calls resp)
    {x : String × KeyResponse K} (hx : x ∈ resp) : Answers k ps x := by
  have hmem : KeyResponse.ticket x ∈ resp.map KeyResponse.ticket := mem_map_of_mem hx
  rw [h.tickets] at hmem
  obtain ⟨p, hp, hticket⟩ := mem_map.mp hmem
  exact ⟨p, (mem_filter.mp hp).1, hticket.symm, h.keys x hx⟩

/-- The handler of a responsible thread that batches none of the requests. -/
theorem Server.handlePending_served (hne : s.pendingRequests k ≠ []) (hself : env.self ∈ threadsOf env s.replication k)
    (h : ∀ p ∈ s.pendingRequests k,
      ¬(batching ∧ (threadsOf env s.replication k).length ≤ 1 ∧ p.type.isWrite)) :
    ∃ calls resp, s.Settles k (s.handlePending env freed batching k) calls resp [] ∧
      Served k (s.pendingRequests k) calls resp := by
  obtain ⟨s', calls, resp, heq, hreplies, hserved⟩ : ∃ s' calls resp,
      (s.lookUp env k).servePending env freed batching (threadsOf env s.replication k) k (s.pendingRequests k ++ []) =
        s'.servePending env freed batching (threadsOf env s.replication k) k [] ∧
      (s.lookUp env k).Replies s' calls resp ∧ Served k (s.pendingRequests k) calls resp :=
    servePending_served _ h []
  have hsettles := hreplies.settles (k := k)
  refine ⟨calls, resp, ?_, hserved⟩
  rw [append_nil, servePending] at heq
  rw [handlePending, if_neg hne, if_pos hself, heq]
  exact ⟨hsettles.pending, hsettles.executed, hsettles.queues⟩

/-- The handler of a responsible thread up to the first request it batches. -/
theorem Server.handlePending_batched {pre post : List PendingRequest} {p : PendingRequest}
    (hps : s.pendingRequests k = pre ++ p :: post) (hself : env.self ∈ threadsOf env s.replication k)
    (hb : batching = true) (hthreads : (threadsOf env s.replication k).length ≤ 1) (hw : p.type.isWrite = true)
    (hpre : ∀ q ∈ pre, ¬(batching ∧ (threadsOf env s.replication k).length ≤ 1 ∧ q.type.isWrite)) :
    ∃ calls call resp, s.Settles k (s.handlePending env freed batching k) (calls ++ [call]) resp
        [(k, { freed p with payload := "" })] ∧
      Served k pre calls resp ∧ p.Executes k call := by
  obtain ⟨s₁, calls, resp, heq, hreplies, hserved⟩ : ∃ s₁ calls resp,
      (s.lookUp env k).servePending env freed batching (threadsOf env s.replication k) k (pre ++ p :: post) =
        s₁.servePending env freed batching (threadsOf env s.replication k) k (p :: post) ∧
      (s.lookUp env k).Replies s₁ calls resp ∧ Served k pre calls resp :=
    servePending_served _ hpre (p :: post)
  obtain ⟨s', call, released, heq', hcall, hexec, hpend, hrel, hqueue, hsent⟩ : ∃ s' call released,
      s₁.serveOne env freed batching (threadsOf env s.replication k) k p = (true, s') ∧ _ :=
    s₁.serveOne_batched p hb hthreads hw
  have hne : s.pendingRequests k ≠ [] := by simp [hps]
  refine ⟨calls, call, resp, ?_, hserved, hcall⟩
  rw [servePending, heq'] at heq
  rw [handlePending, if_neg hne, if_pos hself, hps, heq]
  refine ⟨?_, ?_, released, ?_, ?_, ?_⟩
  · exact hpend.trans (by rw [hreplies.pending]; rfl)
  · exact hexec.trans (by rw [hreplies.executed, append_assoc]; rfl)
  · exact hrel.trans (by rw [hreplies.released]; rfl)
  · exact hqueue.trans (by rw [hreplies.batching]; rfl)
  · exact hsent.trans (by rw [hreplies.sent]; rfl)

variable (env freed batching) in
/-- Whatever the handler does with the pending requests of a key, it answers or batches only them. -/
theorem Server.handlePending_settles (hne : s.pendingRequests k ≠ []) :
    ∃ calls resp batched, s.Settles k (s.handlePending env freed batching k) calls resp batched ∧
      (∀ x ∈ resp, Answers k (s.pendingRequests k) x) ∧
        ∀ b ∈ batched, ∃ p ∈ s.pendingRequests k, b = (k, { freed p with payload := "" }) := by
  by_cases hself : env.self ∈ threadsOf env s.replication k
  · by_cases hb : ∃ p ∈ s.pendingRequests k, batching ∧ (threadsOf env s.replication k).length ≤ 1 ∧ p.type.isWrite
    · obtain ⟨pre, p, post, hps, ⟨hbatch, hlen, hw⟩, hpre⟩ := exists_first hb
      obtain ⟨calls, call, resp, hsettles, hserved, -⟩ := handlePending_batched hps hself hbatch hlen hw hpre
      refine ⟨_, resp, _, hsettles, fun x hx => ?_, fun b hb => ⟨p, by simp [hps], mem_singleton.mp hb⟩⟩
      obtain ⟨q, hq, hticket⟩ := hserved.answers hx
      exact ⟨q, by simp [hps, hq], hticket⟩
    · obtain ⟨calls, resp, hsettles, hserved⟩ := handlePending_served hne hself
        fun p hp h => hb ⟨p, hp, h⟩
      exact ⟨calls, resp, [], hsettles, fun x hx => hserved.answers hx, by simp⟩
  · obtain ⟨resp, hsettles, hanswers⟩ := handlePending_refused hne hself
    exact ⟨[], resp, [], hsettles, hanswers, by simp⟩

end Handler

section Served

variable {env : Environment σ K N H L} {freed : PendingRequest → PendingRequest} {policy : BatchingPolicy} {k : K}
  {s : Server σ K}

instance (m : ReplicationMap K) (p : PendingRequest) : Decidable (Server.Batches env policy m k p) :=
  inferInstanceAs (Decidable (_ ∧ _ ∧ _))

omit [DecidableEq K] in
/-- The tickets that are still missing are those of the batched request exactly if its acknowledgement is
certain and its own. -/
theorem Server.acknowledges_iff {p : PendingRequest} {ps : List PendingRequest} {calls : List (Executed K)}
    {resp : List (String × KeyResponse K)} (h : Served k ps calls resp) :
    ((resp ++ policy.acknowledgements [(k, { freed p with payload := "" })]).map KeyResponse.ticket).Perm
        (((ps ++ [p]).filter fun q => q.addr ≠ "").map ticket) ↔
      Acknowledges freed policy k p := by
  rw [map_append, h.tickets, filter_append, map_append, perm_append_left_iff]
  unfold Acknowledges BatchingPolicy.acknowledgements
  by_cases ha : p.addr = "" <;> by_cases hf : (freed p).addr = "" <;> cases policy.enableBatching <;>
    simp [batchResponse, ha, hf, KeyResponse.ticket, ticket]

omit [DecidableEq K] in
/-- Every acknowledgement is of the key. -/
theorem Server.keys_acknowledgements {x : String × KeyResponse K} {q : PendingRequest}
    (hx : x ∈ policy.acknowledgements [(k, q)]) : x.2.tuples.map KeyTuple.key = [k] := by
  unfold BatchingPolicy.acknowledgements at hx
  split_ifs at hx
  · simp only [filterMap_cons, filterMap_nil, batchResponse] at hx
    split_ifs at hx <;> simp_all
  · simp at hx

/-- The handler serves the pending requests of a key exactly under the condition. -/
theorem Server.handlePending_serves_iff (hne : s.pendingRequests k ≠ []) :
    s.ServesPending policy k (s.handlePending env freed (policy.batchingThreshold ≠ 0) k) ↔
      ServesAll env freed policy s.replication k (s.pendingRequests k) := by
  unfold ServesAll
  by_cases hself : env.self ∈ threadsOf env s.replication k
  · by_cases hb : ∃ p ∈ s.pendingRequests k, Batches env policy s.replication k p
    · obtain ⟨pre, p, post, hps, hp, hpre⟩ := exists_first hb
      obtain ⟨calls, call, resp, hsettles, hserved, hcall⟩ : ∃ calls call resp, s.Settles k
          (s.handlePending env freed (policy.batchingThreshold ≠ 0) k) (calls ++ [call]) resp _ ∧ _ :=
        handlePending_batched hps hself (by simpa using hp.1) hp.2.1 hp.2.2 fun q hq => by simpa [Batches] using hpre q hq
      have hruns : p.Runs := .inl hp.2.2
      rw [hsettles.servesPending_iff, splits_iff_of_first hps hp hpre, hps, append_cons,
        hserved.executes_iff (.cons hcall .nil)]
      constructor
      · rintro ⟨⟨hall, rfl⟩, -, htickets⟩
        rw [append_nil] at htickets
        refine ⟨hself, fun q hq => ?_, rfl, (acknowledges_iff hserved).mp htickets⟩
        rcases mem_append.mp (append_nil (pre ++ [p]) ▸ hq) with hq | hq
        · exact hall q hq
        · exact mem_singleton.mp hq ▸ hruns
      · rintro ⟨-, hall, rfl, hack⟩
        refine ⟨⟨fun q hq => hall q (by simp [hq]), rfl⟩, fun x hx => ?_, ?_⟩
        · rcases mem_append.mp hx with hx | hx
          · exact hserved.keys x hx
          · exact keys_acknowledgements hx
        · rw [append_nil]
          exact (acknowledges_iff hserved).mpr hack
    · obtain ⟨calls, resp, hsettles, hserved⟩ : ∃ calls resp, s.Settles k
          (s.handlePending env freed (policy.batchingThreshold ≠ 0) k) calls resp [] ∧ _ :=
        handlePending_served hne hself fun p hp hbatch => hb ⟨p, hp, by simpa [Batches] using hbatch⟩
      have hnone : policy.acknowledgements ([] : List (K × PendingRequest)) = [] := by
        simp [BatchingPolicy.acknowledgements]
      have hiff : (∃ qs, qs.Perm (s.pendingRequests k ++ [] ++ []) ∧
          List.Forall₂ (Executes k) qs (calls ++ [])) ↔ _ := hserved.executes_iff .nil
      simp only [append_nil, and_true] at hiff
      rw [hsettles.servesPending_iff, hiff, hnone, append_nil, hserved.tickets]
      refine ⟨fun h => ⟨hself, h.1, fun pre p post hps hp => absurd ⟨p, by simp [hps], hp⟩ hb⟩, fun h => ?_⟩
      exact ⟨h.2.1, hserved.keys, .refl _⟩
  · obtain ⟨resp, hsettles, -⟩ : ∃ resp, s.Settles k (s.handlePending env freed (policy.batchingThreshold ≠ 0) k) [] resp [] ∧
        ∀ x ∈ resp, Answers k (s.pendingRequests k) x := s.handlePending_refused hne hself
    rw [hsettles.servesPending_iff]
    refine ⟨?_, fun h => absurd h.1 hself⟩
    rintro ⟨⟨ps, hps, hexec⟩, -⟩
    obtain rfl := forall₂_nil_right_iff.mp hexec
    exact absurd hps.symm.eq_nil hne

/-- A key without pending requests is served. -/
theorem Server.handlePending_nil (h : s.pendingRequests k = []) :
    s.ServesPending policy k (s.handlePending env freed (policy.batchingThreshold ≠ 0) k) := by
  rw [handlePending, if_pos h]
  refine ⟨?_, ⟨[], [], by simp, by simp [h], .nil⟩, [], [], [], by simp, by simp, by simp, ?_, ?_⟩
  · rw [← h, Function.update_eq_self]
  · simp [BatchingPolicy.acknowledgements]
  · simp [BatchingPolicy.acknowledgements, h]

/-- After a successful replication response the pending requests of its key are all served if and only if there
is none, or the thread serves the key, each of them is a write or a read with an address, and one that is
batched is the last and its acknowledgement is certain. -/
theorem pending_requests_served_iff (env : Environment σ K N H L) (freed : PendingRequest → PendingRequest)
    (policy : BatchingPolicy) (s : Server σ K) (resp : FactorResponse K) (m : ReplicationMap K)
    (h : resp.apply env.params s.replication = some m) :
    s.ServesPending policy resp.key (s.onReplicationResponse env freed policy resp) ↔
      s.pendingRequests resp.key = [] ∨
        Server.ServesAll env freed policy m resp.key (s.pendingRequests resp.key) := by
  have hhandler : s.onReplicationResponse env freed policy resp =
      Server.handlePending env freed (policy.batchingThreshold ≠ 0) { s with replication := m } resp.key := by
    rw [Server.onReplicationResponse, Server.replicationResponseHandler, h]
  have hserves : ∀ s', s.ServesPending policy resp.key s' ↔
      Server.ServesPending policy resp.key { s with replication := m } s' :=
    fun s' => ⟨fun h => ⟨h.pending, h.executed, h.answered⟩, fun h => ⟨h.pending, h.executed, h.answered⟩⟩
  rw [hhandler, hserves]
  by_cases hnil : s.pendingRequests resp.key = []
  · exact ⟨fun _ => .inl hnil, fun _ => Server.handlePending_nil hnil⟩
  · have hiff : Server.ServesPending policy resp.key { s with replication := m }
        (Server.handlePending env freed (policy.batchingThreshold ≠ 0) { s with replication := m } resp.key) ↔ _ :=
      Server.handlePending_serves_iff hnil
    rw [hiff]
    exact ⟨.inr, fun h => h.resolve_left hnil⟩

end Served

/-- A thread with one pending write of key `1`. -/
def pendingPut : Server Unit ℕ :=
  { soloServer with pendingRequests := fun k => if k = 1 then [⟨.put, .lww, "a", "client", "r"⟩] else [] }

/-- The response that key `1` has no factors of its own. -/
def noFactors : FactorResponse ℕ := ⟨1, .keyDne, [], []⟩

/-- With batching on and memory that still reads as before, a pending write is served. -/
theorem pending_requests_served_batched :
    noFactors.apply soloEnvironment.params pendingPut.replication =
        some (pendingPut.replication.initReplication soloEnvironment.params 1) ∧
      pendingPut.ServesPending ⟨true, 5000⟩ 1
        (pendingPut.onReplicationResponse soloEnvironment id ⟨true, 5000⟩ noFactors) := by
  refine ⟨rfl, (pending_requests_served_iff _ id _ pendingPut noFactors _ rfl).mpr (.inr ⟨?_, ?_, ?_⟩)⟩
  · decide
  · decide
  · rintro pre p post hps -
    obtain ⟨rfl, rfl⟩ : pre = [] ∧ post = [] := by
      have hlen := congrArg List.length hps
      simp only [pendingPut, noFactors, List.length_append, List.length_cons] at hlen
      exact ⟨List.eq_nil_of_length_eq_zero (by simp at hlen; omega), List.eq_nil_of_length_eq_zero (by simp at hlen; omega)⟩
    exact ⟨rfl, rfl⟩

/-- With `kEnableBatching` off and the default threshold, a pending write is queued for an acknowledgement that
no timer sends. -/
theorem pending_put_not_acknowledged :
    ¬pendingPut.ServesPending ⟨false, 5000⟩ 1
      (pendingPut.onReplicationResponse soloEnvironment id ⟨false, 5000⟩ noFactors) := by
  intro h
  obtain ⟨released, resp, batched, -, -, hsent, -, htickets⟩ := h.answered
  have hnil : ([] : List (String × KeyResponse ℕ)) = [] ++ resp ++ released.filterMap Server.batchResponse := hsent
  obtain rfl : resp = [] := by simpa using (List.append_eq_nil_iff.mp hnil.symm).1
  have hlen : 0 = 1 := htickets.length_eq
  exact absurd hlen (by decide)

end Dinomo
