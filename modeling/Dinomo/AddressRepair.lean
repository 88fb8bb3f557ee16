import Dinomo.Library.Transition
import Dinomo.PendingRequests

/-!
# Repair of stale address caches

A client sends with a key the number of addresses it has cached for it.  `user_request_handler` compares the number
with that of the responsible threads and, if they differ, puts the addresses of these threads into the answer.  A
request that has to wait for a replication factor or for the end of its batch is kept without the number, and its
answer carries no addresses.

The event loop of a thread is followed with the requests that arrived and the answers that were sent, each with the
threads responsible at that time.
-/

namespace Dinomo

open List Server

variable {σ K N H L : Type*} [DecidableEq K] [DecidableEq N] [LinearOrder H] [LinearOrder L]

/-- An answer, and the threads that were responsible for each key when it was sent. -/
structure Answer (K N : Type*) where
  addr : String
  response : KeyResponse K
  threads : K → List (ServerThread N)

/-- The event loop of a thread. -/
structure KvsLoop (σ K N H L : Type*) [LinearOrder H] [LinearOrder L] where
  rings : Rings N H L
  server : Server σ K
  arrived : List (KeyRequest K)
  answers : List (Answer K N)

/-- What the event loop reacts to: a client request, a replication factor, the batching timer, and a change of the
hash rings. -/
inductive LoopEvent (K N H L : Type*) [LinearOrder H] [LinearOrder L]
  | request (req : KeyRequest K)
  | factors (resp : FactorResponse K)
  | timer
  | membership (rings : Rings N H L)

namespace KvsLoop

variable (env : Environment σ K N H L) (freed : PendingRequest → PendingRequest) (policy : BatchingPolicy)

/-- The environment with the rings as they are now. -/
def now (s : KvsLoop σ K N H L) : Environment σ K N H L := { env with rings := s.rings }

/-- Replace the server and note what it sent. -/
def serve (s : KvsLoop σ K N H L) (server : Server σ K) : KvsLoop σ K N H L :=
  { s with
    server := server
    answers := s.answers ++ (server.sent.drop s.server.sent.length).map fun x =>
      ⟨x.1, x.2, Server.threadsOf (s.now env) server.replication⟩ }

/-- One event. -/
def step (s : KvsLoop σ K N H L) : LoopEvent K N H L → Option (KvsLoop σ K N H L)
  | .request req =>
    some { s.serve env (s.server.userRequestHandler (s.now env) policy.enableBatching req) with
      arrived := s.arrived ++ [req] }
  | .factors resp => some (s.serve env (s.server.onReplicationResponse (s.now env) freed policy resp))
  | .timer => some (s.serve env (s.server.batchTimer policy))
  | .membership rings => some { s with rings := rings }

/-- The loop of a thread that has served nothing. -/
def start (rings : Rings N H L) (store : σ) (m : ReplicationMap K) : KvsLoop σ K N H L :=
  ⟨rings, ⟨store, m, fun _ => [], [], [], [], [], [], []⟩, [], []⟩

/-- A tuple of an answer repairs the address cache of a tuple of a request. -/
def Repairs (threads : List (ServerThread N)) (t tp : KeyTuple K) : Prop :=
  t.addressCacheSize ≠ 0 → t.addressCacheSize ≠ threads.length →
    tp.invalidate = true ∧ tp.ips = threads.map env.keyRequestAddress

/-- An answer goes to a request. -/
def Answer.To (a : Answer K N) (req : KeyRequest K) : Prop :=
  a.addr = req.responseAddress ∧ a.response.responseId = req.requestId

/-- Every successful answer to a data request has repaired the address cache of its client. -/
def Repaired (s : KvsLoop σ K N H L) : Prop :=
  ∀ a ∈ s.answers, ∀ req ∈ s.arrived, Answer.To a req → ∀ tp ∈ a.response.tuples, tp.error = .noError →
    ∀ t ∈ req.tuples, t.key = tp.key → env.isMetadata t.key = false → Repairs env (a.threads t.key) t tp

/-- A request has an identifier of its own and no key twice, and every data tuple with a number of cached addresses is
answered at once; and when pending requests are looked at, memory that was released still reads as before. -/
def Prompt (s : KvsLoop σ K N H L) : LoopEvent K N H L → Prop
  | .request req =>
    (∀ req' ∈ s.arrived, req'.responseAddress ≠ req.responseAddress ∨ req'.requestId ≠ req.requestId) ∧
      (req.tuples.map KeyTuple.key).Nodup ∧ ∀ t ∈ req.tuples, env.isMetadata t.key = false → t.addressCacheSize ≠ 0 →
        Server.outcome (s.now env) policy.enableBatching req.type s.server.replication t.key = .answered
  | .factors _ => ∀ p, freed p = p
  | .timer => True
  | .membership _ => True

end KvsLoop

section AtOnce

variable {env : Environment σ K N H L} {batching : Bool} {req : KeyRequest K} {s s' : Server σ K}
  {ts : List (KeyTuple K)}

/-- What the loop does at a tuple: it goes on behind an answered or pending tuple and ends at a batched one. -/
theorem Server.handleTuples_cons_cases (env : Environment σ K N H L) (batching : Bool) (req : KeyRequest K) (s : Server σ K)
    (response : List (KeyTuple K)) (t : KeyTuple K) (ts : List (KeyTuple K)) :
    (env.isMetadata t.key = true ∧ s.handleTuples env batching req response (t :: ts) =
      (s.handleMetadata env req t).2.handleTuples env batching req (response ++ [(s.handleMetadata env req t).1]) ts) ∨
    (∃ tp s', (s.lookUp env t.key).handleOwned env batching req (threadsOf env s.replication t.key) t = (some tp, s') ∧
      s.handleTuples env batching req response (t :: ts) = s'.handleTuples env batching req (response ++ [tp]) ts) ∨
    (∃ s', (s.lookUp env t.key).handleOwned env batching req (threadsOf env s.replication t.key) t = (none, s') ∧
      s.handleTuples env batching req response (t :: ts) = (none, s')) ∨
    ∃ s' : Server σ K, s'.replication = (s.lookUp env t.key).replication ∧
      s.handleTuples env batching req response (t :: ts) = s'.handleTuples env batching req response ts := by
  rw [handleTuples]
  by_cases hmeta : env.isMetadata t.key = true
  · exact .inl ⟨hmeta, if_pos hmeta⟩
  rw [if_neg hmeta]
  by_cases hself : env.self ∈ (getResponsibleThreads env.params env.hash env.rings s.replication t.key).1
  · simp only [if_pos hself, lookUp, threadsOf]
    split
    · rename_i tp s' hr
      exact .inr (.inl ⟨tp, s', hr, rfl⟩)
    · rename_i s' hr
      exact .inr (.inr (.inl ⟨s', hr, rfl⟩))
  · simp only [if_neg hself]
    refine .inr (.inr (.inr ⟨_, ?_, rfl⟩))
    rfl

/-- Handling an owned key after the lookup of its threads leaves the responsible threads. -/
theorem Server.threadsOf_handleOwned {t : KeyTuple K} {o : Option (KeyTuple K)}
    (h : (s.lookUp env t.key).handleOwned env batching req (threadsOf env s.replication t.key) t = (o, s')) (k : K) :
    threadsOf env s'.replication k = threadsOf env s.replication k := by
  have hkeep := replication_handleOwned env batching req (s.lookUp env t.key) (threadsOf env s.replication t.key) t
  rw [h] at hkeep
  rw [hkeep]
  exact threadsOf_lookup env s.replication t.key k

variable (env batching req ts) in
/-- Going through the tuples leaves the responsible threads. -/
theorem Server.threadsOf_handleTuples (response : List (KeyTuple K)) (k : K) :
    threadsOf env (s.handleTuples env batching req response ts).2.replication k = threadsOf env s.replication k := by
  induction ts generalizing s response with
  | nil => rfl
  | cons t ts ih =>
    rcases s.handleTuples_cons_cases env batching req response t ts with
      ⟨-, heq⟩ | ⟨tp, s', hr, heq⟩ | ⟨s', hr, heq⟩ | ⟨s', hr, heq⟩
    · rw [heq, ih, (s.handles_handleMetadata env req t).2.2]
    · rw [heq, ih, threadsOf_handleOwned hr]
    · rw [heq, threadsOf_handleOwned hr]
    · rw [heq, ih, hr]
      exact threadsOf_lookup env s.replication t.key k

variable (env batching req) in
/-- So does the handler. -/
theorem Server.threadsOf_userRequestHandler (k : K) :
    threadsOf env (s.userRequestHandler env batching req).replication k = threadsOf env s.replication k := by
  have h := s.threadsOf_handleTuples env batching req req.tuples [] k
  rw [userRequestHandler]
  split
  · rename_i heq
    rwa [heq] at h
  · rename_i heq
    rw [heq] at h
    split_ifs <;> exact h

/-- The tuple that answers an owned key repairs the address cache. -/
theorem Server.repairs_handleOwned {threads : List (ServerThread N)} {t tp : KeyTuple K}
    (h : s.handleOwned env batching req threads t = (some tp, s')) : tp.key = t.key ∧ KvsLoop.Repairs env threads t tp := by
  have hrepairs : ∀ tp : KeyTuple K, (withAddresses env threads t tp).key = tp.key ∧
      KvsLoop.Repairs env threads t (withAddresses env threads t tp) := by
    intro tp
    unfold withAddresses
    split_ifs with hc
    · exact ⟨rfl, fun _ _ => ⟨rfl, rfl⟩⟩
    · exact ⟨rfl, fun h0 hne => absurd ⟨Nat.pos_of_ne_zero h0, hne⟩ hc⟩
  have hread : ∀ k res, (readTuple k res : KeyTuple K).key = k := by
    intro k res
    unfold readTuple
    split_ifs <;> rfl
  simp only [handleOwned] at h
  split_ifs at h <;> simp only [Prod.mk.injEq, Option.some.injEq, reduceCtorEq, false_and] at h <;> obtain ⟨rfl, -⟩ := h
  · exact ⟨(hrepairs _).1.trans (hread _ _), (hrepairs _).2⟩
  · exact hrepairs _
  · exact hrepairs _
  · exact hrepairs _

/-- The tuples of a response answer tuples of the request and repair the address caches. -/
theorem Server.repairs_handleTuples {response response' : List (KeyTuple K)}
    (h : s.handleTuples env batching req response ts = (some response', s')) {tp : KeyTuple K} (htp : tp ∈ response') :
    tp ∈ response ∨ ∃ t ∈ ts, tp.key = t.key ∧
      (env.isMetadata t.key = false → KvsLoop.Repairs env (threadsOf env s.replication t.key) t tp) := by
  induction ts generalizing s response with
  | nil =>
    cases h
    exact .inl htp
  | cons t ts ih =>
    -- a tuple behind this one, in a state with the same responsible threads
    have hrest : ∀ {s₁ : Server σ K} {response₁ : List (KeyTuple K)},
        (∀ k, threadsOf env s₁.replication k = threadsOf env s.replication k) →
        s₁.handleTuples env batching req response₁ ts = (some response', s') → tp ∈ response₁ ∨ ∃ u ∈ t :: ts, tp.key = u.key ∧
          (env.isMetadata u.key = false → KvsLoop.Repairs env (threadsOf env s.replication u.key) u tp) := by
      intro s₁ response₁ hthreads h₁
      refine (ih h₁).imp_right ?_
      rintro ⟨u, hu, hkey, hrepairs⟩
      exact ⟨u, mem_cons_of_mem _ hu, hkey, fun hmeta => hthreads u.key ▸ hrepairs hmeta⟩
    rcases s.handleTuples_cons_cases env batching req response t ts with
      ⟨hmeta, heq⟩ | ⟨tp', s₁, hr, heq⟩ | ⟨s₁, hr, heq⟩ | ⟨s₁, hr, heq⟩
    · obtain ⟨hkey, -, hrep⟩ := s.handles_handleMetadata env req t
      rcases hrest (fun k => by rw [hrep]) (heq ▸ h) with hmem | hmem
      · rcases mem_append.mp hmem with hmem | hmem
        · exact .inl hmem
        · rw [mem_singleton.mp hmem]
          exact .inr ⟨t, mem_cons_self, hkey, fun h => by simp [hmeta] at h⟩
      · exact .inr hmem
    · obtain ⟨hkey, hrepairs⟩ := repairs_handleOwned hr
      rcases hrest (threadsOf_handleOwned hr) (heq ▸ h) with hmem | hmem
      · rcases mem_append.mp hmem with hmem | hmem
        · exact .inl hmem
        · rw [mem_singleton.mp hmem]
          exact .inr ⟨t, mem_cons_self, hkey, fun _ => hrepairs⟩
      · exact .inr hmem
    · rw [heq] at h
      cases h
    · exact hrest (fun k => by rw [hr]; exact threadsOf_lookup env s.replication t.key k) (heq ▸ h)

/-- A response of the handler goes to the request and repairs the address caches. -/
def KeyRequest.RepairedBy (env : Environment σ K N H L) (req : KeyRequest K) (m : ReplicationMap K)
    (x : String × KeyResponse K) : Prop :=
  x.1 = req.responseAddress ∧ x.2.responseId = req.requestId ∧ ∀ tp ∈ x.2.tuples, ∃ t ∈ req.tuples, tp.key = t.key ∧
    (env.isMetadata t.key = false → KvsLoop.Repairs env (Server.threadsOf env m t.key) t tp)

/-- What the handler does with a request: every tuple that is kept back has its outcome, and what is sent besides batch
acknowledgements repairs the address caches. -/
theorem Server.handles_repaired (env : Environment σ K N H L) (batching : Bool) (s : Server σ K) (req : KeyRequest K) :
    ∃ pended batched resp, s.Handles req (s.userRequestHandler env batching req) pended batched resp ∧
      (∀ t ∈ pended, outcome env batching req.type s.replication t.key = .pended) ∧
        (∀ t ∈ batched, outcome env batching req.type s.replication t.key = .batched) ∧
          ∀ x ∈ resp, req.RepairedBy env s.replication x := by
  by_cases hb : ∃ t ∈ req.tuples, outcome env batching req.type s.replication t.key = .batched
  · obtain ⟨pre, t, post, hts, ht, hpre⟩ := exists_first hb
    refine ⟨_, [t], [], s.handles_userRequestHandler_batched hts hpre ht, fun u hu => ?_, by simpa using ht, by simp⟩
    exact of_decide_eq_true (mem_filter.mp hu).2
  · have hts : ∀ t ∈ req.tuples, outcome env batching req.type s.replication t.key ≠ .batched := fun t ht hbt =>
      hb ⟨t, ht, hbt⟩
    obtain ⟨answers, s', heq, -, hh, -⟩ := s.handleTuples_all [] req.tuples hts []
    simp only [append_nil, nil_append] at heq
    rw [handleTuples] at heq
    have hrepairs : req.RepairedBy env s.replication (req.responseAddress, ⟨req.type, answers, req.requestId⟩) := by
      refine ⟨rfl, rfl, fun tp htp => ?_⟩
      simpa using repairs_handleTuples heq htp
    have hpended : ∀ t ∈ s.tuplesWith env batching req .pended req.tuples,
        outcome env batching req.type s.replication t.key = .pended := fun u hu =>
      of_decide_eq_true (mem_filter.mp hu).2
    rw [userRequestHandler, heq]
    by_cases hsend : answers ≠ [] ∧ req.responseAddress ≠ ""
    · simp only [if_pos hsend]
      have hsent : s'.Handles req (s'.send req.responseAddress ⟨req.type, answers, req.requestId⟩) [] []
          [(req.responseAddress, ⟨req.type, answers, req.requestId⟩)] := ⟨by simp [send], [], by simp [send]⟩
      exact ⟨_, [], _, by simpa using hh.trans hsent, hpended, by simp, by simpa using hrepairs⟩
    · simp only [if_neg hsend]
      exact ⟨_, [], [], hh, hpended, by simp, by simp⟩

end AtOnce

namespace KvsLoop

variable (env : Environment σ K N H L) (freed : PendingRequest → PendingRequest) (policy : BatchingPolicy)

/-- The requests that arrived under an address and an identifier have no cached addresses for a key. -/
def Unsized (s : KvsLoop σ K N H L) (k : K) (addr responseId : String) : Prop :=
  (∃ req ∈ s.arrived, addr = req.responseAddress ∧ responseId = req.requestId) ∧
    ∀ req ∈ s.arrived, addr = req.responseAddress → responseId = req.requestId →
      ∀ t ∈ req.tuples, t.key = k → env.isMetadata t.key = false → t.addressCacheSize = 0

/-- An answer goes to a request that arrived and repairs the address caches. -/
def Fine (s : KvsLoop σ K N H L) (a : Answer K N) : Prop :=
  (∃ req ∈ s.arrived, Answer.To a req) ∧ ∀ req ∈ s.arrived, Answer.To a req → ∀ tp ∈ a.response.tuples,
    ∀ t ∈ req.tuples, t.key = tp.key → env.isMetadata t.key = false → Repairs env (a.threads t.key) t tp

/-- Requests are kept back without cached addresses only, and every answer is fine. -/
structure Inv (s : KvsLoop σ K N H L) : Prop where
  pending : ∀ k, ∀ p ∈ s.server.pendingRequests k, s.Unsized env k p.addr p.responseId
  batching : ∀ b ∈ s.server.batchingRequests, s.Unsized env b.1 b.2.addr b.2.responseId
  answers : ∀ a ∈ s.answers, s.Fine env a

section Invariant

variable {env freed policy} {s s' : KvsLoop σ K N H L}

/-- An answer to a request without cached addresses is fine. -/
theorem Unsized.fine {k : K} {a : Answer K N} (h : s.Unsized env k a.addr a.response.responseId)
    (hkeys : ∀ tp ∈ a.response.tuples, tp.key = k) : s.Fine env a := by
  refine ⟨h.1, fun req hreq hto tp htp t ht hkey hmeta hsize => ?_⟩
  exact absurd (h.2 req hreq hto.1 hto.2 t ht (hkey.trans (hkeys tp htp)) hmeta) hsize

/-- The acknowledgement of a batched request without cached addresses is fine. -/
theorem Unsized.fine_batchResponse {b : K × PendingRequest} {x : String × KeyResponse K}
    {threads : K → List (ServerThread N)} (h : s.Unsized env b.1 b.2.addr b.2.responseId)
    (hx : batchResponse b = some x) : s.Fine env ⟨x.1, x.2, threads⟩ := by
  unfold batchResponse at hx
  split_ifs at hx
  cases hx
  exact Unsized.fine h (by simp)

/-- The thread goes on with a server whose queues and answers are fine. -/
theorem Inv.serve {server : Server σ K} (h : s.Inv env) (new : List (String × KeyResponse K))
    (hpending : ∀ k, ∀ p ∈ server.pendingRequests k, s.Unsized env k p.addr p.responseId)
    (hbatching : ∀ b ∈ server.batchingRequests, s.Unsized env b.1 b.2.addr b.2.responseId)
    (hsent : server.sent = s.server.sent ++ new)
    (hnew : ∀ x ∈ new, s.Fine env ⟨x.1, x.2, threadsOf (s.now env) server.replication⟩) :
    (s.serve env server).Inv env := by
  refine ⟨hpending, hbatching, fun a ha => ?_⟩
  rcases mem_append.mp ha with ha | ha
  · exact h.answers a ha
  · rw [hsent, drop_left] at ha
    obtain ⟨x, hx, rfl⟩ := mem_map.mp ha
    exact hnew x hx

/-- A request arrives. -/
def arrive (s : KvsLoop σ K N H L) (req : KeyRequest K) : KvsLoop σ K N H L := { s with arrived := s.arrived ++ [req] }

/-- A request with an identifier of its own is not among those that arrived. -/
theorem eq_of_mem_arrive {req req' : KeyRequest K} {addr responseId : String}
    (hfresh : ∀ req' ∈ s.arrived, req'.responseAddress ≠ req.responseAddress ∨ req'.requestId ≠ req.requestId)
    (hreq : addr = req.responseAddress ∧ responseId = req.requestId) (hmem : req' ∈ (s.arrive req).arrived)
    (hreq' : addr = req'.responseAddress ∧ responseId = req'.requestId) : req' = req := by
  rcases mem_append.mp hmem with hmem | hmem
  · rcases hfresh req' hmem with h | h
    · exact absurd (hreq'.1.symm.trans hreq.1) h
    · exact absurd (hreq'.2.symm.trans hreq.2) h
  · exact mem_singleton.mp hmem

/-- What is known about the requests that arrived stays true when one with an identifier of its own arrives. -/
theorem forall_mem_arrive {req : KeyRequest K} {addr responseId : String} {P : KeyRequest K → Prop}
    (hfresh : ∀ req' ∈ s.arrived, req'.responseAddress ≠ req.responseAddress ∨ req'.requestId ≠ req.requestId)
    (hknown : ∃ req ∈ s.arrived, addr = req.responseAddress ∧ responseId = req.requestId)
    (h : ∀ req ∈ s.arrived, addr = req.responseAddress ∧ responseId = req.requestId → P req) :
    ∀ req' ∈ (s.arrive req).arrived, addr = req'.responseAddress ∧ responseId = req'.requestId → P req' := by
  intro req' hreq' hto
  rcases mem_append.mp hreq' with hmem | hmem
  · exact h req' hmem hto
  · rw [mem_singleton.mp hmem] at hto
    obtain ⟨req₀, hreq₀, hto₀⟩ := hknown
    rcases hfresh req₀ hreq₀ with hne | hne
    · exact absurd (hto₀.1.symm.trans hto.1) hne
    · exact absurd (hto₀.2.symm.trans hto.2) hne

/-- A request with an identifier of its own arrives. -/
theorem Inv.arrive {req : KeyRequest K} (h : s.Inv env)
    (hfresh : ∀ req' ∈ s.arrived, req'.responseAddress ≠ req.responseAddress ∨ req'.requestId ≠ req.requestId) :
    (s.arrive req).Inv env := by
  have hunsized : ∀ {k addr responseId}, s.Unsized env k addr responseId → (s.arrive req).Unsized env k addr responseId := by
    rintro k addr responseId ⟨⟨req₀, hreq₀, hto₀⟩, hsize⟩
    refine ⟨⟨req₀, mem_append_left _ hreq₀, hto₀⟩, fun req' hreq' h₁ h₂ => ?_⟩
    exact forall_mem_arrive hfresh ⟨req₀, hreq₀, hto₀⟩ (fun req hreq hto => hsize req hreq hto.1 hto.2) req' hreq' ⟨h₁, h₂⟩
  refine ⟨fun k p hp => hunsized (h.pending k p hp), fun b hb => hunsized (h.batching b hb), fun a ha => ?_⟩
  obtain ⟨⟨req₀, hreq₀, hto₀⟩, hfine⟩ := h.answers a ha
  exact ⟨⟨req₀, mem_append_left _ hreq₀, hto₀⟩, forall_mem_arrive hfresh ⟨req₀, hreq₀, hto₀⟩ hfine⟩

/-- A request is handled. -/
theorem Inv.request {req : KeyRequest K} (h : s.Inv env) (hok : s.Prompt env freed policy (.request req)) :
    ((s.arrive req).serve env (s.server.userRequestHandler (s.now env) policy.enableBatching req)).Inv env := by
  obtain ⟨hfresh, hnodup, hprompt⟩ := hok
  have harrive := h.arrive hfresh
  obtain ⟨pended, batched, resp, hh, hpended, hbatched, hresp⟩ :=
    s.server.handles_repaired (s.now env) policy.enableBatching req
  -- a tuple that is kept back has no cached addresses
  have hkept : ∀ t : KeyTuple K, outcome (s.now env) policy.enableBatching req.type s.server.replication t.key ≠ .answered →
      (s.arrive req).Unsized env t.key req.responseAddress req.requestId := by
    intro t ht
    refine ⟨⟨req, by simp [KvsLoop.arrive], rfl, rfl⟩, fun req' hreq' h₁ h₂ u hu hkey hmeta => ?_⟩
    obtain rfl := eq_of_mem_arrive hfresh ⟨rfl, rfl⟩ hreq' ⟨h₁, h₂⟩
    by_contra hsize
    exact ht (hkey ▸ hprompt u hu hmeta hsize)
  obtain ⟨c, -, hqueue, hsent⟩ := hh.batching
  have hqueued : ∀ b ∈ c ++ (s.server.userRequestHandler (s.now env) policy.enableBatching req).batchingRequests,
      (s.arrive req).Unsized env b.1 b.2.addr b.2.responseId := by
    intro b hb
    rw [hqueue] at hb
    rcases mem_append.mp hb with hb | hb
    · exact harrive.batching b hb
    · obtain ⟨t, ht, rfl⟩ := mem_map.mp hb
      exact hkept t (by simp [hbatched t ht])
  refine harrive.serve (c.filterMap batchResponse ++ resp) (fun k p hp => ?_)
    (fun b hb => hqueued b (mem_append_right _ hb)) (by rw [hsent, append_assoc]; rfl) fun x hx => ?_
  · rw [hh.pending] at hp
    rcases mem_append.mp hp with hp | hp
    · exact harrive.pending k p hp
    · obtain ⟨t, ht, rfl⟩ := mem_map.mp hp
      obtain ⟨hmem, hkey⟩ := mem_filter.mp ht
      obtain rfl : t.key = k := by simpa using hkey
      exact hkept t (by simp [hpended t hmem])
  · rcases mem_append.mp hx with hx | hx
    · obtain ⟨b, hb, hbx⟩ := mem_filterMap.mp hx
      exact (hqueued b (mem_append_left _ hb)).fine_batchResponse hbx
    · obtain ⟨haddr, hid, htuples⟩ := hresp x hx
      refine ⟨⟨req, by simp [KvsLoop.arrive], haddr, hid⟩, fun req' hreq' hto tp htp t ht hkey hmeta => ?_⟩
      obtain rfl := eq_of_mem_arrive hfresh ⟨haddr, hid⟩ hreq' hto
      obtain ⟨u, hu, hukey, hrepairs⟩ := htuples tp htp
      obtain rfl : t = u := inj_on_of_nodup_map hnodup ht hu (hkey.trans hukey)
      have hthreads := threadsOf_userRequestHandler (s.now env) policy.enableBatching req'
        (s := s.server) t.key
      change Repairs env (threadsOf (s.now env) _ t.key) t tp
      rw [hthreads]
      exact hrepairs hmeta

/-- A replication factor arrives. -/
theorem Inv.factors {resp : FactorResponse K} (h : s.Inv env) (hfreed : ∀ p, freed p = p) :
    (s.serve env (s.server.onReplicationResponse (s.now env) freed policy resp)).Inv env := by
  have hsame : ∀ server : Server σ K, server.pendingRequests = s.server.pendingRequests →
      server.batchingRequests = s.server.batchingRequests → server.sent = s.server.sent → (s.serve env server).Inv env :=
    fun server hp hb hs => h.serve [] (hp ▸ h.pending) (hb ▸ h.batching) (by simp [hs]) (by simp)
  rw [onReplicationResponse, replicationResponseHandler]
  cases resp.apply (s.now env).params s.server.replication with
  | none =>
    simp only
    split_ifs <;> exact hsame _ rfl rfl rfl
  | some m =>
    simp only
    by_cases hne : s.server.pendingRequests resp.key = []
    · rw [handlePending, if_pos hne]
      exact hsame _ rfl rfl rfl
    obtain ⟨calls, sent, batched, hsettles, hanswers, hbatched⟩ := handlePending_settles
      (s.now env) freed (policy.batchingThreshold ≠ 0) (s := { s.server with replication := m }) hne
    obtain ⟨released, -, hqueue, hsent⟩ := hsettles.queues
    have hqueued : ∀ b ∈ s.server.batchingRequests ++ batched, s.Unsized env b.1 b.2.addr b.2.responseId := by
      intro b hb
      rcases mem_append.mp hb with hb | hb
      · exact h.batching b hb
      · obtain ⟨p, hp, rfl⟩ := hbatched b hb
        rw [hfreed]
        exact h.pending resp.key p hp
    refine h.serve (sent ++ released.filterMap batchResponse) (fun k p hp => ?_)
      (fun b hb => hqueued b (hqueue ▸ mem_append_right _ hb)) (by rw [hsent, append_assoc]) fun x hx => ?_
    · rw [hsettles.pending] at hp
      by_cases hk : k = resp.key
      · simp [hk] at hp
      · rw [Function.update_of_ne hk] at hp
        exact h.pending k p hp
    · rcases mem_append.mp hx with hx | hx
      · obtain ⟨p, hp, hticket, hkeys⟩ := hanswers x hx
        have haddr : x.1 = p.addr := congrArg Prod.fst hticket
        have hid : x.2.responseId = p.responseId := congrArg (fun y => y.2.2) hticket
        refine Unsized.fine (k := resp.key) ?_ fun tp htp => ?_
        · change s.Unsized env resp.key x.1 x.2.responseId
          rw [haddr, hid]
          exact h.pending resp.key p hp
        · have hmem : tp.key ∈ x.2.tuples.map KeyTuple.key := mem_map_of_mem htp
          rw [hkeys] at hmem
          exact mem_singleton.mp hmem
      · obtain ⟨b, hb, hbx⟩ := mem_filterMap.mp hx
        exact (hqueued b (hqueue ▸ mem_append_left _ hb)).fine_batchResponse hbx

/-- The batching timer. -/
theorem Inv.timer (h : s.Inv env) : (s.serve env (s.server.batchTimer policy)).Inv env := by
  rw [batchTimer]
  split_ifs
  · refine h.serve _ h.pending (fun b hb => nomatch hb) rfl fun x hx => ?_
    obtain ⟨b, hb, hbx⟩ := mem_filterMap.mp hx
    exact (h.batching b hb).fine_batchResponse hbx
  · exact h.serve [] h.pending h.batching (by simp) (by simp)

/-- Every event keeps the invariant. -/
theorem Inv.step {e : LoopEvent K N H L} (h : s.Inv env) (hok : s.Prompt env freed policy e)
    (hstep : s.step env freed policy e = some s') : s'.Inv env := by
  cases e with
  | request req =>
    rw [← Option.some.inj hstep]
    exact h.request hok
  | factors resp =>
    rw [← Option.some.inj hstep]
    exact h.factors hok
  | timer =>
    rw [← Option.some.inj hstep]
    exact h.timer
  | membership rings =>
    rw [← Option.some.inj hstep]
    exact ⟨h.pending, h.batching, h.answers⟩

end Invariant

/-- In every run in which requests with cached addresses are answered at once, every successful answer has repaired the
address cache of its client. -/
theorem address_caches_repaired (env : Environment σ K N H L) (freed : PendingRequest → PendingRequest)
    (policy : BatchingPolicy) (rings : Rings N H L) (store : σ) (m : ReplicationMap K) (es : List (LoopEvent K N H L))
    (s : KvsLoop σ K N H L) (hrun : Transition.run (step env freed policy) (start rings store m) es = some s)
    (hok : Transition.Guarded (step env freed policy) (Prompt env freed policy) (start rings store m) es) :
    s.Repaired env := by
  have hinit : (start rings store m : KvsLoop σ K N H L).Inv env :=
    ⟨by simp [start], by simp [start], by simp [start]⟩
  have hinv : s.Inv env := Transition.invariant_of_guarded (fun s e s' h hok hstep => h.step hok hstep) hinit hrun hok
  exact fun a ha req hreq hto tp htp _ => (hinv.answers a ha).2 req hreq hto tp htp

/-- A client that has two addresses for key `1` writes it. -/
def stalePut : KeyRequest ℕ := ⟨.put, [{ key := 1, addressCacheSize := 2, payload := "a" }], "client", "r"⟩

/-- Without batching the client gets the one address there is. -/
theorem address_caches_repaired_stalePut :
    ∃ s, Transition.run (step soloEnvironment id ⟨false, 0⟩) (start soloRings () fun _ => none) [.request stalePut] = some s ∧
      s.answers.map (fun a => a.response.tuples.map KeyTuple.ips) = [[["kvs"]]] ∧ s.Repaired soloEnvironment := by
  refine ⟨_, rfl, rfl, address_caches_repaired soloEnvironment id ⟨false, 0⟩ soloRings () (fun _ => none)
    [.request stalePut] _ rfl ⟨⟨?_, by decide, ?_⟩, trivial⟩⟩
  · intro req' hreq'
    cases hreq'
  · intro t ht _ _
    rw [List.mem_singleton.mp ht]
    decide

/-- The factors under which no thread serves key `1`. -/
def unserved : ReplicationMap ℕ := fun k => if k = 1 then some .zero else none

/-- The same write, batched and acknowledged by the timer, and the same write, answered after the key's factors arrived:
the client keeps its two addresses. -/
theorem late_answers_not_repaired :
    (∃ s, Transition.run (step soloEnvironment id ⟨true, 0⟩) (start soloRings () fun _ => none)
        [.request stalePut, .timer] = some s ∧ ¬ s.Repaired soloEnvironment) ∧
    ∃ s, Transition.run (step soloEnvironment id ⟨false, 0⟩) (start soloRings () unserved)
        [.request stalePut, .factors ⟨1, .keyDne, [], []⟩] = some s ∧ ¬ s.Repaired soloEnvironment := by
  refine ⟨⟨_, rfl, fun h => ?_⟩, _, rfl, fun h => ?_⟩
  all_goals
    have hrepairs := h _ List.mem_cons_self stalePut List.mem_cons_self ⟨rfl, rfl⟩ _ List.mem_cons_self rfl
      { key := 1, addressCacheSize := 2, payload := "a" } List.mem_cons_self rfl rfl
    exact absurd (hrepairs (by decide) (by decide)).1 (by decide)

end KvsLoop

end Dinomo
