import Dinomo.Server
import Mathlib.Data.List.Count

/-!
# Client requests

`user_request_handler` goes through the tuples of a request.  A tuple with a metadata key or with a key the
thread is responsible for gets an entry in the response; a key of another thread makes the tuple pending;
with batching, a write of a key that only this thread serves is kept back for the batch acknowledgement,
and the handler returns there and then.
-/

namespace Dinomo

open List

variable {σ K N H L : Type*} [DecidableEq K] [DecidableEq N] [LinearOrder H] [LinearOrder L]

/-- The request types that write. -/
def RequestType.isWrite : RequestType → Bool
  | .put => true
  | .insert => true
  | .update => true
  | _ => false

/-- The request types that read. -/
def RequestType.isRead : RequestType → Bool
  | .get => true
  | .read => true
  | _ => false

/-- A tuple of a request as a pending request. -/
def KeyRequest.toPending (req : KeyRequest K) (t : KeyTuple K) : PendingRequest :=
  ⟨req.type, t.latticeType, t.payload, req.responseAddress, req.requestId⟩

/-- A tuple of a request as a batched request. -/
def KeyRequest.toBatched (req : KeyRequest K) (t : KeyTuple K) : K × PendingRequest :=
  (t.key, ⟨req.type, t.latticeType, "", req.responseAddress, req.requestId⟩)

namespace Server

variable (env : Environment σ K N H L)

/-- The tuple of a metadata key. -/
def handleMetadata (s : Server σ K) (req : KeyRequest K) (tuple : KeyTuple K) : KeyTuple K × Server σ K :=
  if req.type.isRead then
    let got := s.processGetMeta env tuple.key
    (readTuple tuple.key got.1, got.2.recordAccess tuple.key)
  else if req.type.isWrite then
    ({ key := tuple.key, latticeType := tuple.latticeType },
      (s.processPutMeta env tuple.key tuple.payload).recordAccess tuple.key)
  else ({ key := tuple.key }, s.recordAccess tuple.key)

/-- A client whose address cache has another size gets the addresses of the responsible threads. -/
def withAddresses (threads : List (ServerThread N)) (tuple tp : KeyTuple K) : KeyTuple K :=
  if 0 < tuple.addressCacheSize ∧ tuple.addressCacheSize ≠ threads.length then
    { tp with invalidate := true, ips := threads.map env.keyRequestAddress }
  else tp

/-- The tuple of a key this thread is responsible for; `none` if the handler returns. -/
def handleOwned (batching : Bool) (s : Server σ K) (req : KeyRequest K) (threads : List (ServerThread N))
    (tuple : KeyTuple K) : Option (KeyTuple K) × Server σ K :=
  if req.type.isRead then
    let got := s.processGet env (1 < threads.length) tuple.key
    (some (withAddresses env threads tuple (readTuple tuple.key got.1)), got.2.recordAccess tuple.key)
  else if req.type.isWrite then
    let tp := withAddresses env threads tuple { key := tuple.key, latticeType := tuple.latticeType }
    if 1 < threads.length then
      (some tp, (s.processWriteReplicated env (req.type = .update) tuple.key tuple.payload).recordAccess tuple.key)
    else
      let put := s.processWrite env (req.type = .update) tuple.key tuple.payload
      let s' := put.2.recordAccess tuple.key
      if batching then
        (none, (if put.1 then s'.responseBatchingRequests else s').pushBatching tuple.key (req.toBatched tuple).2)
      else (some tp, s')
  else (some (withAddresses env threads tuple { key := tuple.key }), s.recordAccess tuple.key)

/-- The loop over the tuples; `none` if the handler returned. -/
def handleTuples (batching : Bool) (req : KeyRequest K) :
    Server σ K → List (KeyTuple K) → List (KeyTuple K) → Option (List (KeyTuple K)) × Server σ K
  | s, response, [] => (some response, s)
  | s, response, tuple :: tuples =>
    if env.isMetadata tuple.key then
      let done := s.handleMetadata env req tuple
      handleTuples batching req done.2 (response ++ [done.1]) tuples
    else
      let found := getResponsibleThreads env.params env.hash env.rings s.replication tuple.key
      let s' := { s with replication := found.2 }
      if env.self ∈ found.1 then
        match s'.handleOwned env batching req found.1 tuple with
        | (some tp, s'') => handleTuples batching req s'' (response ++ [tp]) tuples
        | (none, s'') => (none, s'')
      else
        handleTuples batching req
          { s' with
            issued := s'.issued ++ [tuple.key]
            pendingRequests := Function.update s'.pendingRequests tuple.key
              (s'.pendingRequests tuple.key ++ [req.toPending tuple]) }
          response tuples

/-- `user_request_handler`. -/
def userRequestHandler (batching : Bool) (s : Server σ K) (req : KeyRequest K) : Server σ K :=
  match s.handleTuples env batching req [] req.tuples with
  | (none, s') => s'
  | (some response, s') =>
    if response ≠ [] ∧ req.responseAddress ≠ "" then
      s'.send req.responseAddress ⟨req.type, response, req.requestId⟩
    else s'

end Server

/-- What becomes of a tuple. -/
inductive Outcome
  | answered
  | pended
  | batched
deriving DecidableEq, Repr

/-- The tuples with an outcome. -/
def select (kinds : List Outcome) (o : Outcome) (tuples : List (KeyTuple K)) : List (KeyTuple K) :=
  (tuples.zip kinds).filterMap fun x => if x.2 = o then some x.1 else none

/-- The answered tuples of a request are in the one response that is sent. -/
def KeyRequest.Responds (req : KeyRequest K) (answered : List (KeyTuple K)) (resp : List (String × KeyResponse K)) :
    Prop :=
  (answered = [] ∧ resp = []) ∨ (req.responseAddress ≠ "" ∧ ∃ tuples, tuples.map KeyTuple.key = answered.map KeyTuple.key ∧
    resp = [(req.responseAddress, ⟨req.type, tuples, req.requestId⟩)])

/-- Between two states the tuples `pended` of a request became pending and the tuples `batched` were kept back
for the batch acknowledgement; besides `resp` only batch acknowledgements were sent. -/
structure Server.Handles (req : KeyRequest K) (s s' : Server σ K) (pended batched : List (KeyTuple K))
    (resp : List (String × KeyResponse K)) : Prop where
  pending : ∀ k, s'.pendingRequests k =
    s.pendingRequests k ++ (pended.filter fun t => t.key = k).map req.toPending
  batching : ∃ c, s'.released = s.released ++ c ∧ c ++ s'.batchingRequests = s.batchingRequests ++ batched.map req.toBatched ∧
    s'.sent = s.sent ++ c.filterMap Server.batchResponse ++ resp

/-- Every tuple of the request has exactly one outcome: an entry in the response that is sent, an entry in
`pending_requests`, or an entry in `batching_requests`. -/
def Server.ServesEach (req : KeyRequest K) (s s' : Server σ K) : Prop :=
  ∃ kinds : List Outcome, kinds.length = req.tuples.length ∧ ∃ resp,
    req.Responds (select kinds .answered req.tuples) resp ∧
      s.Handles req s' (select kinds .pended req.tuples) (select kinds .batched req.tuples) resp

namespace Server

variable (env : Environment σ K N H L)

/-- The threads responsible for a key. -/
def threadsOf (m : ReplicationMap K) (k : K) : List (ServerThread N) :=
  (getResponsibleThreads env.params env.hash env.rings m k).1

/-- The outcome the handler gives to a key of a request. -/
def outcome (batching : Bool) (type : RequestType) (m : ReplicationMap K) (k : K) : Outcome :=
  if env.isMetadata k then .answered
  else if env.self ∈ threadsOf env m k then
    if batching ∧ type.isWrite ∧ (threadsOf env m k).length ≤ 1 then .batched else .answered
  else .pended

/-- Looking up a key leaves the responsible threads of every key as they are. -/
theorem threadsOf_lookup (m : ReplicationMap K) (j k : K) :
    threadsOf env (getResponsibleThreads env.params env.hash env.rings m j).2 k = threadsOf env m k := by
  simp only [threadsOf, getResponsibleThreads_fst, getResponsibleThreads_snd]

/-- Looking up a key leaves the outcomes as they are. -/
theorem outcome_lookup (batching : Bool) (type : RequestType) (m : ReplicationMap K) (j k : K) :
    outcome env batching type (getResponsibleThreads env.params env.hash env.rings m j).2 k =
      outcome env batching type m k := by
  simp only [outcome, threadsOf_lookup]

end Server

namespace Server.Handles

variable {req : KeyRequest K} {s s' s'' : Server σ K} {pended pended' batched batched' : List (KeyTuple K)}

omit [DecidableEq N] [LinearOrder H] [LinearOrder L] in
/-- A step that touches none of the queues. -/
theorem of_eq (hp : s'.pendingRequests = s.pendingRequests) (hb : s'.batchingRequests = s.batchingRequests)
    (hr : s'.released = s.released) (hs : s'.sent = s.sent) : s.Handles req s' [] [] [] :=
  ⟨by simp [hp], [], by simp [hr], by simp [hb], by simp [hs]⟩

/-- One step after another. -/
theorem trans (h : s.Handles req s' pended batched []) {resp : List (String × KeyResponse K)}
    (h' : s'.Handles req s'' pended' batched' resp) : s.Handles req s'' (pended ++ pended') (batched ++ batched') resp := by
  obtain ⟨c, hr, hb, hs⟩ := h.batching
  obtain ⟨c', hr', hb', hs'⟩ := h'.batching
  refine ⟨fun k => ?_, c ++ c', ?_, ?_, ?_⟩
  · rw [h'.pending, h.pending, filter_append, map_append, append_assoc]
  · rw [hr', hr, append_assoc]
  · rw [append_assoc, hb', ← append_assoc, hb, map_append, append_assoc]
  · rw [hs', hs, filterMap_append]
    simp

end Server.Handles

section Loop

variable {env : Environment σ K N H L} {batching : Bool} {req : KeyRequest K} {s : Server σ K}

/-- Metadata is handled without the queues. -/
theorem Server.handles_handleMetadata (env : Environment σ K N H L) (req : KeyRequest K) (s : Server σ K)
    (tuple : KeyTuple K) :
    (s.handleMetadata env req tuple).1.key = tuple.key ∧
      s.Handles req (s.handleMetadata env req tuple).2 [] [] [] ∧
        (s.handleMetadata env req tuple).2.replication = s.replication := by
  unfold handleMetadata
  split_ifs
  · refine ⟨?_, .of_eq rfl rfl rfl rfl, rfl⟩
    simp only [readTuple]
    split_ifs <;> rfl
  · exact ⟨rfl, .of_eq rfl rfl rfl rfl, rfl⟩
  · exact ⟨rfl, .of_eq rfl rfl rfl rfl, rfl⟩

/-- A tuple of an owned key gets an entry in the response unless it is batched. -/
theorem Server.handles_handleOwned (env : Environment σ K N H L) (req : KeyRequest K) (s : Server σ K)
    {threads : List (ServerThread N)} (tuple : KeyTuple K)
    (hb : ¬ (batching = true ∧ req.type.isWrite = true ∧ threads.length ≤ 1)) :
    ∃ tp s', s.handleOwned env batching req threads tuple = (some tp, s') ∧ tp.key = tuple.key ∧
      s.Handles req s' [] [] [] ∧ s'.replication = s.replication := by
  have haddr : ∀ tp : KeyTuple K, (withAddresses env threads tuple tp).key = tp.key := by
    intro tp
    simp only [withAddresses]
    split_ifs <;> rfl
  unfold handleOwned
  split_ifs with hread hwrite hrepl hbatch
  · refine ⟨_, _, rfl, ?_, .of_eq rfl rfl rfl rfl, rfl⟩
    rw [haddr, readTuple]
    split_ifs <;> rfl
  · exact ⟨_, _, rfl, haddr _, .of_eq rfl rfl rfl rfl, rfl⟩
  · exact absurd ⟨hbatch, hwrite, Nat.le_of_not_lt hrepl⟩ hb
  · exact ⟨_, _, rfl, haddr _, .of_eq rfl rfl rfl rfl, rfl⟩
  · exact ⟨_, _, rfl, haddr _, .of_eq rfl rfl rfl rfl, rfl⟩

/-- Handling a tuple leaves the replication factors. -/
theorem Server.replication_handleOwned (env : Environment σ K N H L) (batching : Bool) (req : KeyRequest K)
    (s : Server σ K) (threads : List (ServerThread N)) (tuple : KeyTuple K) :
    (s.handleOwned env batching req threads tuple).2.replication = s.replication := by
  simp only [handleOwned]
  split_ifs <;> rfl

/-- A batched write ends the handler. -/
theorem Server.handles_batched (env : Environment σ K N H L) (req : KeyRequest K) (s : Server σ K)
    {threads : List (ServerThread N)} (tuple : KeyTuple K)
    (hb : batching = true ∧ req.type.isWrite = true ∧ threads.length ≤ 1) :
    ∃ s', s.handleOwned env batching req threads tuple = (none, s') ∧ s.Handles req s' [] [tuple] [] := by
  obtain ⟨rfl, hwrite, hlen⟩ := hb
  have hread : ¬ req.type.isRead = true := by
    cases hty : req.type <;> simp [hty, RequestType.isWrite, RequestType.isRead] at hwrite ⊢
  unfold handleOwned
  rw [if_neg hread, if_pos hwrite, if_neg (Nat.not_lt.mpr hlen), if_pos rfl]
  refine ⟨_, rfl, fun k => ?_, ?_⟩
  · split_ifs <;> simp [pushBatching, responseBatchingRequests, recordAccess, processWrite]
  · split_ifs
    · exact ⟨s.batchingRequests, rfl, rfl, by simp [pushBatching, responseBatchingRequests, recordAccess, processWrite]⟩
    · exact ⟨[], by simp [pushBatching, recordAccess, processWrite], rfl, by simp [pushBatching, recordAccess, processWrite]⟩

/-- The loop at a tuple that gets an entry in the response. -/
theorem Server.handleTuples_answered {t : KeyTuple K} (response ts : List (KeyTuple K))
    (ht : outcome env batching req.type s.replication t.key = .answered) :
    ∃ tp s', tp.key = t.key ∧ s.handleTuples env batching req response (t :: ts) =
      s'.handleTuples env batching req (response ++ [tp]) ts ∧ s.Handles req s' [] [] [] ∧
        ∀ k, outcome env batching req.type s'.replication k = outcome env batching req.type s.replication k := by
  unfold outcome threadsOf at ht
  split_ifs at ht with hmeta hself hbatch
  · obtain ⟨hkey, hh, hrep⟩ := s.handles_handleMetadata env req t
    refine ⟨_, _, hkey, ?_, hh, fun k => by rw [hrep]⟩
    rw [handleTuples, if_pos hmeta]
  · obtain ⟨tp, s', heq, hkey, hh, hrep⟩ := Server.handles_handleOwned env req
      { s with replication := (getResponsibleThreads env.params env.hash env.rings s.replication t.key).2 } t hbatch
    refine ⟨tp, s', hkey, ?_, ⟨hh.pending, hh.batching⟩, fun k => ?_⟩
    · rw [handleTuples, if_neg hmeta]
      simp only [if_pos hself, heq]
    · rw [hrep]
      exact outcome_lookup env ..

/-- The loop at a tuple that becomes pending. -/
theorem Server.handleTuples_pended {t : KeyTuple K} (response ts : List (KeyTuple K))
    (ht : outcome env batching req.type s.replication t.key = .pended) :
    ∃ s', s.handleTuples env batching req response (t :: ts) = s'.handleTuples env batching req response ts ∧
      s.Handles req s' [t] [] [] ∧
        ∀ k, outcome env batching req.type s'.replication k = outcome env batching req.type s.replication k := by
  unfold outcome threadsOf at ht
  split_ifs at ht with hmeta hself
  refine ⟨_, by rw [handleTuples, if_neg hmeta]; simp only [if_neg hself]; rfl, ⟨fun k => ?_, [], ?_⟩, fun k => ?_⟩
  · by_cases hk : t.key = k
    · subst hk
      simp
    · simp [Function.update_of_ne (Ne.symm hk), hk]
  · simp
  · exact outcome_lookup env ..

/-- The loop at a batched write. -/
theorem Server.handleTuples_batched {t : KeyTuple K} (response ts : List (KeyTuple K))
    (ht : outcome env batching req.type s.replication t.key = .batched) :
    ∃ s', s.handleTuples env batching req response (t :: ts) = (none, s') ∧ s.Handles req s' [] [t] [] := by
  unfold outcome threadsOf at ht
  split_ifs at ht with hmeta hself hbatch
  obtain ⟨s', heq, hh⟩ := Server.handles_batched env req
    { s with replication := (getResponsibleThreads env.params env.hash env.rings s.replication t.key).2 } t hbatch
  refine ⟨s', ?_, ⟨hh.pending, hh.batching⟩⟩
  rw [handleTuples, if_neg hmeta]
  simp only [if_pos hself, heq]

/-- The tuples a request gives an outcome. -/
def Server.tuplesWith (env : Environment σ K N H L) (batching : Bool) (req : KeyRequest K) (s : Server σ K) (o : Outcome)
    (ts : List (KeyTuple K)) : List (KeyTuple K) :=
  ts.filter fun t => outcome env batching req.type s.replication t.key = o

/-- The loop over tuples none of which is batched. -/
theorem Server.handleTuples_all (response ts : List (KeyTuple K))
    (hts : ∀ t ∈ ts, outcome env batching req.type s.replication t.key ≠ .batched) (rest : List (KeyTuple K)) :
    ∃ answers s', s.handleTuples env batching req response (ts ++ rest) =
        s'.handleTuples env batching req (response ++ answers) rest ∧
      answers.map KeyTuple.key = (s.tuplesWith env batching req .answered ts).map KeyTuple.key ∧
        s.Handles req s' (s.tuplesWith env batching req .pended ts) [] [] ∧
          ∀ k, outcome env batching req.type s'.replication k = outcome env batching req.type s.replication k := by
  induction ts generalizing s response with
  | nil => exact ⟨[], s, by simp, rfl, .of_eq rfl rfl rfl rfl, fun _ => rfl⟩
  | cons t ts ih =>
    have htail : ∀ u ∈ ts, outcome env batching req.type s.replication u.key ≠ .batched := fun u hu =>
      hts u (mem_cons_of_mem _ hu)
    cases ht : outcome env batching req.type s.replication t.key with
    | answered =>
      obtain ⟨tp, s₁, hkey, heq, hh, hout⟩ := s.handleTuples_answered response (ts ++ rest) ht
      obtain ⟨answers, s', heq', hans, hh', hout'⟩ := ih (response ++ [tp]) fun u hu => by rw [hout]; exact htail u hu
      refine ⟨tp :: answers, s', ?_, ?_, ?_, fun k => (hout' k).trans (hout k)⟩
      · rw [cons_append, heq, heq', append_assoc, singleton_append]
      · simp only [tuplesWith, hout] at hans
        simp [tuplesWith, ht, hkey, hans]
      · have := hh.trans hh'
        simpa [tuplesWith, hout, ht] using this
    | pended =>
      obtain ⟨s₁, heq, hh, hout⟩ := s.handleTuples_pended response (ts ++ rest) ht
      obtain ⟨answers, s', heq', hans, hh', hout'⟩ := ih response fun u hu => by rw [hout]; exact htail u hu
      refine ⟨answers, s', ?_, ?_, ?_, fun k => (hout' k).trans (hout k)⟩
      · rw [cons_append, heq, heq']
      · simp only [tuplesWith, hout] at hans
        simp [tuplesWith, ht, hans]
      · have := hh.trans hh'
        simpa [tuplesWith, hout, ht] using this
    | batched => exact absurd ht (hts t mem_cons_self)

end Loop

section Outcomes

omit [DecidableEq K] in
/-- A labelling by key selects the tuples of a label. -/
theorem select_map (f : KeyTuple K → Outcome) (o : Outcome) (ts : List (KeyTuple K)) :
    select (ts.map f) o ts = ts.filter fun t => f t = o := by
  induction ts with
  | nil => rfl
  | cons t ts ih =>
    simp only [select, map_cons, zip_cons_cons, filterMap_cons] at ih ⊢
    by_cases ht : f t = o <;> simp [ht, ih]

omit [DecidableEq K] in
/-- Every tuple has one of the three labels. -/
theorem countP_select (p : KeyTuple K → Bool) {kinds : List Outcome} {ts : List (KeyTuple K)}
    (hlen : kinds.length = ts.length) :
    ts.countP p = (select kinds .answered ts).countP p + (select kinds .pended ts).countP p +
      (select kinds .batched ts).countP p := by
  induction ts generalizing kinds with
  | nil => simp [select]
  | cons t ts ih =>
    cases kinds with
    | nil => simp at hlen
    | cons o kinds =>
      have := ih (Nat.succ.inj hlen)
      simp only [select] at this
      cases o <;> simp [select, countP_cons, this] <;> omega

variable {req : KeyRequest K} {s s' : Server σ K} {pended pended' batched batched' : List (KeyTuple K)}
  {resp resp' : List (String × KeyResponse K)}

/-- What was done to the queues between two states is determined by them. -/
theorem Server.Handles.unique (h : s.Handles req s' pended batched resp) (h' : s.Handles req s' pended' batched' resp')
    (k : K) : resp = resp' ∧ pended.countP (fun t => t.key = k) = pended'.countP (fun t => t.key = k) ∧
      batched.countP (fun t => t.key = k) = batched'.countP (fun t => t.key = k) := by
  obtain ⟨c, hr, hb, hs⟩ := h.batching
  obtain ⟨c', hr', hb', hs'⟩ := h'.batching
  obtain rfl : c = c' := append_cancel_left (hr.symm.trans hr')
  refine ⟨append_cancel_left (hs.symm.trans hs'), ?_, ?_⟩
  · have hp := congrArg List.length (append_cancel_left ((h.pending k).symm.trans (h'.pending k)))
    simpa [countP_eq_length_filter] using hp
  · have hlist := append_cancel_left (hb.symm.trans hb')
    have hcount : ∀ l : List (KeyTuple K), (l.map req.toBatched).countP (fun x => x.1 = k) =
        l.countP fun t => t.key = k := fun l => by
      rw [countP_map]
      rfl
    rw [← hcount, ← hcount, hlist]

end Outcomes

section Splits

variable {α : Type*} {P : α → Prop} {l : List α}

/-- The first entry with a property. -/
theorem exists_first [DecidablePred P] (h : ∃ a ∈ l, P a) :
    ∃ pre a post, l = pre ++ a :: post ∧ P a ∧ ∀ b ∈ pre, ¬P b := by
  obtain ⟨a, ha⟩ := Option.isSome_iff_exists.mp (List.find?_isSome.mpr (by simpa using h) : (l.find? (P ·)).isSome)
  obtain ⟨hp, pre, post, rfl, hpre⟩ := List.find?_eq_some_iff_append.mp ha
  exact ⟨pre, a, post, rfl, by simpa using hp, by simpa using hpre⟩

/-- If every entry with a property is the last one, so is the first. -/
theorem splits_iff_of_first {Q : List α → α → Prop} {pre post : List α} {a : α} (hl : l = pre ++ a :: post) (ha : P a)
    (hpre : ∀ b ∈ pre, ¬P b) :
    (∀ pre' b post', l = pre' ++ b :: post' → P b → post' = [] ∧ Q pre' b) ↔ post = [] ∧ Q pre a := by
  refine ⟨fun h => h pre a post hl ha, ?_⟩
  rintro ⟨rfl, hq⟩ pre' b post' hl' hb
  rw [hl] at hl'
  rcases post'.eq_nil_or_concat with rfl | ⟨post', x, rfl⟩
  · obtain ⟨rfl, heq⟩ := append_inj' hl' rfl
    obtain rfl := singleton_inj.mp heq
    exact ⟨rfl, hq⟩
  · rw [concat_eq_append, ← cons_append, ← append_assoc] at hl'
    obtain ⟨rfl, -⟩ := append_inj' hl' rfl
    exact absurd hb (hpre b (by simp))

end Splits

section Served

variable (env : Environment σ K N H L) (batching : Bool) (s : Server σ K) (req : KeyRequest K)

/-- A batched write is the last tuple and the tuples before it all become pending; and a request with an entry
in the response has an address to send it to. -/
def Server.KeepsOutcomes : Prop :=
  (∀ pre t post, req.tuples = pre ++ t :: post → outcome env batching req.type s.replication t.key = .batched →
    post = [] ∧ ∀ u ∈ pre, outcome env batching req.type s.replication u.key = .pended) ∧
  ((∃ t ∈ req.tuples, outcome env batching req.type s.replication t.key = .answered) → req.responseAddress ≠ "")

variable {env batching s req}

/-- What the handler does to a request up to its first batched write. -/
theorem Server.handles_userRequestHandler_batched {pre post : List (KeyTuple K)} {t : KeyTuple K}
    (hts : req.tuples = pre ++ t :: post)
    (hpre : ∀ u ∈ pre, outcome env batching req.type s.replication u.key ≠ .batched)
    (ht : outcome env batching req.type s.replication t.key = .batched) :
    s.Handles req (s.userRequestHandler env batching req) (s.tuplesWith env batching req .pended pre) [t] [] := by
  obtain ⟨answers, s₁, heq, -, hh, hout⟩ := s.handleTuples_all [] pre hpre (t :: post)
  obtain ⟨s', heq', hh'⟩ := s₁.handleTuples_batched ([] ++ answers) post (by rw [hout]; exact ht)
  rw [userRequestHandler, hts, heq, heq']
  simpa using hh.trans hh'

/-- What the handler does to a request without a batched write. -/
theorem Server.handles_userRequestHandler (hts : ∀ t ∈ req.tuples, outcome env batching req.type s.replication t.key ≠ .batched) :
    ∃ resp, s.Handles req (s.userRequestHandler env batching req) (s.tuplesWith env batching req .pended req.tuples) []
        resp ∧
      (req.responseAddress ≠ "" → req.Responds (s.tuplesWith env batching req .answered req.tuples) resp) ∧
        (req.responseAddress = "" → resp = []) := by
  obtain ⟨answers, s', heq, hans, hh, -⟩ := s.handleTuples_all [] req.tuples hts []
  simp only [append_nil, nil_append] at heq
  rw [handleTuples] at heq
  rw [userRequestHandler, heq]
  by_cases hsend : answers ≠ [] ∧ req.responseAddress ≠ ""
  · simp only [if_pos hsend]
    have hsent : s'.Handles req (s'.send req.responseAddress ⟨req.type, answers, req.requestId⟩) [] []
        [(req.responseAddress, ⟨req.type, answers, req.requestId⟩)] :=
      ⟨by simp [send], [], by simp [send]⟩
    refine ⟨_, by simpa using hh.trans hsent, fun haddr => .inr ⟨haddr, answers, hans, rfl⟩, fun haddr => ?_⟩
    exact absurd haddr hsend.2
  · simp only [if_neg hsend]
    refine ⟨[], by simpa using hh, fun haddr => .inl ⟨?_, rfl⟩, fun _ => rfl⟩
    have hnil : answers = [] := by
      by_contra hne
      exact hsend ⟨hne, haddr⟩
    rw [hnil, map_nil] at hans
    exact map_eq_nil_iff.mp hans.symm

/-- Counted by key, every tuple of a request that is served is in the response, pending or batched. -/
theorem Server.ServesEach.count {s' : Server σ K} {pended batched : List (KeyTuple K)}
    {resp : List (String × KeyResponse K)} (h : s.ServesEach req s') (hh : s.Handles req s' pended batched resp) (k : K) :
    ∃ answered, req.Responds answered resp ∧ req.tuples.countP (fun t => t.key = k) =
      answered.countP (fun t => t.key = k) + pended.countP (fun t => t.key = k) + batched.countP fun t => t.key = k := by
  obtain ⟨kinds, hlen, resp', hresp, hh'⟩ := h
  obtain ⟨rfl, hp, hb⟩ := hh.unique hh' k
  exact ⟨_, hresp, by rw [countP_select _ hlen, hp, hb]⟩

/-- The outcome of a tuple is that of its key. -/
theorem Server.countP_tuplesWith {t : KeyTuple K} {o : Outcome} (ts : List (KeyTuple K))
    (ht : outcome env batching req.type s.replication t.key ≠ o) :
    (s.tuplesWith env batching req o ts).countP (fun u => u.key = t.key) = 0 := by
  refine countP_eq_zero.mpr fun u hu hkey => ht ?_
  rw [← of_decide_eq_true hkey]
  exact of_decide_eq_true (mem_filter.mp hu).2

/-- The tuples with an outcome are among the tuples. -/
theorem Server.countP_tuplesWith_le (o : Outcome) (ts : List (KeyTuple K)) (k : K) :
    (s.tuplesWith env batching req o ts).countP (fun u => u.key = k) ≤ ts.countP fun u => u.key = k :=
  filter_sublist.countP_le

/-- A request whose tuples all get their outcome and of which one is batched. -/
theorem Server.batched_last_of_servesEach (h : s.ServesEach req (s.userRequestHandler env batching req))
    {pre post : List (KeyTuple K)} {t : KeyTuple K} (hts : req.tuples = pre ++ t :: post)
    (hpre : ∀ u ∈ pre, outcome env batching req.type s.replication u.key ≠ .batched)
    (ht : outcome env batching req.type s.replication t.key = .batched) :
    post = [] ∧ ∀ u ∈ pre, outcome env batching req.type s.replication u.key = .pended := by
  have hcount : ∀ k, pre.countP (fun u => u.key = k) + post.countP (fun u => u.key = k) =
      (s.tuplesWith env batching req .pended pre).countP fun u => u.key = k := by
    intro k
    obtain ⟨answered, hans, hc⟩ := h.count (s.handles_userRequestHandler_batched hts hpre ht) k
    rcases hans with ⟨rfl, -⟩ | ⟨-, _, -, hne⟩
    · simp only [hts, countP_append, countP_cons, countP_nil] at hc
      omega
    · cases hne
  refine ⟨eq_nil_iff_forall_not_mem.mpr fun u hu => ?_, fun u hu => ?_⟩
  · have hpos : 0 < post.countP fun v => v.key = u.key := countP_pos_iff.mpr ⟨u, hu, by simp⟩
    have hle : (s.tuplesWith env batching req .pended pre).countP (fun v => v.key = u.key) ≤
        pre.countP fun v => v.key = u.key := s.countP_tuplesWith_le .pended pre u.key
    have := hcount u.key
    omega
  · by_contra hne
    have hpos : 0 < pre.countP fun v => v.key = u.key := countP_pos_iff.mpr ⟨u, hu, by simp⟩
    have hzero := s.countP_tuplesWith pre hne
    have := hcount u.key
    omega

/-- A request whose tuples all get their outcome and of which none is batched. -/
theorem Server.address_of_servesEach (h : s.ServesEach req (s.userRequestHandler env batching req))
    (hts : ∀ t ∈ req.tuples, outcome env batching req.type s.replication t.key ≠ .batched) {t : KeyTuple K}
    (hmem : t ∈ req.tuples) (ht : outcome env batching req.type s.replication t.key = .answered) :
    req.responseAddress ≠ "" := by
  intro haddr
  obtain ⟨resp, hh, -, hresp⟩ := s.handles_userRequestHandler hts
  obtain ⟨answered, hans, hc⟩ := h.count hh t.key
  rcases hans with ⟨rfl, -⟩ | ⟨hne, -⟩
  · have hpos : 0 < req.tuples.countP fun v => v.key = t.key := countP_pos_iff.mpr ⟨t, hmem, by simp⟩
    have hpended : outcome env batching req.type s.replication t.key ≠ .pended := by simp [ht]
    have hzero := s.countP_tuplesWith req.tuples hpended
    simp only [countP_nil] at hc
    omega
  · exact hne haddr

/-- A request whose tuples all get their outcome meets the condition. -/
theorem Server.keepsOutcomes_of_servesEach (h : s.ServesEach req (s.userRequestHandler env batching req)) :
    s.KeepsOutcomes env batching req := by
  by_cases hb : ∃ t ∈ req.tuples, outcome env batching req.type s.replication t.key = .batched
  · obtain ⟨pre, t, post, hts, ht, hpre⟩ := exists_first hb
    obtain ⟨rfl, hpended⟩ := s.batched_last_of_servesEach h hts hpre ht
    refine ⟨(splits_iff_of_first hts ht hpre).mpr ⟨rfl, hpended⟩, ?_⟩
    rintro ⟨u, hu, hans⟩
    rw [hts, mem_append, mem_singleton] at hu
    rcases hu with hu | rfl
    · simp [hpended u hu] at hans
    · simp [ht] at hans
  · have hts : ∀ t ∈ req.tuples, outcome env batching req.type s.replication t.key ≠ .batched := fun t ht hbt =>
      hb ⟨t, ht, hbt⟩
    refine ⟨fun pre t post hsplit ht => absurd ht (hts t (by simp [hsplit])), ?_⟩
    rintro ⟨t, hmem, ht⟩
    exact s.address_of_servesEach h hts hmem ht

/-- A request that meets the condition has an outcome for each of its tuples. -/
theorem Server.servesEach_of_keepsOutcomes (h : s.KeepsOutcomes env batching req) :
    s.ServesEach req (s.userRequestHandler env batching req) := by
  obtain ⟨hlast, haddr⟩ := h
  refine ⟨req.tuples.map fun t => outcome env batching req.type s.replication t.key, by simp, ?_⟩
  rw [select_map, select_map, select_map]
  by_cases hb : ∃ t ∈ req.tuples, outcome env batching req.type s.replication t.key = .batched
  · obtain ⟨pre, t, post, hts, ht, hpre⟩ := exists_first hb
    obtain ⟨rfl, hpended⟩ := hlast pre t post hts ht
    refine ⟨[], .inl ⟨filter_eq_nil_iff.mpr fun u hu => ?_, rfl⟩, ?_⟩
    · rw [hts, mem_append, mem_singleton] at hu
      rcases hu with hu | rfl
      · simp [hpended u hu]
      · simp [ht]
    · have hh := s.handles_userRequestHandler_batched hts hpre ht
      have hnone : pre.filter (fun u => outcome env batching req.type s.replication u.key = .batched) = [] :=
        filter_eq_nil_iff.mpr fun u hu => by simpa using hpre u hu
      simpa [hts, tuplesWith, filter_append, hnone, ht] using hh
  · have hts : ∀ t ∈ req.tuples, outcome env batching req.type s.replication t.key ≠ .batched := fun t ht hbt =>
      hb ⟨t, ht, hbt⟩
    have hnone : req.tuples.filter (fun t => outcome env batching req.type s.replication t.key = .batched) = [] :=
      filter_eq_nil_iff.mpr fun u hu => by simpa using hts u hu
    obtain ⟨resp, hh, hresp, hnil⟩ := s.handles_userRequestHandler hts
    refine ⟨resp, ?_, by rw [hnone]; exact hh⟩
    by_cases ha : req.responseAddress = ""
    · refine .inl ⟨filter_eq_nil_iff.mpr fun u hu hans => haddr ⟨u, hu, by simpa using hans⟩ ha, hnil ha⟩
    · exact hresp ha

/-- Every tuple of a request gets exactly one outcome if and only if the request has at most one batched write,
at its end and after nothing but keys of other threads, and a response that is not empty has an address. -/
theorem each_tuple_served_iff (env : Environment σ K N H L) (batching : Bool) (s : Server σ K) (req : KeyRequest K) :
    s.ServesEach req (s.userRequestHandler env batching req) ↔ s.KeepsOutcomes env batching req :=
  ⟨Server.keepsOutcomes_of_servesEach, Server.servesEach_of_keepsOutcomes⟩

end Served

/-- A cluster of one thread; key `0` is a metadata key. -/
def soloEnvironment : Environment Unit ℕ Unit ℕ ℕ where
  params := soloParams
  hash := soloHash
  rings := soloRings
  self := ⟨(), 0⟩
  isMetadata := (· = 0)
  keyRequestAddress := fun _ => "kvs"
  serializer :=
    { get := fun _ _ => (("", .keyDne), ()), getReplicated := fun _ _ => (("", .keyDne), ()),
      getMeta := fun _ _ => (("", .keyDne), ()), put := fun _ _ _ => (false, ()), update := fun _ _ _ => (false, ()),
      putReplicated := fun _ _ _ => (), updateReplicated := fun _ _ _ => (), putMeta := fun _ _ _ => () }

/-- A thread that has served nothing. -/
def soloServer : Server Unit ℕ := ⟨(), fun _ => none, fun _ => [], [], [], [], [], [], []⟩

/-- A client writes the keys `1` and `2` with one request. -/
def twoPuts : KeyRequest ℕ := ⟨.put, [{ key := 1, payload := "a" }, { key := 2, payload := "b" }], "client", "r"⟩

/-- With batching the handler returns after the first write, and the second one is nowhere. -/
theorem two_puts_not_served :
    ¬soloServer.ServesEach twoPuts (soloServer.userRequestHandler soloEnvironment true twoPuts) := by
  intro h
  have hlast := (Server.keepsOutcomes_of_servesEach h).1 [] { key := 1, payload := "a" }
    [{ key := 2, payload := "b" }] rfl (by decide)
  exact absurd hlast.1 (by decide)

end Dinomo
