import Dinomo.Serializers
import Dinomo.UserRequests
import Mathlib.Data.List.ReduceOption

/-!
# Faults of the request handler

`user_request_handler` with the texts of the keys and the table of serializers, and with everything that can stop it:
the test for metadata reads the first item of the split key, the search for responsible threads goes round a ring that
has too few of them, data keys are read as numbers, and writes use the serializer of the tuple's lattice type, which may
be missing.  A request type that the handler does not know is
logged, and the tuple is answered without an error.
-/

namespace Dinomo

open List RequestType

variable {δ : Type*} {W : LatticeType → Type*} {N H L : Type*} [DecidableEq N] [LinearOrder H] [LinearOrder L]

/-- What a thread knows about the cluster, itself and its stores. -/
structure NodeEnv (δ : Type*) (W : LatticeType → Type*) (N H L : Type*) [LinearOrder H] [LinearOrder L] where
  params : ClusterParams
  hash : Hashers KeyText N H L
  rings : Rings N H L
  self : ServerThread N
  keyRequestAddress : ServerThread N → String
  kvs : Kvs δ
  codec : LwwCodec
  ops : LatticeOps W

open NodeEnv

/-- The data of a thread with its stores. -/
abbrev Node (δ : Type*) (W : LatticeType → Type*) := Server (NodeStore δ W) KeyText

namespace NodeEnv

variable (env : NodeEnv δ W N H L)

/-- `serializers[t]`, about to be called. -/
def serializers (t : LatticeType) : Except Fault (FallibleSerializer (NodeStore δ W)) :=
  match serializerMap env.kvs env.codec env.ops t with
  | none => .error .noSerializer
  | some serializer => .ok serializer

/-- The threads responsible for a key. -/
def threadsOf (m : ReplicationMap KeyText) (k : KeyText) : List (ServerThread N) :=
  (getResponsibleThreads env.params env.hash env.rings m k).1

/-- The searches of `get_responsible_threads` end: that of the nodes, and that of the threads if it found a node. -/
def SearchEnds (m : ReplicationMap KeyText) (k : KeyText) : Prop :=
  let rep := (m k).getD (.defaults env.params)
  env.rings.globalRing.Ends (env.hash.globalKey k) (rep.globalReplication .memory) ∧
    (responsibleGlobal env.hash env.rings k (rep.globalReplication .memory) = [] ∨
      env.rings.localRing.Ends (env.hash.localKey k) (rep.localReplication .memory))

instance (m : ReplicationMap KeyText) (k : KeyText) : Decidable (env.SearchEnds m k) :=
  inferInstanceAs (Decidable (_ ∧ (_ ∨ _)))

/-- A store after a call, and the call. -/
def called (s : Node δ W) (store : NodeStore δ W) (call : Executed KeyText) : Node δ W :=
  { s with store := store, executed := s.executed ++ [call] }

/-- `process_get` and `process_get_replicated`. -/
def processGet (s : Node δ W) (replicated : Bool) (k : KeyText) : Except Fault ((String × AnnaError) × Node δ W) := do
  let serializer ← env.serializers .lww
  let got ← (if replicated then serializer.getReplicated else serializer.get) k s.store
  return (got.1, called s got.2 (.get replicated k))

/-- `process_get_meta`. -/
def processGetMeta (s : Node δ W) (k : KeyText) : Except Fault ((String × AnnaError) × Node δ W) := do
  let serializer ← env.serializers .lww
  let got ← serializer.getMeta k s.store
  return (got.1, called s got.2 (.getMeta k))

/-- `process_put_meta`. -/
def processPutMeta (s : Node δ W) (tuple : KeyTuple KeyText) : Except Fault (Node δ W) := do
  let serializer ← env.serializers tuple.latticeType
  let store ← serializer.putMeta tuple.key tuple.payload s.store
  return called s store (.putMeta tuple.key tuple.payload)

/-- `process_put_replicated` and `process_update_replicated`. -/
def processWriteReplicated (s : Node δ W) (doUpdate : Bool) (tuple : KeyTuple KeyText) : Except Fault (Node δ W) := do
  let serializer ← env.serializers tuple.latticeType
  let store ← (if doUpdate then serializer.updateReplicated else serializer.putReplicated) tuple.key tuple.payload s.store
  return called s store (if doUpdate then .update true tuple.key tuple.payload else .put true tuple.key tuple.payload)

/-- `process_put` and `process_update`. -/
def processWrite (s : Node δ W) (doUpdate : Bool) (tuple : KeyTuple KeyText) : Except Fault (Bool × Node δ W) := do
  let serializer ← env.serializers tuple.latticeType
  let done ← (if doUpdate then serializer.update else serializer.put) tuple.key tuple.payload s.store
  return (done.1, called s done.2
    (if doUpdate then .update false tuple.key tuple.payload else .put false tuple.key tuple.payload))

/-- The tuple of a metadata key. -/
def handleMetadata (s : Node δ W) (req : KeyRequest KeyText) (tuple : KeyTuple KeyText) :
    Except Fault (KeyTuple KeyText × Node δ W) :=
  if req.type.isRead then do
    let got ← env.processGetMeta s tuple.key
    return (Server.readTuple tuple.key got.1, got.2.recordAccess tuple.key)
  else if req.type.isWrite then do
    let s' ← env.processPutMeta s tuple
    return ({ key := tuple.key, latticeType := tuple.latticeType }, s'.recordAccess tuple.key)
  else .ok ({ key := tuple.key }, s.recordAccess tuple.key)

/-- A client whose address cache has another size gets the addresses of the responsible threads. -/
def withAddresses (threads : List (ServerThread N)) (tuple tp : KeyTuple KeyText) : KeyTuple KeyText :=
  if 0 < tuple.addressCacheSize ∧ tuple.addressCacheSize ≠ threads.length then
    { tp with invalidate := true, ips := threads.map env.keyRequestAddress }
  else tp

/-- The tuple of a key this thread is responsible for; no tuple if the handler returns. -/
def handleOwned (batching : Bool) (s : Node δ W) (req : KeyRequest KeyText) (threads : List (ServerThread N))
    (tuple : KeyTuple KeyText) : Except Fault (Option (KeyTuple KeyText) × Node δ W) :=
  if req.type.isRead then do
    let got ← env.processGet s (1 < threads.length) tuple.key
    return (some (env.withAddresses threads tuple (Server.readTuple tuple.key got.1)), got.2.recordAccess tuple.key)
  else if req.type.isWrite then
    let tp := env.withAddresses threads tuple { key := tuple.key, latticeType := tuple.latticeType }
    if 1 < threads.length then do
      let s' ← env.processWriteReplicated s (req.type = .update) tuple
      return (some tp, s'.recordAccess tuple.key)
    else do
      let done ← env.processWrite s (req.type = .update) tuple
      let s' := done.2.recordAccess tuple.key
      if batching then
        return (none, (if done.1 then s'.responseBatchingRequests else s').pushBatching tuple.key (req.toBatched tuple).2)
      else return (some tp, s')
  else .ok (some (env.withAddresses threads tuple { key := tuple.key }), s.recordAccess tuple.key)

/-- A tuple whose key another thread is responsible for becomes pending. -/
def pend (s : Node δ W) (req : KeyRequest KeyText) (tuple : KeyTuple KeyText) : Node δ W :=
  { s with
    issued := s.issued ++ [tuple.key]
    pendingRequests := Function.update s.pendingRequests tuple.key
      (s.pendingRequests tuple.key ++ [req.toPending tuple]) }

/-- The loop over the tuples; no response if the handler returned. -/
def handleTuples (batching : Bool) (req : KeyRequest KeyText) :
    Node δ W → List (KeyTuple KeyText) → List (KeyTuple KeyText) →
      Except Fault (Option (List (KeyTuple KeyText)) × Node δ W)
  | s, response, [] => .ok (some response, s)
  | s, response, tuple :: tuples =>
    match tuple.key.isMetadata with
    | none => .error .emptyVector
    | some true =>
      match env.handleMetadata s req tuple with
      | .error e => .error e
      | .ok (tp, s') => handleTuples batching req s' (response ++ [tp]) tuples
    | some false =>
      if ¬ env.SearchEnds s.replication tuple.key then .error .endlessSearch else
      let found := getResponsibleThreads env.params env.hash env.rings s.replication tuple.key
      let s' := { s with replication := found.2 }
      if env.self ∈ found.1 then
        match env.handleOwned batching s' req found.1 tuple with
        | .error e => .error e
        | .ok (some tp, s'') => handleTuples batching req s'' (response ++ [tp]) tuples
        | .ok (none, s'') => .ok (none, s'')
      else handleTuples batching req (pend s' req tuple) response tuples

/-- `user_request_handler`. -/
def userRequestHandler (batching : Bool) (s : Node δ W) (req : KeyRequest KeyText) : Except Fault (Node δ W) :=
  match env.handleTuples batching req s [] req.tuples with
  | .error e => .error e
  | .ok (none, s') => .ok s'
  | .ok (some response, s') =>
    .ok (if response ≠ [] ∧ req.responseAddress ≠ "" then
      s'.send req.responseAddress ⟨req.type, response, req.requestId⟩ else s')

end NodeEnv

/-- A call that does what a tuple of a request asks for. -/
def Executed.Serves (type : RequestType) (t : KeyTuple KeyText) : Executed KeyText → Prop
  | .get _ k => type.isRead = true ∧ k = t.key
  | .getMeta k => type.isRead = true ∧ k = t.key
  | .put _ k payload => (type = .put ∨ type = .insert) ∧ k = t.key ∧ payload = t.payload
  | .update _ k payload => type = .update ∧ k = t.key ∧ payload = t.payload
  | .putMeta k payload => type.isWrite = true ∧ k = t.key ∧ payload = t.payload

/-- The client of a request got an error for a key. -/
def KeyRequest.AnsweredWithError (req : KeyRequest KeyText) (s s' : Node δ W) (k : KeyText) : Prop :=
  ∃ x ∈ s'.sent.drop s.sent.length, x.1 = req.responseAddress ∧ x.2.responseId = req.requestId ∧
    ∃ tp ∈ x.2.tuples, tp.key = k ∧ tp.error ≠ .noError

/-- The handler returned, and each tuple of the request was performed by a store, in order, or answered with an error. -/
def KeyRequest.Completed (req : KeyRequest KeyText) (s : Node δ W) (result : Except Fault (Node δ W)) : Prop :=
  ∃ s', result = .ok s' ∧ ∃ calls : List (Option (Executed KeyText)),
    s'.store.performed = s.store.performed ++ calls.reduceOption ∧
      List.Forall₂ (fun t call => (∀ c ∈ call, Executed.Serves req.type t c) ∧
        (call = none → req.AnsweredWithError s s' t.key)) req.tuples calls

namespace NodeEnv

variable (env : NodeEnv δ W N H L)

/-- A tuple that the thread performs. -/
def Accepts (type : RequestType) (m : ReplicationMap KeyText) (t : KeyTuple KeyText) : Prop :=
  (t.key.isMetadata = some true ∧ (type.isRead = true ∨ (type.isWrite = true ∧ t.latticeType = .lww))) ∨
  (t.key.isMetadata = some false ∧ env.SearchEnds m t.key ∧
    (((∃ n, t.key.stoul = .ok n) ∧ (type.isRead = true ∨ (type.isWrite = true ∧ t.latticeType = .lww))) ∨
      ((type = .put ∨ type = .insert) ∧ (env.threadsOf m t.key).length ≤ 1 ∧ t.latticeType ≠ .lww ∧ t.latticeType ≠ .none)))

/-- A tuple after which the handler returns. -/
def Batched (batching : Bool) (type : RequestType) (m : ReplicationMap KeyText) (t : KeyTuple KeyText) : Prop :=
  batching = true ∧ type.isWrite = true ∧ t.key.isMetadata = some false ∧ (env.threadsOf m t.key).length ≤ 1

/-- Between two states the stores performed some calls, and only answers without an error were sent. -/
structure Did (s s' : Node δ W) (calls : List (Executed KeyText)) : Prop where
  performed : s'.store.performed = s.store.performed ++ calls
  factors : ∀ k, (s'.replication k).getD (.defaults env.params) = (s.replication k).getD (.defaults env.params)
  sent : ∃ new, s'.sent = s.sent ++ new ∧ ∀ x ∈ new, ∀ tp ∈ x.2.tuples, tp.error = .noError

/-- What handling a tuple did: an accepted tuple is performed; another one is a write or of no known type. -/
structure Handled (type : RequestType) (t : KeyTuple KeyText) (s s' : Node δ W) (o : Option (KeyTuple KeyText)) :
    Prop where
  did : (env.Accepts type s.replication t ∧ ∃ c, Executed.Serves type t c ∧ env.Did s s' [c]) ∨
    (¬ env.Accepts type s.replication t ∧ type.isRead = false ∧ env.Did s s' [])
  quiet : type.isRead = false → ∀ tp ∈ o, tp.error = .noError

/-- Handling a tuple does not fail if it is accepted, and does what it should if it does not fail. -/
def Sound (type : RequestType) (t : KeyTuple KeyText) (s : Node δ W)
    (result : Except Fault (Option (KeyTuple KeyText) × Node δ W)) : Prop :=
  (env.Accepts type s.replication t → ∃ r, result = .ok r) ∧
    ∀ o s', result = .ok (o, s') → env.Handled type t s s' o

section Sound

variable {env} {type : RequestType} {t : KeyTuple KeyText} {s s' : Node δ W} {o : Option (KeyTuple KeyText)}
  {result : Except Fault (Option (KeyTuple KeyText) × Node δ W)}

/-- A tuple that is accepted and performed. -/
theorem Sound.accept {c : Executed KeyText} (h : result = .ok (o, s')) (haccepts : env.Accepts type s.replication t)
    (hc : Executed.Serves type t c) (hdid : env.Did s s' [c]) (hquiet : type.isRead = false → ∀ tp ∈ o, tp.error = .noError) :
    env.Sound type t s result := by
  subst h
  refine ⟨fun _ => ⟨_, rfl⟩, fun o' s'' h => ?_⟩
  cases h
  exact ⟨.inl ⟨haccepts, c, hc, hdid⟩, hquiet⟩

/-- A tuple that is not accepted, and for which nothing is done. -/
theorem Sound.reject (h : result = .ok (o, s')) (hrejects : ¬ env.Accepts type s.replication t) (hread : type.isRead = false)
    (hdid : env.Did s s' []) (hquiet : ∀ tp ∈ o, tp.error = .noError) : env.Sound type t s result := by
  subst h
  refine ⟨fun h => absurd h hrejects, fun o' s'' h => ?_⟩
  cases h
  exact ⟨.inr ⟨hrejects, hread, hdid⟩, fun _ => hquiet⟩

/-- A tuple that is not accepted, and stops the handler. -/
theorem Sound.fault {e : Fault} (h : result = .error e) (hrejects : ¬ env.Accepts type s.replication t) :
    env.Sound type t s result := by
  subst h
  exact ⟨fun h => absurd h hrejects, fun _ _ h => nomatch h⟩

end Sound

end NodeEnv

section Calls

variable {env : NodeEnv δ W N H L} {batching : Bool} {req : KeyRequest KeyText} {s s' : Node δ W} {t : KeyTuple KeyText}
  {type : RequestType} {store : NodeStore δ W} {calls : List (Executed KeyText)} {call : Executed KeyText}
  {k : KeyText}

/-- A write is no read. -/
theorem RequestType.isRead_of_isWrite (h : type.isWrite = true) : type.isRead = false := by
  cases type <;> simp_all [isWrite, isRead]

/-- The writes that are no updates. -/
theorem RequestType.isWrite_iff :
    type.isWrite = true ↔ type = .update ∨ type = .put ∨ type = .insert := by
  cases type <;> simp [isWrite]

/-- The serializer for a type that is neither missing nor last-writer-wins. -/
theorem NodeEnv.serializers_eq {l : LatticeType} (hlww : l ≠ .lww) (hnone : l ≠ .none) :
    env.serializers l = .ok (memorySerializer env.ops l) := by
  cases l <;> simp_all [serializers, serializerMap]

omit [DecidableEq N] in
/-- A call that changes only the stores. -/
theorem NodeEnv.Did.of_called (h : store.performed = s.store.performed ++ calls) :
    env.Did s ((called s store call).recordAccess k) calls :=
  ⟨h, fun _ => rfl, [], (append_nil _).symm, by simp⟩

/-- The tuple of a metadata key. -/
theorem NodeEnv.sound_metadata (hmeta : t.key.isMetadata = some true) :
    env.Sound req.type t s ((env.handleMetadata s req t).map fun r => (some r.1, r.2)) := by
  have haccepts : env.Accepts req.type s.replication t ↔
      req.type.isRead = true ∨ (req.type.isWrite = true ∧ t.latticeType = .lww) := by
    simp [Accepts, hmeta]
  rw [handleMetadata]
  by_cases hread : req.type.isRead = true
  · rw [if_pos hread]
    exact .accept rfl (haccepts.mpr (.inl hread)) (c := .getMeta t.key) ⟨hread, rfl⟩ (.of_called rfl)
      fun h => by simp [hread] at h
  have hno : req.type.isRead = false := by simpa using hread
  rw [if_neg hread]
  by_cases hwrite : req.type.isWrite = true
  · rw [if_pos hwrite, processPutMeta]
    by_cases hlww : t.latticeType = .lww
    · rw [hlww]
      exact .accept rfl (haccepts.mpr (.inr ⟨hwrite, hlww⟩)) (c := .putMeta t.key t.payload) ⟨hwrite, rfl, rfl⟩
        (.of_called rfl) fun _ tp htp => by cases htp; rfl
    have hrejects : ¬ env.Accepts req.type s.replication t := by simp [haccepts, hread, hlww]
    by_cases hnone : t.latticeType = .none
    · rw [hnone]
      exact .fault rfl hrejects
    · rw [serializers_eq hlww hnone]
      exact .reject rfl hrejects hno (.of_called (append_nil _).symm) fun tp htp => by cases htp; rfl
  · rw [if_neg hwrite]
    have hrejects : ¬ env.Accepts req.type s.replication t := by simp [haccepts, hread, hwrite]
    exact .reject rfl hrejects hno ⟨(append_nil _).symm, fun _ => rfl, [], (append_nil _).symm, by simp⟩
      fun tp htp => by cases htp; rfl

variable (env s) in
/-- A read of a key with a number. -/
theorem NodeEnv.processGet_eq {n : ℕ} (hk : k.stoul = .ok n) (replicated : Bool) :
    ∃ res store, env.processGet s replicated k = .ok (res, called s store (.get replicated k)) ∧
      store.performed = s.store.performed ++ [.get replicated k] := by
  cases replicated
  · refine ⟨env.codec.read (env.kvs.get n s.store.kvs).1, s.store.withKvs (env.kvs.get n s.store.kvs).2 _, ?_, rfl⟩
    change withNumber k _ >>= _ = _
    rw [withNumber_ok hk]
    rfl
  · refine ⟨env.codec.read (env.kvs.getReplicated n s.store.kvs).1,
      s.store.withKvs (env.kvs.getReplicated n s.store.kvs).2 _, ?_, rfl⟩
    change withNumber k _ >>= _ = _
    rw [withNumber_ok hk]
    rfl

/-- A read of a key without a number. -/
theorem NodeEnv.processGet_error {e : StoulError} (hk : k.stoul = .error e) (replicated : Bool) :
    env.processGet s replicated k = .error (.stoul e) := by
  cases replicated <;> change withNumber k _ >>= _ = _ <;> rw [withNumber_error hk] <;> rfl

/-- The call that a write of a data key makes. -/
def Executed.ofWrite (replicated doUpdate : Bool) (t : KeyTuple KeyText) : Executed KeyText :=
  if doUpdate then .update replicated t.key t.payload else .put replicated t.key t.payload

/-- A write of a data key, replicated or not: the store afterwards if there was no fault. -/
def NodeEnv.processAny (env : NodeEnv δ W N H L) (s : Node δ W) (replicated doUpdate : Bool) (t : KeyTuple KeyText) :
    Except Fault (Bool × Node δ W) :=
  if replicated then (env.processWriteReplicated s doUpdate t).map (false, ·) else env.processWrite s doUpdate t

variable (env s) in
/-- A write of a last-writer-wins value to a key with a number. -/
theorem NodeEnv.processAny_lww {n : ℕ} (hk : t.key.stoul = .ok n) (hl : t.latticeType = .lww) (replicated doUpdate : Bool) :
    ∃ ret store, env.processAny s replicated doUpdate t =
        .ok (ret, called s store (.ofWrite replicated doUpdate t)) ∧
      store.performed = s.store.performed ++ [.ofWrite replicated doUpdate t] := by
  obtain ⟨key, lattice, error, payload, size, invalidate, ips⟩ := t
  obtain rfl : lattice = .lww := hl
  cases replicated <;> cases doUpdate
  · refine ⟨(env.kvs.put n payload s.store.kvs).1, s.store.withKvs (env.kvs.put n payload s.store.kvs).2 _, ?_, rfl⟩
    change withNumber key _ >>= _ = _
    rw [withNumber_ok hk]
    rfl
  · refine ⟨(env.kvs.update n payload s.store.kvs).1, s.store.withKvs (env.kvs.update n payload s.store.kvs).2 _, ?_, rfl⟩
    change withNumber key _ >>= _ = _
    rw [withNumber_ok hk]
    rfl
  · refine ⟨false, s.store.withKvs (env.kvs.putReplicated n payload s.store.kvs) _, ?_, rfl⟩
    change Except.map _ (withNumber key _ >>= _) = _
    rw [withNumber_ok hk]
    rfl
  · refine ⟨false, s.store.withKvs (env.kvs.updateReplicated n payload s.store.kvs) _, ?_, rfl⟩
    change Except.map _ (withNumber key _ >>= _) = _
    rw [withNumber_ok hk]
    rfl

variable (env s) in
/-- A write of a last-writer-wins value to a key without a number, and one without a lattice type. -/
theorem NodeEnv.processAny_error
    (h : (t.latticeType = .lww ∧ ∃ e, t.key.stoul = .error e) ∨ t.latticeType = .none) (replicated doUpdate : Bool) :
    ∃ e, env.processAny s replicated doUpdate t = .error e := by
  obtain ⟨key, lattice, error, payload, size, invalidate, ips⟩ := t
  rcases h with ⟨hl, e, hk⟩ | hl
  · obtain rfl : lattice = .lww := hl
    refine ⟨.stoul e, ?_⟩
    cases replicated <;> cases doUpdate
    · change withNumber key _ >>= _ = _
      rw [withNumber_error hk]
      rfl
    · change withNumber key _ >>= _ = _
      rw [withNumber_error hk]
      rfl
    · change Except.map _ (withNumber key _ >>= _) = _
      rw [withNumber_error hk]
      rfl
    · change Except.map _ (withNumber key _ >>= _) = _
      rw [withNumber_error hk]
      rfl
  · obtain rfl : lattice = .none := hl
    exact ⟨.noSerializer, by cases replicated <;> rfl⟩

variable (env s) in
/-- A write of another lattice type: only a `put` of a key that is not replicated reaches the store. -/
theorem NodeEnv.processAny_lattice (hlww : t.latticeType ≠ .lww) (hnone : t.latticeType ≠ .none)
    (replicated doUpdate : Bool) :
    ∃ ret store, env.processAny s replicated doUpdate t =
        .ok (ret, called s store (.ofWrite replicated doUpdate t)) ∧
      store.performed = s.store.performed ++
        if replicated ∨ doUpdate then [] else [.ofWrite replicated doUpdate t] := by
  cases replicated <;> cases doUpdate <;>
    simp only [processAny, processWrite, processWriteReplicated,
      serializers_eq hlww hnone, memorySerializer]
  · exact ⟨_, s.store.putLattice env.ops t.latticeType t.key t.payload, rfl, rfl⟩
  · exact ⟨_, s.store, rfl, by simp⟩
  · exact ⟨_, s.store, rfl, by simp⟩
  · exact ⟨_, s.store, rfl, by simp⟩

/-- The call of a write serves it. -/
theorem Executed.serves_ofWrite (h : type.isWrite = true) (replicated : Bool) (t : KeyTuple KeyText) :
    Executed.Serves type t (.ofWrite replicated (type = .update) t) := by
  rcases isWrite_iff.mp h with rfl | rfl | rfl <;> simp [Executed.ofWrite, Executed.Serves]

/-- A write of an owned key: the handler returns after it if it is batched. -/
theorem NodeEnv.handleOwned_write {threads : List (ServerThread N)} (hwrite : req.type.isWrite = true) :
    env.handleOwned batching s req threads t =
      (env.processAny s (1 < threads.length) (req.type = .update) t).map fun done =>
        let s' := done.2.recordAccess t.key
        if batching = true ∧ threads.length ≤ 1 then
          (none, (if done.1 then s'.responseBatchingRequests else s').pushBatching t.key (req.toBatched t).2)
        else (some (env.withAddresses threads t { key := t.key, latticeType := t.latticeType }), s') := by
  have hread : ¬ req.type.isRead = true := by simp [isRead_of_isWrite hwrite]
  rw [handleOwned, if_neg hread, if_pos hwrite, processAny]
  by_cases hlen : 1 < threads.length
  · have hle : ¬ (batching = true ∧ threads.length ≤ 1) := fun h => absurd h.2 (Nat.not_le.mpr hlen)
    simp only [hlen, hle, if_true, if_false, decide_true]
    cases env.processWriteReplicated s (req.type = .update) t <;> rfl
  · have hle : threads.length ≤ 1 := Nat.le_of_not_lt hlen
    simp only [hlen, hle, if_false, decide_false, Bool.false_eq_true, and_true]
    cases env.processWrite s (req.type = .update) t with
    | error e => rfl
    | ok done => cases batching <;> rfl

omit [DecidableEq N] in
/-- The queues of batched requests do not matter for the stores. -/
theorem NodeEnv.Did.batch {ret : Bool} {r : PendingRequest} (h : store.performed = s.store.performed ++ calls) :
    env.Did s ((if ret then ((called s store call).recordAccess k).responseBatchingRequests
      else (called s store call).recordAccess k).pushBatching k r) calls := by
  cases ret with
  | false => exact ⟨h, fun _ => rfl, [], (append_nil _).symm, by simp⟩
  | true =>
    refine ⟨h, fun _ => rfl, s.batchingRequests.filterMap Server.batchResponse, rfl, fun x hx tp htp => ?_⟩
    obtain ⟨y, -, hy⟩ := mem_filterMap.mp hx
    unfold Server.batchResponse at hy
    split_ifs at hy
    cases hy
    rw [mem_singleton.mp htp]

/-- The addresses do not change the error of a tuple. -/
theorem NodeEnv.withAddresses_error (threads : List (ServerThread N)) (t tp : KeyTuple KeyText) :
    (env.withAddresses threads t tp).error = tp.error := by
  unfold withAddresses
  split_ifs <;> rfl

/-- What the handler makes of a write that a serializer took. -/
theorem NodeEnv.handleOwned_of_processAny {threads : List (ServerThread N)} {ret : Bool} (hwrite : req.type.isWrite = true)
    (hperf : store.performed = s.store.performed ++ calls)
    (heq : env.processAny s (1 < threads.length) (req.type = .update) t = .ok (ret, called s store call)) :
    ∃ o s', env.handleOwned batching s req threads t = .ok (o, s') ∧ env.Did s s' calls ∧
      ∀ tp ∈ o, tp.error = .noError := by
  rw [handleOwned_write hwrite, heq]
  by_cases hb : batching = true ∧ threads.length ≤ 1
  · exact ⟨none, _, by simp only [Except.map, if_pos hb]; rfl, .batch hperf, by simp⟩
  · refine ⟨some _, _, by simp only [Except.map, if_neg hb]; rfl, .of_called hperf, fun tp htp => ?_⟩
    cases htp
    rw [withAddresses_error]

/-- The tuple of an owned key that is written. -/
theorem NodeEnv.sound_write (hwrite : req.type.isWrite = true) (hmeta : t.key.isMetadata = some false)
    (hends : env.SearchEnds s.replication t.key) :
    env.Sound req.type t s (env.handleOwned batching s req (env.threadsOf s.replication t.key) t) := by
  have hno : req.type.isRead = false := isRead_of_isWrite hwrite
  have haccepts : env.Accepts req.type s.replication t ↔ ((∃ n, t.key.stoul = .ok n) ∧ t.latticeType = .lww) ∨
      ((req.type = .put ∨ req.type = .insert) ∧ (env.threadsOf s.replication t.key).length ≤ 1 ∧
        t.latticeType ≠ .lww ∧ t.latticeType ≠ .none) := by
    simp [Accepts, hmeta, hends, hno, hwrite]
  generalize env.threadsOf s.replication t.key = threads at haccepts ⊢
  -- the serializers split the writes into four kinds
  by_cases hlww : t.latticeType = .lww
  · cases hk : t.key.stoul with
    | ok n =>
      obtain ⟨ret, store, heq, hperf⟩ := processAny_lww env s hk hlww
        (1 < threads.length) (req.type = .update)
      obtain ⟨o, s', howned, hdid, hquiet⟩ := handleOwned_of_processAny hwrite hperf heq
      exact .accept howned (haccepts.mpr (.inl ⟨⟨n, hk⟩, hlww⟩)) (Executed.serves_ofWrite hwrite _ t) hdid fun _ => hquiet
    | error e =>
      obtain ⟨f, heq⟩ := processAny_error env s (.inl ⟨hlww, e, hk⟩)
        (1 < threads.length) (req.type = .update)
      refine .fault (e := f) ?_ (by simp [haccepts, hk, hlww])
      rw [handleOwned_write hwrite, heq]
      rfl
  by_cases hnone : t.latticeType = .none
  · obtain ⟨f, heq⟩ := processAny_error env s (.inr hnone)
      (1 < threads.length) (req.type = .update)
    refine .fault (e := f) ?_ (by simp [haccepts, hnone])
    rw [handleOwned_write hwrite, heq]
    rfl
  obtain ⟨ret, store, heq, hperf⟩ := processAny_lattice env s hlww hnone
    (1 < threads.length) (req.type = .update)
  obtain ⟨o, s', howned, hdid, hquiet⟩ := handleOwned_of_processAny hwrite hperf heq
  by_cases hput : (req.type = .put ∨ req.type = .insert) ∧ threads.length ≤ 1
  · have hnot : ¬ (1 < threads.length ∨ req.type = .update) := by
      rcases hput with ⟨h | h, hlen⟩ <;> simp [h, hlen]
    rw [if_neg (by simpa using hnot)] at hdid
    exact .accept howned (haccepts.mpr (.inr ⟨hput.1, hput.2, hlww, hnone⟩)) (Executed.serves_ofWrite hwrite _ t) hdid
      fun _ => hquiet
  · have hdo : 1 < threads.length ∨ req.type = .update := by
      rcases isWrite_iff.mp hwrite with h | h
      · exact .inr h
      · exact .inl (Nat.lt_of_not_le fun hlen => hput ⟨h, hlen⟩)
    rw [if_pos (by simpa using hdo)] at hdid
    refine .reject howned ?_ hno hdid hquiet
    rw [haccepts]
    rintro (⟨-, h⟩ | ⟨h, hlen, -⟩)
    · exact hlww h
    · exact hput ⟨h, hlen⟩

variable (env batching req s) in
/-- The tuple of an owned key. -/
theorem NodeEnv.sound_owned (hmeta : t.key.isMetadata = some false) (hends : env.SearchEnds s.replication t.key) :
    env.Sound req.type t s (env.handleOwned batching s req (env.threadsOf s.replication t.key) t) := by
  by_cases hwrite : req.type.isWrite = true
  · exact sound_write hwrite hmeta hends
  have hput : ¬ (req.type = .put ∨ req.type = .insert) := fun h => hwrite (isWrite_iff.mpr (.inr h))
  have haccepts : env.Accepts req.type s.replication t ↔ (∃ n, t.key.stoul = .ok n) ∧ req.type.isRead = true := by
    simp [Accepts, hmeta, hends, hwrite, hput]
  by_cases hread : req.type.isRead = true
  · rw [handleOwned, if_pos hread]
    cases hk : t.key.stoul with
    | ok n =>
      obtain ⟨res, store, heq, hperf⟩ := processGet_eq env s hk
        (1 < (env.threadsOf s.replication t.key).length)
      rw [heq]
      exact .accept rfl (haccepts.mpr ⟨⟨n, hk⟩, hread⟩) (c := .get _ t.key) ⟨hread, rfl⟩ (.of_called hperf)
        fun h => by simp [hread] at h
    | error e =>
      rw [processGet_error hk]
      exact .fault rfl (by simp [haccepts, hk])
  · rw [handleOwned, if_neg hread, if_neg hwrite]
    refine .reject rfl (by simp [haccepts, hread]) (by simpa using hread)
      ⟨(append_nil _).symm, fun _ => rfl, [], (append_nil _).symm, by simp⟩ fun tp htp => ?_
    cases htp
    rw [withAddresses_error]

/-- The handler returns after the batched writes. -/
theorem NodeEnv.handleOwned_none_iff (hmeta : t.key.isMetadata = some false) {m : ReplicationMap KeyText}
    {o : Option (KeyTuple KeyText)} (h : env.handleOwned batching s req (env.threadsOf m t.key) t = .ok (o, s')) :
    o = none ↔ env.Batched batching req.type m t := by
  by_cases hwrite : req.type.isWrite = true
  · rw [handleOwned_write hwrite] at h
    cases hp : env.processAny s (1 < (env.threadsOf m t.key).length) (req.type = .update) t with
    | error e =>
      rw [hp] at h
      cases h
    | ok done =>
      rw [hp] at h
      by_cases hb : batching = true ∧ (env.threadsOf m t.key).length ≤ 1
      · simp only [Except.map, if_pos hb] at h
        cases h
        simp [Batched, hwrite, hmeta, hb]
      · simp only [Except.map, if_neg hb] at h
        cases h
        simpa [Batched, hwrite, hmeta] using hb
  · have hnot : ¬ env.Batched batching req.type m t := fun hb => hwrite hb.2.1
    rw [handleOwned, if_neg hwrite] at h
    by_cases hread : req.type.isRead = true
    · rw [if_pos hread] at h
      cases hp : env.processGet s (1 < (env.threadsOf m t.key).length) t.key with
      | error e =>
        rw [hp] at h
        cases h
      | ok got =>
        rw [hp] at h
        cases h
        simp [hnot]
    · rw [if_neg hread] at h
      cases h
      simp [hnot]

end Calls

namespace NodeEnv

variable {env : NodeEnv δ W N H L} {batching : Bool} {req : KeyRequest KeyText} {s s' s'' : Node δ W}
  {t : KeyTuple KeyText} {ts : List (KeyTuple KeyText)}

/-- One stretch after another. -/
theorem Did.trans {calls calls' : List (Executed KeyText)} (h : env.Did s s' calls) (h' : env.Did s' s'' calls') :
    env.Did s s'' (calls ++ calls') := by
  obtain ⟨new, hnew, hquiet⟩ := h.sent
  obtain ⟨new', hnew', hquiet'⟩ := h'.sent
  refine ⟨by rw [h'.performed, h.performed, append_assoc], fun k => (h'.factors k).trans (h.factors k), new ++ new',
    by rw [hnew', hnew, append_assoc], fun x hx => ?_⟩
  rcases mem_append.mp hx with hx | hx
  · exact hquiet x hx
  · exact hquiet' x hx

variable {m m' : ReplicationMap KeyText} {type : RequestType}

/-- The threads of a key depend on its factors. -/
theorem threadsOf_congr {k : KeyText}
    (h : (m' k).getD (.defaults env.params) = (m k).getD (.defaults env.params)) :
    env.threadsOf m' k = env.threadsOf m k := by
  rw [threadsOf, threadsOf, getResponsibleThreads_fst, getResponsibleThreads_fst, h]

/-- So does the end of the search for them. -/
theorem searchEnds_congr {k : KeyText}
    (h : (m' k).getD (.defaults env.params) = (m k).getD (.defaults env.params)) :
    env.SearchEnds m' k ↔ env.SearchEnds m k := by
  rw [SearchEnds, SearchEnds, h]

variable (env batching) in
/-- And what is accepted and batched. -/
theorem accepts_congr
    (h : (m' t.key).getD (.defaults env.params) = (m t.key).getD (.defaults env.params)) (type : RequestType) :
    (env.Accepts type m' t ↔ env.Accepts type m t) ∧
      (env.Batched batching type m' t ↔ env.Batched batching type m t) := by
  simp only [Accepts, Batched, threadsOf_congr h, searchEnds_congr h, and_self]

/-- A lookup of the responsible threads before a tuple is handled makes no difference. -/
theorem Sound.of_lookup
    {result : Except Fault (Option (KeyTuple KeyText) × Node δ W)}
    (hm : ∀ k, (m k).getD (.defaults env.params) = (s.replication k).getD (.defaults env.params))
    (h : env.Sound type t { s with replication := m } result) : env.Sound type t s result := by
  have hdid : env.Did s { s with replication := m } [] :=
    ⟨(append_nil _).symm, hm, [], (append_nil _).symm, by simp⟩
  have haccepts := (accepts_congr env false (hm t.key) type).1
  refine ⟨fun ha => h.1 (haccepts.mpr ha), fun o s' heq => ?_⟩
  obtain ⟨hcases, hquiet⟩ := h.2 o s' heq
  refine ⟨?_, hquiet⟩
  rcases hcases with ⟨ha, c, hc, hd⟩ | ⟨ha, hread, hd⟩
  · exact .inl ⟨haccepts.mp ha, c, hc, hdid.trans hd⟩
  · exact .inr ⟨fun h => ha (haccepts.mpr h), hread, hdid.trans hd⟩

/-- What the loop does after a tuple was handled. -/
def goOn (env : NodeEnv δ W N H L) (batching : Bool) (req : KeyRequest KeyText) (response ts : List (KeyTuple KeyText)) :
    Except Fault (Option (KeyTuple KeyText) × Node δ W) → Except Fault (Option (List (KeyTuple KeyText)) × Node δ W)
  | .error e => .error e
  | .ok (some tp, s') => env.handleTuples batching req s' (response ++ [tp]) ts
  | .ok (none, s') => .ok (none, s')

/-- The loop at a tuple. -/
theorem handleTuples_cons (response : List (KeyTuple KeyText))
    (hown : t.key.isMetadata = some false → env.self ∈ env.threadsOf s.replication t.key) :
    ∃ result, env.handleTuples batching req s response (t :: ts) = env.goOn batching req response ts result ∧
      env.Sound req.type t s result ∧
        ∀ o s', result = .ok (o, s') → (o = none ↔ env.Batched batching req.type s.replication t) := by
  rw [handleTuples]
  cases hmeta : t.key.isMetadata with
  | none => exact ⟨.error .emptyVector, rfl, .fault rfl (by simp [Accepts, hmeta]), by simp⟩
  | some b =>
    cases b with
    | true =>
      refine ⟨_, ?_, sound_metadata hmeta, fun o s' h => ?_⟩
      · cases env.handleMetadata s req t <;> rfl
      · cases hm : env.handleMetadata s req t with
        | error e =>
          rw [hm] at h
          cases h
        | ok r =>
          rw [hm] at h
          cases h
          simp [Batched, hmeta]
    | false =>
      by_cases hends : env.SearchEnds s.replication t.key
      · set found := getResponsibleThreads env.params env.hash env.rings s.replication t.key with hfound
        have hm : ∀ k, (found.2 k).getD (.defaults env.params) = (s.replication k).getD (.defaults env.params) :=
          fun k => getResponsibleThreads_snd ..
        have hsound := sound_owned env batching req { s with replication := found.2 } hmeta
          ((searchEnds_congr (hm t.key)).mpr hends)
        simp only [threadsOf_congr (hm t.key)] at hsound
        refine ⟨_, ?_, .of_lookup hm hsound, fun o s' h => handleOwned_none_iff hmeta h⟩
        have hself : env.self ∈ found.1 := hown hmeta
        simp only [hends, not_true_eq_false, if_false, hself, if_true, threadsOf, ← hfound]
        cases env.handleOwned batching _ req found.1 t with
        | error e => rfl
        | ok r =>
          obtain ⟨o, s'⟩ := r
          cases o <;> rfl
      · refine ⟨.error .endlessSearch, ?_, .fault rfl (by simp [Accepts, hmeta, hends]), by simp⟩
        simp only [hends, not_false_eq_true, if_true]
        rfl

/-- Every tuple is accepted, and none but the last is batched. -/
def AllAccepted (env : NodeEnv δ W N H L) (batching : Bool) (type : RequestType) (m : ReplicationMap KeyText)
    (ts : List (KeyTuple KeyText)) : Prop :=
  (∀ t ∈ ts, env.Accepts type m t) ∧ ∀ t ∈ ts.dropLast, ¬ env.Batched batching type m t

/-- The condition, tuple by tuple. -/
theorem allAccepted_cons :
    env.AllAccepted batching type m (t :: ts) ↔ env.Accepts type m t ∧ (env.Batched batching type m t → ts = []) ∧
      env.AllAccepted batching type m ts := by
  cases ts with
  | nil => simp [AllAccepted]
  | cons u ts =>
    simp only [AllAccepted, forall_mem_cons, dropLast_cons_cons, cons_ne_nil, imp_false]
    tauto

/-- The condition depends on the factors of the keys. -/
theorem allAccepted_congr
    (h : ∀ k, (m' k).getD (.defaults env.params) = (m k).getD (.defaults env.params)) :
    env.AllAccepted batching type m' ts ↔ env.AllAccepted batching type m ts := by
  simp only [AllAccepted, fun t : KeyTuple KeyText => (accepts_congr env batching (h t.key) type).1,
    fun t : KeyTuple KeyText => (accepts_congr env batching (h t.key) type).2]

/-- The loop over the tuples ends if all are accepted. -/
theorem exists_handleTuples (response : List (KeyTuple KeyText))
    (hown : ∀ t ∈ ts, t.key.isMetadata = some false → env.self ∈ env.threadsOf s.replication t.key)
    (hall : env.AllAccepted batching req.type s.replication ts) :
    ∃ r, env.handleTuples batching req s response ts = .ok r := by
  induction ts generalizing s response with
  | nil => exact ⟨_, rfl⟩
  | cons t ts ih =>
    obtain ⟨haccepts, -, htail⟩ := allAccepted_cons.mp hall
    obtain ⟨result, heq, hsound, -⟩ := handleTuples_cons response
      (hown t mem_cons_self)
    obtain ⟨⟨o, s'⟩, rfl⟩ := hsound.1 haccepts
    rw [heq]
    cases o with
    | none => exact ⟨_, rfl⟩
    | some tp =>
      have hfactors : ∀ k, (s'.replication k).getD (.defaults env.params) = (s.replication k).getD (.defaults env.params) := by
        rcases (hsound.2 _ _ rfl).did with ⟨-, c, -, hdid⟩ | ⟨-, -, hdid⟩ <;> exact hdid.factors
      refine ih _ (fun u hu hmeta => ?_) ((allAccepted_congr hfactors).mpr htail)
      rw [threadsOf_congr (hfactors u.key)]
      exact hown u (mem_cons_of_mem _ hu) hmeta

/-- If the loop over the tuples ends, accepted tuples were all performed; otherwise some were not, and there is no
error in the response. -/
theorem handleTuples_spec {o : Option (List (KeyTuple KeyText))} (response : List (KeyTuple KeyText))
    (hown : ∀ t ∈ ts, t.key.isMetadata = some false → env.self ∈ env.threadsOf s.replication t.key)
    (h : env.handleTuples batching req s response ts = .ok (o, s')) :
    ∃ calls, env.Did s s' calls ∧
      (req.type.isRead = false → (∀ tp ∈ response, tp.error = .noError) → ∀ l ∈ o, ∀ tp ∈ l, tp.error = .noError) ∧
        ((env.AllAccepted batching req.type s.replication ts ∧ List.Forall₂ (Executed.Serves req.type) ts calls) ∨
          (¬ env.AllAccepted batching req.type s.replication ts ∧ req.type.isRead = false ∧ calls.length < ts.length)) := by
  -- along the tuples; the loop goes on behind an answered tuple and ends at a batched one
  induction ts generalizing s response with
  | nil =>
    cases h
    refine ⟨[], ⟨(append_nil _).symm, fun _ => rfl, [], (append_nil _).symm, by simp⟩, ?_,
      .inl ⟨by simp [AllAccepted], .nil⟩⟩
    rintro - hquiet l hl
    cases hl
    exact hquiet
  | cons t ts ih =>
    obtain ⟨result, heq, hsound, hnone⟩ := handleTuples_cons response
      (hown t mem_cons_self)
    rw [heq] at h
    match result, h with
    | .ok (none, s₁), h =>
      -- the handler returned: this is right only at the last tuple
      cases h
      obtain ⟨hcases, -⟩ := hsound.2 _ _ rfl
      have hbatched := (hnone _ _ rfl).mp rfl
      have hno : req.type.isRead = false := isRead_of_isWrite hbatched.2.1
      have hiff : env.AllAccepted batching req.type s.replication (t :: ts) ↔
          env.Accepts req.type s.replication t ∧ ts = [] := by
        rw [allAccepted_cons]
        refine ⟨fun h => ⟨h.1, h.2.1 hbatched⟩, ?_⟩
        rintro ⟨haccepts, rfl⟩
        exact ⟨haccepts, fun _ => rfl, by simp [AllAccepted]⟩
      rcases hcases with ⟨haccepts, c, hc, hdid⟩ | ⟨hrejects, -, hdid⟩
      · refine ⟨[c], hdid, by simp, ?_⟩
        rw [hiff]
        cases ts with
        | nil => exact .inl ⟨⟨haccepts, rfl⟩, .cons hc .nil⟩
        | cons u ts => exact .inr ⟨by simp, hno, by simp⟩
      · exact ⟨[], hdid, by simp, .inr ⟨fun h => hrejects (hiff.mp h).1, hno, by simp⟩⟩
    | .ok (some tp, s₁), h =>
      obtain ⟨hcases, hquiet⟩ := hsound.2 _ _ rfl
      have hnot : ¬ env.Batched batching req.type s.replication t := fun hb => nomatch (hnone _ _ rfl).mpr hb
      have hfactors : ∀ k, (s₁.replication k).getD (.defaults env.params) =
          (s.replication k).getD (.defaults env.params) := by
        rcases hcases with ⟨-, c, -, hdid⟩ | ⟨-, -, hdid⟩ <;> exact hdid.factors
      obtain ⟨calls, hdid', hquiet', htail⟩ := ih (response ++ [tp]) (fun u hu hmeta => by
        rw [threadsOf_congr (hfactors u.key)]
        exact hown u (mem_cons_of_mem _ hu) hmeta) h
      rw [allAccepted_congr hfactors] at htail
      have hresponse : req.type.isRead = false → (∀ tp ∈ response, tp.error = .noError) →
          ∀ l ∈ o, ∀ tp ∈ l, tp.error = .noError := by
        intro hno hresp
        refine hquiet' hno fun tp' htp' => ?_
        rcases mem_append.mp htp' with htp' | htp'
        · exact hresp tp' htp'
        · exact hquiet hno tp' (by simpa [eq_comm] using htp')
      have hle : calls.length ≤ ts.length := by
        rcases htail with ⟨-, hserves⟩ | ⟨-, -, hlt⟩
        · exact hserves.length_eq.ge
        · exact hlt.le
      rw [allAccepted_cons]
      rcases hcases with ⟨haccepts, c, hc, hdid⟩ | ⟨hrejects, hno, hdid⟩
      · refine ⟨c :: calls, hdid.trans hdid', hresponse, ?_⟩
        rcases htail with ⟨hall, hserves⟩ | ⟨hall, hno, hlt⟩
        · exact .inl ⟨⟨haccepts, fun hb => absurd hb hnot, hall⟩, .cons hc hserves⟩
        · exact .inr ⟨fun h => hall h.2.2, hno, Nat.succ_lt_succ hlt⟩
      · exact ⟨calls, hdid.trans hdid', hresponse, .inr ⟨fun h => hrejects h.1, hno, Nat.lt_succ_of_le hle⟩⟩

/-- The handler after the loop: at most the response is sent. -/
theorem userRequestHandler_of_handleTuples {o : Option (List (KeyTuple KeyText))}
    (h : env.handleTuples batching req s [] req.tuples = .ok (o, s')) :
    ∃ s₁, env.userRequestHandler batching s req = .ok s₁ ∧ s₁.store = s'.store := by
  rw [userRequestHandler, h]
  cases o with
  | none => exact ⟨s', rfl, rfl⟩
  | some response =>
    refine ⟨_, rfl, ?_⟩
    split_ifs <;> rfl

/-- A handler that returned has gone through the loop. -/
theorem exists_of_userRequestHandler (h : env.userRequestHandler batching s req = .ok s') :
    ∃ o s₁, env.handleTuples batching req s [] req.tuples = .ok (o, s₁) ∧
      (s'.sent = s₁.sent ∨ ∃ response, o = some response ∧
        s'.sent = s₁.sent ++ [(req.responseAddress, ⟨req.type, response, req.requestId⟩)]) ∧ s'.store = s₁.store := by
  rw [userRequestHandler] at h
  match hr : env.handleTuples batching req s [] req.tuples, h with
  | .ok (none, s₁), h =>
    obtain rfl := Except.ok.inj h
    exact ⟨none, _, rfl, .inl rfl, rfl⟩
  | .ok (some response, s₁), h =>
    obtain rfl := Except.ok.inj h
    refine ⟨some response, s₁, rfl, ?_, ?_⟩
    · split_ifs
      · exact .inr ⟨response, rfl, rfl⟩
      · exact .inl rfl
    · split_ifs <;> rfl

/-- Among tuples with fewer calls than there are tuples, one has none. -/
theorem exists_none_of_length_lt {calls : List (Executed KeyText)} {calls' : List (Option (Executed KeyText))}
    {P : KeyTuple KeyText → Option (Executed KeyText) → Prop} (hcalls : calls'.reduceOption = calls)
    (hlt : calls.length < ts.length) (h : List.Forall₂ P ts calls') : ∃ t, P t none := by
  have hmem : none ∈ calls' := by
    rw [← reduceOption_length_lt_iff, hcalls, ← h.length_eq]
    exact hlt
  clear hlt hcalls
  induction h with
  | nil => cases hmem
  | @cons t call ts calls' ht _ ih =>
    rcases mem_cons.mp hmem with rfl | hmem
    · exact ⟨t, ht⟩
    · exact ih hmem

/-- At a thread that is responsible for the data keys of a request, the handler returns and each tuple was performed
or answered with an error exactly if each tuple is accepted and none but the last is batched. -/
theorem request_completed_iff (env : NodeEnv δ W N H L) (batching : Bool) (s : Node δ W) (req : KeyRequest KeyText)
    (hown : ∀ t ∈ req.tuples, t.key.isMetadata = some false → env.self ∈ env.threadsOf s.replication t.key) :
    req.Completed s (env.userRequestHandler batching s req) ↔ env.AllAccepted batching req.type s.replication req.tuples := by
  constructor
  · rintro ⟨s', hok, calls', hperf, hserved⟩
    obtain ⟨o, s₁, heq, hsent, hstore⟩ := exists_of_userRequestHandler hok
    obtain ⟨calls, hdid, hquiet, ⟨hall, -⟩ | ⟨-, hno, hlt⟩⟩ := handleTuples_spec [] hown heq
    · exact hall
    -- a tuple without a call would have an error, but the responses have none
    rw [hstore, hdid.performed] at hperf
    obtain ⟨t, -, hnone⟩ := exists_none_of_length_lt (List.append_cancel_left hperf).symm hlt hserved
    obtain ⟨x, hx, -, -, tp, htp, -, herror⟩ := hnone rfl
    obtain ⟨new, hnew, hnewQuiet⟩ := hdid.sent
    rcases hsent with hsent | ⟨response, rfl, hsent⟩
    · rw [hsent, hnew, List.drop_left] at hx
      exact absurd (hnewQuiet x hx tp htp) herror
    · rw [hsent, hnew, List.append_assoc, List.drop_left] at hx
      rcases List.mem_append.mp hx with hx | hx
      · exact absurd (hnewQuiet x hx tp htp) herror
      · rw [List.mem_singleton.mp hx] at htp
        exact absurd (hquiet hno (by simp) response rfl tp htp) herror
  · intro hall
    obtain ⟨⟨o, s'⟩, heq⟩ := exists_handleTuples [] hown hall
    obtain ⟨calls, hdid, -, ⟨-, hserves⟩ | ⟨hnot, -⟩⟩ := handleTuples_spec [] hown heq
    · obtain ⟨s₁, hok, hstore⟩ := userRequestHandler_of_handleTuples heq
      refine ⟨s₁, hok, calls.map some, ?_, ?_⟩
      · rw [hstore, hdid.performed, List.reduceOption, List.filterMap_map]
        simp
      · rw [List.forall₂_map_right_iff]
        exact hserves.imp fun t c hc => ⟨by simpa using hc, by simp⟩
    · exact absurd hall hnot

/-- A cluster of one thread whose store is empty and stays so. -/
def solo : NodeEnv Unit (fun _ => Unit) Unit ℕ ℕ where
  params := soloParams
  hash := ⟨List.length, fun _ _ => 0, List.length, fun _ _ => 0⟩
  rings := soloRings
  self := ⟨(), 0⟩
  keyRequestAddress := fun _ => "kvs"
  kvs :=
    { get := fun _ _ => (("", .keyDne), ()), getReplicated := fun _ _ => (("", .keyDne), ()),
      getMeta := fun _ _ => (("", .keyDne), ()), put := fun _ _ _ => (false, ()), update := fun _ _ _ => (false, ()),
      putReplicated := fun _ _ _ => (), updateReplicated := fun _ _ _ => (), putMeta := fun _ _ _ => () }
  codec := .unary
  ops := ⟨fun _ => (), fun _ _ _ => (), fun _ _ => 1, fun _ _ => false, fun _ _ => "", fun _ _ => ()⟩

/-- A thread that has served nothing. -/
def soloNode : Node Unit (fun _ => Unit) := ⟨⟨(), fun _ _ => none, []⟩, fun _ => none, fun _ => [], [], [], [], [], [], []⟩

/-- A request with one tuple. -/
def single (type : RequestType) (key : String) (lattice : LatticeType) : KeyRequest KeyText :=
  ⟨type, [{ key := key.toList, latticeType := lattice, payload := "v" }], "client", "r"⟩

/-- A write of a last-writer-wins value to the key `5`. -/
theorem request_completed_put : (single .put "5" .lww).Completed soloNode
    (solo.userRequestHandler true soloNode (single .put "5" .lww)) := by
  refine (request_completed_iff solo true soloNode (single .put "5" .lww) ?_).mpr ⟨?_, by simp [single]⟩
  · intro t ht _
    rw [List.mem_singleton.mp ht]
    decide
  · intro t ht
    rw [List.mem_singleton.mp ht]
    exact .inr ⟨by decide, by decide, .inl ⟨⟨5, by rfl⟩, .inr ⟨rfl, rfl⟩⟩⟩

/-- An empty key is indexed outside a vector, a key that is no number throws, and a write without a lattice type has no
serializer; a request of unknown type is answered without an error, and no store performs anything. -/
theorem empty_key_not_completed :
    (¬ (single .get "" .lww).Completed soloNode (solo.userRequestHandler false soloNode (single .get "" .lww)) ∧
      solo.userRequestHandler false soloNode (single .get "" .lww) = .error .emptyVector) ∧
    solo.userRequestHandler false soloNode (single .get "abc" .lww) = .error (.stoul .invalidArgument) ∧
    solo.userRequestHandler false soloNode (single .put "5" .none) = .error .noSerializer ∧
    (solo.userRequestHandler false soloNode (single .unspecified "5" .lww)).toOption.map
        (fun s => (s.store.performed, s.sent)) =
      some ([], [("client", ⟨.unspecified, [{ key := "5".toList }], "r"⟩)]) := by
  refine ⟨⟨?_, rfl⟩, rfl, rfl, rfl⟩
  rintro ⟨s', h, -⟩
  cases h

end NodeEnv

end Dinomo
