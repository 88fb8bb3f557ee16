import Dinomo.Library.Grouping
import Dinomo.Addresses
import Dinomo.ReplicaSet
import Dinomo.Monitor

/-!
# Changing replication factors

`change_replication_factor` first puts the requested factors of all keys into its own map and prepares a put of the new
factors for each, grouped by the thread that stores them.  When the outcomes of the puts are known, it sends the updates of
the keys that were stored, in two rounds: it waits for the answers to the first one, or gives up waiting, before it begins
the second.  In the end the keys that were not stored get their old factors back.

Within a round the messages are listed in the order in which their addresses first appear.
-/

namespace Dinomo

open Function List

/-- `get_metadata_key`, for the replication factors of a key. -/
def getMetadataKey (k : KeyText) : KeyText := "ANNA_METADATA".toList ++ '|' :: ("replication".toList ++ '|' :: k)

/-- The data key of a metadata key of a type.  Without a second delimiter `n_type + 1` is zero, and without a first one so is
`n_id + 1`. -/
def dataKey (type k : KeyText) : KeyText :=
  let rest := if '|' ∈ k then (k.dropWhile (· ≠ '|')).tail else k
  if rest.takeWhile (· ≠ '|') = type then
    if '|' ∈ rest then (rest.dropWhile (· ≠ '|')).tail else k
  else []

/-- `get_key_from_metadata`. -/
def getKeyFromMetadata (k : KeyText) : KeyText := dataKey "replication".toList k

/-- What is in front of the first delimiter, and the rest. -/
theorem takeWhile_append_delim {delim : Char} {a : KeyText} (ha : delim ∉ a) (b : KeyText) :
    (a ++ delim :: b).takeWhile (· ≠ delim) = a ∧ (a ++ delim :: b).dropWhile (· ≠ delim) = delim :: b := by
  have hall : ∀ c ∈ a, decide (c ≠ delim) = true := fun c hc => decide_eq_true (ne_of_mem_of_not_mem hc ha)
  constructor
  · rw [takeWhile_append_of_pos hall]
    simp
  · rw [dropWhile_append_of_pos hall]
    simp

/-- Every key can be read from its metadata key. -/
theorem dataKey_append {name type : KeyText} (hname : '|' ∉ name) (htype : '|' ∉ type) (k : KeyText) :
    dataKey type (name ++ '|' :: (type ++ '|' :: k)) = k := by
  obtain ⟨-, hafter⟩ := takeWhile_append_delim hname (type ++ '|' :: k)
  obtain ⟨hread, hrest⟩ := takeWhile_append_delim htype k
  have hfirst : '|' ∈ name ++ '|' :: (type ++ '|' :: k) := by simp
  have hsecond : '|' ∈ type ++ '|' :: k := by simp
  simp only [dataKey, if_pos hfirst, hafter, tail_cons, hread, if_pos hsecond, hrest, if_true]

/-- So can it with the names in the source. -/
theorem getKeyFromMetadata_getMetadataKey (k : KeyText) : getKeyFromMetadata (getMetadataKey k) = k :=
  dataKey_append (by decide) (by decide) k

/-- The outcome of a request with the puts for a thread: no answer in time, or an answer that rejects some keys because
they belong to another thread. -/
inductive PutOutcome
  | timeout
  | answered (wrongThread : KeyText → Bool)

/-- A put of a metadata key fails with an outcome. -/
def PutOutcome.fails : PutOutcome → KeyText → Bool
  | .timeout, _ => true
  | .answered wrongThread, k => wrongThread k

/-- What gets an update: the first thread of a node, or a routing node. -/
inductive Destination (N : Type*)
  | server (n : N)
  | routing (ip : Address)
deriving DecidableEq, Repr

/-- The factors of a key in a message. -/
abbrev FactorUpdate := KeyText × KeyReplication

/-- What `change_replication_factor` sends and waits for. -/
inductive ChangeEvent (N : Type*)
  | put (requestId : ℕ) (target : ServerThread N) (tuples : List FactorUpdate)
  | sync (requestId : ℕ) (dest : Destination N) (updates : List FactorUpdate)
  | received (requestIds : List ℕ)
  | async (dest : Destination N) (updates : List FactorUpdate)

/-- What `change_replication_factor` works with; `pick` is what `rand` returns for a metadata key. -/
structure ChangeSetting (N H L : Type*) [LinearOrder H] [LinearOrder L] where
  params : ClusterParams
  hash : Hashers KeyText N H L
  rings : TierRings N H L
  routingIps : List Address
  pick : KeyText → ℕ
  outcome : ServerThread N → PutOutcome

/-- The state of the loop over the requests. -/
structure Storing (N : Type*) where
  keyReplicationMap : ReplicationMap KeyText
  orig : ReplicationMap KeyText
  puts : List (ServerThread N × FactorUpdate)

/-- What is left when `change_replication_factor` returns. -/
structure ChangeResult (N : Type*) where
  keyReplicationMap : ReplicationMap KeyText
  rid : ℕ
  trace : List (ChangeEvent N)

namespace ChangeSetting

variable {N H L : Type*} [DecidableEq N] [LinearOrder H] [LinearOrder L] (env : ChangeSetting N H L)

/-- `is_primary_replica_global`. -/
def isPrimaryReplicaGlobal (m : ReplicationMap KeyText) (k : KeyText) (tier : Tier) (n : N) : Bool :=
  if (m.read k).globalReplication tier = 0 then false
  else if Tier.memory.number < tier.number ∧ hasUpperTierReplica tier (m.read k) then false
  else
    match (env.rings.globalRings tier).nodes[(env.rings.globalRings tier).findIterator (env.hash.globalKey k)]? with
    | none => false
    | some globalPos => n = globalPos.2

/-- The factors under which metadata is placed. -/
def metadataFactors : KeyReplication := ⟨fun _ => 1, fun _ => env.params.defaultLocalReplication⟩

/-- The rings of the memory tier. -/
def memoryRings : Rings N H L := ⟨env.rings.globalRings .memory, env.rings.localRings .memory⟩

/-- The thread to which `prepare_metadata_put_request` sends a metadata key, if there is one. -/
def putTarget (k : KeyText) : Option (ServerThread N) :=
  let threads := threadsFor env.hash env.memoryRings k env.metadataFactors
  threads[env.pick k % threads.length]?

/-- One request in the first loop. -/
def prepare (st : Storing N) (r : FactorUpdate) : Storing N :=
  let current := st.keyReplicationMap.read r.1
  let orig := Function.update st.orig r.1 (some current)
  if Monitor.sameFactors r.2 current then { st with keyReplicationMap := st.keyReplicationMap.touch r.1, orig }
  else
    { keyReplicationMap := Function.update st.keyReplicationMap r.1 (some r.2)
      orig
      puts := st.puts ++
        (env.putTarget (getMetadataKey r.1)).toList.map fun target => (target, getMetadataKey r.1, r.2) }

/-- The first loop. -/
def prepareAll (m : ReplicationMap KeyText) (requests : List FactorUpdate) : Storing N :=
  requests.foldl env.prepare ⟨m, fun _ => none, []⟩

/-- The keys of a request that were not stored. -/
def failedOf (put : ServerThread N × List FactorUpdate) : List KeyText :=
  match env.outcome put.1 with
  | .timeout => put.2.map fun tuple => getKeyFromMetadata tuple.1
  | .answered wrongThread => (put.2.filter fun tuple => wrongThread tuple.1).map fun tuple => getKeyFromMetadata tuple.1

/-- `failed_keys`. -/
def failedKeys (st : Storing N) : List KeyText := (Grouping.collect st.puts).flatMap env.failedOf

/-- A node gets the update of a key in the synchronous round: the primary replica if the factor leaves the default
upwards, and the others if it comes down to the default. -/
def waits (new old : KeyReplication) (tier : Tier) (primary : Bool) : Bool :=
  if old.globalReplication tier < new.globalReplication tier then
    old.globalReplication tier = env.params.defaultGlobalReplication tier && primary
  else if new.globalReplication tier < old.globalReplication tier then
    new.globalReplication tier = env.params.defaultGlobalReplication tier && !primary
  else false

/-- The nodes of a tier that hold a key under the larger of its old and its new factor. -/
def replicas (m orig : ReplicationMap KeyText) (k : KeyText) (tier : Tier) : List N :=
  (env.rings.globalRings tier).responsible (env.hash.globalKey k)
    (max ((m.read k).globalReplication tier) ((orig.read k).globalReplication tier))

/-- The destinations of the update of a key, and whether they are in the synchronous round. -/
def destinations (st : Storing N) (k : KeyText) : List (Bool × Destination N) :=
  (kAllTiers.flatMap fun tier => (env.replicas st.keyReplicationMap st.orig k tier).map fun n =>
    (env.waits (st.keyReplicationMap.read k) (st.orig.read k) tier
      (env.isPrimaryReplicaGlobal st.keyReplicationMap k tier n), .server n)) ++
    env.routingIps.map fun ip => (false, .routing ip)

/-- The updates of all keys that were stored. -/
def updates (st : Storing N) (requests : List FactorUpdate) : List (Bool × Destination N × FactorUpdate) :=
  (requests.filter fun r => r.1 ∉ env.failedKeys st).flatMap fun r =>
    (env.destinations st r.1).map fun d => (d.1, d.2, r.1, st.keyReplicationMap.read r.1)

/-- The messages of a round. -/
def messages (sync : Bool) (us : List (Bool × Destination N × FactorUpdate)) : List (Destination N × List FactorUpdate) :=
  Grouping.collect ((us.filter fun u => u.1 = sync).map Prod.snd)

/-- The searches of the function end. -/
def SearchesEnd (st : Storing N) (m : ReplicationMap KeyText) (requests : List FactorUpdate) : Prop :=
  (∀ r ∈ requests, Monitor.sameFactors r.2 (m.read r.1) = false →
    (env.rings.globalRings .memory).Ends (env.hash.globalKey (getMetadataKey r.1)) 1 ∧
      (responsibleGlobal env.hash env.memoryRings (getMetadataKey r.1) 1 = [] ∨
        (env.rings.localRings .memory).Ends (env.hash.localKey (getMetadataKey r.1)) env.params.defaultLocalReplication)) ∧
    ∀ r ∈ requests, r.1 ∉ env.failedKeys st → ∀ tier ∈ kAllTiers,
      (env.rings.globalRings tier).Ends (env.hash.globalKey r.1)
        (max ((st.keyReplicationMap.read r.1).globalReplication tier) ((st.orig.read r.1).globalReplication tier))

instance (st : Storing N) (m : ReplicationMap KeyText) (requests : List FactorUpdate) :
    Decidable (env.SearchesEnd st m requests) := inferInstanceAs (Decidable (_ ∧ _))

/-- What is sent, with identifiers from `rid` on for the requests that are answered. -/
def traceOf (rid : ℕ) (puts : List (ServerThread N × List FactorUpdate)) (sync async : List (Destination N × List FactorUpdate)) :
    List (ChangeEvent N) :=
  (puts.zipIdx rid).map (fun x => .put x.2 x.1.1 x.1.2) ++
    (sync.zipIdx (rid + puts.length)).map (fun x => .sync x.2 x.1.1 x.1.2) ++
    (if sync = [] then [] else [.received ((sync.zipIdx (rid + puts.length)).map Prod.snd)]) ++
    async.map fun x => .async x.1 x.2

/-- `change_replication_factor`; it does not return if a search for the nodes of a key does not end. -/
def changeReplicationFactor (m : ReplicationMap KeyText) (rid : ℕ) (requests : List FactorUpdate) :
    Option (ChangeResult N) :=
  let st := env.prepareAll m requests
  let puts := Grouping.collect st.puts
  let sync := messages true (env.updates st requests)
  let async := messages false (env.updates st requests)
  if env.SearchesEnd st m requests then
    some
      { keyReplicationMap := (env.failedKeys st).foldl (fun m k => Function.update m k (some (st.orig.read k)))
          st.keyReplicationMap
        rid := rid + puts.length + sync.length
        trace := traceOf rid puts sync async }
  else none

section Preparing

variable {env} {m : ReplicationMap KeyText} {requests : List FactorUpdate} {st : Storing N}

/-- Entries with the same factors are the same. -/
theorem eq_of_sameFactors {a b : KeyReplication} (h : Monitor.sameFactors a b = true) : a = b := by
  simp only [Monitor.sameFactors, decide_eq_true_eq] at h
  obtain ⟨hgm, hgs, hlm, hls⟩ := h
  ext tier
  · cases tier with
    | memory => exact hgm
    | storage => exact hgs
  · cases tier with
    | memory => exact hlm
    | storage => exact hls

/-- A request puts its factors into the map, also if they are there already. -/
theorem prepare_keyReplicationMap (st : Storing N) (r : FactorUpdate) :
    (env.prepare st r).keyReplicationMap = update st.keyReplicationMap r.1 (some r.2) := by
  unfold prepare
  dsimp only
  split_ifs with hsame
  · rw [ReplicationMap.touch, ← eq_of_sameFactors hsame]
  · rfl

/-- The old factors are kept aside. -/
theorem prepare_orig (st : Storing N) (r : FactorUpdate) :
    (env.prepare st r).orig = update st.orig r.1 (some (st.keyReplicationMap.read r.1)) := by
  unfold prepare
  dsimp only
  split_ifs <;> rfl

variable {r : FactorUpdate}

/-- Factors that change are put to a thread. -/
theorem mem_prepare_puts {st : Storing N} {target : ServerThread N} {tuple : FactorUpdate} :
    (target, tuple) ∈ (env.prepare st r).puts ↔ (target, tuple) ∈ st.puts ∨
      Monitor.sameFactors r.2 (st.keyReplicationMap.read r.1) = false ∧
        env.putTarget (getMetadataKey r.1) = some target ∧ tuple = (getMetadataKey r.1, r.2) := by
  unfold prepare
  dsimp only
  split_ifs with hsame
  · simp [hsame]
  · simp [hsame, eq_comm]

/-- What the first loop has done after some requests for different keys: the map has the new factors, the old ones are kept
aside, and there is a put for each key whose factors change. -/
structure Prepared (env : ChangeSetting N H L) (m : ReplicationMap KeyText) (l : List FactorUpdate) (st : Storing N) :
    Prop where
  new : ∀ r ∈ l, st.keyReplicationMap r.1 = some r.2
  other : ∀ k, k ∉ l.map Prod.fst → st.keyReplicationMap k = m k
  orig : ∀ r ∈ l, st.orig r.1 = some (m.read r.1)
  puts : ∀ target tuple, (target, tuple) ∈ st.puts ↔ ∃ r ∈ l, Monitor.sameFactors r.2 (m.read r.1) = false ∧
    env.putTarget (getMetadataKey r.1) = some target ∧ tuple = (getMetadataKey r.1, r.2)

/-- A request for another key. -/
theorem Prepared.prepare {l : List FactorUpdate} (h : env.Prepared m l st)
    (hr : r.1 ∉ l.map Prod.fst) : env.Prepared m (l ++ [r]) (env.prepare st r) := by
  have hne : ∀ x ∈ l, x.1 ≠ r.1 := fun x hx => ne_of_mem_of_not_mem (mem_map_of_mem hx) hr
  have hcurrent : st.keyReplicationMap.read r.1 = m.read r.1 := by
    rw [ReplicationMap.read, ReplicationMap.read, h.other _ hr]
  refine ⟨fun x hx => ?_, fun k hk => ?_, fun x hx => ?_, fun target tuple => ?_⟩
  · rw [prepare_keyReplicationMap]
    rcases mem_append.mp hx with hx | hx
    · rw [update_of_ne (hne x hx), h.new x hx]
    · rw [mem_singleton.mp hx, update_self]
  · obtain ⟨hkl, hkr⟩ : k ∉ l.map Prod.fst ∧ k ≠ r.1 := by simpa [not_or] using hk
    rw [prepare_keyReplicationMap, update_of_ne hkr, h.other k hkl]
  · rw [prepare_orig, hcurrent]
    rcases mem_append.mp hx with hx | hx
    · rw [update_of_ne (hne x hx), h.orig x hx]
    · rw [mem_singleton.mp hx, update_self]
  · rw [mem_prepare_puts, hcurrent, h.puts target tuple]
    simp [or_and_right, exists_or]

/-- The first loop. -/
theorem prepared_prepareAll (hnodup : (requests.map Prod.fst).Nodup) :
    env.Prepared m requests (env.prepareAll m requests) := by
  induction requests using List.reverseRecOn with
  | nil =>
    exact ⟨fun r hr => absurd hr not_mem_nil, fun k _ => rfl, fun r hr => absurd hr not_mem_nil,
      fun target tuple => by simp [prepareAll]⟩
  | append_singleton l r ih =>
    rw [map_append, nodup_append] at hnodup
    have hr : r.1 ∉ l.map Prod.fst := fun hin => hnodup.2.2 _ hin _ (mem_singleton_self _) rfl
    rw [prepareAll, foldl_append]
    exact (ih hnodup.1).prepare hr

/-- The put of a request fails: its key is sent to a thread that does not answer or rejects it. -/
def Failed (env : ChangeSetting N H L) (m : ReplicationMap KeyText) (r : FactorUpdate) : Prop :=
  Monitor.sameFactors r.2 (m.read r.1) = false ∧ ∃ target, env.putTarget (getMetadataKey r.1) = some target ∧
    (env.outcome target).fails (getMetadataKey r.1) = true

omit [DecidableEq N] in
/-- The keys of a request that were not stored are those whose puts fail. -/
theorem mem_failedOf {put : ServerThread N × List FactorUpdate} {k : KeyText} :
    k ∈ env.failedOf put ↔ ∃ tuple ∈ put.2, (env.outcome put.1).fails tuple.1 = true ∧ getKeyFromMetadata tuple.1 = k := by
  unfold failedOf
  cases env.outcome put.1 with
  | timeout => simp [PutOutcome.fails]
  | answered wrongThread => simp [PutOutcome.fails, and_assoc]

/-- The failed keys are those of the failed requests. -/
theorem mem_failedKeys (h : env.Prepared m requests st) {k : KeyText} :
    k ∈ env.failedKeys st ↔ ∃ r ∈ requests, r.1 = k ∧ env.Failed m r := by
  rw [failedKeys, mem_flatMap]
  constructor
  · rintro ⟨⟨target, tuples⟩, hput, hk⟩
    obtain ⟨tuple, htuple, hfails, hkey⟩ := mem_failedOf.mp hk
    obtain ⟨r, hr, hchanged, htarget, rfl⟩ := (h.puts target tuple).mp (Grouping.mem_collect.mp ⟨tuples, hput, htuple⟩)
    rw [getKeyFromMetadata_getMetadataKey] at hkey
    exact ⟨r, hr, hkey, hchanged, target, htarget, hfails⟩
  · rintro ⟨r, hr, rfl, hchanged, target, htarget, hfails⟩
    obtain ⟨tuples, htuples, hin⟩ := Grouping.mem_collect.mpr
      ((h.puts target (getMetadataKey r.1, r.2)).mpr ⟨r, hr, hchanged, htarget, rfl⟩)
    exact ⟨_, htuples, mem_failedOf.mpr ⟨_, hin, hfails, getKeyFromMetadata_getMetadataKey _⟩⟩

/-- The key of a request has failed if and only if the request has. -/
theorem fst_mem_failedKeys (h : env.Prepared m requests st) (hnodup : (requests.map Prod.fst).Nodup)
    (hr : r ∈ requests) : r.1 ∈ env.failedKeys st ↔ env.Failed m r := by
  rw [mem_failedKeys h]
  refine ⟨?_, fun hfailed => ⟨r, hr, rfl, hfailed⟩⟩
  rintro ⟨r', hr', hkey, hfailed⟩
  exact inj_on_of_nodup_map hnodup hr' hr hkey ▸ hfailed

/-- The failed keys get their old factors back. -/
theorem foldl_restore (orig : ReplicationMap KeyText) (failed : List KeyText) (m : ReplicationMap KeyText) (k : KeyText) :
    failed.foldl (fun m k => update m k (some (orig.read k))) m k =
      if k ∈ failed then some (orig.read k) else m k := by
  induction failed generalizing m with
  | nil => rfl
  | cons k' failed ih =>
    rw [foldl_cons, ih]
    by_cases hk : k = k'
    · subst hk
      simp
    · simp [hk]

end Preparing

section Rounds

/-- An update is sent in the synchronous round. -/
def SyncSent (trace : List (ChangeEvent N)) (dest : Destination N) (u : FactorUpdate) : Prop :=
  ∃ id us, ChangeEvent.sync id dest us ∈ trace ∧ u ∈ us

/-- An update is sent in the asynchronous round. -/
def AsyncSent (trace : List (ChangeEvent N)) (dest : Destination N) (u : FactorUpdate) : Prop :=
  ∃ us, ChangeEvent.async dest us ∈ trace ∧ u ∈ us

variable {rid : ℕ} {puts : List (ServerThread N × List FactorUpdate)} {sync async : List (Destination N × List FactorUpdate)}
variable {dest : Destination N} {u : FactorUpdate}

omit [DecidableEq N] in
/-- The messages of the synchronous round. -/
theorem syncSent_traceOf : SyncSent (traceOf rid puts sync async) dest u ↔ ∃ us, (dest, us) ∈ sync ∧ u ∈ us := by
  have hevent : ∀ id us, ChangeEvent.sync id dest us ∈ traceOf rid puts sync async ↔
      ((dest, us), id) ∈ sync.zipIdx (rid + puts.length) := fun id us => by
    unfold traceOf
    split_ifs <;> simp
  constructor
  · rintro ⟨id, us, hin, hu⟩
    exact ⟨us, fst_mem_of_mem_zipIdx ((hevent id us).mp hin), hu⟩
  · rintro ⟨us, hin, hu⟩
    obtain ⟨⟨x, id⟩, hx, rfl⟩ := mem_map.mp ((zipIdx_map_fst (rid + puts.length) sync).symm ▸ hin)
    exact ⟨id, us, (hevent id us).mpr hx, hu⟩

omit [DecidableEq N] in
/-- Those of the asynchronous round. -/
theorem asyncSent_traceOf : AsyncSent (traceOf rid puts sync async) dest u ↔ ∃ us, (dest, us) ∈ async ∧ u ∈ us := by
  refine exists_congr fun us => and_congr_left fun _ => ?_
  unfold traceOf
  split_ifs <;> simp

variable {env} {m : ReplicationMap KeyText} {requests : List FactorUpdate} {st : Storing N} {b : Bool}
  {r : FactorUpdate}

/-- A round has the updates of its kind. -/
theorem mem_messages {us : List (Bool × Destination N × FactorUpdate)} :
    (∃ vs, (dest, vs) ∈ messages b us ∧ u ∈ vs) ↔ (b, dest, u) ∈ us := by
  rw [messages, Grouping.mem_collect, mem_map]
  constructor
  · rintro ⟨⟨b', x⟩, hx, rfl⟩
    obtain ⟨hx, hb⟩ := mem_filter.mp hx
    exact of_decide_eq_true hb ▸ hx
  · exact fun hu => ⟨(b, dest, u), mem_filter.mpr ⟨hu, decide_eq_true rfl⟩, rfl⟩

/-- The updates are those of the requests that were stored, with the factors in the map. -/
theorem mem_updates : (b, dest, u) ∈ env.updates st requests ↔
    ∃ r ∈ requests, r.1 ∉ env.failedKeys st ∧ (b, dest) ∈ env.destinations st r.1 ∧
      u = (r.1, st.keyReplicationMap.read r.1) := by
  rw [updates, mem_flatMap]
  constructor
  · rintro ⟨r, hr, hu⟩
    obtain ⟨hr, hstored⟩ := mem_filter.mp hr
    obtain ⟨⟨b', d⟩, hd, heq⟩ := mem_map.mp hu
    cases heq
    exact ⟨r, hr, of_decide_eq_true hstored, hd, rfl⟩
  · rintro ⟨r, hr, hstored, hd, rfl⟩
    exact ⟨r, mem_filter.mpr ⟨hr, decide_eq_true hstored⟩, mem_map.mpr ⟨_, hd, rfl⟩⟩

/-- Every tier is looked at. -/
theorem mem_kAllTiers (tier : Tier) : tier ∈ kAllTiers := by
  cases tier <;> decide

/-- The destinations are the nodes of every tier, in their rounds, and the routing nodes. -/
theorem mem_destinations {k : KeyText} : (b, dest) ∈ env.destinations st k ↔
    (∃ tier, ∃ n ∈ env.replicas st.keyReplicationMap st.orig k tier, dest = .server n ∧
      b = env.waits (st.keyReplicationMap.read k) (st.orig.read k) tier
        (env.isPrimaryReplicaGlobal st.keyReplicationMap k tier n)) ∨
    (∃ ip ∈ env.routingIps, dest = .routing ip ∧ b = false) := by
  rw [destinations, mem_append, mem_flatMap, mem_map]
  refine or_congr ⟨?_, ?_⟩ ⟨?_, ?_⟩
  · rintro ⟨tier, -, hin⟩
    obtain ⟨n, hn, heq⟩ := mem_map.mp hin
    cases heq
    exact ⟨tier, n, hn, rfl, rfl⟩
  · rintro ⟨tier, n, hn, rfl, rfl⟩
    exact ⟨tier, mem_kAllTiers tier, mem_map.mpr ⟨n, hn, rfl⟩⟩
  · rintro ⟨ip, hip, heq⟩
    cases heq
    exact ⟨ip, hip, rfl, rfl⟩
  · rintro ⟨ip, hip, rfl, rfl⟩
    exact ⟨ip, hip, rfl⟩

omit [DecidableEq N] in
/-- A node is in the synchronous round if it is the primary replica and the factor leaves the default upwards, or if it is
none and the factor comes down to the default. -/
theorem waits_eq_true_iff {new old : KeyReplication} {tier : Tier} {primary : Bool} :
    env.waits new old tier primary = true ↔
      (old.globalReplication tier < new.globalReplication tier ∧
        old.globalReplication tier = env.params.defaultGlobalReplication tier ∧ primary = true) ∨
      (new.globalReplication tier < old.globalReplication tier ∧
        new.globalReplication tier = env.params.defaultGlobalReplication tier ∧ primary = false) := by
  unfold waits
  split_ifs with hraised hlowered
  · simp [hraised, hraised.le]
  · simp [hraised, hlowered]
  · simp [hraised, hlowered]

/-- The larger of the old and the new replica set of a request in a tier. -/
def largerSet (env : ChangeSetting N H L) (m : ReplicationMap KeyText) (r : FactorUpdate) (tier : Tier) : List N :=
  (env.rings.globalRings tier).responsible (env.hash.globalKey r.1)
    (max (r.2.globalReplication tier) ((m.read r.1).globalReplication tier))

/-- Who should get the update of a request: the nodes of the larger replica set in each tier, and the routing nodes. -/
def Recipient (env : ChangeSetting N H L) (m : ReplicationMap KeyText) (r : FactorUpdate) (dest : Destination N) : Prop :=
  (∃ tier, ∃ n ∈ env.largerSet m r tier, dest = .server n) ∨ ∃ ip ∈ env.routingIps, dest = .routing ip

/-- The map has the new factors of a request. -/
theorem Prepared.read_new (h : env.Prepared m requests st) (hr : r ∈ requests) :
    st.keyReplicationMap.read r.1 = r.2 := by
  rw [ReplicationMap.read, h.new r hr, Option.getD_some]

/-- The old ones are those of the map before. -/
theorem Prepared.read_orig (h : env.Prepared m requests st) (hr : r ∈ requests) :
    st.orig.read r.1 = m.read r.1 := by
  rw [ReplicationMap.read, h.orig r hr, Option.getD_some]

/-- The updates of a request in the messages. -/
theorem mem_updates_of_prepared (h : env.Prepared m requests st) (hnodup : (requests.map Prod.fst).Nodup)
    (hr : r ∈ requests) {rep : KeyReplication} :
    (b, dest, r.1, rep) ∈ env.updates st requests ↔ ¬env.Failed m r ∧ rep = r.2 ∧ (b, dest) ∈ env.destinations st r.1 := by
  rw [mem_updates]
  constructor
  · rintro ⟨x, hx, hstored, hdest, heq⟩
    obtain ⟨hkey, hrep⟩ := Prod.mk.injEq .. ▸ heq
    obtain rfl := inj_on_of_nodup_map hnodup hx hr hkey.symm
    exact ⟨mt (fst_mem_failedKeys h hnodup hx).mpr hstored, hrep.trans (h.read_new hx), hdest⟩
  · rintro ⟨hstored, rfl, hdest⟩
    exact ⟨r, hr, mt (fst_mem_failedKeys h hnodup hr).mp hstored, hdest, by rw [h.read_new hr]⟩

/-- The destinations of a request in terms of the factors before and after. -/
theorem mem_destinations_of_prepared (h : env.Prepared m requests st) (hr : r ∈ requests) :
    (b, dest) ∈ env.destinations st r.1 ↔
      (∃ tier, ∃ n ∈ env.largerSet m r tier, dest = .server n ∧
        b = env.waits r.2 (m.read r.1) tier (env.isPrimaryReplicaGlobal st.keyReplicationMap r.1 tier n)) ∨
      (∃ ip ∈ env.routingIps, dest = .routing ip ∧ b = false) := by
  rw [mem_destinations]
  simp only [replicas, h.read_new hr, h.read_orig hr, largerSet]

/-- The destinations in both rounds are the recipients. -/
theorem mem_destinations_or (h : env.Prepared m requests st) (hr : r ∈ requests) :
    ((true, dest) ∈ env.destinations st r.1 ∨ (false, dest) ∈ env.destinations st r.1) ↔ env.Recipient m r dest := by
  rw [mem_destinations_of_prepared h hr, mem_destinations_of_prepared h hr]
  constructor
  · rintro ((⟨tier, n, hn, hdest, -⟩ | ⟨ip, -, -, hb⟩) | (⟨tier, n, hn, hdest, -⟩ | ⟨ip, hip, hdest, -⟩))
    · exact .inl ⟨tier, n, hn, hdest⟩
    · cases hb
    · exact .inl ⟨tier, n, hn, hdest⟩
    · exact .inr ⟨ip, hip, hdest⟩
  · rintro (⟨tier, n, hn, hdest⟩ | ⟨ip, hip, hdest⟩)
    · cases hround : env.waits r.2 (m.read r.1) tier (env.isPrimaryReplicaGlobal st.keyReplicationMap r.1 tier n) with
      | true => exact .inl (.inl ⟨tier, n, hn, hdest, hround.symm⟩)
      | false => exact .inr (.inl ⟨tier, n, hn, hdest, hround.symm⟩)
    · exact .inr (.inr ⟨ip, hip, hdest, rfl⟩)

/-- Whether a node is the primary replica of a key depends on the factors of the key only. -/
theorem isPrimaryReplicaGlobal_congr {m m' : ReplicationMap KeyText} {k : KeyText} (hread : m.read k = m'.read k) (tier : Tier)
    (n : N) : env.isPrimaryReplicaGlobal m k tier n = env.isPrimaryReplicaGlobal m' k tier n := by
  simp only [isPrimaryReplicaGlobal, hread]

/-- When the searches end, the failed keys have their old factors and the others those of the first loop, and the messages
are sent round by round. -/
theorem exists_changeReplicationFactor (rid : ℕ) (hends : env.SearchesEnd (env.prepareAll m requests) m requests) :
    ∃ res, env.changeReplicationFactor m rid requests = some res ∧
      (∀ k, res.keyReplicationMap k =
        if k ∈ env.failedKeys (env.prepareAll m requests) then some ((env.prepareAll m requests).orig.read k)
        else (env.prepareAll m requests).keyReplicationMap k) ∧
      res.trace = traceOf rid (Grouping.collect (env.prepareAll m requests).puts)
        (messages true (env.updates (env.prepareAll m requests) requests))
        (messages false (env.updates (env.prepareAll m requests) requests)) :=
  ⟨_, if_pos hends, foldl_restore _ _ _, rfl⟩

omit [DecidableEq N] in
/-- The messages are sent round by round. -/
theorem traceOf_rounds : ∃ putEvents syncs ended asyncs,
    traceOf rid puts sync async = putEvents ++ syncs ++ ended ++ asyncs ∧
      (∀ e ∈ putEvents, ∃ id target tuples, e = .put id target tuples) ∧
      (∀ e ∈ syncs, ∃ id dest us, e = .sync id dest us) ∧ (∀ e ∈ asyncs, ∃ dest us, e = .async dest us) ∧
      (syncs ≠ [] → ∃ ids, ended = [.received ids] ∧ ∀ id dest us, .sync id dest us ∈ syncs → id ∈ ids) := by
  refine ⟨_, _, _, _, rfl, fun e he => ?_, fun e he => ?_, fun e he => ?_, fun hne => ?_⟩
  · obtain ⟨x, -, rfl⟩ := mem_map.mp he
    exact ⟨_, _, _, rfl⟩
  · obtain ⟨x, -, rfl⟩ := mem_map.mp he
    exact ⟨_, _, _, rfl⟩
  · obtain ⟨x, -, rfl⟩ := mem_map.mp he
    exact ⟨_, _, rfl⟩
  · have hsome : sync ≠ [] := fun heq => hne (by rw [heq]; rfl)
    refine ⟨_, if_neg hsome, fun id dest us hin => ?_⟩
    obtain ⟨x, hx, heq⟩ := mem_map.mp hin
    cases heq
    exact mem_map_of_mem hx

end Rounds

end ChangeSetting

/-- A search for one node ends. -/
theorem HashRing.ends_one {H N : Type*} [LinearOrder H] [DecidableEq N] (r : HashRing H N) (h : H) : r.Ends h 1 := by
  refine HashRing.ends_iff.mpr ((em (r.nodes = [])).imp_right fun hne => ?_)
  obtain ⟨x, hx⟩ := exists_mem_of_ne_nil _ hne
  exact length_pos_of_mem (mem_eraseDups.mpr (mem_map_of_mem hx))

/-- For every set of valid requests and every outcome of the puts: a key that was not stored keeps its entry and no update is
sent for it, and every other requested key gets its entry and its update is sent to exactly the nodes of the larger replica
set and the routing nodes.  In the synchronous round are the primary replica of a key raised from the default factor, and
all replicas but the primary one of a key lowered to the default factor; it ends before the asynchronous one begins. -/
theorem replication_change_rounds {N H L : Type*} [DecidableEq N] [LinearOrder H] [LinearOrder L] (env : ChangeSetting N H L)
    (m : ReplicationMap KeyText) (rid : ℕ) (requests : List FactorUpdate) (hnodup : (requests.map Prod.fst).Nodup)
    (hentries : ∀ r ∈ requests, (m r.1).isSome = true)
    (hvalid : ∀ r ∈ requests, ∀ tier, (env.rings.globalRings tier).Ends (env.hash.globalKey r.1)
      (max (r.2.globalReplication tier) ((m.read r.1).globalReplication tier)))
    (hlocal : ∀ k, (env.rings.localRings .memory).Ends (env.hash.localKey k) env.params.defaultLocalReplication) :
    ∃ res, env.changeReplicationFactor m rid requests = some res ∧
      (∀ k, k ∉ requests.map Prod.fst → res.keyReplicationMap k = m k) ∧
      (∀ r ∈ requests, env.Failed m r → res.keyReplicationMap r.1 = m r.1 ∧
        ∀ dest rep, ¬ChangeSetting.SyncSent res.trace dest (r.1, rep) ∧ ¬ChangeSetting.AsyncSent res.trace dest (r.1, rep)) ∧
      (∀ r ∈ requests, ¬env.Failed m r → res.keyReplicationMap r.1 = some r.2 ∧
        (∀ dest rep, (ChangeSetting.SyncSent res.trace dest (r.1, rep) ∨ ChangeSetting.AsyncSent res.trace dest (r.1, rep)) ↔
          rep = r.2 ∧ env.Recipient m r dest) ∧
        ∀ dest, ChangeSetting.SyncSent res.trace dest r ↔ ∃ tier, ∃ n ∈ env.largerSet m r tier, dest = .server n ∧
          (((m.read r.1).globalReplication tier < r.2.globalReplication tier ∧
            (m.read r.1).globalReplication tier = env.params.defaultGlobalReplication tier ∧
            env.isPrimaryReplicaGlobal res.keyReplicationMap r.1 tier n = true) ∨
          (r.2.globalReplication tier < (m.read r.1).globalReplication tier ∧
            r.2.globalReplication tier = env.params.defaultGlobalReplication tier ∧
            env.isPrimaryReplicaGlobal res.keyReplicationMap r.1 tier n = false))) ∧
      ∃ puts syncs ended asyncs, res.trace = puts ++ syncs ++ ended ++ asyncs ∧
        (∀ e ∈ puts, ∃ id target tuples, e = .put id target tuples) ∧
        (∀ e ∈ syncs, ∃ id dest us, e = .sync id dest us) ∧ (∀ e ∈ asyncs, ∃ dest us, e = .async dest us) ∧
        (syncs ≠ [] → ∃ ids, ended = [.received ids] ∧ ∀ id dest us, .sync id dest us ∈ syncs → id ∈ ids) := by
  have h : env.Prepared m requests (env.prepareAll m requests) := ChangeSetting.prepared_prepareAll hnodup
  have hends : env.SearchesEnd (env.prepareAll m requests) m requests := by
    refine ⟨fun r _ _ => ⟨HashRing.ends_one _ _, .inr (hlocal _)⟩, fun r hr _ tier _ => ?_⟩
    rw [h.read_new hr, h.read_orig hr]
    exact hvalid r hr tier
  obtain ⟨res, hres, hmap, htrace⟩ := ChangeSetting.exists_changeReplicationFactor rid hends
  have hkey : ∀ r ∈ requests, r.1 ∈ env.failedKeys (env.prepareAll m requests) ↔ env.Failed m r := fun r hr =>
    ChangeSetting.fst_mem_failedKeys h hnodup hr
  -- what is sent of a request, by rounds
  have hsync : ∀ r ∈ requests, ∀ dest rep, ChangeSetting.SyncSent res.trace dest (r.1, rep) ↔
      ¬env.Failed m r ∧ rep = r.2 ∧ (true, dest) ∈ env.destinations (env.prepareAll m requests) r.1 :=
    fun r hr dest rep => by
      rw [htrace, ChangeSetting.syncSent_traceOf, ChangeSetting.mem_messages,
        ChangeSetting.mem_updates_of_prepared h hnodup hr]
  have hasync : ∀ r ∈ requests, ∀ dest rep, ChangeSetting.AsyncSent res.trace dest (r.1, rep) ↔
      ¬env.Failed m r ∧ rep = r.2 ∧ (false, dest) ∈ env.destinations (env.prepareAll m requests) r.1 :=
    fun r hr dest rep => by
      rw [htrace, ChangeSetting.asyncSent_traceOf, ChangeSetting.mem_messages,
        ChangeSetting.mem_updates_of_prepared h hnodup hr]
  refine ⟨res, hres, fun k hk => ?_, fun r hr hfailed => ⟨?_, fun dest rep => ⟨?_, ?_⟩⟩, fun r hr hstored => ?_, ?_⟩
  · have hnot : k ∉ env.failedKeys (env.prepareAll m requests) := fun hin => by
      obtain ⟨r, hr, rfl, -⟩ := (ChangeSetting.mem_failedKeys h).mp hin
      exact hk (List.mem_map_of_mem hr)
    rw [hmap, if_neg hnot, h.other k hk]
  · obtain ⟨rep, hrep⟩ := Option.isSome_iff_exists.mp (hentries r hr)
    rw [hmap, if_pos ((hkey r hr).mpr hfailed), h.read_orig hr, ReplicationMap.read, hrep, Option.getD_some]
  · exact fun hsent => ((hsync r hr dest rep).mp hsent).1 hfailed
  · exact fun hsent => ((hasync r hr dest rep).mp hsent).1 hfailed
  · have hentry : res.keyReplicationMap r.1 = some r.2 := by
      rw [hmap, if_neg (mt (hkey r hr).mp hstored), h.new r hr]
    have hread : res.keyReplicationMap.read r.1 = (env.prepareAll m requests).keyReplicationMap.read r.1 := by
      rw [h.read_new hr, ReplicationMap.read, hentry, Option.getD_some]
    refine ⟨hentry, fun dest rep => ?_, fun dest => ?_⟩
    · rw [hsync r hr, hasync r hr, ← and_or_left, ← and_or_left, and_iff_right hstored,
        ChangeSetting.mem_destinations_or h hr]
    · rw [hsync r hr dest r.2, and_iff_right hstored, and_iff_right rfl, ChangeSetting.mem_destinations_of_prepared h hr]
      simp only [ChangeSetting.isPrimaryReplicaGlobal_congr hread, ← ChangeSetting.waits_eq_true_iff, eq_comm (a := true)]
      refine or_iff_left ?_
      rintro ⟨ip, -, -, hb⟩
      cases hb
  · rw [htrace]
    exact ChangeSetting.traceOf_rounds

/-- Two servers with one thread, of which the second one does not answer puts; keys are placed by their lengths. -/
def silentServer (default : ℕ) : ChangeSetting ℕ ℕ ℕ where
  params := ⟨fun _ => default, 1, 1⟩
  hash := ⟨List.length, fun n _ => 26 + n, fun _ => 0, fun _ _ => 0⟩
  rings :=
    { globalRings := fun | .memory => (HashRing.empty.insert 27 1).insert 28 2 | .storage => .empty
      localRings := fun _ => HashRing.empty.insert 0 0 }
  routingIps := ["9".toList]
  pick _ := 0
  outcome target := if target.node = 2 then .timeout else .answered fun _ => false

/-- The factors of keys with some replicas in memory. -/
def inMemory (n : ℕ) : KeyReplication := ⟨fun | .memory => n | .storage => 0, fun _ => 1⟩

/-- Two keys get a second replica; the factors of the second key cannot be stored. -/
theorem replication_change_rounds_silentServer :
    ∃ res, (silentServer 1).changeReplicationFactor (fun _ => some (inMemory 1)) 0
        [(['a'], inMemory 2), (['b', 'b'], inMemory 2)] = some res ∧
      res.keyReplicationMap ['a'] = some (inMemory 2) ∧ res.keyReplicationMap ['b', 'b'] = some (inMemory 1) ∧
      ChangeSetting.SyncSent res.trace (.server 1) (['a'], inMemory 2) ∧
      ¬ChangeSetting.SyncSent res.trace (.server 1) (['b', 'b'], inMemory 2) := by
  obtain ⟨res, hres, -, hfailed, hstored, -⟩ := replication_change_rounds (silentServer 1) (fun _ => some (inMemory 1)) 0
    [(['a'], inMemory 2), (['b', 'b'], inMemory 2)] (by decide) (fun _ _ => rfl)
    (fun r hr tier => by
      simp only [List.mem_cons, List.not_mem_nil, or_false] at hr
      rcases hr with rfl | rfl
      · cases tier <;> decide +kernel
      · cases tier <;> decide +kernel)
    (fun _ => (by decide +kernel : (HashRing.empty.insert 0 0 : HashRing ℕ ℕ).Ends 0 1))
  have hb : (silentServer 1).Failed (fun _ => some (inMemory 1)) (['b', 'b'], inMemory 2) :=
    ⟨by decide, ⟨2, 0⟩, by decide +kernel, rfl⟩
  have ha : ¬(silentServer 1).Failed (fun _ => some (inMemory 1)) (['a'], inMemory 2) := by
    rintro ⟨-, target, htarget, hfails⟩
    have hone : (silentServer 1).putTarget (getMetadataKey ['a']) = some ⟨1, 0⟩ := by decide +kernel
    obtain rfl := Option.some.inj (htarget.symm.trans hone)
    exact absurd hfails (by decide)
  obtain ⟨hentry, -, hsync⟩ := hstored (['a'], inMemory 2) List.mem_cons_self ha
  obtain ⟨hkept, hsilent⟩ := hfailed (['b', 'b'], inMemory 2) (by simp) hb
  refine ⟨res, hres, hentry, hkept, (hsync (.server 1)).mpr ⟨.memory, 1, by decide +kernel, rfl, .inl ⟨by decide, rfl, ?_⟩⟩,
    (hsilent _ _).1⟩
  have hread : res.keyReplicationMap.read ['a'] = ReplicationMap.read (fun _ => some (inMemory 2)) ['a'] := by
    rw [ReplicationMap.read, hentry]
    rfl
  rw [ChangeSetting.isPrimaryReplicaGlobal_congr hread]
  decide +kernel

/-- The destination and the keys of an update, and whether it is in the synchronous round. -/
def ChangeEvent.update? {N : Type*} : ChangeEvent N → Option (Bool × Destination N × List KeyText)
  | .sync _ dest us => some (true, dest, us.map Prod.fst)
  | .async dest us => some (false, dest, us.map Prod.fst)
  | .put _ _ _ | .received _ => none

/-- With a default factor of two, a key that comes back to the default from one replica is in no synchronous round, and its
second server gets the update with the others. -/
theorem raised_to_default_not_waited_for :
    ∃ res, (silentServer 2).changeReplicationFactor (fun _ => some (inMemory 1)) 0 [(['a'], inMemory 2)] = some res ∧
      res.keyReplicationMap ['a'] = some (inMemory 2) ∧
      (silentServer 2).isPrimaryReplicaGlobal res.keyReplicationMap ['a'] .memory 2 = false ∧
      2 ∈ (silentServer 2).largerSet (fun _ => some (inMemory 1)) (['a'], inMemory 2) .memory ∧
      res.trace.filterMap ChangeEvent.update? =
        [(false, .server 1, [['a']]), (false, .server 2, [['a']]), (false, .routing "9".toList, [['a']])] := by
  have hends : (silentServer 2).SearchesEnd ((silentServer 2).prepareAll (fun _ => some (inMemory 1)) [(['a'], inMemory 2)])
      (fun _ => some (inMemory 1)) [(['a'], inMemory 2)] := by decide +kernel
  obtain ⟨res, hres, hmap, htrace⟩ := ChangeSetting.exists_changeReplicationFactor 0 hends
  have hentry : res.keyReplicationMap ['a'] = some (inMemory 2) := by
    have hnot : ['a'] ∉ (silentServer 2).failedKeys
        ((silentServer 2).prepareAll (fun _ => some (inMemory 1)) [(['a'], inMemory 2)]) := by decide +kernel
    rw [hmap, if_neg hnot]
    rfl
  have hread : res.keyReplicationMap.read ['a'] = ReplicationMap.read (fun _ => some (inMemory 2)) ['a'] := by
    rw [ReplicationMap.read, hentry]
    rfl
  refine ⟨res, hres, hentry, ?_, by decide +kernel, ?_⟩
  · rw [ChangeSetting.isPrimaryReplicaGlobal_congr hread]
    decide +kernel
  · rw [htrace]
    decide +kernel

end Dinomo
