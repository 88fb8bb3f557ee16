import Dinomo.Client
import Dinomo.Fleet.Deliver
import Dinomo.MonitorBounds
import Dinomo.PendingRequests

/-!
# Replication factors never exceed the nodes

A deployment of monitors, threads of KVS nodes and clients.  Each of them has a ring and replication factors of its
own.  The ring changes when the process learns of a join or a departure, a client builds its ring anew from an answer
of the routing tier; factors come from the defaults, from the policies of a monitor, from the updates the monitors
send, from stored factors and, at a client, from the threads a response names.  A process whose search for the nodes
or the threads of a key does not end takes no further step.

The searches end as long as a process that loses a node knows no key with more replicas than it has nodes left, and
the factors that a process learns fit its own ring.  The policies see to that for the keys of the last epoch only.
-/

namespace Dinomo

open Function List

/-- What a thread of a KVS node knows of the cluster. -/
structure ThreadView (K N H : Type*) [LinearOrder H] where
  ring : ServerRing H N
  keyReplicationMap : ReplicationMap K

/-- A deployment. -/
structure Deployment (K N H L : Type*) [LinearOrder H] [LinearOrder L] where
  monitors : ℕ → Monitor K N H
  threads : ServerThread N → ThreadView K N H
  clients : ℕ → Client K N H L

/-- What can happen.  `deliver` hands the update with a number in the outbox of a monitor to its thread, `respond` is
the answer to a request for stored factors, and `lookUp` any handler that asks for the threads of a key. -/
inductive DeploymentEvent (K N : Type*)
  | monitorJoin (i : ℕ) (n : N)
  | monitorDepart (i : ℕ) (n : N)
  | departDone (i : ℕ)
  | epoch (i : ℕ) (ep : Epoch K)
  | threadJoin (st : ServerThread N) (n : N) (joinCount : ℤ)
  | threadDepart (st : ServerThread N) (n : N)
  | deliver (i j : ℕ)
  | respond (st : ServerThread N) (resp : FactorResponse K)
  | lookUp (st : ServerThread N) (k : K)
  | client (i : ℕ) (e : ClientEvent K N)

namespace ThreadView

variable {K N H L : Type*} [DecidableEq K] [DecidableEq N] [LinearOrder H] [LinearOrder L]
variable (cfg : FleetConfig K N H L)

/-- A thread starts with its own node in the ring. -/
def init (st : ServerThread N) : ThreadView K N H := ⟨(ServerRing.empty.insert cfg.ringParams st.node 0).2, fun _ => none⟩

/-- The rings of a thread. -/
def rings (v : ThreadView K N H) : Rings N H L := ⟨v.ring.positions, cfg.localRing⟩

/-- `node_join_handler`, as far as the ring goes. -/
def join (v : ThreadView K N H) (n : N) (joinCount : ℤ) : ThreadView K N H :=
  { v with ring := (v.ring.insert cfg.ringParams n joinCount).2 }

/-- `node_depart_handler`, as far as the ring goes. -/
def depart (v : ThreadView K N H) (n : N) : ThreadView K N H := { v with ring := v.ring.remove cfg.ringParams n }

/-- `get_responsible_threads`. -/
def lookUp (v : ThreadView K N H) (k : K) : Option (ThreadView K N H) :=
  if ResponsibleEnds cfg.params cfg.hash (v.rings cfg) v.keyReplicationMap k then
    some { v with
      keyReplicationMap := (getResponsibleThreads cfg.params cfg.hash (v.rings cfg) v.keyReplicationMap k).2 }
  else none

/-- The searches of `replication_change_handler` end: a thread that is not the primary one of the key looks the threads
of the key up, and once more when it loses replicas. -/
def ChangeEnds (v : ThreadView K N H) (self : ServerThread N) (k : K) (value : ℕ) : Prop :=
  let origin := (v.keyReplicationMap.read k).globalReplication .memory
  let m := v.keyReplicationMap.touch k
  isPrimaryReplica cfg.hash (v.rings cfg) m k self = false →
    ResponsibleEnds cfg.params cfg.hash (v.rings cfg) m k ∧
      (self ∈ (getResponsibleThreads cfg.params cfg.hash (v.rings cfg) m k).1 ∧ value < origin ∧
          value = cfg.params.defaultGlobalReplication .memory →
        ResponsibleEnds cfg.params cfg.hash (v.rings cfg) (m.setGlobal k .memory value) k)

instance (v : ThreadView K N H) (self : ServerThread N) (k : K) (value : ℕ) : Decidable (v.ChangeEnds cfg self k value) :=
  inferInstanceAs (Decidable (_ → _ ∧ (_ → _)))

/-- `replication_change_handler`, as far as the factors go. -/
def change (v : ThreadView K N H) (notice : Notice K N) : Option (ThreadView K N H) :=
  if v.ChangeEnds cfg notice.dest notice.key (notice.rep.globalReplication .memory) then
    some { v with
      keyReplicationMap := (changeKey cfg.params cfg.hash (v.rings cfg) notice.dest v.keyReplicationMap
        (FleetConfig.updateOf notice)).1 }
  else none

/-- `replication_response_handler`, as far as the factors go. -/
def respond (v : ThreadView K N H) (resp : FactorResponse K) : ThreadView K N H :=
  match resp.apply cfg.params v.keyReplicationMap with
  | some m => { v with keyReplicationMap := m }
  | none => v

end ThreadView

namespace Deployment

variable {K N H L : Type*} [LinearOrder K] [DecidableEq N] [LinearOrder H] [LinearOrder L]
variable (cfg : FleetConfig K N H L) (params : MonitorParams K)

/-- No process knows of anything but itself. -/
def init : Deployment K N H L := ⟨fun _ => .init, .init cfg, fun _ => .init⟩

/-- A monitor takes a step. -/
def setMonitor (s : Deployment K N H L) (i : ℕ) (x : Monitor K N H) : Deployment K N H L :=
  { s with monitors := Function.update s.monitors i x }

/-- A thread takes a step. -/
def setThread (s : Deployment K N H L) (st : ServerThread N) (v : ThreadView K N H) : Deployment K N H L :=
  { s with threads := Function.update s.threads st v }

/-- A client takes a step. -/
def setClient (s : Deployment K N H L) (i : ℕ) (c : Client K N H L) : Deployment K N H L :=
  { s with clients := Function.update s.clients i c }

/-- One event; `none` if a search does not end. -/
def step (s : Deployment K N H L) : DeploymentEvent K N → Option (Deployment K N H L)
  | .monitorJoin i n => some (s.setMonitor i ((s.monitors i).join cfg n))
  | .monitorDepart i n => some (s.setMonitor i ((s.monitors i).depart cfg n))
  | .departDone i => some (s.setMonitor i (s.monitors i).departDone)
  | .epoch i ep => ((s.monitors i).epoch cfg params ep).map (s.setMonitor i)
  | .threadJoin st n joinCount => some (s.setThread st ((s.threads st).join cfg n joinCount))
  | .threadDepart st n => some (s.setThread st ((s.threads st).depart cfg n))
  | .deliver i j =>
    match (s.monitors i).outbox[j]? with
    | none => some s
    | some notice => ((s.threads notice.dest).change cfg notice).map (s.setThread notice.dest)
  | .respond st resp => some (s.setThread st ((s.threads st).respond cfg resp))
  | .lookUp st k => ((s.threads st).lookUp cfg k).map (s.setThread st)
  | .client i e => ((s.clients i).step cfg e).map (s.setClient i)

/-- A run. -/
def run (es : List (DeploymentEvent K N)) : Option (Deployment K N H L) := Transition.run (step cfg params) (init cfg) es

end Deployment

namespace Client

variable {K N H L : Type*} [LinearOrder K] [DecidableEq N] [LinearOrder H] [LinearOrder L]

/-- The default factors fit the ring of a client if it needs them for a key, the known factors fit a ring that is built
anew, and so do the factors that a response brings. -/
def Fitting (cfg : FleetConfig K N H L) (c : Client K N H L) : ClientEvent K N → Prop
  | .putAsync key _ _ | .updateAsync key _ _ | .getAsync key =>
    c.keyReplicationMap key = none → Fits cfg (c.globalRings .memory) (.defaults cfg.params)
  | .membership tiers =>
    c.pendingRequestMap ≠ [] → Bounded cfg (ringsOf cfg tiers .memory) c.keyReplicationMap ∧
      ∀ r ∈ c.pendingRequestMap.flatMap Prod.snd, c.keyReplicationMap r.key = none →
        Fits cfg (ringsOf cfg tiers .memory) (.defaults cfg.params)
  | .response r =>
    r.invalidate = true → r.error ≠ .wrongThread →
      Fits cfg (c.globalRings .memory) ((c.updateCacheForKey r.key r.ips).keyReplicationMap.read r.key)
  | .timeouts _ _ => True

instance [Fintype K] (cfg : FleetConfig K N H L) (c : Client K N H L) : DecidablePred (c.Fitting cfg) := fun e => by
  cases e <;> unfold Fitting <;> infer_instance

/-- The factors of all keys fit the ring of a client, and its local ring is that of a node if it knows one. -/
structure Ok (cfg : FleetConfig K N H L) (c : Client K N H L) : Prop where
  bounded : Bounded cfg (c.globalRings .memory) c.keyReplicationMap
  threads : (c.globalRings .memory).nodes = [] ∨ c.localRing = cfg.localRing

/-- The rings and the factors of a client. -/
def view (c : Client K N H L) : (Tier → HashRing H N) × HashRing L ℕ × ReplicationMap K :=
  (c.globalRings, c.localRing, c.keyReplicationMap)

/-- A client with the same rings that has not forgotten a key. -/
structure Extends (c c' : Client K N H L) : Prop where
  globalRings : c'.globalRings = c.globalRings
  known : ∀ k, c'.keyReplicationMap k = none → c.keyReplicationMap k = none

variable {cfg : FleetConfig K N H L} {c c' c'' : Client K N H L}

omit [LinearOrder K] in
/-- What concerns neither rings nor factors. -/
theorem Ok.of_view (h : c.Ok cfg) (hview : c'.view = c.view) : c'.Ok cfg := by
  simp only [view, Prod.mk.injEq] at hview
  obtain ⟨hglobal, hlocal, hmap⟩ := hview
  refine ⟨?_, ?_⟩
  · rw [hglobal, hmap]
    exact h.bounded
  · rw [hglobal, hlocal]
    exact h.threads

omit [LinearOrder K] [DecidableEq N] in
theorem Extends.of_view (h : c.Extends c') (hview : c''.view = c'.view) : c.Extends c'' := by
  simp only [view, Prod.mk.injEq] at hview
  obtain ⟨hglobal, -, hmap⟩ := hview
  exact ⟨hglobal.trans h.globalRings, fun k hk => h.known k (hmap ▸ hk)⟩

omit [DecidableEq N] in
theorem view_awaitResponse (c : Client K N H L) (r : ClientRequest K) : (c.awaitResponse r).view = c.view := by
  simp only [awaitResponse]
  split_ifs <;> rfl

omit [LinearOrder K] [DecidableEq N] in
theorem view_invalidateCache (c : Client K N H L) : c.invalidateCache.view = c.view := by
  unfold invalidateCache
  split_ifs <;> rfl

omit [DecidableEq N] in
theorem view_expire (c : Client K N H L) (x : ResponseMap × K × ℕ) : (c.expire x).view = c.view := by
  unfold expire
  split
  · rfl
  · exact view_invalidateCache c

omit [DecidableEq N] in
/-- Timeouts change neither rings nor factors. -/
theorem view_receiveTimeouts (c : Client K N H L) (keys : List K) (requests : List (ResponseMap × K × ℕ)) :
    (c.receiveTimeouts keys requests).view = c.view := by
  have hqueries : ∀ (l : List K) (c : Client K N H L), (l.foldl (fun c _ => c.queryRoutingAsync) c).view = c.view := by
    intro l
    induction l with
    | nil => exact fun _ => rfl
    | cons k l ih => exact fun c => ih c.queryRoutingAsync
  have hexpire : ∀ (l : List (ResponseMap × K × ℕ)) (c : Client K N H L), (l.foldl expire c).view = c.view := by
    intro l
    induction l with
    | nil => exact fun _ => rfl
    | cons x l ih => exact fun c => (ih (c.expire x)).trans (view_expire c x)
  exact (hexpire requests _).trans (hqueries _ c)

/-- The lookup of a key's threads ends. -/
theorem Ok.getAllWorkerThreads (h : c.Ok cfg) {k : K}
    (hdefault : c.keyReplicationMap k = none → Fits cfg (c.globalRings .memory) (.defaults cfg.params)) :
    ∃ workers c', c.getAllWorkerThreads cfg k = some (workers, c') ∧ c'.Ok cfg ∧ c.Extends c' := by
  have hends : ResponsibleEnds cfg.params cfg.hash c.rings c.keyReplicationMap k :=
    (h.bounded.getD hdefault).responsibleEnds h.threads
  have hlook : Bounded cfg (c.globalRings .memory)
      (getResponsibleThreads cfg.params cfg.hash c.rings c.keyReplicationMap k).2 := h.bounded.lookUp hdefault
  have hknown : ∀ j, (getResponsibleThreads cfg.params cfg.hash c.rings c.keyReplicationMap k).2 j = none →
      c.keyReplicationMap j = none := fun j hj => by
    by_contra hne
    exact Fleet.getResponsibleThreads_known hne hj
  simp only [Client.getAllWorkerThreads, hends, if_true]
  split_ifs
  · exact ⟨_, _, rfl, h, rfl, fun _ hj => hj⟩
  · exact ⟨_, _, rfl, h, rfl, fun _ hj => hj⟩
  · exact ⟨_, _, rfl, ⟨hlook, h.threads⟩, rfl, hknown⟩
  · exact ⟨_, _, rfl, ⟨hlook, h.threads⟩, rfl, hknown⟩

/-- So does a try. -/
theorem Ok.tryRequest (h : c.Ok cfg) (r : ClientRequest K)
    (hdefault : c.keyReplicationMap r.key = none → Fits cfg (c.globalRings .memory) (.defaults cfg.params)) :
    ∃ c', c.tryRequest cfg r = some c' ∧ c'.Ok cfg ∧ c.Extends c' := by
  obtain ⟨workers, c₁, hworkers, hok, hext⟩ := h.getAllWorkerThreads hdefault
  simp only [Client.tryRequest, hworkers]
  split_ifs
  · exact ⟨_, rfl, hok.of_view rfl, hext.of_view rfl⟩
  · have hview := view_awaitResponse ({ c₁ with sent := c₁.sent ++ [{ r with addressCacheSize := workers.length }] } :
      Client K N H L) { r with addressCacheSize := workers.length }
    exact ⟨_, rfl, hok.of_view hview, hext.of_view hview⟩

/-- And all tries after one another. -/
theorem Ok.tryAll (h : c.Ok cfg) {rs : List (ClientRequest K)}
    (hdefault : ∀ r ∈ rs, c.keyReplicationMap r.key = none → Fits cfg (c.globalRings .memory) (.defaults cfg.params)) :
    ∃ c', c.tryAll cfg rs = some c' ∧ c'.Ok cfg := by
  induction rs generalizing c with
  | nil => exact ⟨c, rfl, h⟩
  | cons r rs ih =>
    obtain ⟨c₁, hc₁, hok, hext⟩ := h.tryRequest r (hdefault r mem_cons_self)
    rw [Client.tryAll, hc₁]
    refine ih hok fun r' hr' hnone => ?_
    rw [hext.globalRings]
    exact hdefault r' (mem_cons_of_mem _ hr') (hext.known _ hnone)

/-- A new request. -/
theorem Ok.issue (h : c.Ok cfg) {key : K} (type : RequestType) (latticeType : LatticeType) (payload : String)
    (hdefault : c.keyReplicationMap key = none → Fits cfg (c.globalRings .memory) (.defaults cfg.params)) :
    ∃ c', c.issue cfg type key latticeType payload = some c' ∧ c'.Ok cfg := by
  set r : ClientRequest K := { requestId := c.rid, type, key, latticeType, payload }
  have hok : ({ c with rid := c.rid + 1, issued := c.issued ++ [r] } : Client K N H L).Ok cfg := h.of_view rfl
  obtain ⟨c', hc', hok', -⟩ := hok.tryRequest r hdefault
  exact ⟨c', hc', hok'⟩

/-- An answer of the routing tier. -/
theorem Ok.receiveMembership (h : c.Ok cfg) {tiers : List (Tier × List N)} (hfit : c.Fitting cfg (.membership tiers)) :
    ∃ c', c.receiveMembership cfg tiers = some c' ∧ c'.Ok cfg := by
  unfold Client.receiveMembership
  by_cases hpending : c.pendingRequestMap = []
  · rw [if_pos hpending]
    exact ⟨_, rfl, h.of_view rfl⟩
  · rw [if_neg hpending]
    dsimp only
    split_ifs with hsize
    · have hempty : (ringsOf cfg tiers .memory).nodes = [] :=
        length_eq_zero_iff.mp (Nat.eq_zero_of_add_eq_zero_right hsize)
      exact ⟨_, rfl, fun _ _ _ hne => absurd hempty hne, .inl hempty⟩
    · obtain ⟨hbounded, hdefault⟩ := hfit hpending
      have hok : (c.rebuilt cfg tiers).Ok cfg := ⟨hbounded, .inr rfl⟩
      obtain ⟨c', hc', hok'⟩ := hok.tryAll hdefault
      exact ⟨_, Option.map_eq_some_iff.mpr ⟨c', hc', rfl⟩, hok'.of_view rfl⟩

/-- A response. -/
theorem Ok.receiveResponse (h : c.Ok cfg) {r : ClientResponse K N} (hfit : c.Fitting cfg (.response r)) :
    (c.receiveResponse r).Ok cfg := by
  simp only [Client.receiveResponse]
  split
  · exact h
  · split_ifs with herror hinvalidate
    · exact h.of_view (view_invalidateCache c)
    · refine ⟨h.bounded.of_read (fun j hj => ?_) (hfit hinvalidate herror), h.threads⟩
      simp [updateCacheForKey, ReplicationMap.setLocal, ReplicationMap.setGlobal, update_of_ne hj]
    · exact h.of_view rfl

/-- One event at a client. -/
theorem Ok.step (h : c.Ok cfg) {e : ClientEvent K N} (hfit : c.Fitting cfg e) :
    ∃ c', c.step cfg e = some c' ∧ c'.Ok cfg := by
  cases e with
  | putAsync key payload latticeType => exact h.issue .put latticeType payload hfit
  | updateAsync key payload latticeType => exact h.issue .update latticeType payload hfit
  | getAsync key => exact h.issue .get .none "" hfit
  | membership tiers => exact h.receiveMembership hfit
  | response r => exact ⟨_, rfl, h.receiveResponse hfit⟩
  | timeouts keys requests => exact ⟨_, rfl, h.of_view (view_receiveTimeouts c keys requests)⟩

end Client

namespace ThreadView

variable {K N H L : Type*} [DecidableEq K] [DecidableEq N] [LinearOrder H] [LinearOrder L]

/-- The factors of all keys fit the ring of a thread. -/
def Ok (cfg : FleetConfig K N H L) (v : ThreadView K N H) : Prop := Bounded cfg v.ring.positions v.keyReplicationMap

variable {cfg : FleetConfig K N H L} {v : ThreadView K N H}

/-- A handler that looks up the threads of a key. -/
theorem Ok.lookUp (h : v.Ok cfg) {k : K}
    (hdefault : v.keyReplicationMap k = none → Fits cfg v.ring.positions (.defaults cfg.params)) :
    ∃ v', v.lookUp cfg k = some v' ∧ v'.Ok cfg := by
  have hends : ResponsibleEnds cfg.params cfg.hash (v.rings cfg) v.keyReplicationMap k :=
    (Bounded.getD h hdefault).responsibleEnds (.inr rfl)
  exact ⟨_, if_pos hends, Bounded.lookUp h hdefault⟩

/-- The searches of an update with factors that fit end. -/
theorem Ok.changeEnds (h : v.Ok cfg) {self : ServerThread N} {k : K} {rep : KeyReplication}
    (hrep : Fits cfg v.ring.positions rep) : v.ChangeEnds cfg self k (rep.globalReplication .memory) := by
  have hread : Fits cfg v.ring.positions (v.keyReplicationMap.read k) := Bounded.read h k
  refine fun _ => ⟨Fits.responsibleEnds ?_ (.inr rfl), fun _ => Fits.responsibleEnds ?_ (.inr rfl)⟩
  · simpa [ReplicationMap.touch] using hread
  · simpa [ReplicationMap.touch, ReplicationMap.setGlobal, ReplicationMap.read, Fits] using
      fun hne => ⟨(hrep hne).1, (hread hne).2⟩

/-- An update with factors that fit. -/
theorem Ok.change (h : v.Ok cfg) {notice : Notice K N} (hrep : Fits cfg v.ring.positions notice.rep) :
    ∃ v', v.change cfg notice = some v' ∧ v'.Ok cfg := by
  refine ⟨_, if_pos (h.changeEnds hrep), ?_⟩
  rw [Fleet.changeKey_updateOf]
  exact Bounded.update h hrep

omit [DecidableEq N] [LinearOrder L] in
/-- Stored factors concern their key only. -/
theorem respond_of_ne (v : ThreadView K N H) (resp : FactorResponse K) {j : K} (hj : j ≠ resp.key) :
    (v.respond cfg resp).keyReplicationMap j = v.keyReplicationMap j := by
  have hlocals : ∀ (l : List (Tier × ℕ)) (m : ReplicationMap K),
      l.foldl (fun m x => m.setLocal resp.key x.1 x.2) m j = m j := by
    intro l
    induction l with
    | nil => exact fun _ => rfl
    | cons x l ih => exact fun m => (ih _).trans (update_of_ne hj _ _)
  have hglobals : ∀ (l : List (Tier × ℕ)) (m : ReplicationMap K),
      l.foldl (fun m x => m.setGlobal resp.key x.1 x.2) m j = m j := by
    intro l
    induction l with
    | nil => exact fun _ => rfl
    | cons x l ih => exact fun m => (ih _).trans (update_of_ne hj _ _)
  unfold respond FactorResponse.apply
  cases resp.error with
  | noError => exact (hlocals _ _).trans (hglobals _ _)
  | keyDne => exact update_of_ne hj _ _
  | _ => rfl

end ThreadView

/-- The threads of the local ring are those of a node. -/
theorem FleetConfig.count_localRing_le {K N H L : Type*} [LinearOrder L] (cfg : FleetConfig K N H L) :
    cfg.localRing.count ≤ cfg.params.threadNum := by
  have hmem : ∀ x ∈ cfg.localRing.nodes, x.2 ∈ range cfg.params.threadNum := by
    unfold localRing
    refine foldlRecOn (motive := fun r : HashRing L ℕ => ∀ x ∈ r.nodes, x.2 ∈ range cfg.params.threadNum) _ _
      (fun x hx => by cases hx) fun r hr tid htid => ?_
    refine foldlRecOn (motive := fun r : HashRing L ℕ => ∀ x ∈ r.nodes, x.2 ∈ range cfg.params.threadNum) _ _
      hr fun r hr v _ x hx => ?_
    rcases HashRing.mem_insert hx with rfl | hx
    · exact htid
    · exact hr x hx
  have hsub : (cfg.localRing.nodes.map Prod.snd).eraseDups ⊆ range cfg.params.threadNum := fun tid htid => by
    obtain ⟨x, hx, rfl⟩ := mem_map.mp (mem_eraseDups.mp htid)
    exact hmem x hx
  exact (subperm_of_subset (HashRing.nodup_eraseDups _) hsub).length_le.trans_eq length_range

/-- The factors of the keys that a process knows are at most the nodes of its ring and the threads of a node, if it
knows a node, and the searches for the nodes and the threads of such a key end. -/
structure WithinNodes {K N H L : Type*} [DecidableEq N] [LinearOrder H] [LinearOrder L] (cfg : FleetConfig K N H L)
    (rings : Rings N H L) (m : ReplicationMap K) : Prop where
  nodes : ∀ k rep, m k = some rep → rings.globalRing.nodes ≠ [] →
    rep.globalReplication .memory ≤ rings.globalRing.count ∧ rep.localReplication .memory ≤ cfg.params.threadNum
  global_ends : ∀ k rep, m k = some rep → ∃ fuel,
    rings.globalRing.search (cfg.hash.globalKey k) (rep.globalReplication .memory) fuel =
      some (responsibleGlobal cfg.hash rings k (rep.globalReplication .memory))
  local_ends : ∀ k rep, m k = some rep → rings.globalRing.nodes ≠ [] → ∃ fuel,
    rings.localRing.search (cfg.hash.localKey k) (rep.localReplication .memory) fuel =
      some (rings.localRing.responsible (cfg.hash.localKey k) (rep.localReplication .memory))

/-- Factors that fit are within the nodes. -/
theorem Bounded.withinNodes {K N H L : Type*} [DecidableEq N] [LinearOrder H] [LinearOrder L] {cfg : FleetConfig K N H L}
    {ring : HashRing H N} {m : ReplicationMap K} {localRing : HashRing L ℕ} (h : Bounded cfg ring m)
    (hlocal : ring.nodes = [] ∨ localRing = cfg.localRing) : WithinNodes cfg ⟨ring, localRing⟩ m where
  nodes k rep hk hne := ⟨(h k rep hk hne).1, (h k rep hk hne).2.trans cfg.count_localRing_le⟩
  global_ends k rep hk := ⟨_, HashRing.search_eq ((h k rep hk).ends _)⟩
  local_ends k rep hk hne := by
    have hring : localRing = cfg.localRing := hlocal.resolve_left hne
    subst hring
    exact ⟨_, HashRing.search_eq (HashRing.ends_iff.mpr (.inr (h k rep hk hne).2))⟩

namespace Deployment

variable {K N H L : Type*} [LinearOrder K] [DecidableEq N] [LinearOrder H] [LinearOrder L]

/-- The condition on an event: a process that learns of its first node or loses one has no key with more replicas than
nodes then, the factors that it learns fit its ring, and the local ring has all threads of a node. -/
def Fitting (cfg : FleetConfig K N H L) (params : MonitorParams K) (s : Deployment K N H L) : DeploymentEvent K N → Prop
  | .monitorJoin i n =>
    (s.monitors i).ring.positions.nodes = [] →
      Bounded cfg ((s.monitors i).ring.insert cfg.ringParams n 0).2.positions (s.monitors i).keyReplicationMap
  | .monitorDepart i n =>
    Bounded cfg ((s.monitors i).ring.remove cfg.ringParams n).positions (s.monitors i).keyReplicationMap
  | .departDone _ => True
  | .epoch i ep => Monitor.Staffed cfg ∧ (s.monitors i).DefaultsFit cfg params ep
  | .threadJoin st n joinCount =>
    (s.threads st).ring.positions.nodes = [] →
      Bounded cfg ((s.threads st).ring.insert cfg.ringParams n joinCount).2.positions (s.threads st).keyReplicationMap
  | .threadDepart st n =>
    Bounded cfg ((s.threads st).ring.remove cfg.ringParams n).positions (s.threads st).keyReplicationMap
  | .deliver i j =>
    ∀ notice ∈ (s.monitors i).outbox[j]?, Fits cfg (s.threads notice.dest).ring.positions notice.rep
  | .respond st resp =>
    Fits cfg (s.threads st).ring.positions (((s.threads st).respond cfg resp).keyReplicationMap.read resp.key)
  | .lookUp st k =>
    (s.threads st).keyReplicationMap k = none → Fits cfg (s.threads st).ring.positions (.defaults cfg.params)
  | .client i e => (s.clients i).Fitting cfg e

instance [Fintype K] (cfg : FleetConfig K N H L) (params : MonitorParams K) (s : Deployment K N H L) :
    DecidablePred (s.Fitting cfg params) := fun e => by
  cases e <;> unfold Fitting <;> infer_instance

/-- The factors of all keys fit the ring of every process. -/
structure Inv (cfg : FleetConfig K N H L) (s : Deployment K N H L) : Prop where
  monitors : ∀ i, (s.monitors i).Ok cfg
  threads : ∀ st, (s.threads st).Ok cfg
  clients : ∀ i, (s.clients i).Ok cfg

variable {cfg : FleetConfig K N H L} {params : MonitorParams K} {s : Deployment K N H L}

omit [LinearOrder K] in
/-- Nothing is known at first. -/
theorem Inv.init : (init cfg : Deployment K N H L).Inv cfg where
  monitors _ := ⟨⟨nodup_nil, fun _ hx => by cases hx⟩, fun _ _ hk => by cases hk⟩
  threads _ := fun _ _ hk => by cases hk
  clients _ := ⟨fun _ _ hk => (by cases hk), .inl rfl⟩

omit [LinearOrder K] in
theorem Inv.setMonitor (h : s.Inv cfg) {i : ℕ} {x : Monitor K N H} (hx : x.Ok cfg) : (s.setMonitor i x).Inv cfg :=
  ⟨fun j => by
    by_cases hj : j = i
    · simpa [Deployment.setMonitor, hj] using hx
    · simpa [Deployment.setMonitor, update_of_ne hj] using h.monitors j, h.threads, h.clients⟩

omit [LinearOrder K] in
theorem Inv.setThread (h : s.Inv cfg) {st : ServerThread N} {v : ThreadView K N H} (hv : v.Ok cfg) :
    (s.setThread st v).Inv cfg :=
  ⟨h.monitors, fun st' => by
    by_cases hst : st' = st
    · simpa [Deployment.setThread, hst] using hv
    · simpa [Deployment.setThread, update_of_ne hst] using h.threads st', h.clients⟩

omit [LinearOrder K] in
theorem Inv.setClient (h : s.Inv cfg) {i : ℕ} {c : Client K N H L} (hc : c.Ok cfg) : (s.setClient i c).Inv cfg :=
  ⟨h.monitors, h.threads, fun j => by
    by_cases hj : j = i
    · simpa [Deployment.setClient, hj] using hc
    · simpa [Deployment.setClient, update_of_ne hj] using h.clients j⟩

/-- An event that meets the condition is completed and keeps the bound. -/
theorem Inv.step (h : s.Inv cfg) {e : DeploymentEvent K N} (hfit : s.Fitting cfg params e) :
    ∃ s', Deployment.step cfg params s e = some s' ∧ s'.Inv cfg := by
  cases e with
  | monitorJoin i n =>
    exact ⟨_, rfl, h.setMonitor ⟨(h.monitors i).sound.call (.insert n 0), (h.monitors i).bounded.insert hfit⟩⟩
  | monitorDepart i n => exact ⟨_, rfl, h.setMonitor ⟨(h.monitors i).sound.call (.remove n), hfit⟩⟩
  | departDone i => exact ⟨_, rfl, h.setMonitor ⟨(h.monitors i).sound, (h.monitors i).bounded⟩⟩
  | epoch i ep =>
    obtain ⟨x, hx, hok⟩ := (h.monitors i).epoch hfit.1 hfit.2
    exact ⟨_, Option.map_eq_some_iff.mpr ⟨x, hx, rfl⟩, h.setMonitor hok⟩
  | threadJoin st n joinCount => exact ⟨_, rfl, h.setThread (Bounded.insert (h.threads st) hfit)⟩
  | threadDepart st n => exact ⟨_, rfl, h.setThread hfit⟩
  | deliver i j =>
    simp only [Deployment.step]
    split
    · exact ⟨s, rfl, h⟩
    · next notice hnotice =>
      obtain ⟨v, hv, hok⟩ := (h.threads notice.dest).change (hfit notice hnotice)
      exact ⟨_, Option.map_eq_some_iff.mpr ⟨v, hv, rfl⟩, h.setThread hok⟩
  | respond st resp =>
    refine ⟨_, rfl, h.setThread ?_⟩
    have hring : ((s.threads st).respond cfg resp).ring = (s.threads st).ring := by
      unfold ThreadView.respond
      split <;> rfl
    rw [ThreadView.Ok, hring]
    exact Bounded.of_read (h.threads st) (fun j hj => ThreadView.respond_of_ne _ resp hj) hfit
  | lookUp st k =>
    obtain ⟨v, hv, hok⟩ := (h.threads st).lookUp hfit
    exact ⟨_, Option.map_eq_some_iff.mpr ⟨v, hv, rfl⟩, h.setThread hok⟩
  | client i e =>
    obtain ⟨c, hc, hok⟩ := (h.clients i).step hfit
    exact ⟨_, Option.map_eq_some_iff.mpr ⟨c, hc, rfl⟩, h.setClient hok⟩

/-- Nodes with one thread and one virtual thread. -/
def pairConfig : FleetConfig (Fin 2) (Fin 2) ℕ ℕ where
  params := ⟨fun _ => 1, 1, 1⟩
  hash := ⟨fun k => k, fun n _ => n, fun _ => 0, fun tid _ => tid⟩
  virtualThreads := 1

/-- A monitor that replicates keys and removes nodes. -/
def pairMonitor : MonitorParams (Fin 2) where
  isMetadata _ := false
  enableTiering := false
  enableElasticity := true
  enableSelectiveRep := true
  keyPromotionThreshold := 0
  keyDemotionThreshold := 0
  minimumReplicaNumber := 1
  sloWorst := 1
  maxMemoryTierSize := 2
  minMemoryTierSize := 1

/-- An epoch with a latency and some accessed keys. -/
def pairEpoch (latency : ℚ) (accessed : List (Fin 2 × ℕ)) : Epoch (Fin 2) where
  keyAccessSummary := accessed
  keySize _ := none
  freeMemory := 0
  freeStorage := 0
  memoryNodesNeeded := 0
  keyAccessMean := 5
  keyAccessStd := 1
  latency := latency
  minMemoryOccupancy := 1 / 10
  requiredMemoryNode := 1
  latencyMissRatio _ := some 2
  graceOver _ := true
  failed _ := []

/-- Two nodes join, and key `0` gets hot and is placed on both. -/
def replicated : List (DeploymentEvent (Fin 2) (Fin 2)) :=
  [.monitorJoin 0 0, .monitorJoin 0 1, .threadJoin ⟨0, 0⟩ 1 0, .threadJoin ⟨1, 0⟩ 0 0, .lookUp ⟨0, 0⟩ 0,
    .epoch 0 (pairEpoch 2 [(0, 10)]), .deliver 0 0, .deliver 0 1]

/-- An epoch in which the key was not accessed, and the removal of one of its two nodes. -/
def removal : List (DeploymentEvent (Fin 2) (Fin 2)) :=
  [.epoch 0 (pairEpoch 0 []), .monitorDepart 0 1, .threadDepart ⟨0, 0⟩ 1]

/-- A process knows key `0` with two replicas and has one node in its ring. -/
def Exceeds (ring : HashRing ℕ (Fin 2)) (m : ReplicationMap (Fin 2)) : Prop :=
  (m 0).map (·.globalReplication .memory) = some 2 ∧ ring.count = 1 ∧ ¬ring.Ends (pairConfig.hash.globalKey 0) 2

instance (ring : HashRing ℕ (Fin 2)) (m : ReplicationMap (Fin 2)) : Decidable (Exceeds ring m) :=
  inferInstanceAs (Decidable (_ ∧ _ ∧ _))

end Deployment

end Dinomo
