import Dinomo.Library.Grouping
import Dinomo.Addresses
import Dinomo.Client
import Dinomo.Monitor

/-!
# The replicas that a client computes

A response with the invalidate flag carries the addresses of all threads of its key.  The client does not keep them.  It
counts the nodes in them and the threads of each node, stores the counts as replication factors of the key, and finds the
threads in its own hash rings.
-/

namespace Dinomo

open List HashRing ServerThread

/-- The items of an address that `update_cache_for_key` reads; without a third item it reads behind the end. -/
def cacheItems (ip : Address) : Option (Address × Address) :=
  match KeyText.split ':' ip with
  | _ :: node :: port :: _ => some (node, port)
  | _ => none

namespace Client

variable {K N H L : Type*} [LinearOrder K] [DecidableEq N] [LinearOrder H] [LinearOrder L]

/-- `update_cache_for_key`, with the addresses as they are in the response. -/
def updateCacheForAddresses (c : Client K N H L) (k : K) (ips : List Address) : Option (Client K N H L) :=
  (ips.mapM cacheItems).map fun items =>
    let keyAddressMap := Grouping.groups items
    let m := c.keyReplicationMap.setGlobal k .memory keyAddressMap.length
    { c with keyReplicationMap := m.setLocal k .memory ((keyAddressMap.map fun pair => pair.2.length).foldl max 1) }

/-- `check_tuple` for a tuple with the invalidate flag and without an error. -/
def checkInvalidated (c : Client K N H L) (k : K) (ips : List Address) : Option (Client K N H L) :=
  ({ c with keyAddressCache := Function.update c.keyAddressCache k [] } : Client K N H L).updateCacheForAddresses k ips

variable {publicIp : N → Address} {ips : List (ServerThread N)}

omit [DecidableEq N] in
/-- The items of the addresses of threads. -/
theorem mapM_cacheItems (hcolon : ∀ st ∈ ips, ':' ∉ publicIp st.node) :
    (ips.map (keyRequestConnectAddress publicIp)).mapM cacheItems =
      some (ips.map fun st => ("//".toList ++ publicIp st.node, decimal (st.tid + kKeyRequestPort))) := by
  induction ips with
  | nil => rfl
  | cons st ips ih =>
    have hst : cacheItems (st.keyRequestConnectAddress publicIp) =
        some ("//".toList ++ publicIp st.node, decimal (st.tid + kKeyRequestPort)) := by
      rw [cacheItems, split_keyRequestConnectAddress (hcolon st mem_cons_self)]
    rw [map_cons, mapM_cons, hst, ih fun st hst => hcolon st (mem_cons_of_mem _ hst)]
    rfl

/-- The counts that the client takes from the addresses are those of the nodes and threads. -/
theorem updateCacheForAddresses_eq (c : Client K N H L) (k : K) (hcolon : ∀ st ∈ ips, ':' ∉ publicIp st.node)
    (hinj : ∀ st ∈ ips, ∀ st' ∈ ips, publicIp st.node = publicIp st'.node → st.node = st'.node) :
    c.updateCacheForAddresses k (ips.map (ServerThread.keyRequestConnectAddress publicIp)) =
      some (c.updateCacheForKey k ips) := by
  have hname : ∀ st ∈ ips, ∀ st' ∈ ips,
      "//".toList ++ publicIp st.node = "//".toList ++ publicIp st'.node → st.node = st'.node :=
    fun st hst st' hst' heq => hinj st hst st' hst' (append_cancel_left heq)
  have hport : ∀ st ∈ ips, ∀ st' ∈ ips, st.node = st'.node →
      decimal (st.tid + kKeyRequestPort) = decimal (st'.tid + kKeyRequestPort) → st = st' := fun st _ st' _ hnode heq => by
    have htid : st.tid = st'.tid := Nat.add_right_cancel (decimal_injective heq)
    cases st
    cases st'
    exact congrArg₂ ServerThread.mk hnode htid
  have hkeys := Grouping.keysOf_named (fun n => "//".toList ++ publicIp n)
    (fun st => decimal (st.tid + kKeyRequestPort)) hname
  rw [updateCacheForAddresses, mapM_cacheItems hcolon, Option.map_some]
  simp only [Grouping.groups_eq, hkeys, length_map, map_map]
  have hlocal := map_congr_left fun n hn =>
    Grouping.length_valuesOf_named (fun n => "//".toList ++ publicIp n) _ hname hport (k := n) hn
  rw [updateCacheForKey, ← hlocal]
  rfl

end Client

namespace HashRing

variable {H N : Type*} [LinearOrder H] [DecidableEq N] {r : HashRing H N} {h : H}

/-- A search for as many values as a search has found finds the same ones. -/
theorem responsible_length (rep : ℕ) : r.responsible h (r.responsible h rep).length = r.responsible h rep := by
  rw [responsible, responsible, length_take, take_eq_take_iff]
  omega

/-- It finds no more than there are. -/
theorem length_responsible_le_count (rep : ℕ) : (r.responsible h rep).length ≤ r.count := by
  rw [responsible, length_take, length_eraseDups_walk]
  exact Nat.min_le_right _ _

end HashRing

section Product

variable {K N H L : Type*} [DecidableEq N] [LinearOrder H] [LinearOrder L]
variable {hash : Hashers K N H L} {rings : Rings N H L} {k : K} {rep : KeyReplication}

/-- The largest of equal counts, of which there is one. -/
theorem foldl_max_of_forall_eq {l : List ℕ} {t : ℕ} (hl : l ≠ []) (ht : 1 ≤ t) (hall : ∀ x ∈ l, x = t) :
    l.foldl max 1 = t := by
  obtain ⟨n, hn, hrep⟩ : ∃ n, n ≠ 0 ∧ l = List.replicate n t :=
    ⟨l.length, mt length_eq_zero_iff.mp hl, eq_replicate_of_mem hall⟩
  obtain ⟨n, rfl⟩ := Nat.exists_eq_succ_of_ne_zero hn
  have hstay : ∀ m, (List.replicate m t).foldl max t = t := fun m => by
    induction m with
    | zero => rfl
    | succ m ih => rw [replicate_succ, foldl_cons, max_self, ih]
  rw [hrep, replicate_succ, foldl_cons, max_eq_right ht, hstay]

/-- The threads of a key are all pairs of a node and a thread number. -/
theorem mem_threadsFor_iff {st : ServerThread N} :
    st ∈ threadsFor hash rings k rep ↔ st.node ∈ responsibleGlobal hash rings k (rep.globalReplication .memory) ∧
      st.tid ∈ responsibleLocal hash rings k (rep.localReplication .memory) := by
  obtain ⟨n, tid⟩ := st
  simp [threadsFor]

omit [DecidableEq N] in
/-- The thread numbers are different. -/
theorem nodup_responsibleLocal (rep : ℕ) : (responsibleLocal hash rings k rep).Nodup :=
  (perm_insertionSort _ _).nodup_iff.mpr nodup_responsible

/-- Factors counted from the threads of a key lead to the same threads. -/
theorem threadsFor_counted {rep' : KeyReplication}
    (hglobal : rep'.globalReplication .memory =
      ((threadsFor hash rings k rep).map node).eraseDups.length)
    (hlocal : rep'.localReplication .memory =
      ((((threadsFor hash rings k rep).map node).eraseDups.map fun n =>
        ((threadsFor hash rings k rep).filter fun st => st.node = n).eraseDups.length).foldl max 1)) :
    threadsFor hash rings k rep' = threadsFor hash rings k rep ∧
      rings.globalRing.Ends (hash.globalKey k) (rep'.globalReplication .memory) ∧
      (responsibleGlobal hash rings k (rep'.globalReplication .memory) = [] ∨
        rings.localRing.Ends (hash.localKey k) (rep'.localReplication .memory)) := by
  set nodes := responsibleGlobal hash rings k (rep.globalReplication .memory) with hnodes
  set tids := responsibleLocal hash rings k (rep.localReplication .memory) with htids
  by_cases hempty : threadsFor hash rings k rep = []
  · -- no thread: the global factor is zero
    have hzero : rep'.globalReplication .memory = 0 := by
      rw [hglobal, hempty]
      rfl
    have hnone : responsibleGlobal hash rings k (rep'.globalReplication .memory) = [] := by
      rw [hzero, responsibleGlobal, responsible, take_zero]
    refine ⟨?_, ends_iff.mpr (.inr (hzero ▸ Nat.zero_le _)), .inl hnone⟩
    rw [hempty, threadsFor, hnone, flatMap_nil]
  · obtain ⟨st₀, hst₀⟩ := exists_mem_of_ne_nil _ hempty
    obtain ⟨hnode₀, htid₀⟩ := mem_threadsFor_iff.mp hst₀
    -- the nodes in the threads are all nodes
    have hmem : ∀ n, n ∈ ((threadsFor hash rings k rep).map node).eraseDups ↔ n ∈ nodes := fun n => by
      rw [mem_eraseDups, mem_map]
      constructor
      · rintro ⟨st, hst, rfl⟩
        exact (mem_threadsFor_iff.mp hst).1
      · exact fun hn => ⟨⟨n, st₀.tid⟩, mem_threadsFor_iff.mpr ⟨hn, htid₀⟩, rfl⟩
    have hcount : ((threadsFor hash rings k rep).map node).eraseDups.length = nodes.length :=
      ((perm_ext_iff_of_nodup (nodup_eraseDups _) nodup_responsible).mpr hmem).length_eq
    -- every node has all thread numbers
    have hthreads : ∀ n ∈ nodes,
        ((threadsFor hash rings k rep).filter fun st => st.node = n).eraseDups.length = tids.length := fun n hn => by
      have hlength : (tids.map (mk n)).length = tids.length := length_map _
      rw [← hlength]
      refine ((perm_ext_iff_of_nodup (nodup_eraseDups _)
        ((nodup_responsibleLocal _).map fun _ _ heq => congrArg tid heq)).mpr fun st => ?_).length_eq
      rw [mem_eraseDups, mem_filter, mem_threadsFor_iff, mem_map, decide_eq_true_iff]
      constructor
      · rintro ⟨⟨-, htid⟩, rfl⟩
        exact ⟨st.tid, htid, rfl⟩
      · rintro ⟨tid, htid, rfl⟩
        exact ⟨⟨hn, htid⟩, rfl⟩
    have hlocal' : rep'.localReplication .memory = tids.length := by
      rw [hlocal]
      refine foldl_max_of_forall_eq ?_ (length_pos_of_mem htid₀) fun x hx => ?_
      · exact ne_nil_of_mem (mem_map_of_mem ((hmem _).mpr hnode₀))
      · obtain ⟨n, hn, rfl⟩ := mem_map.mp hx
        exact hthreads n ((hmem n).mp hn)
    have hlength : tids.length = (rings.localRing.responsible (hash.localKey k) (rep.localReplication .memory)).length :=
      (perm_insertionSort _ _).length_eq
    refine ⟨?_, ends_iff.mpr (.inr ?_), .inr (ends_iff.mpr (.inr ?_))⟩
    · rw [threadsFor, threadsFor, hglobal, hcount, hlocal', hlength]
      unfold responsibleLocal responsibleGlobal
      rw [hnodes, responsibleGlobal, responsible_length, responsible_length]
    · rw [hglobal, hcount]
      exact length_responsible_le_count _
    · rw [hlocal', hlength]
      exact length_responsible_le_count _

end Product

namespace FleetConfig

variable {K N H L : Type*} [LinearOrder L] (cfg : FleetConfig K N H L)

/-- The local ring of a process at an address: the threads, with the address of the process, at their hashes. -/
def localRingAt (ip : Address) : HashRing L (Address × ℕ) :=
  (List.range cfg.params.threadNum).foldl (fun r tid => (List.range cfg.virtualThreads).foldl
    (fun r v => r.insert (cfg.hash.localThread tid v) (ip, tid)) r) .empty

/-- The hash of a thread does not depend on its node, so all processes have the same thread numbers in their rings. -/
theorem mapValues_localRingAt (ip : Address) : (cfg.localRingAt ip).mapValues Prod.snd = cfg.localRing := by
  refine (foldl_hom (mapValues Prod.snd) fun r tid => ?_).symm
  exact foldl_hom (mapValues Prod.snd) fun r v =>
    (mapValues_insert Prod.snd r (cfg.hash.localThread tid v) (ip, tid)).symm

variable [DecidableEq K] [DecidableEq N] [LinearOrder H]

/-- The rings of a server after some calls of its global ring. -/
def serverRings (cs : List (RingCall N)) (ip : Address) : Rings N H L :=
  ⟨(ServerRing.calls cfg.ringParams cs).positions, (cfg.localRingAt ip).mapValues Prod.snd⟩

/-- `kMetadataReplicationFactor` and the default local factor. -/
def metadataReplication : KeyReplication := ⟨fun _ => 1, fun _ => cfg.params.defaultLocalReplication⟩

/-- `get_responsible_threads` of a server, for data and for metadata. -/
def serverThreads (cs : List (RingCall N)) (ip : Address) (m : ReplicationMap K) (k : K) (metadata : Bool) :
    List (ServerThread N) :=
  if metadata then threadsFor cfg.hash (cfg.serverRings cs ip) k cfg.metadataReplication
  else (getResponsibleThreads cfg.params cfg.hash (cfg.serverRings cs ip) m k).1

/-- They are the threads for some factors. -/
theorem exists_serverThreads_eq (cs : List (RingCall N)) (ip : Address) (m : ReplicationMap K) (k : K) (metadata : Bool) :
    ∃ rep, cfg.serverThreads cs ip m k metadata = threadsFor cfg.hash (cfg.serverRings cs ip) k rep := by
  unfold serverThreads
  split_ifs
  · exact ⟨_, rfl⟩
  · exact ⟨_, getResponsibleThreads_fst _ _ _ _ _⟩

end FleetConfig

/-- Rings with all positions of the same servers are the same. -/
theorem ServerRing.positions_eq_of_complete {H N : Type*} [LinearOrder H] [DecidableEq N] {p : RingParams H N}
    {r r' : ServerRing H N} (hsound : r.Sound p) (hsound' : r'.Sound p) (hcomplete : r.Complete p)
    (hcomplete' : r'.Complete p) (hmembers : ∀ n, n ∈ r.uniqueServers ↔ n ∈ r'.uniqueServers) :
    r.positions = r'.positions := by
  refine ext_of_mem fun x => ⟨fun hx => ?_, fun hx => ?_⟩
  · obtain ⟨hn, hh⟩ := hsound.entries x hx
    exact hcomplete' x.2 ((hmembers x.2).mp hn) x.1 hh
  · obtain ⟨hn, hh⟩ := hsound'.entries x hx
    exact hcomplete x.2 ((hmembers x.2).mpr hn) x.1 hh

section Recomputed

variable {K N H L : Type*} [LinearOrder K] [DecidableEq N] [LinearOrder H] [LinearOrder L]

/-- A client that has no addresses of a key looks them up with the factors it has counted. -/
theorem Client.getAllWorkerThreads_updateCacheForKey (cfg : FleetConfig K N H L) {c : Client K N H L} {k : K}
    (rep : KeyReplication) (hready : c.waitingNewMembership = false) (hcache : c.keyAddressCache k = []) :
    ∃ c', (c.updateCacheForKey k (threadsFor cfg.hash c.rings k rep)).getAllWorkerThreads cfg k =
      some ((threadsFor cfg.hash c.rings k rep).eraseDups, c') := by
  set threads := threadsFor cfg.hash c.rings k rep
  set c₁ := c.updateCacheForKey k threads
  obtain ⟨rep', hrep', hglobal, hlocal⟩ : ∃ rep', c₁.keyReplicationMap k = some rep' ∧
      rep'.globalReplication .memory = (threads.map node).eraseDups.length ∧
      rep'.localReplication .memory = ((threads.map node).eraseDups.map fun n =>
        (threads.filter fun st => st.node = n).eraseDups.length).foldl max 1 := by
    refine ⟨_, Function.update_self _ _ _, ?_, ?_⟩
    · simp [ReplicationMap.read, ReplicationMap.setGlobal]
    · simp only [Function.update_self]
  obtain ⟨hsame, hends, hendsLocal⟩ := threadsFor_counted hglobal hlocal
  have hfound : (getResponsibleThreads cfg.params cfg.hash c₁.rings c₁.keyReplicationMap k).1 = threads := by
    rw [getResponsibleThreads_fst, hrep', Option.getD_some]
    exact hsame
  have hresponsible : ResponsibleEnds cfg.params cfg.hash c₁.rings c₁.keyReplicationMap k := by
    unfold ResponsibleEnds
    rw [hrep', Option.getD_some]
    exact ⟨hends, hendsLocal⟩
  have hready₁ : c₁.waitingNewMembership = false := hready
  have hcache₁ : c₁.keyAddressCache k = [] := hcache
  rw [getAllWorkerThreads, hready₁, hcache₁, if_neg Bool.false_ne_true, if_neg (by simp), if_pos hresponsible]
  simp only [hfound]
  by_cases hempty : threads = []
  · rw [hempty]
    exact ⟨_, rfl⟩
  · exact ⟨_, if_pos hempty⟩

end Recomputed

/-- A client whose global ring has the members of a server's, with all their positions, and as many threads per node
derives from an invalidating response of the server exactly the addresses in it. -/
theorem client_recomputes_replicas {K N H L : Type*} [LinearOrder K] [DecidableEq N] [LinearOrder H] [LinearOrder L]
    (cfg : FleetConfig K N H L) (publicIp : N → Address) (cs cs' : List (RingCall N))
    (hserver : (ServerRing.calls cfg.ringParams cs).Complete cfg.ringParams)
    (hclient : (ServerRing.calls cfg.ringParams cs').Complete cfg.ringParams)
    (hmembers : ∀ n, n ∈ (ServerRing.calls cfg.ringParams cs).uniqueServers ↔
      n ∈ (ServerRing.calls cfg.ringParams cs').uniqueServers)
    (hcolon : ∀ n ∈ (ServerRing.calls cfg.ringParams cs).uniqueServers, ':' ∉ publicIp n)
    (hdistinct : ∀ n ∈ (ServerRing.calls cfg.ringParams cs).uniqueServers,
      ∀ n' ∈ (ServerRing.calls cfg.ringParams cs).uniqueServers, publicIp n = publicIp n' → n = n')
    (serverIp clientIp : Address) (m : ReplicationMap K) (k : K) (metadata : Bool) (c : Client K N H L)
    (hglobal : c.globalRings .memory = (ServerRing.calls cfg.ringParams cs').positions)
    (hlocal : c.localRing = (cfg.localRingAt clientIp).mapValues Prod.snd) (hready : c.waitingNewMembership = false) :
    ∃ c₁ workers c₂,
      c.checkInvalidated k ((cfg.serverThreads cs serverIp m k metadata).map
        (ServerThread.keyRequestConnectAddress publicIp)) = some c₁ ∧
      c₁.getAllWorkerThreads cfg k = some (workers, c₂) ∧
      ∀ address, address ∈ workers.map (ServerThread.keyRequestConnectAddress publicIp) ↔
        address ∈ (cfg.serverThreads cs serverIp m k metadata).map (ServerThread.keyRequestConnectAddress publicIp) := by
  obtain ⟨rep, hrep⟩ := cfg.exists_serverThreads_eq cs serverIp m k metadata
  -- both sides have the same rings
  have hrings : cfg.serverRings cs serverIp = c.rings := by
    rw [FleetConfig.serverRings, Client.rings, hglobal, hlocal, cfg.mapValues_localRingAt, cfg.mapValues_localRingAt,
      ServerRing.positions_eq_of_complete (ServerRing.sound_calls cs) (ServerRing.sound_calls cs') hserver hclient hmembers]
  have hnode : ∀ st ∈ cfg.serverThreads cs serverIp m k metadata,
      st.node ∈ (ServerRing.calls cfg.ringParams cs).uniqueServers := fun st hst => by
    rw [hrep] at hst
    obtain ⟨x, hx, hxn⟩ := List.mem_map.mp (HashRing.mem_of_mem_responsible (mem_threadsFor_iff.mp hst).1)
    exact hxn ▸ ((ServerRing.sound_calls cs).entries x hx).1
  set c₀ : Client K N H L := { c with keyAddressCache := Function.update c.keyAddressCache k [] }
  have hupdate := c₀.updateCacheForAddresses_eq k (fun st hst => hcolon _ (hnode st hst)) fun st hst st' hst' =>
    hdistinct _ (hnode st hst) _ (hnode st' hst')
  rw [hrep, hrings] at hupdate ⊢
  obtain ⟨c₂, hworkers⟩ := Client.getAllWorkerThreads_updateCacheForKey cfg (c := c₀) (k := k) rep hready
    (Function.update_self k [] c.keyAddressCache)
  refine ⟨_, _, c₂, hupdate, hworkers, fun address => ?_⟩
  rw [List.mem_map, List.mem_map]
  exact exists_congr fun st => and_congr_left fun _ => List.mem_eraseDups

/-- Servers with two positions each and two threads, and keys with two replicas. -/
def twoThreads : FleetConfig ℕ ℕ ℕ ℕ where
  params := ⟨fun _ => 2, 1, 2⟩
  hash := ⟨id, fun n v => 20 * n + 100 * v, id, fun tid v => 10 * tid + 5 + 50 * v⟩
  virtualThreads := 2

/-- A client that has learned of the servers in another order. -/
def twoThreadsClient : Client ℕ ℕ ℕ ℕ :=
  { (Client.init : Client ℕ ℕ ℕ ℕ) with
    globalRings := fun _ => (ServerRing.calls twoThreads.ringParams [.insert 2 0, .insert 1 0]).positions
    localRing := (twoThreads.localRingAt "9".toList).mapValues Prod.snd }

/-- A server that knows two replicas of key `50`, with two threads each, answers with four addresses. -/
theorem client_recomputes_replicas_twoThreads :
    twoThreads.serverThreads [.insert 1 0, .insert 2 0] "8".toList (fun _ => some ⟨fun _ => 2, fun _ => 2⟩) 50 false =
        [⟨1, 0⟩, ⟨1, 1⟩, ⟨2, 0⟩, ⟨2, 1⟩] ∧
      ∃ c₁ workers c₂,
        twoThreadsClient.checkInvalidated 50 ((twoThreads.serverThreads [.insert 1 0, .insert 2 0] "8".toList
          (fun _ => some ⟨fun _ => 2, fun _ => 2⟩) 50 false).map (ServerThread.keyRequestConnectAddress decimal)) =
            some c₁ ∧
        c₁.getAllWorkerThreads twoThreads 50 = some (workers, c₂) ∧
        ∀ address, address ∈ workers.map (ServerThread.keyRequestConnectAddress decimal) ↔
          address ∈ (twoThreads.serverThreads [.insert 1 0, .insert 2 0] "8".toList
            (fun _ => some ⟨fun _ => 2, fun _ => 2⟩) 50 false).map (ServerThread.keyRequestConnectAddress decimal) := by
  have hmembers : ∀ n, n ∈ (ServerRing.calls twoThreads.ringParams [.insert 1 0, .insert 2 0]).uniqueServers ↔
      n ∈ (ServerRing.calls twoThreads.ringParams [.insert 2 0, .insert 1 0]).uniqueServers := fun n => by
    rw [show (ServerRing.calls twoThreads.ringParams [.insert 1 0, .insert 2 0]).uniqueServers = [2, 1] by decide,
      show (ServerRing.calls twoThreads.ringParams [.insert 2 0, .insert 1 0]).uniqueServers = [1, 2] by decide]
    simp [or_comm]
  exact ⟨by decide, client_recomputes_replicas twoThreads decimal [.insert 1 0, .insert 2 0] [.insert 2 0, .insert 1 0]
    (by unfold ServerRing.Complete; decide) (by unfold ServerRing.Complete; decide) hmembers
    (fun n _ => notMem_decimal (by decide) n) (fun n _ n' _ => fun heq => decimal_injective heq) "8".toList "9".toList _
    50 false twoThreadsClient rfl rfl rfl⟩

end Dinomo
