import Dinomo.MonitorBounds

/-!
# Storage factors

The policies of the monitor compute the storage factor of a key from the minimum number of replicas and the new memory
factor.  They write `max(minimum - memory, 0)` over unsigned numbers, and the maximum comes too late: the difference has
wrapped round already.  Promotion takes one from the storage factor without a look at it.
-/

namespace Dinomo

/-- The bounded difference of numbers. -/
theorem natCast_eq_max_iff {a b c : ℕ} : (c : ℤ) = max 0 ((a : ℤ) - b) ↔ c = a - b := by
  rw [max_def]
  split_ifs <;> omega

/-- A difference of words is the bounded difference of numbers if and only if it does not go below zero. -/
theorem unsignedSub_eq_max_iff {a b : ℕ} (ha : a < 2 ^ 32) (hb : b < 2 ^ 32) :
    (unsignedSub a b : ℤ) = max 0 ((a : ℤ) - b) ↔ b ≤ a := by
  unfold unsignedSub
  rw [Int.toNat_of_nonneg (Int.emod_nonneg _ (by decide))]
  constructor
  · intro heq
    by_contra hlt
    rw [max_eq_left (by omega), ← Int.add_emod_right, Int.emod_eq_of_lt (by omega) (by omega)] at heq
    omega
  · intro hle
    rw [max_eq_right (by omega), Int.emod_eq_of_lt (by omega) (by omega)]

namespace Monitor

variable {K N H L : Type*} [DecidableEq K] [DecidableEq N] [LinearOrder H] [LinearOrder L]
variable (cfg : FleetConfig K N H L) (params : MonitorParams K) (ep : Epoch K)

/-- The replication vectors that a part of the policies requests. -/
def requestsOf (s : Monitor K N H) : PolicyStage → List (K × KeyReplication)
  | .promote =>
    let rep := s.keyReplicationMap.read
    if params.enableTiering then
      (moveKeys ep.freeMemory (fun k count => !params.isMetadata k && params.keyPromotionThreshold < count &&
        (rep k).globalReplication .memory = 0) ep.keySize
        (fun k => createNewReplicationVector ((rep k).globalReplication .memory + 1)
          (unsignedSub ((rep k).globalReplication .storage) 1) ((rep k).localReplication .memory)
          ((rep k).localReplication .storage)) 0 ep.keyAccessSummary).1
    else []
  | .demote =>
    if params.enableTiering then
      (moveKeys ep.freeStorage (fun k count => !params.isMetadata k && count < params.keyDemotionThreshold &&
        0 < (s.keyReplicationMap.read k).globalReplication .memory) ep.keySize
        (fun _ => createNewReplicationVector 0 params.minimumReplicaNumber 1 1) 0 ep.keyAccessSummary).1
    else []
  | .reduce =>
    if params.enableSelectiveRep ∧ ep.graceOver .reduce then
      (ep.keyAccessSummary.filter fun x =>
        !params.isMetadata x.1 && (x.2 : ℚ) ≤ ep.keyAccessMean - ep.keyAccessStd &&
          !sameFactors (s.keyReplicationMap.read x.1) (minimumRep params)).map fun x => (x.1, minimumRep params)
    else []
  | .slo =>
    if params.sloWorst < ep.latency ∧ s.newMemoryCount = 0 then
      if params.enableElasticity ∧ 20 / 100 < ep.minMemoryOccupancy ∧ s.memoryNodeCount cfg < params.maxMemoryTierSize then
        []
      else if params.enableSelectiveRep ∧ ep.graceOver .slo then
        ep.keyAccessSummary.filterMap (s.replicateHot cfg params ep)
      else []
    else if params.enableElasticity ∧ !s.removingMemoryNode ∧ ep.minMemoryOccupancy < 15 / 100 ∧
        max ep.requiredMemoryNode params.minMemoryTierSize < s.memoryNodeCount cfg ∧ ep.graceOver .slo then
      ep.keyAccessSummary.filterMap (s.lowerFull cfg params)
    else []

/-- A part of the policies. -/
def runStage (s : Monitor K N H) : PolicyStage → Option (Monitor K N H)
  | .promote => s.promote cfg params ep
  | .demote => s.demote cfg params ep
  | .reduce => s.reduce cfg params ep
  | .slo => s.sloPolicy cfg params ep

/-- The numbers a monitor works with are words. -/
structure Words (s : Monitor K N H) : Prop where
  factors : ∀ k tier, (s.keyReplicationMap.read k).globalReplication tier < 2 ^ 32
  nodes : s.memoryNodeCount cfg < 2 ^ 32
  minimum : params.minimumReplicaNumber < 2 ^ 32

/-- The storage factor that a request should have: what the minimum leaves to the new memory factor, or on promotion one
less than the current one. -/
def dueStorage (s : Monitor K N H) (r : K × KeyReplication) : PolicyStage → ℤ
  | .promote => max 0 (((s.keyReplicationMap.read r.1).globalReplication .storage : ℤ) - 1)
  | .demote | .reduce | .slo => max 0 ((params.minimumReplicaNumber : ℤ) - r.2.globalReplication .memory)

/-- No factor goes below zero.  A request that keeps the memory factor keeps the storage factor too, which has to be the
due one already. -/
def StaysAbove (s : Monitor K N H) (r : K × KeyReplication) : PolicyStage → Prop
  | .promote => 1 ≤ (s.keyReplicationMap.read r.1).globalReplication .storage
  | .demote => True
  | .reduce => 1 ≤ params.minimumReplicaNumber
  | .slo =>
    (r.2.globalReplication .memory = (s.keyReplicationMap.read r.1).globalReplication .memory →
      (s.keyReplicationMap.read r.1).globalReplication .storage =
        params.minimumReplicaNumber - r.2.globalReplication .memory) ∧
    (r.2.globalReplication .memory ≠ (s.keyReplicationMap.read r.1).globalReplication .memory →
      r.2.globalReplication .memory ≤ params.minimumReplicaNumber)

variable {cfg params ep} {s : Monitor K N H} {r : K × KeyReplication}

omit [DecidableEq K] [DecidableEq N] [LinearOrder L] in
/-- A request for more replicas has the due storage factor if and only if the minimum is not exceeded. -/
theorem storage_replicateHot_iff (hwords : s.Words cfg params) {x : K × ℕ} (hr : s.replicateHot cfg params ep x = some r) :
    (r.2.globalReplication .storage : ℤ) = s.dueStorage params r .slo ↔ s.StaysAbove params r .slo := by
  rw [replicateHot, Option.ite_none_right_eq_some] at hr
  obtain ⟨-, hr⟩ := hr
  obtain ⟨ratio, -, hr⟩ := Option.bind_eq_some_iff.mp hr
  dsimp only at hr
  split_ifs at hr with hraise hfull
  · cases hr
    have hne : min (s.memoryNodeCount cfg) (targetRepFactor ((s.keyReplicationMap.read x.1).globalReplication .memory)
        ratio) ≠ (s.keyReplicationMap.read x.1).globalReplication .memory :=
      (lt_min hraise.2 hraise.1).ne'
    have hnodes := hwords.nodes
    refine (unsignedSub_eq_max_iff hwords.minimum (by omega)).trans ⟨fun hle => ?_, fun h => h.2 hne⟩
    exact ⟨fun heq => absurd heq hne, fun _ => hle⟩
  · cases hr
    -- the factors of the key are kept
    refine natCast_eq_max_iff.trans ⟨fun heq => ?_, fun h => h.1 rfl⟩
    exact ⟨fun _ => heq, fun hne => absurd rfl hne⟩

omit [DecidableEq K] [DecidableEq N] [LinearOrder L] in
/-- So has a request for one replica less, if there is a node. -/
theorem storage_lowerFull_iff (hwords : s.Words cfg params) (hcount : 0 < s.memoryNodeCount cfg) {x : K × ℕ}
    (hr : s.lowerFull cfg params x = some r) :
    (r.2.globalReplication .storage : ℤ) = s.dueStorage params r .slo ↔ s.StaysAbove params r .slo := by
  simp only [lowerFull] at hr
  split_ifs at hr with hfull
  cases hr
  have hone : 1 ≤ (s.keyReplicationMap.read x.1).globalReplication .memory := hfull.2 ▸ hcount
  have hless := unsignedSub_le hone
  have hword := hwords.factors x.1 .memory
  have hne : unsignedSub ((s.keyReplicationMap.read x.1).globalReplication .memory) 1 ≠
      (s.keyReplicationMap.read x.1).globalReplication .memory := by omega
  refine (unsignedSub_eq_max_iff hwords.minimum (by omega)).trans ⟨fun hle => ?_, fun h => h.2 hne⟩
  exact ⟨fun heq => absurd heq hne, fun _ => hle⟩

end Monitor

/-- Every replication vector that the policies request, in any state, has the due storage factor if and only if no factor
goes below zero in its computation. -/
theorem requested_storage_iff {K N H L : Type*} [DecidableEq K] [DecidableEq N] [LinearOrder H] [LinearOrder L]
    (cfg : FleetConfig K N H L) (params : MonitorParams K) (ep : Epoch K) (s : Monitor K N H)
    (hwords : s.Words cfg params) (stage : PolicyStage) (r : K × KeyReplication)
    (hr : r ∈ s.requestsOf cfg params ep stage) :
    (r.2.globalReplication .storage : ℤ) = s.dueStorage params r stage ↔ s.StaysAbove params r stage := by
  cases stage with
  | promote =>
    simp only [Monitor.requestsOf] at hr
    split_ifs at hr
    · obtain ⟨hnew, -⟩ := Monitor.mem_moveKeys hr
      rw [hnew]
      exact unsignedSub_eq_max_iff (hwords.factors r.1 .storage) (by decide)
    · exact absurd hr List.not_mem_nil
  | demote =>
    simp only [Monitor.requestsOf] at hr
    split_ifs at hr
    · obtain ⟨hnew, -⟩ := Monitor.mem_moveKeys hr
      simp [Monitor.dueStorage, Monitor.StaysAbove, hnew, createNewReplicationVector]
    · exact absurd hr List.not_mem_nil
  | reduce =>
    simp only [Monitor.requestsOf] at hr
    split_ifs at hr
    · obtain ⟨x, -, rfl⟩ := List.mem_map.mp hr
      exact unsignedSub_eq_max_iff hwords.minimum (by decide)
    · exact absurd hr List.not_mem_nil
  | slo =>
    simp only [Monitor.requestsOf] at hr
    split_ifs at hr with hlatency hadd hhot hremove
    · exact absurd hr List.not_mem_nil
    · obtain ⟨x, -, hx⟩ := List.mem_filterMap.mp hr
      exact Monitor.storage_replicateHot_iff hwords hx
    · exact absurd hr List.not_mem_nil
    · obtain ⟨x, -, hx⟩ := List.mem_filterMap.mp hr
      exact Monitor.storage_lowerFull_iff hwords ((Nat.zero_le _).trans_lt hremove.2.2.2.1) hx
    · exact absurd hr List.not_mem_nil

/-- The replication factors of the configuration that comes with the source. -/
def shippedConfig : FleetConfig ℕ ℕ ℕ ℕ where
  params := ⟨fun | .memory => 1 | .storage => 0, 1, 1⟩
  hash := ⟨id, fun n _ => n, id, fun tid _ => tid⟩
  virtualThreads := 1

/-- A monitor with a minimum number of replicas that replicates hot keys. -/
def replicating (minimum : ℕ) : MonitorParams ℕ where
  isMetadata _ := false
  enableTiering := false
  enableElasticity := false
  enableSelectiveRep := true
  keyPromotionThreshold := 0
  keyDemotionThreshold := 0
  minimumReplicaNumber := minimum
  sloWorst := 1
  maxMemoryTierSize := 3
  minMemoryTierSize := 1

/-- An epoch in which key `7` is hot and its latency is twice the target. -/
def hotEpoch : Epoch ℕ where
  keyAccessSummary := [(7, 100)]
  keySize _ := none
  freeMemory := 0
  freeStorage := 0
  memoryNodesNeeded := 0
  keyAccessMean := 5
  keyAccessStd := 1
  latency := 2
  minMemoryOccupancy := 0
  requiredMemoryNode := 1
  latencyMissRatio _ := some 2
  graceOver _ := true
  failed _ := []

/-- A monitor that knows two nodes and has met the key with the default factors. -/
def twoNodes : Monitor ℕ ℕ ℕ :=
  Monitor.initKeys shippedConfig (replicating 1) hotEpoch ((Monitor.init.join shippedConfig 1).join shippedConfig 2)

/-- With a minimum of three replicas, two in memory leave one for storage. -/
theorem requested_storage_iff_three :
    ∃ r ∈ twoNodes.requestsOf shippedConfig (replicating 3) hotEpoch .slo,
      (r.2.globalReplication .storage : ℤ) = twoNodes.dueStorage (replicating 3) r .slo ∧
        r.2.globalReplication .storage = 1 := by
  have hwords : twoNodes.Words shippedConfig (replicating 3) := by
    refine ⟨fun k tier => ?_, by decide +kernel, by decide⟩
    by_cases hk : k = 7
    · subst hk
      cases tier <;> decide +kernel
    · have hnone : twoNodes.keyReplicationMap k = none := Function.update_of_ne hk _ _
      rw [ReplicationMap.read, hnone]
      exact Nat.two_pow_pos 32
  have hrequests : (twoNodes.requestsOf shippedConfig (replicating 3) hotEpoch .slo).map (fun r =>
      (r.1, r.2.globalReplication .memory, r.2.globalReplication .storage)) = [(7, 2, 1)] := by decide +kernel
  obtain ⟨r, hr, heq⟩ := List.mem_map.mp (hrequests ▸ List.mem_singleton_self (7, 2, 1))
  simp only [Prod.mk.injEq] at heq
  obtain ⟨hkey, hmemory, hstorage⟩ := heq
  refine ⟨r, hr, (requested_storage_iff shippedConfig (replicating 3) hotEpoch twoNodes hwords .slo r hr).mpr ?_, hstorage⟩
  rw [Monitor.StaysAbove, hkey, hmemory]
  decide +kernel

/-- With the shipped minimum of one, a key that gets a second replica in memory gets a storage factor of `2 ^ 32 - 1`. -/
theorem hot_key_storage_wraps :
    ∃ r ∈ twoNodes.requestsOf shippedConfig (replicating 1) hotEpoch .slo,
      r.2.globalReplication .memory = 2 ∧ r.2.globalReplication .storage = 4294967295 ∧
        twoNodes.dueStorage (replicating 1) r .slo = 0 := by
  have hrequests : (twoNodes.requestsOf shippedConfig (replicating 1) hotEpoch .slo).map (fun r =>
      (r.1, r.2.globalReplication .memory, r.2.globalReplication .storage)) = [(7, 2, 4294967295)] := by decide +kernel
  obtain ⟨r, hr, heq⟩ := List.mem_map.mp (hrequests ▸ List.mem_singleton_self (7, 2, 4294967295))
  simp only [Prod.mk.injEq] at heq
  obtain ⟨-, hmemory, hstorage⟩ := heq
  refine ⟨r, hr, hmemory, hstorage, ?_⟩
  rw [Monitor.dueStorage, hmemory]
  rfl

end Dinomo
