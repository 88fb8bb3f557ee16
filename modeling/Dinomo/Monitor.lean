import Dinomo.Fleet
import Dinomo.RingMembership
import Dinomo.Library.Rounding
import Dinomo.Library.RingSearch

/-!
# The monitor

Once in an epoch the monitor looks at the keys that were accessed, raises and lowers their replication factors and
asks for nodes to be added or removed.  `movement_policy` moves keys between the tiers and takes replicas from cold
keys; `slo_policy` gives replicas to hot keys when the latency is too high, and removes a node when there is little
to do, for which it first lowers the factors that name all nodes.  Both look at the accessed keys of the epoch only.

A search for the nodes of a key that does not end stops the monitor, and the epoch has no result then.
-/

namespace Dinomo

/-- The constants of the monitor. -/
structure MonitorParams (K : Type*) where
  isMetadata : K → Bool
  enableTiering : Bool
  enableElasticity : Bool
  enableSelectiveRep : Bool
  keyPromotionThreshold : ℕ
  keyDemotionThreshold : ℕ
  minimumReplicaNumber : ℕ
  sloWorst : ℚ
  maxMemoryTierSize : ℕ
  minMemoryTierSize : ℕ

/-- The parts of the policies that change replication factors. -/
inductive PolicyStage
  | promote
  | demote
  | reduce
  | slo
deriving DecidableEq, Repr

/-- What the monitor has measured in an epoch.  `graceOver` tells whether the grace period is over when a stage asks
for it, and `failed` has the keys whose new factors a stage could not store; `memoryNodesNeeded` is the number of
nodes that the consumption and the promoted keys call for. -/
structure Epoch (K : Type*) where
  keyAccessSummary : List (K × ℕ)
  keySize : K → Option ℕ
  freeMemory : ℕ
  freeStorage : ℕ
  memoryNodesNeeded : ℕ
  keyAccessMean : ℚ
  keyAccessStd : ℚ
  latency : ℚ
  minMemoryOccupancy : ℚ
  requiredMemoryNode : ℕ
  latencyMissRatio : K → Option ℚ
  graceOver : PolicyStage → Bool
  failed : PolicyStage → List K

/-- The state of a monitor; `outbox` has the updates it has sent to the threads of the nodes. -/
structure Monitor (K N H : Type*) [LinearOrder H] where
  ring : ServerRing H N
  keyReplicationMap : ReplicationMap K
  newMemoryCount : ℕ
  removingMemoryNode : Bool
  outbox : List (Notice K N)

/-- `create_new_replication_vector`. -/
def createNewReplicationVector (gm ge lm le : ℕ) : KeyReplication where
  globalReplication
    | .memory => gm
    | .storage => ge
  localReplication
    | .memory => lm
    | .storage => le

/-- The difference of two unsigned numbers. -/
def unsignedSub (a b : ℕ) : ℕ := (((a : ℤ) - b) % 2 ^ 32).toNat

/-- The servers of a deployment as its rings see them. -/
def FleetConfig.ringParams {K N H L : Type*} (cfg : FleetConfig K N H L) : RingParams H N :=
  ⟨cfg.hash.globalThread, cfg.virtualThreads⟩

section Loops

variable {K : Type*}

/-- The loop of a movement between the tiers: the keys that are selected and whose size is known take up the free
storage in turn, and those that exceed it stay.  It also returns the storage that all of them take. -/
def moveKeys (free : ℕ) (selects : K → ℕ → Bool) (size : K → Option ℕ) (new : K → KeyReplication) :
    ℕ → List (K × ℕ) → List (K × KeyReplication) × ℕ
  | required, [] => ([], required)
  | required, (k, count) :: rest =>
    match size k with
    | none => moveKeys free selects size new required rest
    | some bytes =>
      if selects k count then
        let moved := moveKeys free selects size new (required + bytes) rest
        if free < required + bytes then moved else ((k, new k) :: moved.1, moved.2)
      else moveKeys free selects size new required rest

/-- The factor a hot key should have, from the ratio of its latency to the target. -/
def targetRepFactor (current : ℕ) (ratio : ℚ) : ℕ :=
  let target := ⌊Rounding.round 53 (current * ratio)⌋.toNat
  if target = current then (target + 1) % 2 ^ 32 else target

end Loops

namespace Monitor

variable {K N H L : Type*} [DecidableEq K] [DecidableEq N] [LinearOrder H] [LinearOrder L]
variable (cfg : FleetConfig K N H L) (params : MonitorParams K) (ep : Epoch K)

/-- A monitor that knows no node and no key. -/
def init : Monitor K N H := ⟨.empty, fun _ => none, 0, false, []⟩

/-- `memory_node_count`. -/
def memoryNodeCount (s : Monitor K N H) : ℕ := s.ring.size / cfg.virtualThreads

/-- `membership_handler` for a node of the memory tier that joins. -/
def join (s : Monitor K N H) (n : N) : Monitor K N H :=
  { s with ring := (s.ring.insert cfg.ringParams n 0).2, newMemoryCount := s.newMemoryCount - 1 }

/-- `membership_handler` for a node of the memory tier that departs. -/
def depart (s : Monitor K N H) (n : N) : Monitor K N H := { s with ring := s.ring.remove cfg.ringParams n }

/-- `depart_done_handler`, for the last thread of the node that was told to depart. -/
def departDone (s : Monitor K N H) : Monitor K N H := { s with removingMemoryNode := false }

/-- `change_replication_factor`: the new factors of the keys are kept, those that could not be stored excepted, and
sent to the nodes of the larger of the old and the new factor. -/
def changeReplicationFactor (s : Monitor K N H) (requests : List (K × KeyReplication)) (failed : List K) :
    Option (Monitor K N H) :=
  let orig (k : K) : KeyReplication := s.keyReplicationMap.read k
  let stored := requests.filter fun r => r.1 ∉ failed
  if ∀ r ∈ stored, s.ring.positions.Ends (cfg.hash.globalKey r.1)
      (max (r.2.globalReplication .memory) ((orig r.1).globalReplication .memory)) then
    some { s with
      keyReplicationMap := s.keyReplicationMap.setAll
        (requests.map fun r => (r.1, if r.1 ∈ failed then orig r.1 else r.2))
      outbox := s.outbox ++ stored.flatMap fun r => cfg.notices s.ring.positions r.1 (orig r.1) r.2 }
  else none

/-- `movement_policy`, for keys that become hot. -/
def promote (s : Monitor K N H) : Option (Monitor K N H) :=
  if params.enableTiering then
    let rep := s.keyReplicationMap.read
    let promoted := moveKeys ep.freeMemory
      (fun k count => !params.isMetadata k && params.keyPromotionThreshold < count &&
        (rep k).globalReplication .memory = 0) ep.keySize
      (fun k => createNewReplicationVector ((rep k).globalReplication .memory + 1)
        (unsignedSub ((rep k).globalReplication .storage) 1) ((rep k).localReplication .memory)
        ((rep k).localReplication .storage)) 0 ep.keyAccessSummary
    (s.changeReplicationFactor cfg promoted.1 (ep.failed .promote)).map fun s =>
      if params.enableElasticity ∧ ep.freeMemory < promoted.2 ∧ s.newMemoryCount = 0 ∧ ep.graceOver .promote ∧
          s.memoryNodeCount cfg < ep.memoryNodesNeeded then
        { s with newMemoryCount := ep.memoryNodesNeeded - s.memoryNodeCount cfg }
      else s
  else some s

/-- `movement_policy`, for keys that become cold. -/
def demote (s : Monitor K N H) : Option (Monitor K N H) :=
  if params.enableTiering then
    let demoted := moveKeys ep.freeStorage
      (fun k count => !params.isMetadata k && count < params.keyDemotionThreshold &&
        0 < (s.keyReplicationMap.read k).globalReplication .memory) ep.keySize
      (fun _ => createNewReplicationVector 0 params.minimumReplicaNumber 1 1) 0 ep.keyAccessSummary
    s.changeReplicationFactor cfg demoted.1 (ep.failed .demote)
  else some s

/-- The least factors of a key. -/
def minimumRep : KeyReplication := createNewReplicationVector 1 (unsignedSub params.minimumReplicaNumber 1) 1 1

/-- Two entries agree in all factors. -/
def sameFactors (a b : KeyReplication) : Bool :=
  a.globalReplication .memory = b.globalReplication .memory ∧ a.globalReplication .storage = b.globalReplication .storage ∧
    a.localReplication .memory = b.localReplication .memory ∧ a.localReplication .storage = b.localReplication .storage

/-- `movement_policy`, for keys that are not so hot anymore. -/
def reduce (s : Monitor K N H) : Option (Monitor K N H) :=
  if params.enableSelectiveRep ∧ ep.graceOver .reduce then
    let cold := ep.keyAccessSummary.filter fun x =>
      !params.isMetadata x.1 && (x.2 : ℚ) ≤ ep.keyAccessMean - ep.keyAccessStd &&
        !sameFactors (s.keyReplicationMap.read x.1) (minimumRep params)
    s.changeReplicationFactor cfg (cold.map fun x => (x.1, minimumRep params)) (ep.failed .reduce)
  else some s

/-- `movement_policy`. -/
def movementPolicy (s : Monitor K N H) : Option (Monitor K N H) :=
  ((s.promote cfg params ep).bind (demote cfg params ep)).bind (reduce cfg params ep)

/-- The new factors of a hot key: more nodes, or all threads if it is on all nodes already. -/
def replicateHot (s : Monitor K N H) (x : K × ℕ) : Option (K × KeyReplication) :=
  let rep := s.keyReplicationMap.read x.1
  let current := rep.globalReplication .memory
  if !params.isMetadata x.1 ∧ ep.keyAccessMean + 3 * ep.keyAccessStd < x.2 then
    (ep.latencyMissRatio x.1).bind fun ratio =>
      let target := targetRepFactor current ratio
      if current < target ∧ current < s.memoryNodeCount cfg then
        let new := min (s.memoryNodeCount cfg) target
        some (x.1, createNewReplicationVector new (unsignedSub params.minimumReplicaNumber new)
          (rep.localReplication .memory) (rep.localReplication .storage))
      else if current = s.memoryNodeCount cfg ∧ rep.localReplication .memory < cfg.params.threadNum then
        some (x.1, createNewReplicationVector current (rep.globalReplication .storage) cfg.params.threadNum
          (rep.localReplication .storage))
      else none
  else none

/-- The new factors of a key that is on all nodes, before one of them is removed. -/
def lowerFull (s : Monitor K N H) (x : K × ℕ) : Option (K × KeyReplication) :=
  let rep := s.keyReplicationMap.read x.1
  if !params.isMetadata x.1 ∧ rep.globalReplication .memory = s.ring.size / cfg.virtualThreads then
    let new := unsignedSub (rep.globalReplication .memory) 1
    some (x.1, createNewReplicationVector new (unsignedSub params.minimumReplicaNumber new)
      (rep.localReplication .memory) (rep.localReplication .storage))
  else none

/-- `slo_policy`. -/
def sloPolicy (s : Monitor K N H) : Option (Monitor K N H) :=
  if params.sloWorst < ep.latency ∧ s.newMemoryCount = 0 then
    if params.enableElasticity ∧ 20 / 100 < ep.minMemoryOccupancy ∧ s.memoryNodeCount cfg < params.maxMemoryTierSize then
      some (if ep.graceOver .slo then { s with newMemoryCount := 1 } else s)
    else if params.enableSelectiveRep ∧ ep.graceOver .slo then
      s.changeReplicationFactor cfg (ep.keyAccessSummary.filterMap (s.replicateHot cfg params ep)) (ep.failed .slo)
    else some s
  else if params.enableElasticity ∧ !s.removingMemoryNode ∧ ep.minMemoryOccupancy < 15 / 100 ∧
      max ep.requiredMemoryNode params.minMemoryTierSize < s.memoryNodeCount cfg ∧ ep.graceOver .slo then
    (s.changeReplicationFactor cfg (ep.keyAccessSummary.filterMap (s.lowerFull cfg params)) (ep.failed .slo)).map
      fun s => { s with removingMemoryNode := true }
  else some s

/-- The keys that were accessed for the first time get the default factors. -/
def initKeys (s : Monitor K N H) : Monitor K N H :=
  { s with
    keyReplicationMap := ep.keyAccessSummary.foldl
      (fun m x => if !params.isMetadata x.1 ∧ m x.1 = none then m.initReplication cfg.params x.1 else m)
      s.keyReplicationMap }

/-- The policies of an epoch. -/
def epoch (s : Monitor K N H) : Option (Monitor K N H) :=
  ((s.initKeys cfg params ep).movementPolicy cfg params ep).bind (sloPolicy cfg params ep)

end Monitor

end Dinomo
