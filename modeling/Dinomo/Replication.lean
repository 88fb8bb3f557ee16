import Dinomo.Library.HashRing
import Mathlib.Logic.Function.Basic
import Mathlib.Data.List.Sort

/-!
# Replication factors and responsible threads

Every thread of a KVS node keeps a map from keys to replication factors and a copy of the hash rings:
the global ring places keys on nodes and the local ring on the threads of a node.  A key without an
entry has the default factors.  Reading the map with `operator[]` creates an entry of zeros.

KVS nodes serve the memory tier, and `kSelfTier` is `MEMORY` throughout.
-/

namespace Dinomo

/-- The tiers of the cluster. -/
inductive Tier
  | memory
  | storage
deriving DecidableEq, Repr

/-- Replication factors of a key. -/
@[ext] structure KeyReplication where
  globalReplication : Tier → ℕ
  localReplication : Tier → ℕ

/-- The entry `operator[]` creates. -/
def KeyReplication.zero : KeyReplication := ⟨fun _ => 0, fun _ => 0⟩

/-- The run-time constants of a KVS node. -/
structure ClusterParams where
  defaultGlobalReplication : Tier → ℕ
  defaultLocalReplication : ℕ
  threadNum : ℕ

/-- The default factors. -/
def KeyReplication.defaults (params : ClusterParams) : KeyReplication :=
  ⟨params.defaultGlobalReplication, fun _ => params.defaultLocalReplication⟩

/-- A thread of a node. -/
structure ServerThread (N : Type*) where
  node : N
  tid : ℕ
deriving DecidableEq, Repr

instance {N : Type*} [DecidableEq N] : LawfulBEq (ServerThread N) := inferInstance

/-- The hash functions of the two rings. -/
structure Hashers (K N H L : Type*) where
  globalKey : K → H
  globalThread : N → ℕ → H
  localKey : K → L
  localThread : ℕ → ℕ → L

/-- The hash rings of a thread, for its own tier. -/
structure Rings (N H L : Type*) [LinearOrder H] [LinearOrder L] where
  globalRing : HashRing H N
  localRing : HashRing L ℕ

/-- `key_replication_map`. -/
abbrev ReplicationMap (K : Type*) := K → Option KeyReplication

namespace ReplicationMap

variable {K : Type*} [DecidableEq K]

/-- What `operator[]` reads. -/
def read (m : ReplicationMap K) (k : K) : KeyReplication := (m k).getD .zero

/-- What `operator[]` leaves behind. -/
def touch (m : ReplicationMap K) (k : K) : ReplicationMap K := Function.update m k (some (read m k))

/-- Store a global factor. -/
def setGlobal (m : ReplicationMap K) (k : K) (tier : Tier) (v : ℕ) : ReplicationMap K :=
  Function.update m k
    (some { read m k with globalReplication := Function.update (read m k).globalReplication tier v })

/-- Store a local factor. -/
def setLocal (m : ReplicationMap K) (k : K) (tier : Tier) (v : ℕ) : ReplicationMap K :=
  Function.update m k
    (some { read m k with localReplication := Function.update (read m k).localReplication tier v })

/-- `init_replication`: every tier gets its default factors. -/
def initReplication (params : ClusterParams) (m : ReplicationMap K) (k : K) : ReplicationMap K :=
  Function.update m k (some (.defaults params))

end ReplicationMap

section Responsible

variable {K N H L : Type*} [DecidableEq K] [DecidableEq N] [LinearOrder H] [LinearOrder L]

/-- `responsible_global`: the first `rep` nodes from the key's place in the ring.  The source goes round
for ever if the ring has fewer nodes. -/
def responsibleGlobal (hash : Hashers K N H L) (rings : Rings N H L) (k : K) (rep : ℕ) : List N :=
  rings.globalRing.responsible (hash.globalKey k) rep

/-- `responsible_local`: the first `rep` threads from the key's place in the local ring, in order. -/
def responsibleLocal (hash : Hashers K N H L) (rings : Rings N H L) (k : K) (rep : ℕ) : List ℕ :=
  (rings.localRing.responsible (hash.localKey k) rep).insertionSort (· ≤ ·)

/-- The threads that serve a key under given factors. -/
def threadsFor (hash : Hashers K N H L) (rings : Rings N H L) (k : K) (rep : KeyReplication) : List (ServerThread N) :=
  (responsibleGlobal hash rings k (rep.globalReplication .memory)).flatMap fun n =>
    (responsibleLocal hash rings k (rep.localReplication .memory)).map (ServerThread.mk n)

omit [DecidableEq K] in
/-- With one thread per node, the threads of a key are those of its nodes at its place in the local ring. -/
theorem threadsFor_eq (hash : Hashers K N H L) (rings : Rings N H L) (k : K) {rep : KeyReplication}
    (hlocal : rep.localReplication .memory = 1) :
    threadsFor hash rings k rep = (responsibleGlobal hash rings k (rep.globalReplication .memory)).flatMap fun n =>
      (rings.localRing.find (hash.localKey k)).toList.map (ServerThread.mk n) := by
  have hsort : (rings.localRing.find (hash.localKey k)).toList.insertionSort (· ≤ ·) =
      (rings.localRing.find (hash.localKey k)).toList := by
    cases rings.localRing.find (hash.localKey k) <;> rfl
  simp only [threadsFor, responsibleLocal, hlocal, HashRing.responsible_one, hsort]

omit [DecidableEq K] in
/-- A thread is one of them by its node and its number. -/
theorem mem_threadsFor {hash : Hashers K N H L} {rings : Rings N H L} {k : K} {rep : KeyReplication} {st : ServerThread N}
    (hlocal : rep.localReplication .memory = 1) :
    st ∈ threadsFor hash rings k rep ↔ st.node ∈ responsibleGlobal hash rings k (rep.globalReplication .memory) ∧
      rings.localRing.find (hash.localKey k) = some st.tid := by
  rw [threadsFor_eq hash rings k hlocal]
  cases rings.localRing.find (hash.localKey k) with
  | none => simp
  | some tid =>
    obtain ⟨n, t⟩ := st
    simp [eq_comm]

/-- `get_responsible_threads` for a data key and the node's own tier: a key without an entry first gets the
default factors. -/
def getResponsibleThreads (params : ClusterParams) (hash : Hashers K N H L) (rings : Rings N H L)
    (m : ReplicationMap K) (k : K) : List (ServerThread N) × ReplicationMap K :=
  match m k with
  | none => (threadsFor hash rings k (.defaults params), m.initReplication params k)
  | some rep => (threadsFor hash rings k rep, m)

/-- The searches of `get_responsible_threads` end: that of the nodes, and that of the threads if it found a node. -/
def ResponsibleEnds (params : ClusterParams) (hash : Hashers K N H L) (rings : Rings N H L) (m : ReplicationMap K)
    (k : K) : Prop :=
  let rep := (m k).getD (.defaults params)
  rings.globalRing.Ends (hash.globalKey k) (rep.globalReplication .memory) ∧
    (responsibleGlobal hash rings k (rep.globalReplication .memory) = [] ∨
      rings.localRing.Ends (hash.localKey k) (rep.localReplication .memory))

omit [DecidableEq K] in
instance (params : ClusterParams) (hash : Hashers K N H L) (rings : Rings N H L) (m : ReplicationMap K) (k : K) :
    Decidable (ResponsibleEnds params hash rings m k) := inferInstanceAs (Decidable (_ ∧ (_ ∨ _)))

/-- The threads are those of the key's factors, which are the default ones without an entry. -/
theorem getResponsibleThreads_fst (params : ClusterParams) (hash : Hashers K N H L) (rings : Rings N H L)
    (m : ReplicationMap K) (k : K) :
    (getResponsibleThreads params hash rings m k).1 = threadsFor hash rings k ((m k).getD (.defaults params)) := by
  unfold getResponsibleThreads
  cases m k <;> rfl

/-- A lookup changes the factors of no key. -/
theorem getResponsibleThreads_snd (params : ClusterParams) (hash : Hashers K N H L) (rings : Rings N H L)
    (m : ReplicationMap K) (j k : K) :
    ((getResponsibleThreads params hash rings m j).2 k).getD (.defaults params) = (m k).getD (.defaults params) := by
  unfold getResponsibleThreads
  cases hj : m j with
  | some rep => rfl
  | none =>
    by_cases hk : k = j
    · subst hk
      simp [ReplicationMap.initReplication, hj]
    · simp [ReplicationMap.initReplication, Function.update_of_ne hk]

/-- `is_primary_replica`: the first node of the key in the global ring and its first thread in the local one,
unless the key has no replica in the tier. -/
def isPrimaryReplica (hash : Hashers K N H L) (rings : Rings N H L) (m : ReplicationMap K) (k : K)
    (st : ServerThread N) : Bool :=
  if (m.read k).globalReplication .memory = 0 then false
  else
    rings.globalRing.find (hash.globalKey k) = some st.node ∧ rings.localRing.find (hash.localKey k) = some st.tid

end Responsible

/-- One thread, and one replica of every key. -/
def soloParams : ClusterParams := ⟨fun _ => 1, 1, 1⟩

/-- Hashes of a cluster of one thread. -/
def soloHash : Hashers ℕ Unit ℕ ℕ := ⟨id, fun _ _ => 0, id, fun _ _ => 0⟩

/-- The rings of a cluster of one thread. -/
def soloRings : Rings Unit ℕ ℕ := ⟨HashRing.empty.insert 0 (), HashRing.empty.insert 0 0⟩

end Dinomo
