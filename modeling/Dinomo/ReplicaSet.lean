import Dinomo.Library.RingIterator
import Dinomo.Replication

/-!
# The replicas of a key

`responsible_global` goes round the ring from the entry that serves a key and collects servers it has not met,
until it has as many as the replication factor says.  Which thread is the primary one is found out by other code,
which looks only at the first entry of each ring.  A server of the storage tier takes itself for the primary
replica only of keys without replicas in the memory tier.
-/

namespace Dinomo

open List

namespace HashRing

variable {H N : Type*} [LinearOrder H] [DecidableEq N]

/-- The loop of `responsible_global`, with the number of servers it has found, its iterator and the servers; it is
stopped after a number of steps. -/
def responsibleLoop (r : HashRing H N) (rep : ℕ) : ℕ → ℕ → ℕ → List N → Option (List N)
  | 0, i, _, threads => if i < rep then none else some threads
  | fuel + 1, i, pos, threads =>
    if i < rep then
      (r.nodes[pos]?).bind fun x =>
        if x.2 ∈ threads then r.responsibleLoop rep fuel i (r.advance pos) threads
        else r.responsibleLoop rep fuel (i + 1) (r.advance pos) (threads ++ [x.2])
    else some threads

/-- `responsible_global`; an empty ring has no entry to begin at. -/
def responsibleThreads (r : HashRing H N) (h : H) (rep fuel : ℕ) : Option (List N) :=
  if r.nodes = [] then some [] else r.responsibleLoop rep fuel 0 (r.findIterator h) []

variable {r : HashRing H N} {h : H} {rep : ℕ}

/-- The loop is the search for different values, from the entry it is at. -/
theorem responsibleLoop_eq_searchLoop (fuel : ℕ) {j : ℕ} (hj : j < r.nodes.length) (found : List N) :
    r.responsibleLoop rep fuel found.length ((r.findIterator h + j) % r.nodes.length) found =
      searchLoop ((r.walk h).map Prod.snd) rep fuel (((r.walk h).map Prod.snd).drop j) found := by
  induction fuel generalizing j found with
  | zero => simp only [responsibleLoop, searchLoop, ← not_lt, ite_not]
  | succ fuel ih =>
    have hlen : ((r.walk h).map Prod.snd).length = r.nodes.length := by rw [length_map, length_walk]
    -- the entry the iterator is at is the next one of the walk
    obtain ⟨x, hx⟩ : ∃ x, (r.walk h)[j]? = some x := ⟨_, List.getElem?_eq_getElem (by rw [length_walk]; exact hj)⟩
    have hdrop : ((r.walk h).map Prod.snd).drop j = x.2 :: ((r.walk h).map Prod.snd).drop (j + 1) := by
      rw [drop_eq_getElem_cons (by omega)]
      congr 1
      refine Option.some.inj ?_
      rw [← List.getElem?_eq_getElem, List.getElem?_map, hx, Option.map_some]
    have hnode : r.nodes[(r.findIterator h + j) % r.nodes.length]? = some x := (getElem?_walk hj).symm.trans hx
    rw [responsibleLoop, hdrop, searchLoop]
    by_cases hmore : found.length < rep
    · rw [if_pos hmore, if_neg (not_le.mpr hmore), hnode, Option.bind_some,
        advance_eq_mod (Nat.mod_lt _ (by omega)), Nat.mod_add_mod, Nat.add_assoc]
      -- either the next entry is in this round too, or the round begins again
      have hnext : ∀ found' : List N, r.responsibleLoop rep fuel found'.length
          ((r.findIterator h + (j + 1)) % r.nodes.length) found' =
            searchLoop ((r.walk h).map Prod.snd) rep fuel (if ((r.walk h).map Prod.snd).drop (j + 1) = [] then
              (r.walk h).map Prod.snd else ((r.walk h).map Prod.snd).drop (j + 1)) found' := by
        intro found'
        by_cases hlast : j + 1 = r.nodes.length
        · have hround := ih (j := 0) (by omega) found'
          rw [drop_zero, Nat.add_zero] at hround
          rw [if_pos (drop_eq_nil_of_le (by omega)), hlast, Nat.add_mod_right, hround]
        · have hrest : ((r.walk h).map Prod.snd).drop (j + 1) ≠ [] := by
            rw [Ne, drop_eq_nil_iff]
            omega
          rw [if_neg hrest]
          exact ih (by omega) found'
      by_cases hin : x.2 ∈ found
      · rw [if_pos hin, if_pos hin]
        exact hnext found
      · rw [if_neg hin, if_neg hin]
        have happend := hnext (found ++ [x.2])
        rwa [length_append, length_singleton] at happend
    · rw [if_neg hmore, if_pos (not_lt.mp hmore)]

/-- The source's function is the search for different values. -/
theorem responsibleThreads_eq_search (fuel : ℕ) : r.responsibleThreads h rep fuel = r.search h rep fuel := by
  unfold responsibleThreads search
  split_ifs with hempty
  · rfl
  · have hloop : r.responsibleLoop rep fuel 0 _ [] = _ :=
      responsibleLoop_eq_searchLoop (h := h) fuel (length_pos_iff.mpr hempty) []
    rwa [Nat.add_zero, Nat.mod_eq_of_lt (findIterator_lt hempty), drop_zero] at hloop

/-- A loop that has ended does not depend on the steps it has left. -/
theorem responsibleLoop_mono {fuel i pos : ℕ} {threads found : List N}
    (hend : r.responsibleLoop rep fuel i pos threads = some found) {fuel' : ℕ} (hle : fuel ≤ fuel') :
    r.responsibleLoop rep fuel' i pos threads = some found := by
  induction fuel generalizing fuel' i pos threads with
  | zero =>
    simp only [responsibleLoop] at hend
    split_ifs at hend with hmore
    cases fuel' <;> simpa [responsibleLoop, hmore] using hend
  | succ fuel ih =>
    obtain ⟨fuel', rfl⟩ : ∃ n, fuel' = n + 1 := ⟨fuel' - 1, by omega⟩
    rw [responsibleLoop] at hend ⊢
    split_ifs at hend ⊢ with hmore
    · obtain ⟨x, hx, hend⟩ := Option.bind_eq_some_iff.mp hend
      rw [hx, Option.bind_some]
      split_ifs at hend ⊢ with hin
      · exact ih hend (by omega)
      · exact ih hend (by omega)
    · exact hend

/-- With enough servers the source's function returns the first different ones, whatever steps it is given beyond one
round. -/
theorem responsibleThreads_eq_some (hrep : rep ≤ r.count) {fuel : ℕ} (hfuel : r.nodes.length ≤ fuel) :
    r.responsibleThreads h rep fuel = some (r.responsible h rep) := by
  have hround : r.responsibleThreads h rep r.nodes.length = some (r.responsible h rep) := by
    rw [responsibleThreads_eq_search, ← r.length_walk h]
    exact search_eq (ends_iff.mpr (.inr hrep))
  unfold responsibleThreads at hround ⊢
  split_ifs at hround ⊢
  · exact hround
  · exact responsibleLoop_mono hround hfuel

/-- The servers for a factor begin those for a larger one. -/
theorem responsible_prefix {rep' : ℕ} (hle : rep ≤ rep') : r.responsible h rep <+: r.responsible h rep' :=
  take_prefix_take_left hle

/-- There are as many servers as the factor says. -/
theorem length_responsible (hrep : rep ≤ r.count) : (r.responsible h rep).length = rep := by
  rw [responsible, length_take, length_eraseDups_walk, min_eq_left hrep]

/-- The first server for a factor that is not zero is the one that serves the hash. -/
theorem head?_responsible (hrep : rep ≠ 0) : (r.responsible h rep).head? = r.find h := by
  unfold responsible find
  cases r.walk h with
  | nil => simp
  | cons x l => simp [eraseDups_cons, List.head?_take, hrep]

end HashRing

/-- The number of a tier. -/
def Tier.number : Tier → ℕ
  | .memory => 1
  | .storage => 2

/-- `kAllTiers`. -/
def kAllTiers : List Tier := [.memory, .storage]

/-- The hash rings of a process. -/
structure TierRings (N H L : Type*) [LinearOrder H] [LinearOrder L] where
  globalRings : Tier → HashRing H N
  localRings : Tier → HashRing L ℕ

section Primary

variable {K N H L : Type*} [DecidableEq N] [LinearOrder H] [LinearOrder L]
variable (hash : Hashers K N H L) (rings : TierRings N H L) (self : Tier)

/-- A tier above the own one has a replica of the key. -/
def hasUpperTierReplica (rep : KeyReplication) : Bool :=
  kAllTiers.any fun tier => tier.number < self.number && 0 < rep.globalReplication tier

/-- `is_primary_replica`, in a process of any tier. -/
def isPrimaryReplicaIn (m : ReplicationMap K) (k : K) (st : ServerThread N) : Bool :=
  if (m.read k).globalReplication self = 0 then false
  else if Tier.memory.number < self.number ∧ hasUpperTierReplica self (m.read k) then false
  else
    match (rings.globalRings self).nodes[(rings.globalRings self).findIterator (hash.globalKey k)]? with
    | none => false
    | some globalPos =>
      if st.node = globalPos.2 then
        match (rings.localRings self).nodes[(rings.localRings self).findIterator (hash.localKey k)]? with
        | none => false
        | some localPos => st.tid = localPos.2
      else false

/-- In the memory tier there is no tier above. -/
theorem hasUpperTierReplica_memory (rep : KeyReplication) : hasUpperTierReplica .memory rep = false := by
  simp [hasUpperTierReplica, kAllTiers, Tier.number]

/-- A thread is the primary one if its node and its number are the first of their rings. -/
theorem isPrimaryReplicaIn_eq_true_iff {m : ReplicationMap K} {k : K} {st : ServerThread N} :
    isPrimaryReplicaIn hash rings self m k st = true ↔ (m.read k).globalReplication self ≠ 0 ∧
      hasUpperTierReplica self (m.read k) = false ∧ (rings.globalRings self).find (hash.globalKey k) = some st.node ∧
        (rings.localRings self).find (hash.localKey k) = some st.tid := by
  rw [isPrimaryReplicaIn, HashRing.find_eq_findIterator, HashRing.find_eq_findIterator]
  by_cases hzero : (m.read k).globalReplication self = 0
  · simp [hzero]
  have hguard : (Tier.memory.number < self.number ∧ hasUpperTierReplica self (m.read k) = true) ↔
      hasUpperTierReplica self (m.read k) = true := by
    refine and_iff_right_of_imp fun hupper => ?_
    cases self with
    | memory => simp [hasUpperTierReplica_memory] at hupper
    | storage => decide
  rw [if_neg hzero]
  simp only [hguard]
  cases hupper : hasUpperTierReplica self (m.read k) with
  | true => simp
  | false =>
    cases (rings.globalRings self).nodes[(rings.globalRings self).findIterator (hash.globalKey k)]? with
    | none => simp
    | some globalPos =>
      cases (rings.localRings self).nodes[(rings.localRings self).findIterator (hash.localKey k)]? with
      | none => simp
      | some localPos =>
        by_cases hnode : globalPos.2 = st.node
        · by_cases htid : localPos.2 = st.tid
          · simp [hzero, hnode, htid]
          · simp [hnode, htid, Ne.symm htid]
        · simp [hnode, Ne.symm hnode]

/-- For a thread of the memory tier this is the test of the threads' model. -/
theorem isPrimaryReplicaIn_memory (m : ReplicationMap K) (k : K) (st : ServerThread N) :
    isPrimaryReplicaIn hash rings .memory m k st =
      isPrimaryReplica hash ⟨rings.globalRings .memory, rings.localRings .memory⟩ m k st := by
  rw [Bool.eq_iff_iff, isPrimaryReplicaIn_eq_true_iff, hasUpperTierReplica_memory]
  by_cases hzero : (m.read k).globalReplication .memory = 0
  · simp [isPrimaryReplica, hzero]
  · simp [isPrimaryReplica, hzero]

end Primary

/-- For every factor up to the number of servers `responsible_global` returns the first different servers clockwise from
the key, and their list begins that of every larger factor.  For a key with a factor the primary thread is the first of
these servers with the first thread of the local ring, unless a tier above has replicas of the key: then there is none. -/
theorem replica_set_of_key {K N H L : Type*} [DecidableEq N] [LinearOrder H] [LinearOrder L] (hash : Hashers K N H L)
    (rings : TierRings N H L) (self : Tier) (k : K) :
    (∀ rep ≤ (rings.globalRings self).count, ∃ threads,
      (∀ fuel ≥ (rings.globalRings self).nodes.length,
        (rings.globalRings self).responsibleThreads (hash.globalKey k) rep fuel = some threads) ∧
      threads = (((rings.globalRings self).walk (hash.globalKey k)).map Prod.snd).eraseDups.take rep ∧
      threads.length = rep ∧ threads.Nodup ∧
      ∀ rep' ≤ (rings.globalRings self).count, rep ≤ rep' → ∀ fuel ≥ (rings.globalRings self).nodes.length,
        ∃ threads', (rings.globalRings self).responsibleThreads (hash.globalKey k) rep' fuel = some threads' ∧
          threads <+: threads') ∧
    ∀ m : ReplicationMap K, (m.read k).globalReplication self ≠ 0 →
      ∀ rep ≠ 0, rep ≤ (rings.globalRings self).count → ∀ fuel ≥ (rings.globalRings self).nodes.length, ∃ threads,
        (rings.globalRings self).responsibleThreads (hash.globalKey k) rep fuel = some threads ∧
        ∀ st, isPrimaryReplicaIn hash rings self m k st = true ↔ hasUpperTierReplica self (m.read k) = false ∧
          threads.head? = some st.node ∧ (rings.localRings self).find (hash.localKey k) = some st.tid := by
  refine ⟨fun rep hrep => ⟨_, fun fuel hfuel => HashRing.responsibleThreads_eq_some hrep hfuel, rfl,
    HashRing.length_responsible hrep, HashRing.nodup_responsible, fun rep' hrep' hle fuel hfuel =>
      ⟨_, HashRing.responsibleThreads_eq_some hrep' hfuel, HashRing.responsible_prefix hle⟩⟩,
    fun m hfactor rep hne hrep fuel hfuel => ⟨_, HashRing.responsibleThreads_eq_some hrep hfuel, fun st => ?_⟩⟩
  rw [isPrimaryReplicaIn_eq_true_iff, HashRing.head?_responsible hne]
  exact and_iff_right hfactor

/-- Two servers, of which each has two positions in the rings of both tiers, with two threads. -/
def twoServers : TierRings ℕ ℕ ℕ where
  globalRings _ := (HashRing.empty.insertAll [10, 30] 1).insertAll [20, 25] 2
  localRings _ := (HashRing.empty.insert 5 0).insert 15 1

/-- The hashes of their keys. -/
def twoServersHash : Hashers ℕ ℕ ℕ ℕ := ⟨id, fun n v => 10 * n + 20 * v, id, fun tid _ => 10 * tid + 5⟩

/-- A key with replicas in both tiers. -/
def bothTiers : ReplicationMap ℕ := fun _ => some ⟨fun _ => 1, fun _ => 1⟩

/-- In the memory tier the first server from hash `12` is server `2`, and its primary thread is thread `1`. -/
theorem replica_set_of_key_twoServers :
    (twoServers.globalRings .memory).responsibleThreads 12 2 4 = some [2, 1] ∧
      isPrimaryReplicaIn twoServersHash twoServers .memory bothTiers 12 ⟨2, 1⟩ = true := by
  obtain ⟨hlists, hprimary⟩ := replica_set_of_key twoServersHash twoServers .memory 12
  obtain ⟨threads, hthreads, hfirst, -, -, -⟩ := hlists 2 (by decide)
  obtain ⟨threads', hthreads', hiff⟩ := hprimary bothTiers (by decide) 1 (by decide) (by decide) 4 (by decide)
  refine ⟨(hthreads 4 (by decide)).trans ?_, (hiff ⟨2, 1⟩).mpr ⟨by decide, ?_, by decide⟩⟩
  · rw [hfirst]
    decide
  · obtain rfl : threads' = [2] := by
      refine Option.some.inj (hthreads'.symm.trans ?_)
      decide
    rfl

/-- In the storage tier the key has a factor, a first server and a first thread, and no thread is the primary one. -/
theorem upper_tier_replica_no_primary :
    (bothTiers.read 12).globalReplication .storage ≠ 0 ∧
      (twoServers.globalRings .storage).responsibleThreads 12 1 4 = some [2] ∧
      (twoServers.localRings .storage).find 12 = some 1 ∧
      isPrimaryReplicaIn twoServersHash twoServers .storage bothTiers 12 ⟨2, 1⟩ = false ∧
      ∀ st, isPrimaryReplicaIn twoServersHash twoServers .storage bothTiers 12 st = false := by
  have hnone : ∀ st, isPrimaryReplicaIn twoServersHash twoServers .storage bothTiers 12 st = false := fun st => by
    rw [Bool.eq_false_iff]
    intro hprimary
    have hupper := ((isPrimaryReplicaIn_eq_true_iff twoServersHash twoServers .storage).mp hprimary).2.1
    exact absurd hupper (by decide)
  exact ⟨by decide, by decide, by decide, hnone _, hnone⟩

end Dinomo
