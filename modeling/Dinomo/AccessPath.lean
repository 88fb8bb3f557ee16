import Dinomo.Fleet.Step

/-!
# The access path of a key

A KVS thread decides from its own replication map and rings whether it accesses a key through the key's
indirect pointer.  With changes of the factors that keep the threads in step, the decision agrees with the
index, and cached pointers do not outlive the replication of a key.
-/

namespace Dinomo

section Paths

variable {K N H L : Type*} [DecidableEq K] [DecidableEq N] [LinearOrder H] [LinearOrder L]

/-- A key exists: it is in the index or in a log. -/
def Fleet.Exists (s : Fleet K N H L) (k : K) : Prop := s.index k ≠ none ∨ ∃ st, k ∈ s.logged st

/-- A thread that serves a key that exists takes the replicated path if and only if the index has an indirect
pointer for the key. -/
def Fleet.PathAgrees (cfg : FleetConfig K N H L) (s : Fleet K N H L) : Prop :=
  ∀ st k, s.Exists k → st ∈ s.threads cfg st k →
    (1 < (s.threads cfg st k).length ↔ ∃ e, s.index k = some e ∧ e.isPointer = true)

/-- In every run whose events meet their conditions, the access path agrees with the index. -/
theorem access_path_agrees (cfg : FleetConfig K N H L) (hcfg : cfg.SingleDefault) (nodes : List N)
    (es : List (FleetEvent K N)) (s : Fleet K N H L) (hrun : Fleet.run cfg nodes es = some s)
    (hok : Transition.Guarded (Fleet.step cfg) (Fleet.Orderly cfg) (Fleet.init cfg nodes) es) : s.PathAgrees cfg := by
  intro st k _ hst
  have hinv : s.Inv cfg := .run hcfg hrun hok
  exact hinv.path hst

/-- Whenever a key is back at one replica and its updates have been handled, no thread has a pointer of the key in its
cache; and at any time all cached pointers of a key are the one that the index has. -/
def Fleet.PointersCurrent (cfg : FleetConfig K N H L) (s : Fleet K N H L) : Prop :=
  ∀ k, (s.target cfg k = cfg.params.defaultGlobalReplication .memory → s.unhandled = [] → ∀ st, s.pointers st k = none) ∧
    ∀ st e, s.pointers st k = some e → s.index k = some e

/-- In every run whose events meet their conditions, cached pointers do not outlive the replication of a key. -/
theorem dereplication_drops_pointers (cfg : FleetConfig K N H L) (hcfg : cfg.SingleDefault) (nodes : List N)
    (es : List (FleetEvent K N)) (s : Fleet K N H L) (hrun : Fleet.run cfg nodes es = some s)
    (hok : Transition.Guarded (Fleet.step cfg) (Fleet.Orderly cfg) (Fleet.init cfg nodes) es) :
    s.PointersCurrent cfg := by
  intro k
  have hinv : s.Inv cfg := .run hcfg hrun hok
  obtain ⟨old, hb⟩ := hinv.balanced k
  refine ⟨fun htarget hquiet st => ?_, fun st e he => (hb.holders st e he).2.2.2⟩
  cases hcached : s.pointers st k with
  | none => rfl
  | some e =>
    obtain ⟨hlong, -, hlocal, -⟩ := hb.holders st e hcached
    rw [hb.factor_of_quiet hquiet (Fleet.tid_lt_of_localRing hlocal), htarget, hcfg.global, ite_self] at hlong
    omega

end Paths

section Runs

/-- Clusters whose nodes and threads have one place each in the rings; every key is at the first one. -/
def plainConfig (threads virtualThreads : ℕ) : FleetConfig ℕ ℕ ℕ ℕ :=
  ⟨⟨fun _ => 1, 1, threads⟩, ⟨fun _ => 0, fun n _ => n, fun _ => 0, fun tid _ => tid⟩, virtualThreads⟩

/-- The factors of a key with one thread per node. -/
def replicas (rep : ℕ) : KeyReplication := ⟨fun _ => rep, fun _ => 1⟩

/-- A key is written, replicated to two nodes, read at both and brought back to one replica. -/
def replicateRun : List (FleetEvent ℕ ℕ) :=
  [.serve ⟨0, 0⟩ 7 true, .monitorKey 7, .change [(7, replicas 2)], .deliver 0, .sendDeferred, .deliver 0,
    .serve ⟨0, 0⟩ 7 false, .serve ⟨1, 0⟩ 7 false, .change [(7, replicas 1)], .deliver 0, .sendDeferred, .deliver 0]

/-- The primary thread of a key is at the first place. -/
theorem plainConfig_primary {s : Fleet ℕ ℕ ℕ ℕ} {p : ServerThread ℕ} {n : ℕ}
    (hfind : s.monitorRing.find 0 = some n) (hp : s.IsPrimary (plainConfig 1 1) 7 p) : p = ⟨n, 0⟩ := by
  have hnode : some n = some p.node := hfind.symm.trans hp.1
  have htid : some 0 = some p.tid := hp.2
  cases p
  simp_all

/-- The events of the run meet their conditions. -/
theorem replicateRun_orderly : Transition.Guarded (Fleet.step (plainConfig 1 1)) (Fleet.Orderly (plainConfig 1 1))
    (Fleet.init (plainConfig 1 1) [0, 1]) replicateRun := by
  have hfind : (Fleet.init (plainConfig 1 1) [0, 1] : Fleet ℕ ℕ ℕ ℕ).monitorRing.find 0 = some 0 := by decide
  refine ⟨trivial, trivial, ⟨rfl, fun st => rfl, by decide, fun r hr => ?_⟩, trivial, ?_, trivial, trivial, trivial,
    ⟨rfl, fun st => rfl, by decide, fun r hr => ?_⟩, trivial, ?_, trivial, trivial⟩
  · obtain rfl := List.mem_singleton.mp hr
    refine ⟨Option.some_ne_none _, rfl, by decide, by decide, by decide, fun _ _ p hp => ?_⟩
    obtain rfl := plainConfig_primary hfind hp
    exact ⟨Option.some_ne_none _, .inr (by decide)⟩
  · exact fun n hn => absurd hn List.not_mem_nil
  · obtain rfl := List.mem_singleton.mp hr
    exact ⟨Option.some_ne_none _, rfl, by decide, by decide, .inl rfl, fun _ hlong => absurd hlong (by decide)⟩
  · exact fun n hn => absurd hn List.not_mem_nil

/-- The factors of the run are in step at its end. -/
theorem access_path_agrees_replicateRun : ∃ s, Fleet.run (plainConfig 1 1) [0, 1] replicateRun = some s ∧
    s.PathAgrees (plainConfig 1 1) :=
  ⟨_, rfl, access_path_agrees _ ⟨rfl, rfl⟩ _ _ _ rfl replicateRun_orderly⟩

/-- No pointer is left at the end of the run. -/
theorem dereplication_drops_pointers_replicateRun : ∃ s, Fleet.run (plainConfig 1 1) [0, 1] replicateRun = some s ∧
    s.PointersCurrent (plainConfig 1 1) :=
  ⟨_, rfl, dereplication_drops_pointers _ ⟨rfl, rfl⟩ _ _ _ rfl replicateRun_orderly⟩

/-- Virtual threads at one place of the rings count once. -/
theorem plainConfig_insertNode (threads virtualThreads : ℕ) (hpos : 0 < virtualThreads) :
    (plainConfig threads virtualThreads).insertNode = (plainConfig threads 1).insertNode := by
  funext r n
  have hne : List.range virtualThreads ≠ [] := by
    rw [Ne, List.range_eq_nil]
    omega
  exact HashRing.foldl_insert_same r n n hne

/-- And so do those of the threads. -/
theorem plainConfig_localRing (threads virtualThreads : ℕ) (hpos : 0 < virtualThreads) :
    (plainConfig threads virtualThreads).localRing = (plainConfig threads 1).localRing := by
  have hne : List.range virtualThreads ≠ [] := by
    rw [Ne, List.range_eq_nil]
    omega
  have hinner : (fun (r : HashRing ℕ ℕ) (tid : ℕ) => (List.range virtualThreads).foldl (fun r _ => r.insert tid tid) r) =
      fun r tid => r.insert tid tid := by
    funext r tid
    exact HashRing.foldl_insert_same r tid tid hne
  exact congrArg (fun f => (List.range threads).foldl f HashRing.empty) hinner

/-- The rings are all that depends on the number of virtual threads. -/
theorem plainConfig_run (threads virtualThreads : ℕ) (hpos : 0 < virtualThreads) :
    Fleet.run (plainConfig threads virtualThreads) = Fleet.run (plainConfig threads 1) := by
  have hinsert := plainConfig_insertNode threads virtualThreads hpos
  have hlocal := plainConfig_localRing threads virtualThreads hpos
  have hrings : Fleet.ringsOf (plainConfig threads virtualThreads) = Fleet.ringsOf (plainConfig threads 1) := by
    funext s st
    rw [Fleet.ringsOf, Fleet.ringsOf, hlocal]
  have hstep : Fleet.step (plainConfig threads virtualThreads) = Fleet.step (plainConfig threads 1) := by
    funext s e
    cases e with
    | insertNode st n => simp only [Fleet.step, hinsert]
    | insertMonitor n => simp only [Fleet.step, hinsert]
    | deliver i =>
      simp only [Fleet.step, Fleet.handle, hrings]
      rfl
    | serve st k write =>
      simp only [Fleet.step, Fleet.serve, Fleet.threads, Fleet.lookUp, hrings]
      rfl
    | _ => rfl
  funext nodes es
  rw [Fleet.run, Fleet.run, hstep, Fleet.init, Fleet.init, hinsert]

/-- A key of a one-node cluster gets a second thread on its node. -/
def localRaiseRun : List (FleetEvent ℕ ℕ) :=
  [.serve ⟨0, 0⟩ 7 true, .mergeLog ⟨0, 0⟩, .monitorKey 7, .change [(7, ⟨fun _ => 1, fun _ => 2⟩)], .sendDeferred,
    .deliver 0, .deliver 0]

/-- Both threads then take the replicated path, and the index has no pointer for the key. -/
theorem local_raise_takes_replicated_path : ∃ s, Fleet.run (plainConfig 2 3000) [0] localRaiseRun = some s ∧
    s.unhandled = [] ∧ ¬s.PathAgrees (plainConfig 2 3000) := by
  rw [plainConfig_run 2 3000 (by decide)]
  refine ⟨_, rfl, rfl, fun h => ?_⟩
  have hthreads : ∀ s : Fleet ℕ ℕ ℕ ℕ, s.threads (plainConfig 2 3000) ⟨0, 0⟩ 7 = s.threads (plainConfig 2 1) ⟨0, 0⟩ 7 := by
    intro s
    simp only [Fleet.threads, Fleet.ringsOf, plainConfig_localRing 2 3000 (by decide)]
    rfl
  have hpath := h ⟨0, 0⟩ 7 (.inl (by decide))
  rw [hthreads] at hpath
  obtain ⟨e, he, hpointer⟩ := (hpath (by decide)).mp (by decide)
  cases he
  cases hpointer

/-- A key is replicated to three nodes, read at the third, and brought back to one replica in two steps. -/
def partialLoweringRun : List (FleetEvent ℕ ℕ) :=
  [.serve ⟨0, 0⟩ 7 true, .mergeLog ⟨0, 0⟩, .monitorKey 7, .change [(7, replicas 3)], .deliver 0, .sendDeferred,
    .deliver 0, .deliver 0, .serve ⟨2, 0⟩ 7 false, .change [(7, replicas 2)], .sendDeferred, .deliver 0, .deliver 0,
    .deliver 0, .change [(7, replicas 1)], .deliver 0, .sendDeferred, .deliver 0]

/-- The third node is not told of the second step and keeps the pointer that the first node has removed. -/
theorem partial_lowering_keeps_pointer : ∃ s, Fleet.run (plainConfig 1 3000) [0, 1, 2] partialLoweringRun = some s ∧
    ¬s.PointersCurrent (plainConfig 1 3000) := by
  rw [plainConfig_run 1 3000 (by decide)]
  refine ⟨_, rfl, fun h => ?_⟩
  have hnone := (h 7).1 (by decide) rfl ⟨2, 0⟩
  exact absurd hnone (by decide)

end Runs

end Dinomo
