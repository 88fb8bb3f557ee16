import Dinomo.Invariant.Check
import Dinomo.MergePass
import Dinomo.Refinement.Step

/-!
# Exactly-once ordered merge

The oplogs of a thread are its applied ones, then the published ones no pass has applied yet, then
those its block does not publish yet.  In orderly runs the second part can be found from the
log-mapping slot, passes end, and an answered merge request leaves nothing behind.  A block that is
reclaimed while it is linked is wiped with the published oplogs in it.
-/

namespace Dinomo

open List

variable {Tid V : Type*} [DecidableEq Tid]

/-- A pass can still find the entry: its block is linked, publishes it, and does not count it as merged. -/
structure Storage.CanMerge (st : Storage Tid V) (t : Tid) (e : LogEntry Tid V) : Prop where
  linked : st.Linked t e.ptr.block
  unmerged : (st.mem e.ptr.block).mergedOffset ≤ e.ptr.off
  published : e.ptr.off < (st.mem e.ptr.block).offset
  oplog : st.oplogAt e.ptr = some e.oplog

/-- The oplogs of a thread are applied once and in order, and none is lost on the way. -/
structure Cluster.MergesInOrder (s : Cluster Tid V) (t : Tid) : Prop where
  order : ∃ published unsent, entriesBy t s.written = entriesBy t s.st.applied ++ published ++ unsent ∧
    (∀ e ∈ published, s.st.CanMerge t e) ∧
    ∀ e ∈ unsent, e.ptr.block = (s.kn t).nonReplicatedAlloc ∧ (s.st.mem e.ptr.block).offset ≤ e.ptr.off
  complete : s.st.mergeReply t = true → (s.kn t).ctl ≠ .crashed → entriesBy t s.st.applied = entriesBy t s.written
  ends : ∀ p, s.st.progressTable t = some p → ∃ st', s.st.PassTo t st' ∧ st'.progressTable t = none

variable [Fintype Tid] {cfg : Config} {s : Cluster Tid V} {C : Tid → List Addr} {ρ : Addr → Role Tid} {t : Tid}

omit [DecidableEq Tid] in
/-- The log of a thread is well formed. -/
theorem Inv.logOk (h : Inv cfg s.st s.cores C ρ) (t : Tid) : s.st.LogOk t (C t) where
  links := (h.chain t).links
  nodup := (h.chain t).nodup
  blocks a ha :=
    have hb := (h.chain t).block a ha
    ⟨(h.block a).aligned, hb.offset, hb.merged, hb.merged_le⟩

omit [DecidableEq Tid] in
/-- A pass does not go back behind what is merged. -/
theorem Inv.merged_le_mpos (h : Inv cfg s.st s.cores C ρ) (t : Tid) (a : Addr) :
    (s.st.mem a).mergedOffset ≤ s.st.mpos t a := by
  unfold Storage.mpos
  cases hp : s.st.progressTable t with
  | none => exact le_rfl
  | some p =>
    dsimp only
    split_ifs with hx
    · have hpos := ((h.log t).pass p hp).pos
      simp only [PassPos, hx.1] at hpos
      obtain ⟨-, -, -, -, -, -, -, hle, -⟩ := hpos
      rw [← hx.2]
      exact hle
    · exact le_rfl

omit [DecidableEq Tid] in
/-- Pending entries can be merged. -/
theorem Inv.canMerge (h : Inv cfg s.st s.cores C ρ) {e : LogEntry Tid V} (he : e ∈ s.st.pending t (C t)) :
    s.st.CanMerge t e := by
  obtain ⟨a, ha, he⟩ := mem_flatMap.mp he
  obtain ⟨o, ho, rfl⟩ := mem_map.mp he
  obtain ⟨ho, hlt⟩ := mem_filter.mp ho
  simp only [decide_eq_true_eq] at hlt
  exact ⟨h.linked_iff.mpr (((h.chain t).mem_iff a).mp (mem_reverse.mp ha)),
    (h.merged_le_mpos t a).trans hlt.1, hlt.2, LogBlock.entryAt_of_mem (h.block a).aligned ho⟩

omit [DecidableEq Tid] in
/-- Nothing is pending in a log a manager has merged. -/
theorem Inv.pending_eq_nil (h : Inv cfg s.st s.cores C ρ) (hd : Drained s.st (C t)) : s.st.pending t (C t) = [] := by
  refine flatMap_eq_nil_iff.mpr fun a ha => Storage.pendingIn_eq_nil ?_
  rw [← hd.2 a (mem_reverse.mp ha)]
  exact h.merged_le_mpos t a

/-- The applied entries of a thread in the pipeline. -/
theorem Cluster.appliedBy_pipeline (s : Cluster Tid V) (C : Tid → List Addr) (t : Tid) :
    (s.pipeline C).appliedBy t = entriesBy t s.st.applied := by
  simp only [Pipeline.appliedBy, Cluster.pipeline, entriesBy, filter_map, map_map]
  exact map_id _

/-- A thread that waits for a merge has published everything. -/
theorem Inv.unsent_of_waiting (h : Inv cfg s.st s.cores C ρ) (hview : (s.cores t).view.published = true) :
    s.unsent t = [] :=
  have hl := (h.thread t).publishedLive hview
  h.unsent_eq_nil hl (((h.thread t).liveOk hl).published hview).2.ge

/-- What the pipeline says about the log of one thread. -/
theorem Cluster.Piped.mergesInOrder (h : s.Piped cfg C) (t : Tid) : s.MergesInOrder t := by
  obtain ⟨ρ, hinv⟩ := h.ok.inv
  have horder : entriesBy t s.written = entriesBy t s.st.applied ++ s.st.pending t (C t) ++ s.unsent t := by
    rw [← s.appliedBy_pipeline C t]
    exact h.sound.order t
  refine ⟨⟨_, _, horder, fun e he => hinv.canMerge he, fun e he => ?_⟩, fun hreply hctl => ?_, fun p hp => ?_⟩
  · obtain ⟨o, ho, rfl⟩ := mem_map.mp he
    exact ⟨rfl, of_decide_eq_true (mem_filter.mp ho).2⟩
  · obtain ⟨hwait, hdrained⟩ := (hinv.log t).reply hreply
    have hwaiting : (s.cores t).view.waiting = true := hwait.resolve_right fun hx =>
      absurd (hx.symm.trans (Ctl.view_crashed hctl)) nofun
    rw [horder, hinv.pending_eq_nil hdrained, hinv.unsent_of_waiting (Ctl.view_published hwaiting), append_nil,
      append_nil]
  · exact (hinv.logOk t).passTo_end hp ((hinv.log t).pass p hp).pos

/-- One thread fills a block and part of a second one; a worker merges the first block while the thread
writes on, and a merge request merges the rest. -/
def mergeRun : List (Event Bool ℕ) := List.flatten
  [[.invoke false (.write (putWrite 1 8 10 1500000 false)), .preallocate false [2097152, 4194304]],
    .replicate 3 (.advance false),
    [.invoke false (.write (putWrite 2 8 20 1500000 false))], .replicate 5 (.advance false),
    [.beginPass false .worker, .passStep false, .passStep false,
      .invoke false (.write (putWrite 1 8 30 8 true)), .advance false],
    .replicate 3 (.passStep false),
    [.invoke false (.merge false), .beginPass false .request], .replicate 5 (.passStep false)]

/-- A key moves from one thread to another, whose merge pushes the first thread's block although it is
linked.  The first thread publishes another oplog in it and asks for a merge; before the pass starts,
the second thread is given the block, wiped. -/
def wipeRun : List (Event Bool ℕ) := List.flatten
  [[.invoke false (.write (putWrite 1 8 10 8 false)), .preallocate false [2097152, 4194304]],
    .replicate 3 (.advance false),
    [.invoke false (.merge true), .beginPass false .request], .replicate 3 (.passStep false),
    [.advance false],
    [.invoke true (.write (putWrite 1 8 20 1500000 true)), .preallocate true [6291456, 8388608]],
    .replicate 3 (.advance true),
    [.invoke true (.merge true), .beginPass true .request], .replicate 4 (.passStep true),
    [.advance true],
    [.invoke true (.write (putWrite 3 8 30 1500000 false))], .replicate 5 (.advance true),
    [.invoke true (.write (putWrite 4 8 40 1500000 false))], .replicate 2 (.advance true),
    [.invoke false (.write (putWrite 2 8 50 8 false)), .advance false, .invoke false (.merge false),
      .preallocate true [10485760], .beginPass false .request, .passStep false, .passStep false]]

end Dinomo
