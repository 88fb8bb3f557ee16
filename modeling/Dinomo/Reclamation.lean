import Dinomo.Invariant.Check

/-!
# Reclamation of log blocks

A block in `reserved_alloc_queue` is wiped and handed out again by the next preallocation.  Orderly
runs push only blocks that are in nobody's use.  A pass that supersedes the last valid oplog of a
block compares and pushes the block without regard to the log the block is linked in; one handoff of
a key between two threads is enough for this.
-/

namespace Dinomo

variable {Tid V : Type*}

/-- Nobody uses the block: no index entry refers to it, it is in no log, and no thread appends to it. -/
structure Cluster.Unused (s : Cluster Tid V) (a : Addr) : Prop where
  unreferenced : ∀ k p, k ≠ 0 → s.st.resolve k = some p → p.block ≠ a
  unlinked : ∀ t, ¬ s.st.Linked t a
  inactive : ∀ t, (s.kn t).ctl ≠ .crashed → (s.kn t).nonReplicatedAlloc ≠ a

/-- The blocks waiting to be handed out again are unused, and none waits twice. -/
structure Cluster.ReclaimsSafely (s : Cluster Tid V) : Prop where
  unused : ∀ a ∈ s.st.reservedAllocQueue, s.Unused a
  nodup : s.st.reservedAllocQueue.Nodup

variable [DecidableEq Tid] [Fintype Tid] {cfg : Config} {s : Cluster Tid V}

omit [DecidableEq Tid] in
/-- The invariant keeps the blocks of the queue out of use. -/
theorem Inv.reclaimsSafely {C : Tid → List Addr} {ρ : Addr → Role Tid} (h : Inv cfg s.st s.cores C ρ) :
    s.ReclaimsSafely := by
  refine ⟨fun a ha => ⟨fun k p hk hp hpa => ?_, fun t hl => ?_, fun t hc hx => ?_⟩, h.nodup_queue⟩
  · have hzero := (h.queue_unreferenced ha).1
    have hpos := h.refs_pos hk hp
    rw [hpa] at hpos
    omega
  · exact absurd (((h.queued a).mp ha).symm.trans (h.linked_iff.mp hl)) nofun
  · subst hx
    have h0 : (s.kn t).nonReplicatedAlloc ≠ 0 := fun h0 => by
      have := h.allocated _ fun hu => absurd (((h.queued _).mp ha).symm.trans hu) nofun
      rw [h0] at this
      exact h.zero_allocated this
    have hcrash : (s.cores t).view.crashed = false := Ctl.view_crashed hc
    by_cases hlink : (s.cores t).view.linking = true
    · exact absurd (((h.queued _).mp ha).symm.trans ((h.thread t).linking hlink)) nofun
    · have hlive : (s.cores t).Live := ⟨hcrash, h0, Bool.eq_false_of_not_eq_true hlink⟩
      exact absurd (((h.queued _).mp ha).symm.trans (h.live_chain hlive)) nofun

/-- One thread inserts a key, rotates, and overwrites the key: its first block is merged and taken out
of the log, and pushed when the second oplog is merged. -/
def overwriteRun : List (Event Bool ℕ) := List.flatten
  [[.invoke false (.write (putWrite 1 8 10 1500000 false)), .preallocate false [2097152, 4194304]],
    .replicate 3 (.advance false),
    [.invoke false (.write (putWrite 1 8 20 1500000 true))], .replicate 5 (.advance false),
    [.beginPass false .worker], .replicate 5 (.passStep false),
    [.invoke false (.merge false), .beginPass false .request], .replicate 4 (.passStep false)]

/-- One thread inserts a key and merges its log; the key is handed to another thread, which updates it
and merges its own log.  The first thread's block is pushed while it is the head of its log. -/
def handoffRun : List (Event Bool ℕ) := List.flatten
  [[.invoke false (.write (putWrite 1 8 10 8 false)), .preallocate false [2097152, 4194304]],
    .replicate 3 (.advance false),
    [.invoke false (.merge true), .beginPass false .request], .replicate 3 (.passStep false),
    [.advance false],
    [.invoke true (.write (putWrite 1 8 20 8 true)), .preallocate true [6291456, 8388608]],
    .replicate 3 (.advance true),
    [.invoke true (.merge true), .beginPass true .request], .replicate 4 (.passStep true),
    [.advance true]]

end Dinomo
