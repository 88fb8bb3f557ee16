import Dinomo.IndexSpec
import Dinomo.Invariant.Step
import Dinomo.Library.Pipeline

/-!
# The log system as a pipeline

A cluster is seen as a pipeline: a thread's oplogs are unsent while the header of its block does not
cover them, pending while they are published and not merged, and applied afterwards; the index is
seen with the oplogs its words lead to.  Every orderly step of a cluster is a short run of the
pipeline, so the laws of the pipeline hold in every state that orderly runs reach.
-/

namespace Dinomo

open Function Storage

variable {Tid V : Type*}

/-- The published oplogs of a linked block that are not merged. -/
def Storage.pendingIn (st : Storage Tid V) (t : Tid) (a : Addr) : List (LogEntry Tid V) :=
  (Records.between Oplog.offset (st.mem a).buffer (st.mpos t a) (st.mem a).offset).map (.ofOplog t a)

/-- The published oplogs of a log that are not merged, oldest first. -/
def Storage.pending (st : Storage Tid V) (t : Tid) (c : List Addr) : List (LogEntry Tid V) :=
  c.reverse.flatMap (st.pendingIn t)

/-- The staged oplogs of a thread that its block does not publish yet. -/
def Cluster.unsent (s : Cluster Tid V) (t : Tid) : List (LogEntry Tid V) :=
  (entriesFrom (s.kn t).pool.buffer (s.st.mem (s.kn t).nonReplicatedAlloc).offset).map
    (.ofOplog t (s.kn t).nonReplicatedAlloc)

/-- The oplog the index leads to for a key, and its place. -/
def Storage.find (st : Storage Tid V) (k : Key) : Option (Ptr × Oplog V) :=
  if k = 0 then none else (st.resolve k).bind fun p => (st.oplogAt p).map fun o => (p, o)

/-- Before any call the index leads nowhere. -/
theorem Cluster.find_init (logBuckets : ℕ) : (init logBuckets : Cluster Tid V).st.find = fun _ => none := by
  funext k
  unfold find
  split_ifs with hk
  · rfl
  · have hget : (init logBuckets : Cluster Tid V).st.ht.get k = none := Clht.get_create logBuckets hk
    simp only [resolve, hget, Option.bind_none]

/-- The index after an entry is applied. -/
def LogEntry.apply (idx : Key → Option (Ptr × Oplog V)) (e : LogEntry Tid V) : Key → Option (Ptr × Oplog V) :=
  Function.update idx e.oplog.key (e.oplog.opType.wordAfter (e.ptr, e.oplog) (idx e.oplog.key))

section

variable [DecidableEq Tid]

/-- The entries of one thread. -/
def entriesBy (t : Tid) (l : List (LogEntry Tid V)) : List (LogEntry Tid V) := l.filter fun e => e.tid = t

/-- A cluster as a pipeline, with the blocks of each log. -/
def Cluster.pipeline (s : Cluster Tid V) (C : Tid → List Addr) :
    Pipeline Tid (LogEntry Tid V) (Key → Option (Ptr × Oplog V)) where
  written t := entriesBy t s.written
  unsent := s.unsent
  pending t := s.st.pending t (C t)
  held := s.batchingRequests
  acked t := entriesBy t s.acked
  applied := s.st.applied.map fun e => (e.tid, e)
  index := s.st.find

/-- The labels of the start of `merge`. -/
def Cluster.mergeLabels (cfg : Config) (s : Cluster Tid V) (t : Tid) (m : AfterMerge) :
    List (Pipeline.Label Tid (LogEntry Tid V) (Key → Option (Ptr × Oplog V))) :=
  if (s.kn t).nonReplicatedAlloc = 0 then
    if m = .done true then [.ack t (s.batchingRequests t).length] else []
  else if cfg.batching then [] else [.publish t]

/-- What a cluster does to its pipeline in one step. -/
def Cluster.labels (cfg : Config) (s : Cluster Tid V) :
    Event Tid V → List (Pipeline.Label Tid (LogEntry Tid V) (Key → Option (Ptr × Oplog V)))
  | .invoke t .flush =>
    if (s.kn t).flushedOffset < (s.kn t).batchedOffset then [] else [.ack t (s.batchingRequests t).length]
  | .invoke t (.merge clear) => s.mergeLabels cfg t (.done clear)
  | .invoke t (.swap k true) => s.mergeLabels cfg t (.install k)
  | .advance t =>
    match (s.kn t).ctl with
    | .write w ret .retry =>
      if (s.kn t).tailOffset cfg.batching + w.size ≤ cfg.maxLogBlockLen then
        if cfg.batching then
          (if ret then [.ack t (s.batchingRequests t).length] else []) ++ [.stage t (s.nextEntry cfg t w)]
        else [.stage t (s.nextEntry cfg t w), .ack t 1]
      else if cfg.batching then [] else [.publish t]
    | .write _ _ .header => [.publish t]
    | .flush .done => [.publish t, .ack t (s.batchingRequests t).length]
    | .flush (.merge _) => [.publish t]
    | .merge (.done true) => [.ack t (s.batchingRequests t).length]
    | .putReplicated w (.cas c expected) =>
      if s.st.cells c = expected then
        [.adjust fun idx => Function.update idx w.key
          (some ((s.kn t).replicatedPtr, w.at (s.kn t).replicatedAllocOffset))]
      else []
    | _ => []
  | .passStep t =>
    match (s.st.progressTable t).bind s.st.nextOplog with
    | some _ => [.apply t]
    | none => []
  | _ => []

/-- What the pipeline needs to know about staged and held requests, in crashed threads too. -/
structure Cluster.Staged (cfg : Config) (s : Cluster Tid V) (C : Tid → List Addr) : Prop where
  held : cfg.batching = false → ∀ t, s.batchingRequests t = []
  owner : ∀ t, ∀ e ∈ s.batchingRequests t, e.tid = t
  head : ∀ t, (s.kn t).pool.buffer ≠ [] → (C t).head? = some (s.kn t).nonReplicatedAlloc
  fresh : ∀ t w, (s.kn t).ctl = .write w true .retry → (s.kn t).pool.buffer = []

/-- A block whose published oplogs are the same. -/
structure LogBlock.SamePublished (b b' : LogBlock V) : Prop where
  buffer : ∃ u, b'.buffer = b.buffer ++ u ∧ ∀ o ∈ u, b.offset ≤ o.offset
  offset : b'.offset = b.offset

/-- A block with the same contents. -/
theorem LogBlock.SamePublished.of_eq {b b' : LogBlock V} (hbuf : b'.buffer = b.buffer)
    (hoff : b'.offset = b.offset) : b.SamePublished b' :=
  ⟨⟨[], by rw [hbuf, List.append_nil], nofun⟩, hoff⟩

end

section Frame

variable {st st' : Storage Tid V} {t : Tid} {a : Addr} {c : List Addr}

/-- Only the index and the cells matter for what the index refers to. -/
theorem Storage.resolve_eq_of (hht : st'.ht = st.ht) (hcells : st'.cells = st.cells)
    (k : Key) : st'.resolve k = st.resolve k := by
  unfold resolve
  rw [hht, hcells]

/-- What is pending in a block depends on its published oplogs and on how far it is merged. -/
theorem Storage.pendingIn_congr (h : (st.mem a).SamePublished (st'.mem a)) (hmpos : st'.mpos t a = st.mpos t a) :
    st'.pendingIn t a = st.pendingIn t a := by
  obtain ⟨⟨u, hbuf, hu⟩, hoff⟩ := h
  have hnil : u.filter (fun o => st.mpos t a ≤ o.offset ∧ o.offset < (st.mem a).offset) = [] := by
    refine List.filter_eq_nil_iff.mpr fun o ho => ?_
    have := hu o ho
    simp only [decide_eq_true_eq]
    omega
  unfold pendingIn Records.between
  rw [hbuf, hoff, hmpos, List.filter_append, hnil, List.append_nil]

/-- What is pending in a log depends on its blocks. -/
theorem Storage.pending_congr (h : ∀ a ∈ c, st'.pendingIn t a = st.pendingIn t a) :
    st'.pending t c = st.pending t c := by
  unfold pending
  exact List.flatMap_congr fun a ha => h a (List.mem_reverse.mp ha)

/-- Nothing is pending in a block that is merged up to its offset. -/
theorem Storage.pendingIn_eq_nil (h : (st.mem a).offset ≤ st.mpos t a) : st.pendingIn t a = [] := by
  unfold pendingIn
  refine List.map_eq_nil_iff.mpr (List.filter_eq_nil_iff.mpr fun o _ => ?_)
  simp only [decide_eq_true_eq]
  omega

/-- A new block is pending last, the oldest block first. -/
theorem Storage.pending_cons (st : Storage Tid V) (t : Tid) (a : Addr) (c : List Addr) :
    st.pending t (a :: c) = st.pending t c ++ st.pendingIn t a := by
  simp [pending]

/-- The oldest block is pending first. -/
theorem Storage.pending_concat (st : Storage Tid V) (t : Tid) (a : Addr) (c : List Addr) :
    st.pending t (c ++ [a]) = st.pendingIn t a ++ st.pending t c := by
  simp [pending]

end Frame

section Same

variable [DecidableEq Tid] [Fintype Tid] {cfg : Config} {s s' : Cluster Tid V} {C : Tid → List Addr}
  {ρ : Addr → Role Tid} {t : Tid}

omit [DecidableEq Tid] in
/-- The index is seen unchanged when it refers to the same oplogs in blocks that only grow. -/
theorem Inv.find_congr {st st' : Storage Tid V} {K : Tid → KnCore V} (h : Inv cfg st K C ρ)
    (hres : ∀ k, k ≠ 0 → st'.resolve k = st.resolve k)
    (hbuf : ∀ k p, k ≠ 0 → st.resolve k = some p →
      ∃ u, (st'.mem p.block).buffer = (st.mem p.block).buffer ++ u) : st'.find = st.find := by
  funext k
  unfold find
  split_ifs with hk
  · rfl
  rw [hres k hk]
  cases hr : st.resolve k with
  | none => rfl
  | some p =>
    obtain ⟨o, ho, hoff, -⟩ := h.index.ref k p hk hr
    obtain ⟨u, hu⟩ := hbuf k p hk hr
    have hold : st.oplogAt p = some o := by
      rw [oplogAt, ← hoff]
      exact LogBlock.entryAt_of_mem (h.block p.block).aligned ho
    have hnew : st'.oplogAt p = some o := by
      rw [oplogAt, LogBlock.entryAt] at hold ⊢
      rw [hu, List.find?_append, hold]
      rfl
    rw [Option.bind_some, Option.bind_some, hold, hnew]

/-- A step that the pipeline does not see. -/
structure Cluster.SameLogs (s s' : Cluster Tid V) (C : Tid → List Addr) : Prop where
  written : s'.written = s.written
  held : s'.batchingRequests = s.batchingRequests
  acked : s'.acked = s.acked
  applied : s'.st.applied = s.st.applied
  unsent : ∀ t, s'.unsent t = s.unsent t
  linked : ∀ t, ∀ a ∈ C t, (s.st.mem a).SamePublished (s'.st.mem a) ∧ s'.st.mpos t a = s.st.mpos t a
  find : s'.st.find = s.st.find

omit [Fintype Tid] in
/-- The pipeline after a step it does not see. -/
theorem Cluster.SameLogs.pipeline_eq (h : s.SameLogs s' C) : s'.pipeline C = s.pipeline C := by
  have hunsent : s'.unsent = s.unsent := funext h.unsent
  have hpending : (fun t => s'.st.pending t (C t)) = fun t => s.st.pending t (C t) := funext fun t =>
    pending_congr fun a ha => pendingIn_congr (h.linked t a ha).1 (h.linked t a ha).2
  unfold Cluster.pipeline
  rw [h.written, h.held, h.acked, h.applied, hunsent, hpending, h.find]

omit [Fintype Tid] in
/-- The unsent oplogs of a thread depend on its staging pool and on the offset of its block. -/
theorem Cluster.Staged.unsent_congr (h : s.Staged cfg C)
    (hbuf : (s'.kn t).pool.buffer = (s.kn t).pool.buffer)
    (halloc : (s.kn t).pool.buffer ≠ [] → (s'.kn t).nonReplicatedAlloc = (s.kn t).nonReplicatedAlloc)
    (hoff : ∀ a ∈ C t, (s'.st.mem a).offset = (s.st.mem a).offset) : s'.unsent t = s.unsent t := by
  unfold Cluster.unsent
  rw [hbuf]
  by_cases hnil : (s.kn t).pool.buffer = []
  · rw [hnil]
    rfl
  · rw [halloc hnil, hoff _ (List.mem_of_mem_head? (h.head t hnil))]

omit [Fintype Tid] in
/-- A step of one thread that keeps its staging pool and is not seen by the pipeline. -/
theorem Cluster.Staged.sameLogs (h : s.Staged cfg C) {n : Kn V} (hkn : s'.kn = update s.kn t n)
    (hbuf : n.pool.buffer = (s.kn t).pool.buffer)
    (halloc : (s.kn t).pool.buffer ≠ [] → n.nonReplicatedAlloc = (s.kn t).nonReplicatedAlloc)
    (hhist : s'.written = s.written ∧ s'.batchingRequests = s.batchingRequests ∧ s'.acked = s.acked ∧
      s'.st.applied = s.st.applied)
    (hlinked : ∀ t, ∀ a ∈ C t, (s.st.mem a).SamePublished (s'.st.mem a) ∧ s'.st.mpos t a = s.st.mpos t a)
    (hfind : s'.st.find = s.st.find) : s.SameLogs s' C := by
  refine ⟨hhist.1, hhist.2.1, hhist.2.2.1, hhist.2.2.2, fun t' => ?_, hlinked, hfind⟩
  refine h.unsent_congr ?_ (fun hne => ?_) fun a ha => (hlinked t' a ha).1.offset <;>
    rw [hkn] <;> by_cases ht : t' = t
  · rw [ht, update_self, hbuf]
  · rw [update_of_ne ht]
  · rw [ht, update_self]
    exact halloc (ht ▸ hne)
  · rw [update_of_ne ht]

end Same

end Dinomo
