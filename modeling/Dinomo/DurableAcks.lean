import Mathlib.Data.List.Induction
import Dinomo.Invariant.Step

/-!
# Batched acknowledgements are durable

What a thread that batches does to the storage node and to its clients is recorded as a sequence of
accesses: it stages an operation in its local block, sends staged oplogs, writes the header of its
block, and answers a request.  In every run an operation is answered only after its oplog was sent
and, after that, a header was written whose offset covers it; the answers come in the order of
staging, so that none is given twice.

The answers that `response_batching_requests` sends at one time are recorded in the order of staging;
the source sends them key by key.
-/

namespace Dinomo

open Function List

/-- What a thread does to the storage node and to its clients. -/
inductive Access (Tid V : Type*)
  | stage (t : Tid) (e : LogEntry Tid V)
  | send (t : Tid) (a : Addr) (os : List (Oplog V))
  | header (t : Tid) (a : Addr) (off : ℕ)
  | ack (t : Tid) (e : LogEntry Tid V)

open Access

variable {Tid V : Type*}

/-- The thread of an access. -/
def Access.tid : Access Tid V → Tid
  | .stage t _ => t
  | .send t _ _ => t
  | .header t _ _ => t
  | .ack t _ => t

section Trace

variable [DecidableEq Tid]

/-- The operation an access of a thread stages. -/
def Access.staged (t : Tid) : Access Tid V → Option (LogEntry Tid V)
  | .stage t' e => if t' = t then some e else none
  | _ => none

/-- The operation an access of a thread answers. -/
def Access.answered (t : Tid) : Access Tid V → Option (LogEntry Tid V)
  | .ack t' e => if t' = t then some e else none
  | _ => none

/-- The operation an access stages, by any thread. -/
def Access.stagedEntry : Access Tid V → Option (LogEntry Tid V)
  | .stage _ e => some e
  | _ => none

/-- The operation an access answers, by any thread. -/
def Access.answeredEntry : Access Tid V → Option (LogEntry Tid V)
  | .ack _ e => some e
  | _ => none

/-- The operations a thread has staged. -/
def stagedBy (t : Tid) (tr : List (Access Tid V)) : List (LogEntry Tid V) := tr.filterMap (Access.staged t)

/-- The operations a thread has answered. -/
def answeredBy (t : Tid) (tr : List (Access Tid V)) : List (LogEntry Tid V) := tr.filterMap (Access.answered t)

/-- The operation a thread staged as number `i`, with the accesses after it. -/
def StagedAt (tr : List (Access Tid V)) (t : Tid) (i : ℕ) (e : LogEntry Tid V) (rest : List (Access Tid V)) : Prop :=
  ∃ pre, tr = pre ++ .stage t e :: rest ∧ (stagedBy t pre).length = i

/-- After it was staged, the operation was sent to its block. -/
def SentAt (tr : List (Access Tid V)) (t : Tid) (i : ℕ) (e : LogEntry Tid V) (rest : List (Access Tid V)) : Prop :=
  ∃ rest', StagedAt tr t i e rest' ∧ ∃ pre os, rest' = pre ++ .send t e.ptr.block os :: rest ∧ e.oplog ∈ os

/-- After it was sent, a header was written whose offset covers the operation. -/
def DurableAt (tr : List (Access Tid V)) (t : Tid) (i : ℕ) (e : LogEntry Tid V) : Prop :=
  ∃ rest, SentAt tr t i e rest ∧ ∃ pre off post, rest = pre ++ .header t e.ptr.block off :: post ∧
    e.ptr.off + e.oplog.size ≤ off

/-- Every answer of a thread is for the next staged operation that has none, which is durable by then. -/
def DurableAcks (t : Tid) (tr : List (Access Tid V)) : Prop :=
  ∀ pre e post, tr = pre ++ .ack t e :: post → DurableAt pre t (answeredBy t pre).length e

variable {t : Tid} {tr acc : List (Access Tid V)} {i : ℕ} {e : LogEntry Tid V} {rest : List (Access Tid V)}

/-- What was staged stays staged. -/
theorem StagedAt.append (h : StagedAt tr t i e rest) (acc : List (Access Tid V)) :
    StagedAt (tr ++ acc) t i e (rest ++ acc) := by
  obtain ⟨pre, rfl, hi⟩ := h
  exact ⟨pre, by simp, hi⟩

/-- What was sent stays sent. -/
theorem SentAt.append (h : SentAt tr t i e rest) (acc : List (Access Tid V)) :
    SentAt (tr ++ acc) t i e (rest ++ acc) := by
  obtain ⟨rest', hst, pre, os, rfl, ho⟩ := h
  exact ⟨_, hst.append acc, pre, os, by simp, ho⟩

/-- What is durable stays durable. -/
theorem DurableAt.append (h : DurableAt tr t i e) (acc : List (Access Tid V)) : DurableAt (tr ++ acc) t i e := by
  obtain ⟨rest, hs, pre, off, post, rfl, hoff⟩ := h
  exact ⟨_, hs.append acc, pre, off, post ++ acc, by simp, hoff⟩

/-- Every staged operation has its place in the trace. -/
theorem exists_stagedAt (h : (stagedBy t tr)[i]? = some e) : ∃ rest, StagedAt tr t i e rest := by
  induction tr using List.reverseRecOn generalizing i with
  | nil => simp [stagedBy] at h
  | append_singleton tr x ih =>
    have hsplit : stagedBy t (tr ++ [x]) = stagedBy t tr ++ (x.staged t).toList := by
      rw [stagedBy, filterMap_append]
      cases hx : x.staged t <;> simp [stagedBy, hx]
    rw [hsplit] at h
    by_cases hi : i < (stagedBy t tr).length
    · rw [List.getElem?_append_left hi] at h
      obtain ⟨rest, hst⟩ := ih h
      exact ⟨_, hst.append [x]⟩
    · rw [List.getElem?_append_right (by omega)] at h
      cases hx : x.staged t with
      | none => simp [hx] at h
      | some e' =>
        rw [hx] at h
        obtain ⟨hi0, he⟩ : i - (stagedBy t tr).length = 0 ∧ e' = e := by
          cases hk : i - (stagedBy t tr).length with
          | zero => simpa [hk] using h
          | succ n => simp [hk] at h
        subst he
        obtain rfl : x = .stage t e' := by
          cases x with
          | stage t' e'' =>
            simp only [staged] at hx
            split_ifs at hx with ht
            rw [ht, Option.some.inj hx]
          | _ => simp [staged] at hx
        exact ⟨[], tr, rfl, by omega⟩

/-- One more access. -/
theorem DurableAcks.concat (h : DurableAcks t tr) {x : Access Tid V}
    (hx : ∀ e, x = .ack t e → DurableAt tr t (answeredBy t tr).length e) : DurableAcks t (tr ++ [x]) := by
  intro pre e post heq
  rcases eq_nil_or_concat post with rfl | ⟨post', y, rfl⟩
  · obtain ⟨rfl, hlast⟩ := append_inj' heq rfl
    exact hx e (List.cons.inj hlast).1
  · refine h pre e post' ?_
    rw [concat_eq_append, ← cons_append, ← append_assoc] at heq
    exact (append_inj' heq rfl).1

/-- Accesses that answer nothing of a thread. -/
theorem DurableAcks.append (h : DurableAcks t tr) (hacc : ∀ e, ack t e ∉ acc) : DurableAcks t (tr ++ acc) := by
  induction acc using List.reverseRecOn with
  | nil => simpa using h
  | append_singleton acc x ih =>
    rw [← append_assoc]
    refine (ih fun e he => hacc e (mem_append_left _ he)).concat fun e hx => ?_
    exact absurd (hx ▸ mem_append_right acc mem_cons_self) (hacc e)

/-- Answering operations that are durable. -/
theorem DurableAcks.answer (h : DurableAcks t tr) {held later : List (LogEntry Tid V)}
    (hheld : stagedBy t tr = answeredBy t tr ++ held ++ later)
    (hdur : ∀ i e, (answeredBy t tr ++ held)[i]? = some e → DurableAt tr t i e) :
    DurableAcks t (tr ++ held.map (.ack t)) := by
  -- the induction is on the answers, which extend the trace one by one
  induction held generalizing tr with
  | nil => simpa using h
  | cons e held ih =>
    have hst : stagedBy t (tr ++ [.ack t e]) = stagedBy t tr := by
      simp [stagedBy, staged]
    have han : answeredBy t (tr ++ [.ack t e]) = answeredBy t tr ++ [e] := by
      simp [answeredBy, answered]
    have hone : DurableAcks t (tr ++ [.ack t e]) := by
      refine h.concat fun e' he' => ?_
      obtain rfl : e = e' := by injection he'
      refine hdur _ _ ?_
      rw [List.getElem?_append_right le_rfl, Nat.sub_self]
      rfl
    have := ih hone (by rw [hst, han, hheld]; simp) fun i e' hi =>
      (hdur i e' (by rw [han] at hi; simpa using hi)).append _
    simpa using this

end Trace

namespace Cluster

variable [DecidableEq Tid]

/-- The answers to the batched requests of a thread. -/
def answers (s : Cluster Tid V) (t : Tid) : List (Access Tid V) := (s.batchingRequests t).map (.ack t)

/-- The staged oplogs of a thread that were not yet sent, as they are sent. -/
def sends (s : Cluster Tid V) (t : Tid) : Access Tid V := .send t (s.kn t).nonReplicatedAlloc (s.kn t).unflushed

/-- The accesses at the start of `merge`. -/
def mergeAccesses (cfg : Config) (s : Cluster Tid V) (t : Tid) (m : AfterMerge) : List (Access Tid V) :=
  if (s.kn t).nonReplicatedAlloc = 0 then if m = .done true then s.answers t else []
  else if cfg.batching then if (s.kn t).flushedOffset < (s.kn t).batchedOffset then [s.sends t] else []
  else [.header t (s.kn t).nonReplicatedAlloc (s.kn t).pool.offset]

/-- The accesses of one event. -/
def accesses (cfg : Config) (s : Cluster Tid V) : Event Tid V → List (Access Tid V)
  | .invoke t .flush =>
    if (s.kn t).flushedOffset < (s.kn t).batchedOffset then [s.sends t] else s.answers t
  | .invoke t (.merge clear) => s.mergeAccesses cfg t (.done clear)
  | .invoke t (.swap k true) => s.mergeAccesses cfg t (.install k)
  | .advance t =>
    match (s.kn t).ctl with
    | .write w ret .retry =>
      if (s.kn t).tailOffset cfg.batching + w.size ≤ cfg.maxLogBlockLen then
        if cfg.batching then .stage t (s.nextEntry cfg t w) :: if ret then s.answers t else []
        else [.stage t (s.nextEntry cfg t w),
          .send t (s.kn t).nonReplicatedAlloc [(s.nextEntry cfg t w).oplog], .ack t (s.nextEntry cfg t w)]
      else if cfg.batching then [s.sends t]
      else [.header t (s.kn t).nonReplicatedAlloc (s.kn t).pool.offset]
    | .write _ _ .header => [.header t (s.kn t).nonReplicatedAlloc (s.kn t).batchedOffset]
    | .flush .done => .header t (s.kn t).nonReplicatedAlloc (s.kn t).batchedOffset :: s.answers t
    | .flush (.merge _) => [.header t (s.kn t).nonReplicatedAlloc (s.kn t).batchedOffset]
    | .merge (.done true) => s.answers t
    | _ => []
  | _ => []

/-- The accesses of a run, up to the first event that is not enabled. -/
def trace (cfg : Config) : Cluster Tid V → List (Event Tid V) → List (Access Tid V)
  | _, [] => []
  | s, e :: es =>
    match s.step cfg e with
    | none => []
    | some s' => s.accesses cfg e ++ trace cfg s' es

end Cluster

/-- The staging pool of a thread that batches: its oplogs lie one behind the other up to the batched
offset, and it has none where it has no block or has just taken one. -/
structure Kn.Batches (n : Kn V) : Prop where
  aligned : Aligned n.pool.buffer
  batched : bytesOf n.pool.buffer = n.batchedOffset
  flushed_le : n.flushedOffset ≤ n.batchedOffset
  noBlock : n.nonReplicatedAlloc = 0 → n.pool.buffer = []
  fresh : ∀ w ret stage, n.ctl = .write w ret stage → stage = .link ∨ stage = .slot ∨ (stage = .retry ∧ ret = true) →
    n.pool.buffer = []
  published : (∃ w ret, n.ctl = .write w ret .clean) ∨ (∃ m, n.ctl = .merge m) → n.flushedOffset = n.batchedOffset

/-- The thread has sent its staged oplogs and not yet written the header. -/
def Ctl.Sent (c : Ctl V) : Prop := (∃ w ret, c = .write w ret .header) ∨ ∃ after, c = .flush after

/-- The staged operations of a thread that no header covers. -/
def Cluster.uncovered (s : Cluster Tid V) (t : Tid) : List (LogEntry Tid V) :=
  (s.kn t).unflushed.map (.ofOplog t (s.kn t).nonReplicatedAlloc)

variable [DecidableEq Tid]

/-- What is known of a thread after a trace: the operations it has not answered, and that all but the
uncovered ones are durable. -/
structure Cluster.AckInv (s : Cluster Tid V) (t : Tid) (tr : List (Access Tid V)) : Prop where
  batches : (s.kn t).Batches
  held : stagedBy t tr = answeredBy t tr ++ s.batchingRequests t
  answered : DurableAcks t tr
  durable : ∃ d, stagedBy t tr = d ++ s.uncovered t ∧ (∀ i e, d[i]? = some e → DurableAt tr t i e) ∧
    ((s.kn t).ctl.Sent → ∀ i e, (s.uncovered t)[i]? = some e → ∃ rest, SentAt tr t (d.length + i) e rest)

variable {s s' : Cluster Tid V} {t : Tid} {tr acc : List (Access Tid V)}

/-- Accesses that stage and answer nothing of a thread. -/
theorem stagedBy_append_of_none (t : Tid) (tr acc : List (Access Tid V))
    (hacc : ∀ x ∈ acc, x.staged t = none ∧ x.answered t = none) :
    stagedBy t (tr ++ acc) = stagedBy t tr ∧ answeredBy t (tr ++ acc) = answeredBy t tr := by
  have hst : acc.filterMap (staged t) = [] := filterMap_eq_nil_iff.mpr fun x hx => (hacc x hx).1
  have han : acc.filterMap (answered t) = [] := filterMap_eq_nil_iff.mpr fun x hx => (hacc x hx).2
  simp [stagedBy, answeredBy, filterMap_append, hst, han]

/-- The operation a thread stages. -/
theorem stagedBy_append_stage (t : Tid) (tr : List (Access Tid V)) (e : LogEntry Tid V) :
    stagedBy t (tr ++ [.stage t e]) = stagedBy t tr ++ [e] ∧ answeredBy t (tr ++ [.stage t e]) = answeredBy t tr := by
  simp [stagedBy, answeredBy, staged, answered]

/-- Answers stage nothing. -/
theorem Cluster.stagedBy_answers (s : Cluster Tid V) (t : Tid) (tr : List (Access Tid V)) :
    stagedBy t (tr ++ s.answers t) = stagedBy t tr := by
  simp [stagedBy, Cluster.answers, staged, filterMap_map, comp_def]

/-- The answers of a thread are for its batched requests. -/
theorem Cluster.answeredBy_answers (s : Cluster Tid V) (t : Tid) (tr : List (Access Tid V)) :
    answeredBy t (tr ++ s.answers t) = answeredBy t tr ++ s.batchingRequests t := by
  simp [answeredBy, Cluster.answers, answered, filterMap_map, comp_def]

namespace Cluster.AckInv

/-- Accesses of other threads. -/
theorem frame (h : s.AckInv t tr) (hkn : s'.kn t = s.kn t) (hreq : s'.batchingRequests t = s.batchingRequests t)
    (hacc : ∀ x ∈ acc, x.tid ≠ t) : s'.AckInv t (tr ++ acc) := by
  obtain ⟨hst, han⟩ : stagedBy t (tr ++ acc) = stagedBy t tr ∧ answeredBy t (tr ++ acc) = answeredBy t tr := by
    refine stagedBy_append_of_none t tr acc fun x hx => ?_
    have hx := hacc x hx
    cases x <;> simp_all [Access.staged, Access.answered, Access.tid]
  obtain ⟨d, hd, hdur, hsent⟩ := h.durable
  have hun : s'.uncovered t = s.uncovered t := by rw [uncovered, uncovered, hkn]
  refine ⟨by rw [hkn]; exact h.batches, by rw [hst, han, hreq, h.held],
    h.answered.append fun e he => hacc _ he rfl, d, by rw [hst, hun, hd], fun i e hi => (hdur i e hi).append acc,
    fun hc i e hi => ?_⟩
  obtain ⟨rest, hs⟩ := hsent (hkn ▸ hc) i e (hun ▸ hi)
  exact ⟨_, hs.append acc⟩

variable {e : LogEntry Tid V}

/-- Everything staged is durable when nothing is uncovered. -/
theorem all_durable (h : s.AckInv t tr) (hun : s.uncovered t = []) {i : ℕ}
    (hi : (stagedBy t tr)[i]? = some e) : DurableAt tr t i e := by
  obtain ⟨d, hd, hdur, -⟩ := h.durable
  rw [hun, append_nil] at hd
  exact hdur i e (hd ▸ hi)

/-- The thread moves on and its staging pool stays. -/
theorem move (h : s.AckInv t tr) (hb : (s'.kn t).Batches) (hreq : s'.batchingRequests t = s.batchingRequests t)
    (hun : s'.uncovered t = s.uncovered t) (hsent : (s'.kn t).ctl.Sent → (s.kn t).ctl.Sent) : s'.AckInv t tr := by
  obtain ⟨d, hd, hdur, hs⟩ := h.durable
  exact ⟨hb, by rw [hreq]; exact h.held, h.answered, d, by rw [hun]; exact hd, hdur, fun hc => hun ▸ hs (hsent hc)⟩

/-- The thread moves on with nothing uncovered. -/
theorem move_covered (h : s.AckInv t tr) (hb : (s'.kn t).Batches)
    (hreq : s'.batchingRequests t = s.batchingRequests t) (hun : s.uncovered t = []) (hun' : s'.uncovered t = []) :
    s'.AckInv t tr := by
  refine ⟨hb, by rw [hreq]; exact h.held, h.answered, stagedBy t tr, by rw [hun', append_nil],
    fun i e hi => h.all_durable hun hi, fun _ i e hi => ?_⟩
  rw [hun'] at hi
  simp at hi

/-- The thread sends its staged oplogs. -/
theorem send (h : s.AckInv t tr) (hb : (s'.kn t).Batches) (hreq : s'.batchingRequests t = s.batchingRequests t)
    (hun : s'.uncovered t = s.uncovered t) : s'.AckInv t (tr ++ [s.sends t]) := by
  obtain ⟨hst, han⟩ := stagedBy_append_of_none t tr [s.sends t] (by simp [sends, Access.staged, Access.answered])
  obtain ⟨d, hd, hdur, -⟩ := h.durable
  refine ⟨hb, by rw [hst, han, hreq]; exact h.held, h.answered.append (by simp [sends]), d,
    by rw [hst, hun]; exact hd, fun i e hi => (hdur i e hi).append _, fun _ i e hi => ?_⟩
  rw [hun] at hi
  have hplace : (stagedBy t tr)[d.length + i]? = some e := by
    rw [hd, List.getElem?_append_right (Nat.le_add_right _ _), Nat.add_sub_cancel_left]
    exact hi
  obtain ⟨rest, hstaged⟩ := exists_stagedAt hplace
  have hmem := mem_of_getElem? hi
  obtain ⟨o, ho, rfl⟩ := mem_map.mp hmem
  exact ⟨[], rest ++ [s.sends t], hstaged.append _, rest, (s.kn t).unflushed, rfl, ho⟩

/-- The thread writes the header after it has sent its staged oplogs. -/
theorem header (h : s.AckInv t tr) (hsent : (s.kn t).ctl.Sent) (hb : (s'.kn t).Batches)
    (hreq : s'.batchingRequests t = s.batchingRequests t) (hun : s'.uncovered t = []) :
    s'.AckInv t (tr ++ [.header t (s.kn t).nonReplicatedAlloc (s.kn t).batchedOffset]) := by
  obtain ⟨hst, han⟩ := stagedBy_append_of_none t tr [.header t (s.kn t).nonReplicatedAlloc (s.kn t).batchedOffset]
    (by simp [Access.staged, Access.answered])
  obtain ⟨d, hd, hdur, hs⟩ := h.durable
  refine ⟨hb, by rw [hst, han, hreq]; exact h.held, h.answered.append (by simp), stagedBy t tr,
    by rw [hst, hun, append_nil], fun i e hi => ?_, fun _ i e hi => by rw [hun] at hi; simp at hi⟩
  by_cases hlt : i < d.length
  · rw [hd, List.getElem?_append_left hlt] at hi
    exact (hdur i e hi).append _
  · rw [hd, List.getElem?_append_right (by omega)] at hi
    obtain ⟨rest, hrest⟩ := hs hsent _ e hi
    rw [show d.length + (i - d.length) = i by omega] at hrest
    obtain ⟨o, ho, rfl⟩ := mem_map.mp (mem_of_getElem? hi)
    -- the header covers the whole staging pool
    have hbound := (h.batches.aligned.bounds (mem_of_mem_filter ho)).2
    have hcover : o.offset + o.size ≤ (s.kn t).batchedOffset := by
      rw [← h.batches.batched]
      simpa [bytesOf] using hbound
    exact ⟨_, hrest.append _, rest, _, [], rfl, hcover⟩

/-- The thread answers its batched requests with nothing uncovered. -/
theorem answers (h : s.AckInv t tr) (hun : s.uncovered t = []) (hb : (s'.kn t).Batches)
    (hreq : s'.batchingRequests t = []) (hun' : s'.uncovered t = []) : s'.AckInv t (tr ++ s.answers t) := by
  have hst := s.stagedBy_answers t tr
  have han := s.answeredBy_answers t tr
  refine ⟨hb, by rw [hst, han, hreq, append_nil]; exact h.held, ?_, stagedBy t tr,
    by rw [hst, hun', append_nil], fun i e hi => (h.all_durable hun hi).append _, fun _ i e hi => ?_⟩
  · have hheld : stagedBy t tr = answeredBy t tr ++ s.batchingRequests t ++ [] := by rw [h.held, append_nil]
    exact h.answered.answer hheld fun i e hi => h.all_durable hun (by rw [h.held]; exact hi)
  · rw [hun'] at hi
    simp at hi

/-- The thread stages an operation. -/
theorem stage (h : s.AckInv t tr) (hb : (s'.kn t).Batches)
    (hreq : s'.batchingRequests t = s.batchingRequests t ++ [e]) (hun : s'.uncovered t = s.uncovered t ++ [e])
    (hsent : ¬ (s'.kn t).ctl.Sent) : s'.AckInv t (tr ++ [.stage t e]) := by
  obtain ⟨hst, han⟩ := stagedBy_append_stage t tr e
  obtain ⟨d, hd, hdur, -⟩ := h.durable
  refine ⟨hb, by rw [hst, han, hreq, h.held, append_assoc], h.answered.append (by simp), d,
    by rw [hst, hun, hd, append_assoc], fun i e hi => (hdur i e hi).append _, fun hc => absurd hc hsent⟩

/-- The thread stages the first operation of a new block and answers the requests of the block before. -/
theorem stage_answers (h : s.AckInv t tr) (hun : s.uncovered t = []) (hb : (s'.kn t).Batches)
    (hreq : s'.batchingRequests t = [e]) (hun' : s'.uncovered t = [e]) (hsent : ¬ (s'.kn t).ctl.Sent) :
    s'.AckInv t (tr ++ .stage t e :: s.answers t) := by
  obtain ⟨hst, han⟩ := stagedBy_append_stage t tr e
  rw [append_cons]
  refine ⟨hb, ?_, ?_, stagedBy t tr, by rw [s.stagedBy_answers, hst, hun'],
    fun i e hi => ((h.all_durable hun hi).append _).append _, fun hc => absurd hc hsent⟩
  · rw [s.stagedBy_answers, s.answeredBy_answers, hst, han, hreq, h.held]
  · -- the answers come after the operation was staged, and are for the operations before it
    have hstage : DurableAcks t (tr ++ [.stage t e]) := h.answered.append (by simp)
    refine hstage.answer (by rw [hst, han, h.held]) fun i e' hi => (h.all_durable hun ?_).append _
    rw [h.held, ← han]
    exact hi

end Cluster.AckInv

/-- Two states of a thread with the same staging pool, current block and offsets. -/
structure Kn.SameBatch (n n' : Kn V) : Prop where
  buffer : n'.pool.buffer = n.pool.buffer
  alloc : n'.nonReplicatedAlloc = n.nonReplicatedAlloc
  batched : n'.batchedOffset = n.batchedOffset
  flushed : n'.flushedOffset = n.flushedOffset

/-- The control states of a thread outside `put`, `remove`, `flush` and the wait of `merge`. -/
def Ctl.Plain : Ctl V → Prop
  | .write _ _ _ => False
  | .flush _ => False
  | .merge _ => False
  | _ => True

variable {n n' : Kn V} {cfg : Config} {e : Event Tid V} {es : List (Event Tid V)}

/-- A thread that only moves to another control state. -/
theorem Kn.sameBatch_ctl (n : Kn V) (c : Ctl V) : n.SameBatch { n with ctl := c } := ⟨rfl, rfl, rfl, rfl⟩

/-- A thread that keeps its batch and goes on. -/
theorem Kn.Batches.of_sameBatch (h : n.Batches) (hs : n.SameBatch n')
    (hfresh : ∀ w ret stage, n'.ctl = .write w ret stage →
      stage = .link ∨ stage = .slot ∨ (stage = .retry ∧ ret = true) → n.pool.buffer = [])
    (hpub : (∃ w ret, n'.ctl = .write w ret .clean) ∨ (∃ m, n'.ctl = .merge m) → n.flushedOffset = n.batchedOffset) :
    n'.Batches where
  aligned := by rw [hs.buffer]; exact h.aligned
  batched := by rw [hs.buffer, hs.batched]; exact h.batched
  flushed_le := by rw [hs.flushed, hs.batched]; exact h.flushed_le
  noBlock := by rw [hs.alloc, hs.buffer]; exact h.noBlock
  fresh := by rw [hs.buffer]; exact hfresh
  published := by rw [hs.flushed, hs.batched]; exact hpub

/-- A thread that keeps its batch and goes where no write needs it. -/
theorem Kn.Batches.plain (h : n.Batches) (hs : n.SameBatch n') (hp : n'.ctl.Plain) : n'.Batches := by
  refine h.of_sameBatch hs (fun w ret stage hc => ?_) ?_
  · rw [hc] at hp
    exact hp.elim
  · rintro (⟨w, ret, hc⟩ | ⟨m, hc⟩) <;> rw [hc] at hp <;> exact hp.elim

/-- A write in one of the stages in which the header may be behind. -/
theorem Kn.Batches.write (h : n.Batches) (hs : n.SameBatch n') {w : Write V} {ret : Bool}
    {stage : WriteStage} (hctl : n'.ctl = .write w ret stage) (hclean : stage ≠ .clean)
    (hfresh : stage = .link ∨ stage = .slot ∨ (stage = .retry ∧ ret = true) → n.pool.buffer = []) : n'.Batches := by
  refine h.of_sameBatch hs (fun w' ret' stage' hc => ?_) ?_
  · cases hctl.symm.trans hc
    exact hfresh
  · rintro (⟨w', ret', hc⟩ | ⟨m, hc⟩) <;> cases hctl.symm.trans hc
    exact absurd rfl hclean

/-- A flush may find the header behind. -/
theorem Kn.Batches.flush (h : n.Batches) (hs : n.SameBatch n') {after : AfterFlush}
    (hctl : n'.ctl = .flush after) : n'.Batches := by
  refine h.of_sameBatch hs (fun w' ret' stage' hc => ?_) ?_
  · cases hctl.symm.trans hc
  · rintro (⟨w', ret', hc⟩ | ⟨m, hc⟩) <;> cases hctl.symm.trans hc

/-- An empty staging pool. -/
theorem Kn.Batches.of_empty (hbuf : n.pool.buffer = []) (hbatched : n.batchedOffset = 0)
    (hflushed : n.flushedOffset = 0) : n.Batches where
  aligned := by rw [hbuf]; exact aligned_nil
  batched := by rw [hbuf, hbatched, bytesOf_nil]
  flushed_le := by rw [hbatched, hflushed]
  noBlock := fun _ => hbuf
  fresh := fun _ _ _ _ _ => hbuf
  published := fun _ => by rw [hbatched, hflushed]

/-- A thread that keeps its batch has the same operations uncovered. -/
theorem Cluster.uncovered_of_sameBatch (h : (s.kn t).SameBatch (s'.kn t)) : s'.uncovered t = s.uncovered t := by
  rw [uncovered, uncovered, Kn.unflushed, Kn.unflushed, h.buffer, h.alloc, h.flushed]

/-- Nothing is uncovered once the header covers the staging pool. -/
theorem Cluster.uncovered_of_flushed (h : (s.kn t).Batches) (hf : (s.kn t).batchedOffset ≤ (s.kn t).flushedOffset) :
    s.uncovered t = [] := by
  have hnone : (s.kn t).unflushed = [] := by
    refine h.aligned.suffixFrom_extent Oplog.size_pos ?_
    have := h.batched
    simp only [bytesOf] at this
    omega
  rw [uncovered, hnone, map_nil]

/-- Nothing is uncovered in an empty staging pool. -/
theorem Cluster.uncovered_of_empty (h : (s.kn t).pool.buffer = []) : s.uncovered t = [] := by
  simp [uncovered, Kn.unflushed, entriesFrom, Records.suffixFrom, h]

/-- A batch that is covered by the header. -/
theorem Kn.Batches.covered (h : n.Batches) (hbuf : n'.pool.buffer = n.pool.buffer)
    (halloc : n'.nonReplicatedAlloc = n.nonReplicatedAlloc) (hbatched : n'.batchedOffset = n.batchedOffset)
    (hflushed : n'.flushedOffset = n.batchedOffset) (hctl : ∀ w ret stage, n'.ctl = .write w ret stage → stage = .clean) :
    n'.Batches where
  aligned := by rw [hbuf]; exact h.aligned
  batched := by rw [hbuf, hbatched]; exact h.batched
  flushed_le := by rw [hflushed, hbatched]
  noBlock := by rw [halloc, hbuf]; exact h.noBlock
  fresh := fun w ret stage hc => by rw [hctl w ret stage hc]; simp
  published := fun _ => by rw [hflushed, hbatched]

/-- A step that leaves the batch of its thread as it is, and logs and answers nothing. -/
structure Cluster.KeepsBatch (s s' : Cluster Tid V) (t : Tid) : Prop where
  sameBatch : (s.kn t).SameBatch (s'.kn t)
  plain : (s'.kn t).ctl.Plain
  requests : s'.batchingRequests = s.batchingRequests
  written : s'.written = s.written
  acked : s'.acked = s.acked

/-- A step that sets the state of its thread and no request. -/
theorem Cluster.keepsBatch_of_kn (hkn : s'.kn = update s.kn t n) (hs : (s.kn t).SameBatch n)
    (hp : n.ctl.Plain) (hreq : s'.batchingRequests = s.batchingRequests) (hw : s'.written = s.written)
    (ha : s'.acked = s.acked) : s.KeepsBatch s' t := by
  have hn : s'.kn t = n := by rw [hkn, update_self]
  exact ⟨by rw [hn]; exact hs, by rw [hn]; exact hp, hreq, hw, ha⟩

/-- A thread that leaves its log aside keeps its batch. -/
theorem Kn.SameLog.sameBatch (h : n.SameLog n') : n.SameBatch n' :=
  ⟨by rw [h.pool], h.alloc, h.batched, h.flushed⟩

/-- `putReplicated` leaves the batch as it is. -/
theorem Cluster.keepsBatch_stepPutReplicated {w : Write V} {stage : PutReplStage}
    (hs' : s.stepPutReplicated cfg t w stage = some s') : s.KeepsBatch s' t := by
  obtain ⟨n, h⟩ := stepPutReplicated_aside hs'
  refine keepsBatch_of_kn h.kn h.sameLog.sameBatch ?_ h.requests h.written h.acked
  rcases h.ctl with hctl | ⟨stage', hctl, -⟩ <;> rw [hctl] <;> trivial

/-- `getReplicated` leaves the batch as it is. -/
theorem Cluster.keepsBatch_stepGetReplicated {k : Key} {keyLen : ℕ} {stage : GetReplStage V}
    (hs' : s.stepGetReplicated t k keyLen stage = some s') : s.KeepsBatch s' t := by
  obtain ⟨n, h⟩ := stepGetReplicated_aside hs'
  refine keepsBatch_of_kn h.kn h.sameLog.sameBatch ?_ h.requests h.written h.acked
  rcases h.ctl with hctl | ⟨stage', hctl⟩ <;> rw [hctl] <;> trivial

namespace Cluster.AckInv

variable {cfg : Config}

/-- The thread keeps its batch and goes where no write needs it. -/
theorem plain (h : s.AckInv t tr) {n : Kn V} (hkn : s'.kn t = n) (hs : (s.kn t).SameBatch n) (hp : n.ctl.Plain)
    (hreq : s'.batchingRequests t = s.batchingRequests t) : s'.AckInv t tr := by
  subst hkn
  refine h.move (h.batches.plain hs hp) hreq (uncovered_of_sameBatch hs) ?_
  rintro (⟨w, ret, hc⟩ | ⟨after, hc⟩) <;> rw [hc] at hp <;> exact hp.elim

/-- A write goes on with an empty staging pool. -/
theorem moveFresh (h : s.AckInv t tr) (hbuf : (s.kn t).pool.buffer = []) {n : Kn V} (hkn : s'.kn t = n)
    (hs : (s.kn t).SameBatch n) {w : Write V} {ret : Bool} {stage : WriteStage} (hctl : n.ctl = .write w ret stage)
    (hclean : stage ≠ .clean) (hreq : s'.batchingRequests t = s.batchingRequests t) : s'.AckInv t tr := by
  subst hkn
  exact h.move_covered (h.batches.write hs hctl hclean fun _ => hbuf) hreq (uncovered_of_empty hbuf)
    (uncovered_of_empty (by rw [hs.buffer, hbuf]))

/-- The thread sends its staged oplogs and goes on. -/
theorem sendUnflushed (h : s.AckInv t tr) {c : Ctl V} (hb : { s.kn t with ctl := c }.Batches) :
    ((s.sendUnflushed t).setCtl t c).AckInv t (tr ++ [s.sends t]) := by
  have hkn : ((s.sendUnflushed t).setCtl t c).kn t = { s.kn t with ctl := c } := update_self _ _ _
  exact h.send (by rw [hkn]; exact hb) rfl (uncovered_of_sameBatch (hkn ▸ (s.kn t).sameBatch_ctl c))

/-- The thread writes the header after it has sent its staged oplogs, and goes on. -/
theorem publishBatch (h : s.AckInv t tr) (hsent : (s.kn t).ctl.Sent) {c : Ctl V}
    (hc : ∀ w ret stage, c = .write w ret stage → stage = .clean) :
    ((s.publishBatch t).setCtl t c).AckInv t
      (tr ++ [.header t (s.kn t).nonReplicatedAlloc (s.kn t).batchedOffset]) := by
  have hkn : ((s.publishBatch t).setCtl t c).kn t =
      { s.kn t with
        pool := { (s.kn t).pool with offset := (s.kn t).batchedOffset }
        flushedOffset := (s.kn t).batchedOffset
        ctl := c } := by
    simp [setCtl, setKn, Cluster.publishBatch, sendHeader, modBlock]
  have hb : (((s.publishBatch t).setCtl t c).kn t).Batches := by
    rw [hkn]
    exact h.batches.covered rfl rfl rfl rfl hc
  exact h.header hsent hb rfl (uncovered_of_flushed hb (by rw [hkn]))

/-- The thread stages an operation and keeps its request back. -/
theorem append (h : s.AckInv t tr) (hb : cfg.batching = true) {w : Write V} {ret : Bool}
    (halloc : (s.kn t).nonReplicatedAlloc ≠ 0) (hret : ret = true → (s.kn t).pool.buffer = []) :
    ((s.append cfg t w).acknowledge cfg t ret (s.nextEntry cfg t w)).AckInv t
      (tr ++ .stage t (s.nextEntry cfg t w) :: if ret then s.answers t else []) := by
  set e := s.nextEntry cfg t w with he
  have hoff : e.oplog = w.at (s.kn t).batchedOffset := by simp [he, nextEntry, Kn.tailOffset, hb]
  have hptr : e = .ofOplog t (s.kn t).nonReplicatedAlloc e.oplog := by
    simp [he, nextEntry, LogEntry.ofOplog]
  have hkn : ((s.append cfg t w).acknowledge cfg t ret e).kn t =
      { s.kn t with
        pool := (s.kn t).pool.stage e.oplog
        batchedOffset := (s.kn t).batchedOffset + w.size
        ctl := .idle } := by
    cases ret <;> simp [acknowledge, Cluster.append, hb, setKn, he, respondBatched]
  have hbuf : (((s.append cfg t w).acknowledge cfg t ret e).kn t).pool.buffer =
      (s.kn t).pool.buffer ++ [w.at (bytesOf (s.kn t).pool.buffer)] := by
    rw [hkn, h.batches.batched, ← hoff]
    rfl
  have hbt : (((s.append cfg t w).acknowledge cfg t ret e).kn t).Batches := by
    refine ⟨by rw [hbuf]; exact h.batches.aligned.append_at w, ?_, ?_, ?_, ?_, ?_⟩
    · rw [hbuf, hkn, bytesOf_append, bytesOf_singleton, h.batches.batched, Write.at_size]
    · rw [hkn]
      exact h.batches.flushed_le.trans (Nat.le_add_right _ _)
    · rw [hkn]
      exact fun h0 => absurd h0 halloc
    · rw [hkn]
      simp
    · rw [hkn]
      rintro (⟨_, _, ⟨⟩⟩ | ⟨_, ⟨⟩⟩)
  have hun : ((s.append cfg t w).acknowledge cfg t ret e).uncovered t = s.uncovered t ++ [e] := by
    have hle : (s.kn t).flushedOffset ≤ e.oplog.offset := by rw [hoff]; exact h.batches.flushed_le
    rw [uncovered, uncovered, Kn.unflushed, hbuf, hkn, Kn.unflushed, h.batches.batched, ← hoff, entriesFrom,
      Records.suffixFrom, filter_append, filter_singleton]
    simp only [hle, decide_true, cond_true, map_append, map_cons, map_nil, ← hptr]
    rfl
  have hsent : ¬ (((s.append cfg t w).acknowledge cfg t ret e).kn t).ctl.Sent := by
    rw [hkn]
    rintro (⟨_, _, ⟨⟩⟩ | ⟨_, ⟨⟩⟩)
  cases ret with
  | false =>
    refine h.stage hbt ?_ hun hsent
    simp [acknowledge, Cluster.append, hb, setKn]
  | true =>
    have hnone := uncovered_of_empty (hret rfl)
    refine h.stage_answers hnone hbt ?_ (by rw [hun, hnone, nil_append]) hsent
    simp [acknowledge, Cluster.append, hb, setKn, respondBatched]

/-- A step of `put` or `remove`. -/
theorem stepWrite (h : s.AckInv t tr) (hb : cfg.batching = true) {w : Write V} {ret : Bool} {stage : WriteStage}
    (hctl : (s.kn t).ctl = .write w ret stage) (hs' : s.stepWrite cfg t w ret stage = some s') :
    s'.AckInv t (tr ++ s.accesses cfg (.advance t)) := by
  cases stage with
  | retry =>
    simp only [Cluster.stepWrite, hb, if_true] at hs'
    split_ifs at hs' with halloc hfit
    · cases hs'
      simp only [accesses, hctl, hb, if_pos hfit, if_true]
      exact h.append hb halloc fun hret => h.batches.fresh w ret _ hctl (.inr (.inr ⟨rfl, hret⟩))
    · cases hs'
      simp only [accesses, hctl, hb, if_neg hfit, if_true]
      exact h.sendUnflushed (h.batches.write ((s.kn t).sameBatch_ctl _) rfl (by simp) (by simp))
  | header =>
    cases hs'
    simp only [accesses, hctl]
    exact h.publishBatch (.inl ⟨w, ret, hctl⟩) (by rintro _ _ _ ⟨⟩; rfl)
  | clean =>
    cases hs'
    simp only [accesses, hctl, append_nil]
    have hun : s.uncovered t = [] :=
      uncovered_of_flushed h.batches (h.batches.published (.inl ⟨w, ret, hctl⟩)).ge
    refine h.move_covered ?_ rfl hun (uncovered_of_empty ?_)
    · simp only [setKn, update_self]
      exact .of_empty rfl rfl rfl
    · simp [setKn, Kn.rotate]
  | link =>
    cases hs'
    simp only [accesses, hctl, append_nil]
    exact h.moveFresh (h.batches.fresh w ret _ hctl (.inl rfl)) (setKn_kn_self ..) ⟨rfl, rfl, rfl, rfl⟩ rfl (by simp) rfl
  | slot =>
    cases hs'
    simp only [accesses, hctl, append_nil]
    exact h.moveFresh (h.batches.fresh w ret _ hctl (.inr (.inl rfl))) (setCtl_kn_self ..) ((s.kn t).sameBatch_ctl _) rfl
      (by simp) rfl

/-- The end of `merge`. -/
theorem afterMerge (h : s.AckInv t tr) (hun : s.uncovered t = []) (m : AfterMerge) :
    (s.afterMerge t m).AckInv t (tr ++ if m = .done true then s.answers t else []) := by
  cases m with
  | done clear =>
    cases clear with
    | false =>
      rw [if_neg (by simp), append_nil]
      exact h.plain (update_self _ _ _) ⟨rfl, rfl, rfl, rfl⟩ trivial rfl
    | true =>
      rw [if_pos rfl]
      have hkn : (s.afterMerge t (.done true)).kn t =
          { s.kn t with indirectPointerCache := fun _ => none, ctl := .idle } := update_self _ _ _
      have hs : (s.kn t).SameBatch ((s.afterMerge t (.done true)).kn t) := by
        rw [hkn]
        exact ⟨rfl, rfl, rfl, rfl⟩
      have hb := h.batches.plain hs (by rw [hkn]; trivial)
      exact h.answers hun hb (update_self _ _ _) (by rw [uncovered_of_sameBatch hs, hun])
  | install k =>
    rw [if_neg (by simp), append_nil]
    exact h.plain (update_self _ _ _) ⟨rfl, rfl, rfl, rfl⟩ trivial rfl

/-- The start of `merge`. -/
theorem startMerge (h : s.AckInv t tr) (hb : cfg.batching = true) (m : AfterMerge) :
    (s.startMerge cfg t m).AckInv t (tr ++ s.mergeAccesses cfg t m) := by
  simp only [Cluster.startMerge, mergeAccesses, hb, if_true]
  split_ifs with halloc hm hflush
  · simpa [hm] using h.afterMerge (uncovered_of_empty (h.batches.noBlock halloc)) m
  · simpa [hm] using h.afterMerge (uncovered_of_empty (h.batches.noBlock halloc)) m
  · exact h.sendUnflushed (h.batches.flush ⟨rfl, rfl, rfl, rfl⟩ rfl)
  · rw [append_nil]
    have hun := uncovered_of_flushed h.batches (Nat.le_of_not_lt hflush)
    have hs : (s.kn t).SameBatch ((s.setCtl t (.merge m)).kn t) := by
      rw [setCtl_kn_self]
      exact (s.kn t).sameBatch_ctl _
    refine h.move_covered (h.batches.of_sameBatch hs (fun w ret stage hc => ?_) fun _ => ?_) rfl hun
      (by rw [uncovered_of_sameBatch hs, hun])
    · simp [setCtl, setKn] at hc
    · exact le_antisymm h.batches.flushed_le (Nat.le_of_not_lt hflush)

/-- The header write that ends `flush`. -/
theorem stepFlush (h : s.AckInv t tr) {after : AfterFlush} (hctl : (s.kn t).ctl = .flush after) :
    (s.stepFlush t after).AckInv t (tr ++ s.accesses cfg (.advance t)) := by
  cases after with
  | done =>
    have hpub : ((s.publishBatch t).setCtl t .idle).AckInv t _ := h.publishBatch (.inr ⟨_, hctl⟩) (by simp)
    have hun : ((s.publishBatch t).setCtl t .idle).uncovered t = [] := by
      refine uncovered_of_flushed hpub.batches ?_
      simp [setCtl, setKn, Cluster.publishBatch, sendHeader, modBlock]
    simp only [accesses, hctl]
    rw [append_cons]
    exact hpub.answers hun hpub.batches (update_self _ _ _) hun
  | merge m =>
    simp only [accesses, hctl]
    exact h.publishBatch (.inr ⟨_, hctl⟩) (by simp)

/-- A step that leaves the batch of the thread as it is. -/
theorem keepsBatch (h : s.AckInv t tr) (hk : s.KeepsBatch s' t) : s'.AckInv t tr :=
  h.plain rfl hk.sameBatch hk.plain (by rw [hk.requests])

/-- A call starts. -/
theorem invoke (h : s.AckInv t tr) (hb : cfg.batching = true) (c : Call V) :
    (s.invoke cfg t c).AckInv t (tr ++ s.accesses cfg (.invoke t c)) := by
  cases c with
  | write w =>
    simp only [accesses, append_nil]
    have hs : (s.kn t).SameBatch ((s.setCtl t (.write w false .retry)).kn t) := by
      rw [setCtl_kn_self]
      exact (s.kn t).sameBatch_ctl _
    have hctl := s.setCtl_ctl_self t (.write w false .retry)
    refine h.move (h.batches.write hs hctl (by simp) (by simp)) rfl (uncovered_of_sameBatch hs) ?_
    rintro (⟨_, _, hc⟩ | ⟨_, hc⟩) <;> cases hctl.symm.trans hc
  | flush =>
    simp only [Cluster.invoke, accesses]
    split_ifs with hflush
    · exact h.sendUnflushed (h.batches.flush ⟨rfl, rfl, rfl, rfl⟩ rfl)
    · have hun := uncovered_of_flushed h.batches (Nat.le_of_not_lt hflush)
      exact h.answers hun h.batches (update_self _ _ _) hun
  | merge clear => exact h.startMerge hb (.done clear)
  | swap k replicated =>
    cases replicated with
    | true => exact h.startMerge hb (.install k)
    | false =>
      simp only [accesses, append_nil]
      exact h.keepsBatch (keepsBatch_of_kn rfl ⟨rfl, rfl, rfl, rfl⟩ trivial rfl rfl rfl)
  | putReplicated k keyLen v valLen doUpdate =>
    simp only [accesses, append_nil]
    exact h.keepsBatch (keepsBatch_of_kn rfl ⟨rfl, rfl, rfl, rfl⟩ trivial rfl rfl rfl)
  | getReplicated k keyLen =>
    simp only [accesses, append_nil]
    exact h.keepsBatch (keepsBatch_of_kn rfl ⟨rfl, rfl, rfl, rfl⟩ trivial rfl rfl rfl)

/-- The thread gets new blocks. -/
theorem preallocate (h : s.AckInv t tr) {fresh : List Addr} (hs' : s.preallocate cfg t fresh = some s') :
    s'.AckInv t tr := by
  obtain ⟨-, ⟨w, ret, hctl, halloc, rfl⟩ | ⟨w, hctl, -, rfl⟩⟩ := preallocate_cases hs'
  · have hbuf := h.batches.noBlock halloc
    refine h.move_covered ?_ rfl (uncovered_of_empty hbuf) (uncovered_of_empty ?_)
    · have hoff : (s.kn t).batchedOffset = 0 := by rw [← h.batches.batched, hbuf, bytesOf_nil]
      simp only [setKn, update_self]
      exact .of_empty hbuf hoff (Nat.le_zero.mp (hoff ▸ h.batches.flushed_le))
    · simpa [setKn] using hbuf
  · exact h.keepsBatch (keepsBatch_of_kn rfl ⟨rfl, rfl, rfl, rfl⟩ trivial rfl rfl rfl)

/-- An event of the thread. -/
theorem step_self (h : s.AckInv t tr) (hb : cfg.batching = true) {e : Event Tid V} (ht : e.tid = t)
    (hs' : s.step cfg e = some s') : s'.AckInv t (tr ++ s.accesses cfg e) := by
  subst ht
  cases stepped hs' with
  | invoke t c hctl => exact h.invoke hb c
  | write t w ret stage s' hctl hs' => exact h.stepWrite hb hctl hs'
  | flush t after hctl => exact h.stepFlush hctl
  | merge t m hctl hreply =>
    have hun := uncovered_of_flushed h.batches (h.batches.published (.inr ⟨m, hctl⟩)).ge
    have hcopy : AckInv { s with st := { s.st with mergeReply := update s.st.mergeReply t false } } t tr :=
      ⟨h.batches, h.held, h.answered, h.durable⟩
    have hafter := hcopy.afterMerge hun m
    simp only [accesses, hctl]
    cases m with
    | done clear => cases clear <;> exact hafter
    | install k => exact hafter
  | removeIndirect t k st hctl hst =>
    simp only [accesses, hctl, append_nil]
    exact h.keepsBatch (keepsBatch_of_kn rfl ⟨rfl, rfl, rfl, rfl⟩ trivial rfl rfl rfl)
  | putReplicated t w stage s' hctl hs' =>
    simp only [accesses, hctl, append_nil]
    exact h.keepsBatch (keepsBatch_stepPutReplicated hs')
  | getReplicated t k keyLen stage s' hctl hs' =>
    simp only [accesses, hctl, append_nil]
    exact h.keepsBatch (keepsBatch_stepGetReplicated hs')
  | preallocate t fresh s' hs' =>
    simp only [accesses, append_nil]
    exact h.preallocate hs'
  | install t c k hctl hc =>
    simp only [accesses, append_nil]
    exact h.keepsBatch (keepsBatch_of_kn rfl ⟨rfl, rfl, rfl, rfl⟩ trivial rfl rfl rfl)
  | beginPass t kind st henabled hst => exact h.frame rfl rfl (by simp [accesses])
  | passStep t st hst => exact h.frame rfl rfl (by simp [accesses])
  | crash t =>
    simp only [accesses, append_nil]
    exact h.keepsBatch (keepsBatch_of_kn rfl ⟨rfl, rfl, rfl, rfl⟩ trivial rfl rfl rfl)

end Cluster.AckInv

/-- The accesses at the start of `merge` are those of its thread. -/
theorem Cluster.tid_mergeAccesses (s : Cluster Tid V) (t : Tid) (m : AfterMerge) :
    ∀ x ∈ s.mergeAccesses cfg t m, x.tid = t := by
  unfold mergeAccesses
  split_ifs <;> simp [answers, sends, tid]

/-- The accesses of an event are those of its thread. -/
theorem Cluster.tid_accesses (s : Cluster Tid V) (e : Event Tid V) : ∀ x ∈ s.accesses cfg e, x.tid = e.tid := by
  cases e with
  | invoke t c =>
    cases c with
    | flush =>
      simp only [accesses]
      split_ifs <;> simp [answers, sends, tid, Event.tid]
    | merge clear => exact s.tid_mergeAccesses t _
    | swap k replicated =>
      cases replicated with
      | true => exact s.tid_mergeAccesses t _
      | false => simp [accesses]
    | _ => simp [accesses]
  | advance t =>
    -- one case for each control state that does something, and for `put` one for each branch of a retry
    simp only [accesses]
    split
    · split_ifs <;> simp [answers, sends, tid, Event.tid]
    all_goals simp [answers, tid, Event.tid]
  | _ => simp [accesses]

/-- An event changes the batched requests of its own thread at most. -/
theorem Cluster.batchingRequests_step (hs' : s.step cfg e = some s') (ht : e.tid ≠ t) :
    s'.batchingRequests t = s.batchingRequests t := by
  have hset : ∀ r, update s.batchingRequests e.tid r t = s.batchingRequests t := fun r =>
    update_of_ne (Ne.symm ht) _ _
  cases stepped hs' with
  | invoke t' c hctl =>
    obtain ⟨n, h⟩ := invoke_aside cfg hctl c
    exact h.requests t (Ne.symm ht)
  | write t' w ret stage s' hctl hs' =>
    cases stage with
    | retry =>
      simp only [stepWrite] at hs'
      split_ifs at hs' <;> cases hs'
      · unfold acknowledge append
        cases cfg.batching
        · rfl
        · cases ret
          · exact hset _
          · exact (update_of_ne (Ne.symm ht) _ _).trans (hset _)
      · rfl
      · rfl
    | _ =>
      cases hs'
      rfl
  | flush t' after hctl =>
    cases after with
    | done => exact hset _
    | merge m => rfl
  | merge t' m hctl hreply =>
    obtain ⟨n, h⟩ := s.mergeReply_aside t' m
    exact h.requests t (Ne.symm ht)
  | putReplicated t' w stage s' hctl hs' => rw [(keepsBatch_stepPutReplicated hs').requests]
  | getReplicated t' k keyLen stage s' hctl hs' => rw [(keepsBatch_stepGetReplicated hs').requests]
  | preallocate t' fresh s' hs' => obtain ⟨-, ⟨w, ret, -, -, rfl⟩ | ⟨w, -, -, rfl⟩⟩ := preallocate_cases hs' <;> rfl
  | _ => rfl

/-- An event of any thread. -/
theorem Cluster.AckInv.step (h : s.AckInv t tr) (hb : cfg.batching = true)
    (hs' : s.step cfg e = some s') : s'.AckInv t (tr ++ s.accesses cfg e) := by
  by_cases ht : e.tid = t
  · exact h.step_self hb ht hs'
  · obtain ⟨n, hn, -⟩ := kn_step hs'
    have hkn : s'.kn t = s.kn t := by rw [hn, update_of_ne (Ne.symm ht)]
    exact h.frame hkn (batchingRequests_step hs' ht) fun x hx => by rw [s.tid_accesses e x hx]; exact ht

/-- A run. -/
theorem Cluster.AckInv.run (h : s.AckInv t tr) (hb : cfg.batching = true)
    (hrun : s.run cfg es = some s') : s'.AckInv t (tr ++ trace cfg s es) := by
  induction es generalizing s tr with
  | nil =>
    obtain rfl : s = s' := Option.some.inj hrun
    rw [trace, append_nil]
    exact h
  | cons e es ih =>
    obtain ⟨s₁, hs₁, hrest⟩ := Transition.run_cons_eq_some.mp hrun
    rw [trace, hs₁, ← append_assoc]
    exact ih (h.step hb hs₁) hrest

/-- Before any call nothing is staged. -/
theorem Cluster.ackInv_init (logBuckets : ℕ) (t : Tid) : (init logBuckets : Cluster Tid V).AckInv t [] where
  batches := .of_empty rfl rfl rfl
  held := rfl
  answered := by simp [DurableAcks]
  durable := by
    have hun : (init logBuckets : Cluster Tid V).uncovered t = [] := uncovered_of_empty rfl
    exact ⟨[], by rw [hun]; rfl, nofun, by rw [hun]; nofun⟩

/-- The accesses of an event are what it does: the operations it logs and answers, the oplogs it sends
and the headers it writes. -/
structure Cluster.Performs (s s' : Cluster Tid V) (acc : List (Access Tid V)) : Prop where
  written : s'.written = s.written ++ acc.filterMap Access.stagedEntry
  acked : s'.acked = s.acked ++ acc.filterMap Access.answeredEntry
  sent : ∀ t a os, .send t a os ∈ acc → (s'.st.mem a).buffer = writeOplogs (s.st.mem a).buffer os
  header : ∀ t a off, .header t a off ∈ acc → (s'.st.mem a).offset = off

namespace Cluster.Performs

/-- An event that touches no log of operations and no block. -/
theorem quiet (hw : s'.written = s.written) (ha : s'.acked = s.acked) : s.Performs s' [] :=
  ⟨by simp [hw], by simp [ha], nofun, nofun⟩

/-- The batched requests are answered at the end of an event. -/
theorem respond {s₁ : Cluster Tid V} (h : s.Performs s₁ acc) (hreq : s₁.batchingRequests t = s.batchingRequests t) :
    s.Performs (s₁.respondBatched t) (acc ++ s.answers t) where
  written := by
    simp [respondBatched, h.written, Cluster.answers, filterMap_map, comp_def, stagedEntry]
  acked := by
    simp [respondBatched, h.acked, hreq, Cluster.answers, filterMap_map, comp_def, answeredEntry]
  sent := by
    intro t' a os hx
    simp only [Cluster.answers, mem_append, mem_map, reduceCtorEq, and_false, exists_false, or_false] at hx
    exact h.sent t' a os hx
  header := by
    intro t' a off hx
    simp only [Cluster.answers, mem_append, mem_map, reduceCtorEq, and_false, exists_false, or_false] at hx
    exact h.header t' a off hx

variable {c : Ctl V}

/-- The staged oplogs are sent. -/
theorem sends : s.Performs ((s.sendUnflushed t).setCtl t c) [s.sends t] where
  written := by simp [Cluster.sends, stagedEntry, setCtl, setKn, sendUnflushed, modBlock]
  acked := by simp [Cluster.sends, answeredEntry, setCtl, setKn, sendUnflushed, modBlock]
  sent := by
    intro t' a os hx
    simp only [Cluster.sends, mem_singleton] at hx
    cases hx
    simp [setCtl, setKn, sendUnflushed, modBlock]
  header := by simp [Cluster.sends]

/-- The header is written from the staging pool. -/
theorem headers : s.Performs ((s.sendHeader t).setCtl t c)
    [.header t (s.kn t).nonReplicatedAlloc (s.kn t).pool.offset] where
  written := by simp [stagedEntry, setCtl, setKn, sendHeader, modBlock]
  acked := by simp [answeredEntry, setCtl, setKn, sendHeader, modBlock]
  sent := by simp
  header := by
    intro t' a off hx
    simp only [mem_singleton] at hx
    cases hx
    simp [setCtl, setKn, sendHeader, modBlock, LogBlock.withHeader]

/-- The header is written with the batched offset. -/
theorem publishes : s.Performs ((s.publishBatch t).setCtl t c)
    [.header t (s.kn t).nonReplicatedAlloc (s.kn t).batchedOffset] where
  written := by simp [stagedEntry, setCtl, setKn, publishBatch, sendHeader, modBlock]
  acked := by simp [answeredEntry, setCtl, setKn, publishBatch, sendHeader, modBlock]
  sent := by simp
  header := by
    intro t' a off hx
    simp only [mem_singleton] at hx
    cases hx
    simp [setCtl, setKn, publishBatch, sendHeader, modBlock, LogBlock.withHeader]

variable {cfg : Config}

/-- The end of `merge`. -/
theorem afterMerge (s : Cluster Tid V) (t : Tid) (m : AfterMerge) :
    s.Performs (s.afterMerge t m) (if m = .done true then s.answers t else []) := by
  cases m with
  | done clear =>
    cases clear with
    | false => exact quiet rfl rfl
    | true =>
      have hidle : s.Performs (s.setKn t { s.kn t with indirectPointerCache := fun _ => none, ctl := .idle }) [] :=
        quiet rfl rfl
      exact hidle.respond rfl
  | install k => exact quiet rfl rfl

/-- The start of `merge`. -/
theorem startMerge (s : Cluster Tid V) (t : Tid) (m : AfterMerge) :
    s.Performs (s.startMerge cfg t m) (s.mergeAccesses cfg t m) := by
  unfold Cluster.startMerge mergeAccesses
  split_ifs with _ hm
  · simpa [hm] using afterMerge s t m
  · simpa [hm] using afterMerge s t m
  · exact sends
  · exact quiet rfl rfl
  · exact headers

/-- An operation is staged, and sent at once without batching. -/
theorem append (w : Write V) (ret : Bool) :
    s.Performs ((s.append cfg t w).acknowledge cfg t ret (s.nextEntry cfg t w))
      (if cfg.batching then .stage t (s.nextEntry cfg t w) :: if ret then s.answers t else []
        else [.stage t (s.nextEntry cfg t w),
          .send t (s.kn t).nonReplicatedAlloc [(s.nextEntry cfg t w).oplog], .ack t (s.nextEntry cfg t w)]) := by
  cases hb : cfg.batching with
  | true =>
    have hstage : s.Performs (s.append cfg t w) [.stage t (s.nextEntry cfg t w)] := by
      refine ⟨?_, ?_, by simp, by simp⟩ <;>
        simp [Cluster.append, hb, setKn, stagedEntry, answeredEntry]
    rw [if_pos rfl]
    cases ret with
    | false =>
      refine ⟨?_, ?_, by simp, by simp⟩ <;>
        simp [acknowledge, Cluster.append, hb, setKn, stagedEntry, answeredEntry]
    | true =>
      have hrespond : s.Performs ((s.append cfg t w).respondBatched t) _ :=
        hstage.respond (by simp [Cluster.append, hb, setKn])
      refine ⟨?_, ?_, ?_, ?_⟩
      · simpa [acknowledge, hb] using hrespond.written
      · simpa [acknowledge, hb] using hrespond.acked
      · simpa [acknowledge, hb] using hrespond.sent
      · simpa [acknowledge, hb] using hrespond.header
  | false =>
    refine ⟨?_, ?_, fun t' a os hx => ?_, by simp⟩
    · simp [acknowledge, Cluster.append, hb, setKn, modBlock, stagedEntry]
    · change _ = s.acked ++ [s.nextEntry cfg t w]
      simp [acknowledge, Cluster.append, hb, setKn, modBlock]
    · simp only [Bool.false_eq_true, if_false, mem_cons, reduceCtorEq, not_mem_nil, or_false, false_or,
        send.injEq] at hx
      obtain ⟨rfl, rfl, rfl⟩ := hx
      simp [acknowledge, Cluster.append, hb, setKn, modBlock, writeOplogs]

/-- A step of `put` or `remove`. -/
theorem stepWrite {w : Write V} {ret : Bool} {stage : WriteStage} (hctl : (s.kn t).ctl = .write w ret stage)
    (hs' : s.stepWrite cfg t w ret stage = some s') : s.Performs s' (s.accesses cfg (.advance t)) := by
  cases stage with
  | retry =>
    simp only [Cluster.stepWrite] at hs'
    simp only [accesses, hctl]
    by_cases hfit : (s.kn t).tailOffset cfg.batching + w.size ≤ cfg.maxLogBlockLen
    · rw [if_pos hfit] at hs' ⊢
      split_ifs at hs'
      cases hs'
      exact append w ret
    · rw [if_neg hfit] at hs' ⊢
      split_ifs at hs' ⊢ <;> cases hs'
      · exact sends
      · exact headers
  | header =>
    cases hs'
    simp only [accesses, hctl]
    exact publishes
  | _ =>
    cases hs'
    simp only [accesses, hctl]
    exact quiet rfl rfl

/-- A call starts. -/
theorem invoke (c : Call V) : s.Performs (s.invoke cfg t c) (s.accesses cfg (.invoke t c)) := by
  cases c with
  | flush =>
    simp only [Cluster.invoke, accesses]
    split_ifs
    · exact sends
    · have hself : s.Performs s [] := quiet rfl rfl
      exact hself.respond rfl
  | merge clear => exact startMerge s t (.done clear)
  | swap k replicated =>
    cases replicated with
    | true => exact startMerge s t (.install k)
    | false => exact quiet rfl rfl
  | _ => exact quiet rfl rfl

/-- Every event does what its accesses say. -/
theorem step {e : Event Tid V} (hs' : s.step cfg e = some s') : s.Performs s' (s.accesses cfg e) := by
  cases stepped hs' with
  | invoke t c hctl => exact invoke c
  | write t w ret stage s' hctl hs' => exact stepWrite hctl hs'
  | flush t after hctl =>
    simp only [accesses, hctl]
    cases after with
    | done => exact (publishes (s := s) (t := t) (c := .idle)).respond rfl
    | merge m => exact publishes
  | merge t m hctl hreply =>
    simp only [accesses, hctl]
    have hafter := afterMerge { s with st := { s.st with mergeReply := update s.st.mergeReply t false } } t m
    cases m with
    | done clear => cases clear <;> exact ⟨hafter.written, hafter.acked, hafter.sent, hafter.header⟩
    | install k => exact ⟨hafter.written, hafter.acked, hafter.sent, hafter.header⟩
  | removeIndirect t k st hctl hst =>
    simp only [accesses, hctl]
    exact quiet rfl rfl
  | putReplicated t w stage s' hctl hs' =>
    simp only [accesses, hctl]
    have hkeep := keepsBatch_stepPutReplicated hs'
    exact quiet hkeep.written hkeep.acked
  | getReplicated t k keyLen stage s' hctl hs' =>
    simp only [accesses, hctl]
    have hkeep := keepsBatch_stepGetReplicated hs'
    exact quiet hkeep.written hkeep.acked
  | preallocate t fresh s' hs' =>
    obtain ⟨-, ⟨w, ret, -, -, rfl⟩ | ⟨w, -, -, rfl⟩⟩ := preallocate_cases hs' <;> exact quiet rfl rfl
  | _ => exact quiet rfl rfl

end Cluster.Performs

/-- The answers in the trace of a run are the acknowledged operations, and its stagings the logged ones. -/
theorem Cluster.run_trace (hrun : s.run cfg es = some s') :
    s'.written = s.written ++ (trace cfg s es).filterMap stagedEntry ∧
      s'.acked = s.acked ++ (trace cfg s es).filterMap answeredEntry := by
  induction es generalizing s with
  | nil =>
    obtain rfl : s = s' := Option.some.inj hrun
    simp [trace]
  | cons e es ih =>
    obtain ⟨s₁, hs₁, hrest⟩ := Transition.run_cons_eq_some.mp hrun
    have hstep := Performs.step hs₁
    obtain ⟨hw, ha⟩ := ih hrest
    rw [trace, hs₁]
    simp only [filterMap_append]
    exact ⟨by rw [hw, hstep.written, append_assoc], by rw [ha, hstep.acked, append_assoc]⟩

/-- A thread fills a block, goes on in a second one and flushes. -/
def batchRun : List (Event Bool ℕ) := List.flatten
  [[.invoke false (.write (putWrite 1 8 10 1500000 false)), .preallocate false [2097152, 4194304]],
    .replicate 3 (.advance false),
    [.invoke false (.write (putWrite 2 8 20 1500000 false))], .replicate 6 (.advance false),
    [.invoke false (.write (putWrite 1 8 30 8 true)), .advance false],
    [.invoke false .flush, .advance false]]

end Dinomo
