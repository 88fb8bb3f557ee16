import Mathlib.Algebra.Order.BigOperators.Group.List
import Mathlib.Algebra.Order.Ring.Nat
import Dinomo.Invariant.Step

/-!
# When a write returns

`put`, `remove` and `putReplicated` append in a loop: while the oplog does not fit the rest of the current
block they rotate to the next preallocated block, asking storage for more when the array is empty, and
try again.  A call returns after a bounded number of its own steps exactly when its oplog fits an empty
block; otherwise it rotates and allocates for ever.

The bound is a potential that every step of the thread lowers.  Other threads can raise it only by
changing the cell between the read and the compare-and-swap of `putReplicated`, by one each time.
-/

namespace Dinomo

open List Kn

variable {Tid V : Type*}

/-- The operation that a call appends, if it is one of `put`, `remove` and `putReplicated`. -/
def Call.appends : Call V → Option (Write V)
  | .write w => some w
  | .putReplicated k keyLen v valLen doUpdate => some (putWrite k keyLen v valLen doUpdate)
  | _ => none

/-- The operation that the call of a thread appends. -/
def Ctl.appends : Ctl V → Option (Write V)
  | .write w _ _ => some w
  | .putReplicated w _ => some w
  | _ => none

namespace Kn

/-- How many steps an append can still take. -/
def appendRank (cfg : Config) (n : Kn V) : ℕ :=
  match n.ctl with
  | .write w _ .retry =>
    (if n.tailOffset cfg.batching + w.size ≤ cfg.maxLogBlockLen then 1 else 7) +
      if n.nonReplicatedAlloc = 0 then 3 else 0
  | .write w _ .link => if n.tailOffset cfg.batching + w.size ≤ cfg.maxLogBlockLen then 3 else 9
  | .write w _ .slot => if n.tailOffset cfg.batching + w.size ≤ cfg.maxLogBlockLen then 2 else 8
  | .write _ _ .header => 6
  | .write _ _ .clean => 5
  | .putReplicated w .start =>
    if n.replicatedAlloc = 0 then 3 else if n.replicatedAllocOffset + w.size ≤ cfg.maxLogBlockLen then 1 else 4
  | .putReplicated _ .syncValid => 3
  | .putReplicated _ .newBlock => 2
  | _ => 0

/-- How many steps `putReplicated` can still take after its append, while the cells hold `cells`. -/
def pointerRank (cells : Addr → Option IndexVal) (n : Kn V) : ℕ :=
  match n.ctl with
  | .putReplicated _ .start => 5
  | .putReplicated _ .syncValid => 5
  | .putReplicated _ .newBlock => 5
  | .putReplicated _ .find => 5
  | .putReplicated _ (.readPtr _) => 4
  | .putReplicated _ (.cas c expected) => if cells c = expected then 3 else 4
  | .putReplicated _ (.readOld _ _) => 2
  | .putReplicated _ (.faa _ _ _) => 1
  | _ => 0

/-- A thread that has returned, or is in a call that appends `w`; a block being linked is a block. -/
inductive Appending (w : Write V) (n : Kn V) : Prop
  | idle (h : n.ctl = .idle)
  | write (ret : Bool) (stage : WriteStage) (h : n.ctl = .write w ret stage)
      (halloc : stage = .link ∨ stage = .slot → n.nonReplicatedAlloc ≠ 0)
  | putReplicated (stage : PutReplStage) (h : n.ctl = .putReplicated w stage)

/-- A thread in the append loop of a call. -/
inductive Rotating (w : Write V) (n : Kn V) : Prop
  | write (ret : Bool) (stage : WriteStage) (h : n.ctl = .write w ret stage)
  | putReplicated (stage : PutReplStage) (h : n.ctl = .putReplicated w stage)
      (hstage : stage = .start ∨ stage = .syncValid ∨ stage = .newBlock)

/-- The operation of the call under way. -/
theorem Appending.eq {w w' : Write V} {n : Kn V} (h : n.Appending w) (hctl : n.ctl.appends = some w') : w' = w := by
  cases h with
  | idle h => simp [h, Ctl.appends] at hctl
  | write ret stage h _ => simpa [h, Ctl.appends, eq_comm] using hctl
  | putReplicated stage h => simpa [h, Ctl.appends, eq_comm] using hctl

/-- The operation of the append loop. -/
theorem Rotating.eq {w w' : Write V} {n : Kn V} (h : n.Rotating w) (hctl : n.ctl.appends = some w') : w' = w := by
  cases h with
  | write ret stage h => simpa [h, Ctl.appends, eq_comm] using hctl
  | putReplicated stage h _ => simpa [h, Ctl.appends, eq_comm] using hctl

/-- The append of a call is never more than ten steps from its end. -/
theorem appendRank_le (cfg : Config) (n : Kn V) : n.appendRank cfg ≤ 10 := by
  unfold appendRank
  split <;> first | omega | (split_ifs <;> omega)

/-- The rest of `putReplicated` is never more than five steps from its end. -/
theorem pointerRank_le (cells : Addr → Option IndexVal) (n : Kn V) : n.pointerRank cells ≤ 5 := by
  unfold pointerRank
  split <;> first | omega | (split_ifs <;> omega)

/-- A change of the cells matters to a compare-and-swap only. -/
theorem pointerRank_cells (cells cells' : Addr → Option IndexVal) (n : Kn V) :
    n.pointerRank cells' ≤ n.pointerRank cells + 1 := by
  unfold pointerRank
  split <;> first | omega | (split_ifs <;> omega)

end Kn

/-- Popping yields an address when there is one. -/
theorem popLogBlocksRaddr_ne_zero {l : List Addr} (h : ∃ a ∈ l, a ≠ 0) : (popLogBlocksRaddr l).1 ≠ 0 := by
  obtain ⟨a, ha, h0⟩ := h
  rcases popLogBlocksRaddr_spec l with ⟨-, hnone, -⟩ | ⟨hne, -⟩
  · exact absurd (filter_eq_nil_iff.mp hnone a ha) (by simpa using h0)
  · exact hne

/-- The answer of a storage manager holds an address when the queue holds no zero. -/
theorem Storage.exists_handedOut {st : Storage Tid V} {n : ℕ} (hn : 0 < n) (hqueue : 0 ∉ st.reservedAllocQueue)
    {fresh : List Addr} (hfresh : st.Fresh n fresh) : ∃ a ∈ st.handedOut n fresh, a ≠ 0 := by
  unfold handedOut
  cases hq : st.reservedAllocQueue with
  | nil =>
    have hlen : fresh.length = n := by simpa [hq] using hfresh.1
    obtain ⟨a, ha⟩ := exists_mem_of_length_pos (hlen ▸ hn)
    exact ⟨a, by simpa using ha, (hfresh.2.2 a ha).1⟩
  | cons a l =>
    obtain ⟨n, rfl⟩ := Nat.exists_eq_succ_of_ne_zero hn.ne'
    exact ⟨a, by simp, fun h0 => hqueue (by simp [hq, h0])⟩

/-- The allocator can always answer. -/
theorem Storage.exists_fresh (st : Storage Tid V) (n : ℕ) : ∃ fresh, st.Fresh n fresh := by
  refine ⟨(List.range (n - st.reservedAllocQueue.length)).map (st.allocated.sum + 1 + ·), by simp, ?_, ?_⟩
  · exact nodup_range.map fun a b h => Nat.add_left_cancel h
  · intro a ha
    obtain ⟨i, -, rfl⟩ := mem_map.mp ha
    refine ⟨Nat.succ_add _ _ ▸ Nat.succ_ne_zero _, fun hmem => ?_⟩
    have hle := single_le_sum (fun x _ => Nat.zero_le x) _ hmem
    omega

section Steps

variable [DecidableEq Tid]

/-- The steps of a thread and the answers to its requests. -/
def Event.own (t : Tid) : Event Tid V → Bool
  | .advance t' => t' = t
  | .preallocate t' _ => t' = t
  | _ => false

/-- The answers to the preallocation requests of a thread. -/
def Event.allocates (t : Tid) : Event Tid V → Bool
  | .preallocate t' _ => t' = t
  | _ => false

namespace Cluster

/-- While a call of the thread is under way, storage answers it with at least one block, and the thread
neither crashes nor starts another call. -/
def Answered (cfg : Config) (t : Tid) (s : Cluster Tid V) : Event Tid V → Prop
  | .invoke t' _ => t' ≠ t
  | .crash t' => t' ≠ t
  | .preallocate t' fresh => t' = t → ∃ a ∈ s.st.handedOut cfg.maxPreallocNum fresh, a ≠ 0
  | _ => True

/-- The thread can take a step by itself or with any answer to its preallocation request. -/
def CanGoOn (cfg : Config) (s : Cluster Tid V) (t : Tid) : Prop :=
  (∃ s', s.advance cfg t = some s') ∨
    ∀ fresh, s.st.Fresh cfg.maxPreallocNum fresh → ∃ s', s.preallocate cfg t fresh = some s'

/-- `putReplicated` follows a word that is no indirect pointer, which is not modelled. -/
def Misled (s : Cluster Tid V) (t : Tid) : Prop :=
  match (s.kn t).ctl with
  | .putReplicated w .find =>
    (s.kn t).indirectPointerCache w.key = none ∧ ∃ p, s.st.ht.get w.key = some (.oplog p)
  | .putReplicated _ (.readOld _ expected) => ∀ p, expected ≠ some (.oplog p)
  | .putReplicated _ (.faa _ expected _) => ∀ p, expected ≠ some (.oplog p)
  | _ => False

/-- The call a thread is in returns after a bounded number of steps and requests a bounded number of times
blocks, whatever the others do: it always can go on, and each step of another costs it one more at most. -/
def CallEnds (cfg : Config) (s : Cluster Tid V) (t : Tid) : Prop :=
  ∃ steps requests, ∀ es s', run cfg s es = some s' → Transition.Guarded (step cfg) (Answered cfg t) s es →
    es.countP (Event.own t) ≤ steps + es.countP (fun e => !e.own t) ∧
      es.countP (Event.allocates t) ≤ requests ∧
      ((s'.kn t).ctl = .idle ∨ s'.CanGoOn cfg t ∨ s'.Misled t)

variable {cfg : Config} {s s' : Cluster Tid V} {t : Tid} {w : Write V}

/-- How many steps the call of a thread can still take. -/
def callRank (cfg : Config) (s : Cluster Tid V) (t : Tid) : ℕ :=
  (s.kn t).appendRank cfg + (s.kn t).pointerRank s.st.cells

/-- A thread after a write was staged. -/
theorem append_acknowledge_ctl (s : Cluster Tid V) (cfg : Config) (t : Tid) (w : Write V) (ret : Bool)
    (e : LogEntry Tid V) : (((s.append cfg t w).acknowledge cfg t ret e).kn t).ctl = .idle := by
  unfold acknowledge append
  cases cfg.batching <;> cases ret <;> simp [respondBatched]

/-- A step of `put` or `remove` brings the call nearer to its end. -/
theorem stepWrite_rank (hsize : w.size ≤ cfg.maxLogBlockLen) {ret : Bool} {stage : WriteStage}
    (hctl : (s.kn t).ctl = .write w ret stage)
    (halloc : stage = .link ∨ stage = .slot → (s.kn t).nonReplicatedAlloc ≠ 0)
    (hs' : s.stepWrite cfg t w ret stage = some s') :
    (s'.kn t).Appending w ∧ (s'.kn t).appendRank cfg + 1 ≤ (s.kn t).appendRank cfg ∧
      (s'.kn t).pointerRank s'.st.cells = 0 := by
  cases stage with
  | retry =>
    simp only [stepWrite] at hs'
    split_ifs at hs' with h0 hfit hb
    · cases hs'
      have hidle := append_acknowledge_ctl s cfg t w ret (s.nextEntry cfg t w)
      refine ⟨.idle hidle, ?_, by simp [Kn.pointerRank, hidle]⟩
      simp [Kn.appendRank, hidle, hctl, h0, hfit]
    · cases hs'
      refine ⟨.write ret .header (by simp) (by simp), ?_, by simp [Kn.pointerRank]⟩
      simp [Kn.appendRank, hctl, h0, hfit]
    · cases hs'
      refine ⟨.write ret .clean (by simp) (by simp), ?_, by simp [Kn.pointerRank]⟩
      simp [Kn.appendRank, hctl, h0, hfit]
  | header =>
    cases hs'
    refine ⟨.write ret .clean (by simp) (by simp), ?_, by simp [Kn.pointerRank]⟩
    simp [Kn.appendRank, hctl]
  | clean =>
    cases hs'
    have h0 : (s.kn t).rotate.tailOffset cfg.batching = 0 := by
      unfold Kn.tailOffset Kn.rotate
      split_ifs <;> rfl
    by_cases halloc : (s.kn t).rotate.nonReplicatedAlloc = 0
    · refine ⟨.write true .retry (by simp [halloc]) (by simp), ?_, by simp [Kn.pointerRank]⟩
      simp only [setKn_kn_self, Kn.appendRank, hctl, halloc, if_true, Kn.tailOffset] at h0 ⊢
      simp [h0, hsize]
    · refine ⟨.write true .link (by simp [halloc]) fun _ => by simpa using halloc, ?_, by simp [Kn.pointerRank, halloc]⟩
      simp only [setKn_kn_self, Kn.appendRank, hctl, halloc, if_false, Kn.tailOffset] at h0 ⊢
      simp [h0, hsize]
  | link =>
    cases hs'
    refine ⟨.write ret .slot (by simp) fun _ => by simpa using halloc (.inl rfl), ?_, by simp [Kn.pointerRank]⟩
    simp only [setKn_kn_self, Kn.appendRank, hctl, Kn.tailOffset]
    split_ifs <;> omega
  | slot =>
    cases hs'
    refine ⟨.write ret .retry (by simp) (by simp), ?_, by simp [Kn.pointerRank]⟩
    simp only [setCtl_kn_self, Kn.appendRank, hctl, Kn.tailOffset, if_neg (halloc (.inr rfl))]
    split_ifs <;> omega

/-- A step of `putReplicated` brings the call nearer to its end. -/
theorem stepPutReplicated_rank (hsize : w.size ≤ cfg.maxLogBlockLen) {stage : PutReplStage}
    (hctl : (s.kn t).ctl = .putReplicated w stage) (hs' : s.stepPutReplicated cfg t w stage = some s') :
    (s'.kn t).Appending w ∧ s'.callRank cfg t + 1 ≤ s.callRank cfg t ∧
      (s'.kn t).appendRank cfg ≤ (s.kn t).appendRank cfg := by
  cases stage with
  | start =>
    simp only [stepPutReplicated] at hs'
    split_ifs at hs' with h0 hfit <;> cases hs'
    · refine ⟨.putReplicated .newBlock (by simp), ?_, ?_⟩ <;> simp [callRank, appendRank, pointerRank, hctl, h0]
    · refine ⟨.putReplicated .find (by simp), ?_, ?_⟩ <;>
        simp [callRank, appendRank, pointerRank, hctl, h0, hfit]
    · refine ⟨.putReplicated .syncValid (by simp), ?_, ?_⟩ <;>
        simp [callRank, appendRank, pointerRank, hctl, h0, hfit]
  | syncValid =>
    cases hs'
    refine ⟨.putReplicated .newBlock (by simp), ?_, ?_⟩ <;> simp [callRank, appendRank, pointerRank, hctl]
  | newBlock =>
    simp only [stepPutReplicated] at hs'
    split_ifs at hs' with h0
    cases hs'
    have hoff : (s.kn t).newReplicated.replicatedAllocOffset = 0 := rfl
    refine ⟨.putReplicated .start (by simp), ?_, ?_⟩ <;>
      simp [callRank, appendRank, pointerRank, hctl, h0, hoff, hsize]
  | find =>
    simp only [stepPutReplicated] at hs'
    split at hs'
    · cases hs'
      refine ⟨.putReplicated (.readPtr _) (setCtl_ctl_self ..), ?_, ?_⟩ <;>
        simp [callRank, appendRank, pointerRank, hctl]
    · split at hs'
      · cases hs'
        refine ⟨.idle (by simp), ?_, ?_⟩ <;> simp [callRank, appendRank, pointerRank, hctl]
      · cases hs'
        refine ⟨.putReplicated (.readPtr _) (setCtl_ctl_self ..), ?_, ?_⟩ <;>
          simp [callRank, appendRank, pointerRank, hctl]
      · cases hs'
  | readPtr c =>
    cases hs'
    refine ⟨.putReplicated (.cas _ _) (setCtl_ctl_self ..), ?_, ?_⟩ <;>
      simp [callRank, appendRank, pointerRank, hctl, setCtl, setKn]
  | cas c expected =>
    simp only [stepPutReplicated] at hs'
    split_ifs at hs' with heq <;> cases hs'
    · refine ⟨.putReplicated (.readOld _ _) (setCtl_ctl_self ..), ?_, ?_⟩ <;>
        simp [callRank, appendRank, pointerRank, hctl, heq]
    · refine ⟨.putReplicated (.cas _ _) (setCtl_ctl_self ..), ?_, ?_⟩ <;>
        simp [callRank, appendRank, pointerRank, hctl, heq, setCtl, setKn]
  | readOld c expected =>
    simp only [stepPutReplicated] at hs'
    split at hs'
    · cases hs'
      refine ⟨.putReplicated (.faa _ _ _) (setCtl_ctl_self ..), ?_, ?_⟩ <;>
        simp [callRank, appendRank, pointerRank, hctl]
    · cases hs'
  | faa c expected off =>
    simp only [stepPutReplicated] at hs'
    split at hs'
    · cases hs'
      refine ⟨.idle (by simp [finishReplicated, setKn]), ?_, ?_⟩ <;>
        simp [callRank, appendRank, pointerRank, hctl, finishReplicated, setKn]
    · cases hs'

/-- An answer to a preallocation request brings the call nearer to its end. -/
theorem preallocate_rank (hsize : w.size ≤ cfg.maxLogBlockLen) (h : (s.kn t).Appending w) {fresh : List Addr}
    (hans : ∃ a ∈ s.st.handedOut cfg.maxPreallocNum fresh, a ≠ 0) (hs' : s.preallocate cfg t fresh = some s') :
    (s'.kn t).Appending w ∧ (s'.kn t).appendRank cfg + 1 ≤ (s.kn t).appendRank cfg ∧
      (s'.kn t).pointerRank s'.st.cells = (s.kn t).pointerRank s.st.cells := by
  have hpop := popLogBlocksRaddr_ne_zero hans
  obtain ⟨-, ⟨w', ret, hctl, h0, rfl⟩ | ⟨w', hctl, h0, rfl⟩⟩ := preallocate_cases hs'
  · obtain rfl : w' = w := h.eq (by rw [hctl, Ctl.appends])
    refine ⟨.write ret .link (by simp) fun _ => by simpa using hpop, ?_, by simp [pointerRank, hctl]⟩
    simp only [setKn_kn_self, appendRank, hctl, tailOffset, if_pos h0]
    split_ifs <;> omega
  · obtain rfl : w' = w := h.eq (by rw [hctl, Ctl.appends])
    refine ⟨.putReplicated .start (by simp), ?_, by simp [pointerRank, hctl]⟩
    simp [appendRank, hctl, newReplicated, hpop, hsize]

/-- Every event pays for itself: an own step lowers the rank of the call, any other raises it by one at most;
a preallocation lowers the rank of the append. -/
theorem step_rank (hsize : w.size ≤ cfg.maxLogBlockLen) {e : Event Tid V} (h : (s.kn t).Appending w)
    (hok : s.Answered cfg t e) (hs' : s.step cfg e = some s') :
    (s'.kn t).Appending w ∧
      s'.callRank cfg t + (e.own t).toNat ≤ s.callRank cfg t + (!e.own t).toNat ∧
      (s'.kn t).appendRank cfg + (e.allocates t).toNat ≤ (s.kn t).appendRank cfg := by
  -- the events of others and of the passes leave the thread alone
  have hother : e.own t = false → s'.kn t = s.kn t → (s'.kn t).Appending w ∧
      s'.callRank cfg t + (e.own t).toNat ≤ s.callRank cfg t + (!e.own t).toNat ∧
      (s'.kn t).appendRank cfg + (e.allocates t).toNat ≤ (s.kn t).appendRank cfg := by
    intro hown hkn
    have halloc : e.allocates t = false := by
      cases e <;> simp_all [Event.own, Event.allocates]
    have hcells := (s.kn t).pointerRank_cells s.st.cells s'.st.cells
    simp only [hkn, callRank, hown, halloc, Bool.toNat_false, Bool.not_false, Bool.toNat_true]
    exact ⟨h, by omega, by omega⟩
  by_cases ht : e.tid = t
  swap
  · obtain ⟨n, hn, -⟩ := kn_step hs'
    refine hother ?_ (by rw [hn, Function.update_of_ne (Ne.symm ht)])
    cases e <;> simp_all [Event.own, Event.tid]
  subst ht
  cases e with
  | invoke t c => exact absurd rfl hok
  | crash t => exact absurd rfl hok
  | advance t =>
    simp only [Event.own, Event.allocates, Event.tid, step, advance, decide_true, Bool.toNat_true, Bool.not_true,
      Bool.toNat_false] at h hs' ⊢
    cases h with
    | idle hctl => rw [hctl] at hs'; cases hs'
    | write ret stage hctl halloc =>
      rw [hctl] at hs'
      obtain ⟨happ, hrank, hptr⟩ := stepWrite_rank hsize hctl halloc hs'
      exact ⟨happ, by simp only [callRank, hptr]; omega, by omega⟩
    | putReplicated stage hctl =>
      rw [hctl] at hs'
      obtain ⟨happ, hrank, hle⟩ := stepPutReplicated_rank hsize hctl hs'
      exact ⟨happ, by omega, by omega⟩
  | preallocate t fresh =>
    simp only [Event.own, Event.allocates, Event.tid, step, decide_true, Bool.toNat_true, Bool.not_true,
      Bool.toNat_false] at h hs' ⊢
    obtain ⟨happ, hrank, hptr⟩ := preallocate_rank hsize h (hok rfl) hs'
    exact ⟨happ, by simp only [callRank, hptr]; omega, hrank⟩
  | install t c =>
    cases stepped hs' with
    | install _ _ k hctl _ => cases h with
      | idle h => cases hctl.symm.trans h
      | write ret stage h _ => cases hctl.symm.trans h
      | putReplicated stage h => cases hctl.symm.trans h
  | beginPass t kind =>
    cases stepped hs'
    exact hother rfl rfl
  | passStep t =>
    cases stepped hs'
    exact hother rfl rfl

/-- A thread in a call can go on, by itself or when storage answers. -/
theorem canGoOn_of_appending (h : (s.kn t).Appending w) :
    (s.kn t).ctl = .idle ∨ s.CanGoOn cfg t ∨ s.Misled t := by
  cases h with
  | idle h => exact .inl h
  | write ret stage hctl _ =>
    refine .inr (.inl ?_)
    cases stage with
    | retry =>
      by_cases h0 : (s.kn t).nonReplicatedAlloc = 0
      · refine .inr fun fresh hfresh => ?_
        simp [preallocate, hfresh, hctl, h0]
      · refine .inl ?_
        simp only [advance, hctl, stepWrite, if_neg h0]
        split_ifs <;> exact ⟨_, rfl⟩
    | _ => exact .inl (by simp [advance, hctl, stepWrite])
  | putReplicated stage hctl =>
    refine .inr ?_
    cases stage with
    | start =>
      refine .inl (.inl ?_)
      simp only [advance, hctl, stepPutReplicated]
      split_ifs <;> exact ⟨_, rfl⟩
    | newBlock =>
      refine .inl ?_
      by_cases h0 : (popLogBlocksRaddr (s.kn t).logBlocksRaddrs).1 = 0
      · refine .inr fun fresh hfresh => ?_
        simp [preallocate, hfresh, hctl, h0]
      · exact .inl (by simp [advance, hctl, stepPutReplicated, newReplicated, h0])
    | find =>
      cases hc : (s.kn t).indirectPointerCache w.key with
      | some e => exact .inl (.inl (by simp [advance, hctl, stepPutReplicated, hc]))
      | none =>
        rcases hg : s.st.ht.get w.key with _ | p | c
        · exact .inl (.inl (by simp [advance, hctl, stepPutReplicated, hc, hg]))
        · exact .inr (by simp [Misled, hctl, hc, hg])
        · exact .inl (.inl (by simp [advance, hctl, stepPutReplicated, hc, hg]))
    | cas c expected =>
      refine .inl (.inl ?_)
      simp only [advance, hctl, stepPutReplicated]
      split_ifs <;> exact ⟨_, rfl⟩
    | readOld c expected =>
      rcases expected with _ | p | c'
      · exact .inr (by simp [Misled, hctl])
      · exact .inl (.inl (by simp [advance, hctl, stepPutReplicated]))
      · exact .inr (by simp [Misled, hctl])
    | faa c expected off =>
      rcases expected with _ | p | c'
      · exact .inr (by simp [Misled, hctl])
      · exact .inl (.inl (by simp [advance, hctl, stepPutReplicated]))
      · exact .inr (by simp [Misled, hctl])
    | _ => exact .inl (.inl (by simp [advance, hctl, stepPutReplicated]))

/-- A call whose oplog fits an empty block returns. -/
theorem callEnds_of_fits (hsize : w.size ≤ cfg.maxLogBlockLen) (h : (s.kn t).Appending w) : s.CallEnds cfg t := by
  refine ⟨15, 10, fun es s' hrun hok => ?_⟩
  have hsteps := Transition.countP_le_of_potential (Φ := fun s => s.callRank cfg t) (c := Event.own t)
    (g := fun e => !e.own t) (P := fun s : Cluster Tid V => (s.kn t).Appending w)
    (fun s e s' h hok hs' => ⟨(step_rank hsize h hok hs').1, (step_rank hsize h hok hs').2.1⟩) h hrun hok
  have hreqs := Transition.countP_le_of_potential (Φ := fun s => (s.kn t).appendRank cfg) (c := Event.allocates t)
    (g := fun _ => false) (P := fun s : Cluster Tid V => (s.kn t).Appending w)
    (fun s e s' h hok hs' => ⟨(step_rank hsize h hok hs').1, (step_rank hsize h hok hs').2.2⟩) h hrun hok
  have happ := (s.kn t).appendRank_le cfg
  have hptr := (s.kn t).pointerRank_le s.st.cells
  simp only [callRank] at hsteps
  simp only [countP_false, Function.const, Nat.add_zero] at hreqs
  refine ⟨by omega, by omega, canGoOn_of_appending (w := w) ?_⟩
  exact Transition.invariant_of_guarded (P := fun s : Cluster Tid V => (s.kn t).Appending w)
    (fun s e s' h hok hs' => (step_rank hsize h hok hs').1) h hrun hok

/-- The thread takes a step and is still in the append loop. -/
def TakesTurn (cfg : Config) (s : Cluster Tid V) (t : Tid) (w : Write V) : Prop :=
  ∃ e s', Event.own t e = true ∧ s.Answered cfg t e ∧ s.step cfg e = some s' ∧
    (s'.kn t).Rotating w ∧ 0 ∉ s'.st.reservedAllocQueue

/-- A step of the thread by itself. -/
theorem takesTurn_of_advance (hqueue : 0 ∉ s.st.reservedAllocQueue) (hs' : s.advance cfg t = some s')
    (hrot : (s'.kn t).Rotating w) (hq : s'.st.reservedAllocQueue = s.st.reservedAllocQueue) : s.TakesTurn cfg t w :=
  ⟨.advance t, s', by simp [Event.own], trivial, hs', hrot, hq ▸ hqueue⟩

/-- A call that waits for blocks is answered and takes another turn. -/
theorem exists_step_of_waits (hqueue : 0 ∉ s.st.reservedAllocQueue) (h : (s.kn t).Rotating w)
    (hwait : ∀ fresh, s.st.Fresh cfg.maxPreallocNum fresh → ∃ s', s.preallocate cfg t fresh = some s') :
    s.TakesTurn cfg t w := by
  obtain ⟨fresh, hfresh⟩ := s.st.exists_fresh cfg.maxPreallocNum
  obtain ⟨s', hs'⟩ := hwait fresh hfresh
  have hans := Storage.exists_handedOut cfg.maxPreallocNum_pos hqueue hfresh
  refine ⟨.preallocate t fresh, s', by simp [Event.own], fun _ => hans, hs', ?_⟩
  obtain ⟨-, ⟨w', ret, hctl, -, rfl⟩ | ⟨w', hctl, -, rfl⟩⟩ := preallocate_cases hs'
  · obtain rfl : w' = w := h.eq (by rw [hctl, Ctl.appends])
    exact ⟨.write ret .link (by simp), fun hmem => hqueue (mem_of_mem_drop hmem)⟩
  · obtain rfl : w' = w := h.eq (by rw [hctl, Ctl.appends])
    exact ⟨.putReplicated .start (by simp) (.inl rfl), fun hmem => hqueue (mem_of_mem_drop hmem)⟩

/-- A `put` or `remove` that cannot append takes another turn. -/
theorem exists_step_write (hsize : cfg.maxLogBlockLen < w.size) (hqueue : 0 ∉ s.st.reservedAllocQueue) {ret : Bool}
    {stage : WriteStage} (hctl : (s.kn t).ctl = .write w ret stage) :
    s.TakesTurn cfg t w := by
  have hturn : ∀ s', s.stepWrite cfg t w ret stage = some s' → (s'.kn t).Rotating w →
      s'.st.reservedAllocQueue = s.st.reservedAllocQueue → s.TakesTurn cfg t w := fun s' hs' =>
    takesTurn_of_advance hqueue (by simpa only [advance, hctl] using hs')
  cases stage with
  | retry =>
    by_cases h0 : (s.kn t).nonReplicatedAlloc = 0
    · refine exists_step_of_waits hqueue (.write ret .retry hctl) fun fresh hfresh => ?_
      simp [preallocate, hfresh, hctl, h0]
    · have hfit : ¬ (s.kn t).tailOffset cfg.batching + w.size ≤ cfg.maxLogBlockLen := by omega
      by_cases hb : cfg.batching
      · refine hturn ((s.sendUnflushed t).setCtl t (.write w ret .header)) ?_ (.write ret .header (by simp)) rfl
        simp only [stepWrite, if_neg h0, if_neg hfit, if_pos hb]
      · refine hturn ((s.sendHeader t).setCtl t (.write w ret .clean)) ?_ (.write ret .clean (by simp)) rfl
        simp only [stepWrite, if_neg h0, if_neg hfit, if_neg hb]
  | header => exact hturn _ rfl (.write ret .clean (by simp)) rfl
  | clean => exact hturn _ rfl (.write true _ (congrArg ctl (setKn_kn_self ..))) rfl
  | link => exact hturn _ rfl (.write ret .slot (by simp)) rfl
  | slot => exact hturn _ rfl (.write ret .retry (by simp)) rfl

/-- A `putReplicated` that cannot append takes another turn. -/
theorem exists_step_putReplicated (hsize : cfg.maxLogBlockLen < w.size) (hqueue : 0 ∉ s.st.reservedAllocQueue)
    {stage : PutReplStage} (hctl : (s.kn t).ctl = .putReplicated w stage)
    (hstage : stage = .start ∨ stage = .syncValid ∨ stage = .newBlock) :
    s.TakesTurn cfg t w := by
  have hturn : ∀ s', s.stepPutReplicated cfg t w stage = some s' → (s'.kn t).Rotating w →
      s'.st.reservedAllocQueue = s.st.reservedAllocQueue → s.TakesTurn cfg t w := fun s' hs' =>
    takesTurn_of_advance hqueue (by simpa only [advance, hctl] using hs')
  rcases hstage with rfl | rfl | rfl
  · by_cases h0 : (s.kn t).replicatedAlloc = 0
    · refine hturn (s.setCtl t (.putReplicated w .newBlock)) ?_ (.putReplicated .newBlock (by simp) (by simp)) rfl
      simp only [stepPutReplicated, if_pos h0]
    · have hfit : ¬ (s.kn t).replicatedAllocOffset + w.size ≤ cfg.maxLogBlockLen := by omega
      refine hturn ((s.modBlock (s.kn t).replicatedAlloc fun b =>
          { b with offset := (s.kn t).replicatedAllocOffset }).setCtl t (.putReplicated w .syncValid)) ?_
        (.putReplicated .syncValid (by simp) (by simp)) rfl
      simp only [stepPutReplicated, if_neg h0, if_neg hfit]
  · exact hturn _ rfl (.putReplicated .newBlock (by simp) (by simp)) rfl
  · by_cases h0 : (popLogBlocksRaddr (s.kn t).logBlocksRaddrs).1 = 0
    · refine exists_step_of_waits hqueue (.putReplicated .newBlock hctl (by simp)) fun fresh hfresh => ?_
      simp [preallocate, hfresh, hctl, h0]
    · refine hturn (s.setKn t { (s.kn t).newReplicated with ctl := .putReplicated w .start }) ?_
        (.putReplicated .start (by simp) (by simp)) rfl
      have hne : ¬ (s.kn t).newReplicated.replicatedAlloc = 0 := h0
      simp only [stepPutReplicated, if_neg hne]

/-- A call whose oplog does not fit an empty block takes any number of steps. -/
theorem not_callEnds (hsize : cfg.maxLogBlockLen < w.size) (hqueue : 0 ∉ s.st.reservedAllocQueue)
    (h : (s.kn t).Rotating w) : ¬ s.CallEnds cfg t := by
  rintro ⟨steps, requests, hends⟩
  have hturn : ∀ s : Cluster Tid V, (s.kn t).Rotating w ∧ 0 ∉ s.st.reservedAllocQueue → s.TakesTurn cfg t w := by
    rintro s ⟨⟨ret, stage, hctl⟩ | ⟨stage, hctl, hstage⟩, hqueue⟩
    · exact exists_step_write hsize hqueue hctl
    · exact exists_step_putReplicated hsize hqueue hctl hstage
  obtain ⟨es, s', hlen, hown, hok, hrun⟩ := Transition.exists_run_of_length hturn (steps + 1) ⟨h, hqueue⟩
  obtain ⟨hle, -⟩ := hends es s' hrun hok
  have hall : es.countP (Event.own t) = steps + 1 := by rw [← hlen, countP_eq_length]; exact hown
  have hnone : es.countP (fun e => !e.own t) = 0 := countP_eq_zero.mpr fun e he => by simp [hown e he]
  omega

end Cluster

end Steps

end Dinomo
