import Mathlib.Data.List.Perm.Basic
import Dinomo.WriteProgress

/-!
# No preallocated block is lost

`put`, `remove` and `putReplicated` draw blocks from one array of preallocated addresses, which an answer
of storage replaces as a whole.  `putReplicated` asks for more only when the array is empty, but `put` asks
whenever it has no current block, which the first `put` after a `putReplicated` has not.  A ledger
records the addresses handed to a thread and those it took.  They agree with the array exactly in the
runs in which every answer finds the array empty.
-/

namespace Dinomo

open List Event

variable {Tid V : Type*}

/-- The addresses in a list of preallocated blocks; zero marks a place that was used. -/
def liveRaddrs (l : List Addr) : List Addr := l.filter (· ≠ 0)

/-- Popping moves one address out of the array. -/
theorem liveRaddrs_pop (l : List Addr) :
    liveRaddrs [(popLogBlocksRaddr l).1] ++ liveRaddrs (popLogBlocksRaddr l).2 = liveRaddrs l := by
  unfold liveRaddrs
  rcases popLogBlocksRaddr_spec l with ⟨h0, hnone, hrest⟩ | ⟨hne, hcons⟩
  · rw [h0, hrest]
    simp
  · rw [hcons, filter_cons_of_pos (by simpa using hne), filter_nil, singleton_append]

/-- An array without addresses. -/
theorem liveRaddrs_eq_nil {l : List Addr} : liveRaddrs l = [] ↔ ∀ a ∈ l, a = 0 := by
  simp [liveRaddrs, filter_eq_nil_iff]

section Steps

variable [DecidableEq Tid]

/-- A cluster with the addresses handed to one thread and the addresses it made its current blocks. -/
structure Ledger (Tid V : Type*) where
  cluster : Cluster Tid V
  handed : List Addr
  taken : List Addr

namespace Cluster

/-- The addresses an event hands to a thread. -/
def gives (cfg : Config) (t : Tid) (s : Cluster Tid V) : Event Tid V → List Addr
  | .preallocate t' fresh => if t' = t then s.st.handedOut cfg.maxPreallocNum fresh else []
  | _ => []

/-- The current block a thread has got by an event, if the event gives it one. -/
def takes (t : Tid) (s s' : Cluster Tid V) : Event Tid V → List Addr
  | .advance t' =>
    if t' = t then
      match (s.kn t).ctl with
      | .write _ _ .clean => [(s'.kn t).nonReplicatedAlloc]
      | .putReplicated _ .newBlock => [(s'.kn t).replicatedAlloc]
      | _ => []
    else []
  | .preallocate t' _ =>
    if t' = t then
      match (s.kn t).ctl with
      | .write _ _ _ => [(s'.kn t).nonReplicatedAlloc]
      | _ => [(s'.kn t).replicatedAlloc]
    else []
  | _ => []

/-- An answer of storage finds no address in the array of the thread. -/
def Exhausted (t : Tid) (s : Cluster Tid V) : Event Tid V → Prop
  | .preallocate t' _ => t' = t → ∀ a ∈ (s.kn t).logBlocksRaddrs, a = 0
  | _ => True

instance (t : Tid) (s : Cluster Tid V) (e : Event Tid V) : Decidable (s.Exhausted t e) :=
  match e with
  | .preallocate _ _ => inferInstanceAs (Decidable (_ → _))
  | .invoke _ _ => .isTrue trivial
  | .advance _ => .isTrue trivial
  | .install _ _ => .isTrue trivial
  | .beginPass _ _ => .isTrue trivial
  | .passStep _ => .isTrue trivial
  | .crash _ => .isTrue trivial

end Cluster

namespace Ledger

/-- Before any call. -/
def init (logBuckets : ℕ) : Ledger Tid V := ⟨Cluster.init logBuckets, [], []⟩

/-- One event, entered in the ledger. -/
def step (cfg : Config) (t : Tid) (l : Ledger Tid V) (e : Event Tid V) : Option (Ledger Tid V) :=
  (l.cluster.step cfg e).map fun s' =>
    { cluster := s'
      handed := l.handed ++ liveRaddrs (l.cluster.gives cfg t e)
      taken := l.taken ++ liveRaddrs (l.cluster.takes t s' e) }

/-- A list of events. -/
def run (cfg : Config) (t : Tid) (l : Ledger Tid V) (es : List (Event Tid V)) : Option (Ledger Tid V) :=
  Transition.run (step cfg t) l es

/-- Every address handed to the thread is in the array or was taken, each once. -/
def Accounted (t : Tid) (l : Ledger Tid V) : Prop :=
  l.handed.Perm (liveRaddrs (l.cluster.kn t).logBlocksRaddrs ++ l.taken)

instance (t : Tid) (l : Ledger Tid V) : Decidable (l.Accounted t) :=
  inferInstanceAs (Decidable (List.Perm _ _))

end Ledger

namespace Cluster

variable {cfg : Config} {s s' : Cluster Tid V} {t : Tid}

/-- What an event does to the array of a thread and to its current blocks. -/
inductive Draws (cfg : Config) (t : Tid) (s s' : Cluster Tid V) (e : Event Tid V) : Prop
  | nothing (hother : e.allocates t = false) (htakes : s.takes t s' e = [])
      (hraddrs : (s'.kn t).logBlocksRaddrs = (s.kn t).logBlocksRaddrs)
  | array (hother : e.allocates t = false)
      (htakes : s.takes t s' e = [(popLogBlocksRaddr (s.kn t).logBlocksRaddrs).1])
      (hraddrs : (s'.kn t).logBlocksRaddrs = (popLogBlocksRaddr (s.kn t).logBlocksRaddrs).2)
  | answer (fresh : List Addr) (he : e = .preallocate t fresh)
      (htakes : s.takes t s' e = [(popLogBlocksRaddr (s.gives cfg t e)).1])
      (hraddrs : (s'.kn t).logBlocksRaddrs = (popLogBlocksRaddr (s.gives cfg t e)).2)

/-- The array of a thread that was replaced. -/
theorem raddrs_setKn (s : Cluster Tid V) (t : Tid) (n : Kn V) :
    ((s.setKn t n).kn t).logBlocksRaddrs = n.logBlocksRaddrs := by
  rw [setKn_kn_self]

/-- A change of the control state leaves the array alone. -/
theorem raddrs_setCtl (s : Cluster Tid V) (t : Tid) (c : Ctl V) :
    ((s.setCtl t c).kn t).logBlocksRaddrs = (s.kn t).logBlocksRaddrs := by
  rw [setCtl_kn_self]

/-- Only an answer of storage gives addresses. -/
theorem gives_eq_nil {e : Event Tid V} (h : e.allocates t = false) : s.gives cfg t e = [] := by
  cases e <;> simp_all [gives, allocates]

/-- Only an answer of storage can find addresses in the array. -/
theorem exhausted_of_not_allocates {e : Event Tid V} (h : e.allocates t = false) : s.Exhausted t e := by
  cases e <;> simp_all [Exhausted, allocates]

/-- A step of `put` or `remove` draws a block at the clean-up only. -/
theorem draws_stepWrite {w : Write V} {ret : Bool} {stage : WriteStage} (hctl : (s.kn t).ctl = .write w ret stage)
    (hs' : s.stepWrite cfg t w ret stage = some s') : Draws cfg t s s' (.advance t) := by
  cases stage with
  | retry =>
    simp only [stepWrite] at hs'
    split_ifs at hs' <;> cases hs'
    · refine .nothing rfl (by simp [takes, hctl]) ?_
      unfold acknowledge append
      cases cfg.batching <;> cases ret <;> simp [respondBatched]
    · exact .nothing rfl (by simp [takes, hctl]) (raddrs_setCtl ..)
    · exact .nothing rfl (by simp [takes, hctl]) (raddrs_setCtl ..)
  | header =>
    cases hs'
    refine .nothing rfl (by simp [takes, hctl]) ?_
    simp [publishBatch, sendHeader, modBlock]
  | clean =>
    cases hs'
    exact .array rfl (by simp [takes, hctl, Kn.rotate]) (raddrs_setKn ..)
  | link =>
    cases hs'
    exact .nothing rfl (by simp [takes, hctl]) (raddrs_setKn ..)
  | slot =>
    cases hs'
    exact .nothing rfl (by simp [takes, hctl]) (raddrs_setCtl ..)

/-- A step of `putReplicated` draws a block where it needs a new one. -/
theorem draws_stepPutReplicated {w : Write V} {stage : PutReplStage} (hctl : (s.kn t).ctl = .putReplicated w stage)
    (hs' : s.stepPutReplicated cfg t w stage = some s') : Draws cfg t s s' (.advance t) := by
  by_cases hnew : stage = .newBlock
  · subst hnew
    simp only [stepPutReplicated] at hs'
    split_ifs at hs'
    cases hs'
    exact .array rfl (by simp [takes, hctl, Kn.newReplicated]) (raddrs_setKn ..)
  · obtain ⟨n, h⟩ := stepPutReplicated_aside hs'
    refine .nothing rfl ?_ (by rw [h.kn_self, h.raddrs hnew])
    cases stage <;> simp_all [takes]

/-- Every event draws from the array or from an answer, or leaves both alone. -/
theorem draws_step {e : Event Tid V} (hs' : s.step cfg e = some s') : Draws cfg t s s' e := by
  by_cases ht : e.tid = t
  swap
  · obtain ⟨n, hn, -⟩ := kn_step hs'
    have hkn : s'.kn t = s.kn t := by rw [hn, Function.update_of_ne (Ne.symm ht)]
    refine .nothing ?_ ?_ (by rw [hkn])
    · cases e <;> simp_all [allocates, tid]
    · cases e <;> simp_all [takes, tid]
  subst ht
  cases stepped hs' with
  | invoke t c hctl =>
    obtain ⟨n, h⟩ := invoke_aside cfg hctl c
    exact .nothing rfl rfl (by rw [tid, h.kn_self, h.raddrs])
  | write t w ret stage s' hctl hs' => exact draws_stepWrite hctl hs'
  | flush t after hctl =>
    refine .nothing rfl (by simp [takes, tid, hctl]) ?_
    cases after <;> simp [stepFlush, publishBatch, sendHeader, modBlock, respondBatched, tid]
  | merge t m hctl hreply =>
    obtain ⟨n, h⟩ := s.mergeReply_aside t m
    exact .nothing rfl (by simp [takes, tid, hctl]) (by rw [tid, h.kn_self, h.raddrs])
  | removeIndirect t k st hctl hst => exact .nothing rfl (by simp [takes, tid, hctl]) (raddrs_setCtl ..)
  | putReplicated t w stage s' hctl hs' => exact draws_stepPutReplicated hctl hs'
  | getReplicated t k keyLen stage s' hctl hs' =>
    obtain ⟨n, h⟩ := stepGetReplicated_aside hs'
    exact .nothing rfl (by simp [takes, tid, hctl]) (by rw [tid, h.kn_self, h.raddrs])
  | preallocate t fresh s' hs' =>
    have hgives : s.gives cfg t (.preallocate t fresh) = s.st.handedOut cfg.maxPreallocNum fresh := if_pos rfl
    obtain ⟨-, ⟨w, ret, hctl, -, rfl⟩ | ⟨w, hctl, -, rfl⟩⟩ := preallocate_cases hs'
    · refine .answer fresh rfl ?_ ?_
      · simp [takes, tid, hctl, hgives]
      · simp [tid, hgives]
    · refine .answer fresh rfl ?_ ?_
      · simp [takes, tid, hctl, hgives, Kn.newReplicated]
      · simp [tid, hgives, Kn.newReplicated]
  | install t c k hctl hc => exact .nothing rfl rfl (raddrs_setCtl ..)
  | beginPass t kind st henabled hst => exact .nothing rfl rfl rfl
  | passStep t st hst => exact .nothing rfl rfl rfl
  | crash t => exact .nothing rfl rfl (raddrs_setCtl ..)

end Cluster

namespace Ledger

variable {cfg : Config} {l l' : Ledger Tid V} {t : Tid}

/-- The ledger balances but for the addresses that are lost. -/
def Balanced (t : Tid) (lost : List Addr) (l : Ledger Tid V) : Prop :=
  l.handed.Perm (liveRaddrs (l.cluster.kn t).logBlocksRaddrs ++ l.taken ++ lost)

/-- An event loses what an answer of storage finds in the array, and nothing else. -/
theorem Balanced.step {lost : List Addr} (h : l.Balanced t lost) {e : Event Tid V} (hl' : l.step cfg t e = some l') :
    ∃ lost', l'.Balanced t (lost' ++ lost) ∧ (lost' = [] ↔ l.cluster.Exhausted t e) := by
  obtain ⟨s', hs', rfl⟩ := Option.map_eq_some_iff.mp hl'
  unfold Balanced at h
  obtain ⟨hother, htakes, hraddrs⟩ | ⟨hother, htakes, hraddrs⟩ | ⟨fresh, rfl, htakes, hraddrs⟩ :=
    Cluster.draws_step (t := t) hs'
  · refine ⟨[], ?_, iff_of_true rfl (Cluster.exhausted_of_not_allocates hother)⟩
    simpa [Balanced, Cluster.gives_eq_nil hother, htakes, hraddrs, liveRaddrs] using h
  · refine ⟨[], perm_iff_count.mpr fun a => ?_, iff_of_true rfl (Cluster.exhausted_of_not_allocates hother)⟩
    have hcount := h.count_eq a
    have hpop := congrArg (List.count a) (liveRaddrs_pop (l.cluster.kn t).logBlocksRaddrs)
    simp only [Cluster.gives_eq_nil hother, htakes, hraddrs, count_append] at hcount hpop ⊢
    simp only [liveRaddrs, filter_nil, count_nil] at hcount hpop ⊢
    omega
  · refine ⟨liveRaddrs (l.cluster.kn t).logBlocksRaddrs, perm_iff_count.mpr fun a => ?_, ?_⟩
    · have hcount := h.count_eq a
      have hpop := congrArg (List.count a) (liveRaddrs_pop (l.cluster.gives cfg t (.preallocate t fresh)))
      simp only [htakes, hraddrs, count_append] at hcount hpop ⊢
      omega
    · simp [liveRaddrs_eq_nil, Cluster.Exhausted]

/-- Over a run, addresses are lost exactly when an answer finds some in the array. -/
theorem Balanced.run {lost : List Addr} (h : l.Balanced t lost) {es : List (Event Tid V)}
    (hrun : l.run cfg t es = some l') :
    ∃ lost', l'.Balanced t (lost' ++ lost) ∧
      (lost' = [] ↔ Transition.Guarded (Ledger.step cfg t) (fun l e => l.cluster.Exhausted t e) l es) := by
  -- what one event loses is added in front of what was lost before
  induction es generalizing l lost with
  | nil =>
    cases hrun
    exact ⟨[], h, iff_of_true rfl trivial⟩
  | cons e es ih =>
    obtain ⟨l₁, h₁, hrest⟩ := Transition.run_cons_eq_some.mp hrun
    obtain ⟨lost₁, hbal₁, hiff₁⟩ := h.step h₁
    obtain ⟨lost₂, hbal₂, hiff₂⟩ := ih hbal₁ hrest
    refine ⟨lost₂ ++ lost₁, by rwa [append_assoc], ?_⟩
    simp only [Transition.Guarded, h₁, append_eq_nil_iff]
    rw [hiff₁, hiff₂, and_comm]

/-- Blocks of two thousand bytes, two for each request, with batching off. -/
def sampleConfig : Config := ⟨2000, 2, false, by decide, Nat.two_pos⟩

/-- A thread that writes once and asks storage once. -/
def singlePut : List (Event Unit ℕ) :=
  [.invoke () (.write (putWrite 1 8 7 64 false)), .preallocate () [5000, 9000], .advance (), .advance (), .advance ()]

/-- A thread that starts with `putReplicated`, of a key that is not there, and goes on with `put`. -/
def replicatedFirst : List (Event Unit ℕ) :=
  [.invoke () (.putReplicated 1 8 7 64 false), .advance (), .preallocate () [5000, 9000], .advance (), .advance (),
    .invoke () (.write (putWrite 2 8 7 64 false)), .preallocate () [13000, 17000]]

end Ledger

end Steps

end Dinomo
