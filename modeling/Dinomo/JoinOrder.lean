import Mathlib.Data.List.Perm.Basic
import Dinomo.Join

/-!
# Nodes hand over their keys before a new node announces itself

In the first round of a join every message on its way says something about the threads it comes from: an answer of a
thread comes after its `merge(true)`, and an answer of a node after those of all its threads.  A node is asked once, so
that its thread `0` does not have the new node in its ring when it is, and asks the other threads.
-/

namespace Dinomo

open Function List JoinConfig

/-- The new node is in the first round. -/
def JoinerPhase.isFirst {N : Type*} : JoinerPhase N → Bool
  | .first _ _ => true
  | .firstWaits _ _ => true
  | _ => false

/-- The number of nodes that have been asked in the first round. -/
def JoinerPhase.asked {N : Type*} : JoinerPhase N → ℕ
  | .first rid _ => rid
  | .firstWaits rid _ => rid + 1
  | _ => 0

/-- The number of nodes that have answered in the first round. -/
def JoinerPhase.answered {N : Type*} : JoinerPhase N → ℕ
  | .first rid _ => rid
  | .firstWaits rid _ => rid
  | _ => 0

/-- The message is a request to a thread. -/
def JoinMessage.isRequestTo {N : Type*} [DecidableEq N] (st : ServerThread N) : JoinMessage N → Bool
  | .request dest _ => dest = st
  | .answer _ _ _ => false

open JoinMessage

namespace JoinConfig

variable {K N H L : Type*} [DecidableEq N] [LinearOrder H] [LinearOrder L]
variable {c : JoinConfig K N H L}

omit [LinearOrder L] in
/-- A node is asked once. -/
theorem sync_inj {i j : ℕ} {n : N} (hi : c.sync[i]? = some n) (hj : c.sync[j]? = some n) : i = j := by
  have hnodup : c.sync.Nodup := (HashRing.nodup_eraseDups _).filter _
  exact (List.getElem?_inj (List.getElem?_eq_some_iff.mp hi).1 hnodup).mp (hi.trans hj.symm)

omit [LinearOrder L] in
/-- The new node does not ask itself. -/
theorem ne_of_mem_sync {n : N} (hn : n ∈ c.sync) : n ≠ c.joiner := by
  simpa using (mem_filter.mp hn).2

omit [DecidableEq N] [LinearOrder L] in
/-- The threads of a node that its thread `0` asks. -/
theorem mem_localTids {tid : ℕ} : tid ∈ c.localTids ↔ 1 ≤ tid ∧ tid < c.fleet.params.threadNum := by
  simp only [localTids, mem_range'_1]
  omega

/-- The request of a thread comes from the new node for thread `0`, and from thread `0` for the others. -/
def Addressed (c : JoinConfig K N H L) (st : ServerThread N) (reply : ServerThread N × ℕ) : Prop :=
  if st.tid = 0 then reply.1 = ⟨c.joiner, 0⟩ ∧ c.sync[reply.2]? = some st.node else reply = (⟨st.node, 0⟩, st.tid)

end JoinConfig

namespace Join

variable {K N H L : Type*} [DecidableEq N] [LinearOrder H] [LinearOrder L]
variable {c : JoinConfig K N H L} {s s' : Join K N} {st : ServerThread N}

/-- A thread handles a request: all threads it does not wait for are ready. -/
structure Handling (c : JoinConfig K N H L) (s : Join K N) (st : ServerThread N) (reply : ServerThread N × ℕ)
    (awaited : List ℕ) : Prop where
  node : st.node ≠ c.joiner
  addressed : c.Addressed st reply
  positive : ∀ tid ∈ awaited, 1 ≤ tid
  collected : st.tid = 0 → ∀ tid, 1 ≤ tid → tid < c.fleet.params.threadNum → tid ∉ awaited → s.Ready c ⟨st.node, tid⟩

/-- What a thread does says how far it is. -/
def PhaseOk (c : JoinConfig K N H L) (s : Join K N) (st : ServerThread N) : JoinPhase N → Prop
  | .merging reply awaited => s.joined st = true ∧ s.Handling c st reply awaited
  | .collecting reply awaited _ => s.Ready c st ∧ s.Handling c st reply awaited
  | _ => True

/-- An answer to the new node says that all threads of a node are ready, and an answer to another thread `0` that one
thread is. -/
def MessageOk (c : JoinConfig K N H L) (s : Join K N) : JoinMessage N → Prop
  | .request st reply => st.node ≠ c.joiner ∧ ∃ r, reply = some r ∧ c.Addressed st r
  | .answer st id _ =>
    if st = ⟨c.joiner, 0⟩ then ∀ n, c.sync[id]? = some n → s.NodeReady c n
    else 1 ≤ id ∧ (st.tid = 0 → s.Ready c ⟨st.node, id⟩)

/-- The first round of a join. -/
structure Asking (c : JoinConfig K N H L) (s : Join K N) : Prop where
  first : s.joiner.isFirst = true
  ready : ∀ i < s.joiner.answered, ∀ n, c.sync[i]? = some n → s.NodeReady c n
  once : ∀ i n, c.sync[i]? = some n → s.inFlight.countP (JoinMessage.isRequestTo ⟨n, 0⟩) + (s.joined ⟨n, 0⟩).toNat ≤
    if i < s.joiner.asked then 1 else 0
  phases : ∀ st, s.PhaseOk c st (s.phase st)
  messages : ∀ m ∈ s.inFlight, s.MessageOk c m

section Mono

variable (hready : ∀ st, s.Ready c st → s'.Ready c st)

include hready in
/-- More threads may become ready. -/
theorem Handling.mono {reply : ServerThread N × ℕ} {awaited : List ℕ} (h : s.Handling c st reply awaited) :
    s'.Handling c st reply awaited :=
  ⟨h.node, h.addressed, h.positive, fun htid tid h1 hlt hnot => hready _ (h.collected htid tid h1 hlt hnot)⟩

include hready in
/-- What a thread does stays right. -/
theorem PhaseOk.mono {phase : JoinPhase N} (hjoined : s.joined st = true → s'.joined st = true) (h : s.PhaseOk c st phase) :
    s'.PhaseOk c st phase := by
  cases phase with
  | idle => trivial
  | merging reply awaited => exact ⟨hjoined h.1, h.2.mono hready⟩
  | collecting reply awaited answers => exact ⟨hready st h.1, h.2.mono hready⟩
  | blocked answers => trivial

include hready in
/-- A message stays right. -/
theorem MessageOk.mono {m : JoinMessage N} (h : s.MessageOk c m) : s'.MessageOk c m := by
  cases m with
  | request dest reply => exact h
  | answer dest id sender =>
    simp only [MessageOk] at h ⊢
    split_ifs at h ⊢
    · exact fun n hn tid htid => hready _ (h n hn tid htid)
    · exact ⟨h.1, fun htid => hready _ (h.2 htid)⟩

end Mono

/-- The answer of a thread that is ready and has nothing to wait for. -/
theorem Handling.answer {reply : ServerThread N × ℕ} (h : s.Handling c st reply []) (hst : s.Ready c st) :
    s.MessageOk c (.answer reply.1 reply.2 (some st)) := by
  have haddressed := h.addressed
  unfold Addressed at haddressed
  by_cases htid : st.tid = 0
  · rw [if_pos htid] at haddressed
    simp only [MessageOk, if_pos haddressed.1]
    intro n hn tid hlt
    obtain rfl : st.node = n := Option.some.inj (haddressed.2.symm.trans hn)
    rcases Nat.eq_zero_or_pos tid with rfl | hpos
    · rwa [← htid]
    · exact h.collected htid tid hpos hlt not_mem_nil
  · rw [if_neg htid] at haddressed
    have hne : (⟨st.node, 0⟩ : ServerThread N) ≠ ⟨c.joiner, 0⟩ := fun heq => h.node (congrArg ServerThread.node heq)
    simp only [MessageOk, haddressed, if_neg hne]
    exact ⟨Nat.pos_of_ne_zero htid, fun _ => hst⟩

/-- Before a node joins. -/
theorem asking_init : (init c : Join K N).Asking c where
  first := rfl
  ready i hi := absurd hi (Nat.not_lt_zero i)
  once i n hn := by simp [init, ne_of_mem_sync (mem_of_getElem? hn)]
  phases st := trivial
  messages m hm := absurd hm not_mem_nil

section Steps

/-- A change of the logs. -/
theorem Asking.withLogs (h : s.Asking c) {logs : ServerThread N → List K}
    (hready : ∀ st, s.Ready c st → ({ s with logs := logs } : Join K N).Ready c st) :
    ({ s with logs := logs } : Join K N).Asking c where
  first := h.first
  ready i hi n hn tid hlt := hready _ (h.ready i hi n hn tid hlt)
  once := h.once
  phases st := (h.phases st).mono hready id
  messages m hm := (h.messages m hm).mono hready

/-- A thread that is ready and has nothing to wait for answers. -/
theorem Asking.respond (h : s.Asking c) {reply : ServerThread N × ℕ} (hhandling : s.Handling c st reply [])
    (hst : s.Ready c st) (answers : List (ServerThread N)) : (s.respond st reply answers).Asking c := by
  have hready : ∀ st', s.Ready c st' → (s.respond st reply answers).Ready c st' := fun _ h => h.of_same ⟨rfl, rfl, rfl⟩
  refine ⟨h.first, fun i hi n hn tid hlt => hready _ (h.ready i hi n hn tid hlt), fun i n hn => ?_, fun st' => ?_,
    fun m hm => ?_⟩
  · have hcount : (s.respond st reply answers).inFlight.countP (isRequestTo ⟨n, 0⟩) =
        s.inFlight.countP (isRequestTo ⟨n, 0⟩) := by
      simp [Join.respond, countP_append, isRequestTo]
    rw [hcount]
    exact h.once i n hn
  · by_cases hne : st' = st
    · simp only [Join.respond, hne, update_self]
      trivial
    · simp only [Join.respond, update_of_ne hne]
      exact (h.phases st').mono hready id
  · rcases mem_append.mp hm with hm | hm
    · exact (h.messages m hm).mono hready
    · rw [mem_singleton.mp hm]
      exact (hhandling.answer hst).mono hready

/-- A thread that is ready waits for others. -/
theorem Asking.collect (h : s.Asking c) {reply : ServerThread N × ℕ} {awaited : List ℕ}
    (hhandling : s.Handling c st reply awaited) (hst : s.Ready c st) (answers : List (ServerThread N)) :
    ({ s with phase := update s.phase st (.collecting reply awaited answers) } : Join K N).Asking c := by
  have hready : ∀ st', s.Ready c st' →
      ({ s with phase := update s.phase st (.collecting reply awaited answers) } : Join K N).Ready c st' :=
    fun _ h => h.of_same ⟨rfl, rfl, rfl⟩
  refine ⟨h.first, fun i hi n hn tid hlt => hready _ (h.ready i hi n hn tid hlt), h.once, fun st' => ?_,
    fun m hm => (h.messages m hm).mono hready⟩
  by_cases hne : st' = st
  · simp only [hne, update_self]
    exact ⟨hready st hst, hhandling.mono hready⟩
  · simp only [update_of_ne hne]
    exact (h.phases st').mono hready id

/-- A thread finishes `merge(true)`. -/
theorem Asking.finishMerge (h : s.Asking c) {reply : ServerThread N × ℕ} {awaited : List ℕ}
    (hphase : s.phase st = .merging reply awaited) : (s.finishMerge st reply awaited).Asking c := by
  obtain ⟨hjoined, hhandling⟩ : s.joined st = true ∧ s.Handling c st reply awaited := by
    have hok := h.phases st
    rwa [hphase] at hok
  set s₁ : Join K N := { s with merged := update s.merged st true, logs := update s.logs st [] } with hs₁
  have hready : ∀ st', s.Ready c st' → s₁.Ready c st' := fun st' hst' =>
    (hst'.finishMerge st reply awaited).of_same (by unfold Join.finishMerge; split_ifs <;> exact ⟨rfl, rfl, rfl⟩)
  have hst : s₁.Ready c st := (ready_finishMerge hjoined reply awaited).of_same
    (by unfold Join.finishMerge; split_ifs <;> exact ⟨rfl, rfl, rfl⟩)
  have hasking : s₁.Asking c :=
    ⟨h.first, fun i hi n hn tid hlt => hready _ (h.ready i hi n hn tid hlt), h.once,
      fun st' => (h.phases st').mono hready id, fun m hm => (h.messages m hm).mono hready⟩
  have hhandling₁ : s₁.Handling c st reply awaited := hhandling.mono hready
  unfold Join.finishMerge
  split_ifs with hnil
  · subst hnil
    exact hasking.respond hhandling₁ hst []
  · exact hasking.collect hhandling₁ hst []

/-- The new node asks the next node. -/
theorem Asking.ask (h : s.Asking c) {rid : ℕ} {answers : List (ServerThread N)} (hjoiner : s.joiner = .first rid answers)
    {n : N} (hn : c.sync[rid]? = some n) :
    ({ s with
      joiner := .firstWaits rid answers
      inFlight := s.inFlight ++ [.request ⟨n, 0⟩ (some (⟨c.joiner, 0⟩, rid))] } : Join K N).Asking c := by
  set s₁ : Join K N := { s with
    joiner := .firstWaits rid answers
    inFlight := s.inFlight ++ [.request ⟨n, 0⟩ (some (⟨c.joiner, 0⟩, rid))] } with hs₁
  have hready : ∀ st', s.Ready c st' → s₁.Ready c st' := fun _ h => h.of_same ⟨rfl, rfl, rfl⟩
  have hanswered : ∀ i < rid, ∀ m, c.sync[i]? = some m → s.NodeReady c m := by
    have hr := h.ready
    rwa [hjoiner] at hr
  refine ⟨rfl, fun i hi m hm tid hlt => hready _ (hanswered i hi m hm tid hlt), fun i m hm => ?_,
    fun st' => (h.phases st').mono hready id, fun m hm => ?_⟩
  · have honce := h.once i m hm
    rw [hjoiner] at honce
    simp only [hs₁, JoinerPhase.asked, countP_append, countP_singleton, isRequestTo] at honce ⊢
    by_cases hi : i = rid
    · subst hi
      obtain rfl : n = m := Option.some.inj (hn.symm.trans hm)
      simp only [lt_irrefl, if_false] at honce
      simp only [decide_true, if_true, Nat.lt_succ_self]
      omega
    · -- the nodes before and after this one are not asked now
      have hne : (⟨n, 0⟩ : ServerThread N) ≠ ⟨m, 0⟩ := fun heq =>
        hi (sync_inj hm ((ServerThread.mk.inj heq).1 ▸ hn))
      have hlt : i < rid + 1 ↔ i < rid := by omega
      simp only [hne, decide_false, Bool.false_eq_true, if_false, hlt, Nat.add_zero]
      exact honce
  · rcases mem_append.mp hm with hm | hm
    · exact (h.messages m hm).mono hready
    · rw [mem_singleton.mp hm]
      exact ⟨ne_of_mem_sync (mem_of_getElem? hn), _, rfl, by simp [Addressed, hn]⟩

/-- A message is taken off its way. -/
theorem Asking.withoutMessage (h : s.Asking c) (i : ℕ) :
    ({ s with inFlight := s.inFlight.eraseIdx i } : Join K N).Asking c := by
  have hready : ∀ st', s.Ready c st' → ({ s with inFlight := s.inFlight.eraseIdx i } : Join K N).Ready c st' :=
    fun _ h => h.of_same ⟨rfl, rfl, rfl⟩
  refine ⟨h.first, fun i hi m hm tid hlt => hready _ (h.ready i hi m hm tid hlt), fun j n hn => ?_,
    fun st' => (h.phases st').mono hready id, fun m hm => (h.messages m (mem_of_mem_eraseIdx hm)).mono hready⟩
  have hle : (s.inFlight.eraseIdx i).countP (isRequestTo ⟨n, 0⟩) ≤
      s.inFlight.countP (isRequestTo ⟨n, 0⟩) := (eraseIdx_sublist s.inFlight i).countP_le
  exact (Nat.add_le_add_right hle _).trans (h.once j n hn)

/-- A thread gets a request. -/
theorem Asking.handleRequest (h : s.Asking c) {i : ℕ} {reply : Option (ServerThread N × ℕ)}
    (hm : s.inFlight[i]? = some (.request st reply)) :
    (Join.handleRequest c { s with inFlight := s.inFlight.eraseIdx i } st reply).Asking c := by
  obtain ⟨hnode, r, rfl, haddressed⟩ := h.messages _ (mem_of_getElem? hm)
  have hrest := h.withoutMessage i
  set s₁ : Join K N := { s with inFlight := s.inFlight.eraseIdx i } with hs₁
  have hready : ∀ st', s₁.Ready c st' → (s₁.handleRequest c st (some r)).Ready c st' := fun _ h => h.handleRequest st _
  have hperm : (request st (some r) :: s₁.inFlight).Perm s.inFlight := by
    obtain ⟨hi, heq⟩ := List.getElem?_eq_some_iff.mp hm
    rw [← heq]
    exact getElem_cons_eraseIdx_perm hi
  -- the node of a thread `0` has been asked, and has no other request on its way
  have hzero : st.tid = 0 → s.joined st = false ∧ s₁.inFlight.countP (isRequestTo st) = 0 := by
    intro htid
    rw [Addressed, if_pos htid] at haddressed
    have honce := h.once r.2 st.node haddressed.2
    have hst : (⟨st.node, 0⟩ : ServerThread N) = st := by rw [← htid]
    rw [hst, ← hperm.countP_eq, countP_cons_of_pos (by simp [isRequestTo])] at honce
    split_ifs at honce
    · cases hj : s.joined st with
      | false =>
        rw [hj, Bool.toNat_false] at honce
        exact ⟨rfl, by omega⟩
      | true =>
        rw [hj, Bool.toNat_true] at honce
        omega
    · omega
  refine ⟨h.first, fun i hi m hm tid hlt => hready _ (hrest.ready i hi m hm tid hlt), fun j n hn => ?_, fun st' => ?_,
    fun m hm => ?_⟩
  · have hnew : ((if st.tid = 0 ∧ s₁.joined st = false then c.localTids else []).map fun tid =>
        request ⟨st.node, tid⟩ (some (st, tid))).countP (isRequestTo ⟨n, 0⟩) = 0 := by
      rw [countP_eq_zero]
      intro m hm
      obtain ⟨tid, htid, rfl⟩ := mem_map.mp hm
      split_ifs at htid
      · have hpos := (mem_localTids.mp htid).1
        simp only [isRequestTo, ServerThread.mk.injEq, decide_eq_true_eq]
        omega
      · cases htid
    have hcount : (s₁.handleRequest c st (some r)).inFlight.countP (isRequestTo ⟨n, 0⟩) =
        s₁.inFlight.countP (isRequestTo ⟨n, 0⟩) := by
      rw [Join.handleRequest, countP_append]
      exact Nat.add_eq_left.mpr hnew
    rw [hcount]
    by_cases hst : (⟨n, 0⟩ : ServerThread N) = st
    · have htid : st.tid = 0 := by rw [← hst]
      have honce := h.once j n hn
      rw [hst, ← hperm.countP_eq, countP_cons_of_pos (by simp [isRequestTo])] at honce
      have hjoined : (s₁.handleRequest c st (some r)).joined st = true := update_self _ _ _
      rw [hst, (hzero htid).2, hjoined, Bool.toNat_true]
      exact le_trans (by omega) honce
    · simp only [Join.handleRequest, update_of_ne hst]
      exact hrest.once j n hn
  · by_cases hne : st' = st
    · simp only [Join.handleRequest, hne, update_self]
      refine ⟨update_self _ _ _, hnode, haddressed, fun tid htid => ?_, fun htid tid hpos hlt hnot => ?_⟩
      · split_ifs at htid
        · exact (mem_localTids.mp htid).1
        · cases htid
      · rw [if_pos ⟨htid, (hzero htid).1⟩] at hnot
        exact absurd (mem_localTids.mpr ⟨hpos, hlt⟩) hnot
    · simp only [Join.handleRequest, update_of_ne hne]
      exact (hrest.phases st').mono hready fun hj => by simpa only [Join.handleRequest, update_of_ne hne] using hj
  · rcases mem_append.mp hm with hm | hm
    · exact (hrest.messages m hm).mono hready
    · obtain ⟨tid, htid, rfl⟩ := mem_map.mp hm
      split_ifs at htid with hasks
      · have hpos := (mem_localTids.mp htid).1
        have hst : st = ⟨st.node, 0⟩ := by rw [← hasks.1]
        refine ⟨hnode, (st, tid), rfl, ?_⟩
        rw [Addressed, if_neg (Nat.pos_iff_ne_zero.mp hpos), ← hst]
      · cases htid

/-- The new node takes an answer in the first round. -/
theorem Asking.takeJoinerAnswer (h : s.Asking c) {i id : ℕ} {sender : Option (ServerThread N)}
    (hm : s.inFlight[i]? = some (.answer ⟨c.joiner, 0⟩ id sender))
    (hstep : Join.takeJoinerAnswer c { s with inFlight := s.inFlight.eraseIdx i } id sender = some s') :
    s'.Asking c ∧ s'.announced = s.announced := by
  have hok := h.messages _ (mem_of_getElem? hm)
  simp only [MessageOk, if_true] at hok
  have hrest := h.withoutMessage i
  have hfirst := h.first
  unfold Join.takeJoinerAnswer at hstep
  cases hjoiner : s.joiner with
  | first rid answers => simp [hjoiner] at hstep
  | second => simp [hjoiner, JoinerPhase.isFirst] at hfirst
  | secondWaits awaited answers => simp [hjoiner, JoinerPhase.isFirst] at hfirst
  | done => simp [hjoiner] at hstep
  | firstWaits rid answers =>
    simp only [hjoiner] at hstep
    split_ifs at hstep with hid
    · subst hid
      cases hstep
      have hmono : ∀ st', Ready c { s with inFlight := s.inFlight.eraseIdx i } st' →
          Ready c { s with inFlight := s.inFlight.eraseIdx i, joiner := .first (id + 1) (answers ++ sender.toList) } st' :=
        fun _ h => h.of_same ⟨rfl, rfl, rfl⟩
      refine ⟨⟨rfl, fun j hj n hn tid hlt => ?_, fun j n hn => ?_, fun st' => (hrest.phases st').mono hmono fun h => h,
        fun m hm => (hrest.messages m hm).mono hmono⟩, rfl⟩
      · have hready : s.Ready c ⟨n, tid⟩ := by
          by_cases hlast : j = id
          · exact hok n (hlast ▸ hn) tid hlt
          · have hbefore := h.ready j
            rw [hjoiner] at hbefore
            exact hbefore (lt_of_le_of_ne (Nat.le_of_lt_succ hj) hlast) n hn tid hlt
        exact hready.of_same ⟨rfl, rfl, rfl⟩
      · have honce := hrest.once j n hn
        simp only [hjoiner] at honce
        exact honce
    · cases hstep
      exact ⟨hjoiner ▸ hrest, rfl⟩

/-- A thread of a node takes an answer. -/
theorem Asking.takeAnswer (h : s.Asking c) {i id : ℕ} {sender : Option (ServerThread N)} (hst : st ≠ ⟨c.joiner, 0⟩)
    (hm : s.inFlight[i]? = some (.answer st id sender))
    (hstep : Join.takeAnswer { s with inFlight := s.inFlight.eraseIdx i } st id sender = some s') :
    s'.Asking c ∧ s'.announced = s.announced := by
  have hok := h.messages _ (mem_of_getElem? hm)
  simp only [MessageOk, if_neg hst] at hok
  have hrest := h.withoutMessage i
  have hphase := hrest.phases st
  unfold Join.takeAnswer at hstep
  set s₁ : Join K N := { s with inFlight := s.inFlight.eraseIdx i } with hs₁
  have hid : s₁.Ready c ⟨st.node, id⟩ ∨ st.tid ≠ 0 := by
    by_cases htid : st.tid = 0
    · exact .inl ((hok.2 htid).of_same ⟨rfl, rfl, rfl⟩)
    · exact .inr htid
  cases hp : s₁.phase st with
  | idle => simp [hp] at hstep
  | merging reply awaited => simp [hp] at hstep
  | collecting reply awaited answers =>
    simp only [hp] at hstep hphase
    obtain ⟨hready, hhandling⟩ := hphase
    have hnext : s₁.Handling c st reply (awaited.erase id) := by
      refine ⟨hhandling.node, hhandling.addressed, fun tid htid => hhandling.positive tid (mem_of_mem_erase htid),
        fun hzero tid hpos hlt hnot => ?_⟩
      by_cases heq : tid = id
      · exact heq ▸ hid.resolve_right (not_not.mpr hzero)
      · exact hhandling.collected hzero tid hpos hlt fun hin => hnot ((mem_erase_of_ne heq).mpr hin)
    split_ifs at hstep with hin hnil
    · rw [← Option.some.inj hstep]
      exact ⟨hrest.respond (hnil ▸ hnext) hready _, rfl⟩
    · rw [← Option.some.inj hstep]
      exact ⟨hrest.collect hnext hready _, rfl⟩
    · rw [← Option.some.inj hstep]
      exact ⟨hrest, rfl⟩
  | blocked answers =>
    simp only [hp, Nat.pos_iff_ne_zero.mp hok.1, if_false] at hstep
    rw [← Option.some.inj hstep]
    exact ⟨hrest, rfl⟩

end Steps

/-- Either the first round goes on and nothing has been announced, or the nodes that were asked are ready. -/
inductive Inv (c : JoinConfig K N H L) (s : Join K N) : Prop
  | asking (hannounced : s.announced = false) (hasking : s.Asking c)
  | ready (hready : ∀ n ∈ c.sync, s.NodeReady c n)

/-- The new node goes on in the first round, or ends it. -/
theorem Asking.stepJoiner (h : s.Asking c) (hannounced : s.announced = false) (hstep : s.stepJoiner c = some s') :
    s'.Inv c := by
  have hfirst := h.first
  unfold Join.stepJoiner at hstep
  cases hjoiner : s.joiner with
  | second => simp [hjoiner, JoinerPhase.isFirst] at hfirst
  | firstWaits rid answers => simp [hjoiner] at hstep
  | secondWaits awaited answers => simp [hjoiner] at hstep
  | done => simp [hjoiner] at hstep
  | first rid answers =>
    simp only [hjoiner] at hstep
    cases hn : c.sync[rid]? with
    | some n =>
      simp only [hn] at hstep
      cases hstep
      exact .asking hannounced (h.ask hjoiner hn)
    | none =>
      -- all nodes have answered
      simp only [hn] at hstep
      cases hstep
      refine .ready fun n hmem tid hlt => ?_
      obtain ⟨i, hi⟩ := mem_iff_getElem?.mp hmem
      have hready := h.ready i
      rw [hjoiner] at hready
      have hlength : i < rid := lt_of_lt_of_le (List.getElem?_eq_some_iff.mp hi).1 (List.getElem?_eq_none_iff.mp hn)
      exact (hready hlength n hi tid hlt).of_same ⟨rfl, rfl, rfl⟩

/-- Every event keeps the order. -/
theorem Inv.step {e : JoinEvent K N} (h : s.Inv c) (hstep : s.step c e = some s') : s'.Inv c := by
  have hready : ∀ st, s.Ready c st → s'.Ready c st := fun st hst => hst.step hstep
  cases h with
  | ready hall => exact .ready fun n hn tid hlt => hready _ (hall n hn tid hlt)
  | asking hannounced hasking =>
    cases e with
    | put st k =>
      simp only [Join.step] at hstep
      split_ifs at hstep
      · cases hstep
        exact .asking hannounced (hasking.withLogs hready)
      · cases hstep
        exact .asking hannounced hasking
    | mergeLog st count =>
      simp only [Join.step] at hstep
      cases hstep
      exact .asking hannounced (hasking.withLogs hready)
    | finishMerge st =>
      simp only [Join.step] at hstep
      cases hphase : s.phase st with
      | merging reply awaited =>
        simp only [hphase] at hstep
        cases hstep
        refine .asking ?_ (hasking.finishMerge hphase)
        unfold Join.finishMerge
        split_ifs <;> exact hannounced
      | idle => simp [hphase] at hstep
      | collecting reply awaited answers => simp [hphase] at hstep
      | blocked answers => simp [hphase] at hstep
    | joiner => exact hasking.stepJoiner hannounced hstep
    | gossip n => simp [Join.step, hannounced] at hstep
    | deliver i =>
      simp only [Join.step] at hstep
      cases hm : s.inFlight[i]? with
      | none => simp [hm] at hstep
      | some m =>
        simp only [hm] at hstep
        cases m with
        | request st reply =>
          simp only [receive] at hstep
          split_ifs at hstep
          cases hstep
          exact .asking hannounced (hasking.handleRequest hm)
        | answer st id sender =>
          simp only [receive] at hstep
          split_ifs at hstep with hst
          · subst hst
            obtain ⟨hnext, hsame⟩ := hasking.takeJoinerAnswer hm hstep
            exact .asking (hsame.trans hannounced) hnext
          · obtain ⟨hnext, hsame⟩ := hasking.takeAnswer hst hm hstep
            exact .asking (hsame.trans hannounced) hnext

/-- A node that owned a key that the new node now owns is asked. -/
theorem mem_sync {h : H} {n : N} (hold : c.ring.find h = some n) (hnew : c.newRing.find h = some c.joiner) : n ∈ c.sync := by
  have hring : c.newRing =
      c.ring.insertAll ((List.range c.fleet.virtualThreads).map (c.fleet.hash.globalThread c.joiner)) c.joiner := by
    rw [HashRing.insertAll, foldl_map]
    rfl
  rw [hring] at hnew
  obtain ⟨h', hh', hnext⟩ := HashRing.next_of_find_insertAll c.fresh hold hnew
  obtain ⟨v, hv, rfl⟩ := mem_map.mp hh'
  rw [← hring] at hnext
  have hne : n ≠ c.joiner := by
    obtain ⟨x, hx, rfl⟩ := Option.map_eq_some_iff.mp hold
    refine c.fresh x ?_
    rcases mem_append.mp (mem_of_mem_head? hx) with hx | hx
    · exact mem_of_mem_filter hx
    · exact mem_of_mem_filter hx
  refine mem_filter.mpr ⟨mem_eraseDups.mpr (mem_filterMap.mpr ⟨v, hv, hnext⟩), by simpa using hne⟩

/-- A thread serves a key with one replica if the ring of the nodes and the one of the threads place the key there. -/
theorem mem_threads {r : HashRing H N} {k : K} (hglobal : (c.factors k).globalReplication .memory = 1)
    (hlocal : (c.factors k).localReplication .memory = 1) : st ∈ c.threads r k ↔
      r.find (c.fleet.hash.globalKey k) = some st.node ∧ c.fleet.localRing.find (c.fleet.hash.localKey k) = some st.tid := by
  rw [threads, mem_threadsFor hlocal, hglobal, responsibleGlobal, HashRing.mem_responsible_one]

end Join

/-- By the time the new node has announced itself, and from then on, every thread that owned a key with one replica that
the new node now owns has finished `merge(true)` and refuses the key. -/
theorem join_hands_over {K N H L : Type*} [DecidableEq N] [LinearOrder H] [LinearOrder L] (c : JoinConfig K N H L)
    (es : List (JoinEvent K N)) (s : Join K N) (hrun : Join.run c es = some s) (hannounced : s.announced = true) :
    s.HandedOver c := by
  have hinit : (Join.init c : Join K N).Inv c := .asking rfl Join.asking_init
  have hinv : s.Inv c := Transition.invariant hrun hinit fun _ _ _ h hstep => h.step hstep
  intro st k hglobal hlocal hold hnew
  rw [Join.mem_threads hglobal hlocal] at hold
  obtain ⟨tid, hnew⟩ := hnew
  rw [Join.mem_threads hglobal hlocal] at hnew
  cases hinv with
  | asking hfalse _ => exact absurd (hannounced.symm.trans hfalse) (by decide)
  | ready hready =>
    have hst : s.Ready c st :=
      hready st.node (Join.mem_sync hold.1 hnew.1) st.tid (Fleet.tid_lt_of_localRing hold.2)
    have hnode : st.node ≠ c.joiner := JoinConfig.ne_of_mem_sync (Join.mem_sync hold.1 hnew.1)
    have hnot : st ∉ c.threads c.newRing k := by
      rw [Join.mem_threads hglobal hlocal]
      exact fun hin => hnode (Option.some.inj (hin.1.symm.trans hnew.1))
    refine ⟨hst.merged, ?_, fun hk => hnot (hst.logs k hk)⟩
    rwa [Join.Serves, Join.ringOf, if_pos hst.joined]

/-- A node with two threads and a new node before it in the ring; all keys move to the new node. -/
def joinPair : JoinConfig ℕ ℕ ℕ ℕ where
  fleet := ⟨⟨fun _ => 1, 1, 2⟩, ⟨fun _ => 0, fun n _ => n, id, fun tid _ => tid⟩, 1⟩
  factors _ := ⟨fun _ => 1, fun _ => 1⟩
  ring := HashRing.empty.insert 1 1
  servers := [1]
  joiner := 0
  fresh := by decide

/-- A key is written, the node is asked and hands over its keys, the new node announces itself, and a thread of the node
gets another request for the key when it has been told to go on. -/
def joinRun : List (JoinEvent ℕ ℕ) :=
  [.put ⟨1, 1⟩ 1, .joiner, .deliver 0, .finishMerge ⟨1, 0⟩, .deliver 0, .finishMerge ⟨1, 1⟩, .deliver 0, .deliver 0,
    .joiner, .deliver 0, .deliver 0, .put ⟨1, 1⟩ 1]

/-- The key had belonged to the thread and is handed over. -/
theorem join_hands_over_joinRun : ⟨1, 1⟩ ∈ joinPair.threads joinPair.ring 1 ∧ ⟨0, 1⟩ ∈ joinPair.threads joinPair.newRing 1 ∧
    ∃ s, Join.run joinPair joinRun = some s ∧ s.announced = true ∧ s.HandedOver joinPair :=
  ⟨by decide, by decide, _, rfl, rfl, join_hands_over joinPair joinRun _ rfl rfl⟩

end Dinomo
