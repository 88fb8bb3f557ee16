import Mathlib.Data.List.Perm.Basic
import Dinomo.Replication
import Dinomo.Library.Transition

/-!
# Requests and responses between threads

Every thread has one socket for the responses to its requests, whatever protocol they belong to.  A request
carries an identifier made of the thread's response address and a small number, and the response repeats it.
`receive` takes a message from the socket for the response to one of its requests if the identifier is among
those it waits for, and gives up after as many timeouts as it has made requests; `make_request` is a `receive`
with one request.  Messages may be delayed without bound.  `serial` numbers the requests of all threads and is
not part of the messages.
-/

namespace Dinomo

open Function List

/-- The calls that wait for responses: a joining node to one node or to several at once, thread `0` to the other
threads of its node about a join, a thread that has answered a joining node, thread `0` to another thread of its
node about new replication factors, and the monitor about new factors. -/
inductive CallKind
  | joinNode (rid : ℕ)
  | joinNodes (count : ℕ)
  | localJoin
  | unblock
  | localChange (tid : ℕ)
  | changeFactors (count : ℕ)
deriving DecidableEq, Repr

/-- The numbers in the identifiers of the requests of a call; only the monitor goes on from where it was. -/
def CallKind.numbers (threadNum rid : ℕ) : CallKind → List ℕ
  | .joinNode rid => [rid]
  | .joinNodes count => List.range count
  | .localJoin => List.range' 1 (threadNum - 1)
  | .unblock => [0]
  | .localChange tid => [tid]
  | .changeFactors count => List.range' rid count

/-- The `rid` of a thread after a call. -/
def CallKind.nextRid (rid : ℕ) : CallKind → ℕ
  | .changeFactors count => rid + count
  | _ => rid

/-- A request on its way, or its response. -/
structure Message (T : Type*) where
  requester : T
  number : ℕ
  serial : ℕ
deriving DecidableEq, Repr

/-- A thread in `receive`: the requests whose responses it waits for, and the timeouts it allows. -/
structure Waiting where
  awaited : List (ℕ × ℕ)
  timeoutLimit : ℕ
deriving DecidableEq, Repr

/-- The requests and responses of all threads.  `accepted` lists the responses that were taken, each with the serial
number of the request it was taken for. -/
structure Exchange (T : Type*) where
  waiting : T → Option Waiting
  rid : T → ℕ
  serial : ℕ
  requests : List (Message T)
  responses : List (Message T)
  accepted : List (Message T × ℕ)

/-- What can happen. -/
inductive ExchangeEvent (T : Type*)
  | call (th : T) (kind : CallKind)
  | answer (i : ℕ)
  | receive (j : ℕ)
  | timeout (th : T)
deriving DecidableEq, Repr

namespace Exchange

variable {T : Type*}

/-- Nothing is on its way. -/
def init : Exchange T := ⟨fun _ => none, fun _ => 0, 0, [], [], []⟩

variable [DecidableEq T]

/-- The requests of a call with the numbers of their identifiers. -/
def awaitedOf (serial : ℕ) (numbers : List ℕ) : List (ℕ × ℕ) := numbers.zip (List.range' serial numbers.length)

/-- A thread sends its requests and waits. -/
def call (s : Exchange T) (threadNum : ℕ) (th : T) (kind : CallKind) : Exchange T :=
  let awaited := awaitedOf s.serial (kind.numbers threadNum (s.rid th))
  { s with
    waiting := Function.update s.waiting th (some ⟨awaited, awaited.length⟩)
    rid := Function.update s.rid th (kind.nextRid (s.rid th))
    serial := s.serial + awaited.length
    requests := s.requests ++ awaited.map fun x => ⟨th, x.1, x.2⟩ }

/-- A thread that waits takes a message from its socket. -/
def receive (s : Exchange T) (m : Message T) (w : Waiting) : Exchange T :=
  match w.awaited.find? fun x => x.1 = m.number with
  | none => s
  | some x =>
    let rest := w.awaited.filter fun y => y.1 ≠ m.number
    { s with
      waiting := Function.update s.waiting m.requester (if rest = [] then none else some { w with awaited := rest })
      accepted := s.accepted ++ [(m, x.2)] }

/-- One event; `none` if it cannot happen. -/
def step (threadNum : ℕ) (s : Exchange T) : ExchangeEvent T → Option (Exchange T)
  | .call th kind =>
    if s.waiting th = none ∧ kind.numbers threadNum (s.rid th) ≠ [] then some (s.call threadNum th kind) else none
  | .answer i =>
    match s.requests[i]? with
    | none => none
    | some m => some { s with requests := s.requests.eraseIdx i, responses := s.responses ++ [m] }
  | .receive j =>
    match s.responses[j]? with
    | none => none
    | some m =>
      match s.waiting m.requester with
      | none => none
      | some w => some (receive { s with responses := s.responses.eraseIdx j } m w)
  | .timeout th =>
    match s.waiting th with
    | none => none
    | some w =>
      let left := if w.timeoutLimit ≤ 1 then none else some { w with timeoutLimit := w.timeoutLimit - 1 }
      some { s with waiting := Function.update s.waiting th left }

/-- A run in which the nodes have some number of threads. -/
def run (threadNum : ℕ) (es : List (ExchangeEvent T)) : Option (Exchange T) := Transition.run (step threadNum) init es

/-- Every response was taken for the request it answers. -/
def AnswersOwn (s : Exchange T) : Prop := ∀ x ∈ s.accepted, x.1.serial = x.2

/-- A call uses no identifier of the thread of which a request or a response is still on its way. -/
def Fresh (threadNum : ℕ) (s : Exchange T) : ExchangeEvent T → Prop
  | .call th kind => ∀ m ∈ s.requests ++ s.responses, m.requester = th → m.number ∉ kind.numbers threadNum (s.rid th)
  | _ => True

instance (threadNum : ℕ) (s : Exchange T) : (e : ExchangeEvent T) → Decidable (s.Fresh threadNum e)
  | .call th kind => inferInstanceAs
      (Decidable (∀ m ∈ s.requests ++ s.responses, m.requester = th → m.number ∉ kind.numbers threadNum (s.rid th)))
  | .answer _ => .isTrue trivial
  | .receive _ => .isTrue trivial
  | .timeout _ => .isTrue trivial

section Own

variable {s s' : Exchange T} {threadNum : ℕ}

/-- The messages on their way that a thread would take for a response to one of its requests belong to it. -/
structure Inv (s : Exchange T) : Prop where
  own : ∀ m ∈ s.requests ++ s.responses, ∀ w, s.waiting m.requester = some w →
    ∀ x ∈ w.awaited, x.1 = m.number → x.2 = m.serial
  accepted : s.AnswersOwn

/-- The requests of a call have different numbers. -/
theorem nodup_numbers (rid : ℕ) (kind : CallKind) : (kind.numbers threadNum rid).Nodup := by
  cases kind with
  | joinNode _ => exact nodup_singleton _
  | joinNodes count => exact nodup_range
  | localJoin => exact nodup_range'
  | unblock => exact nodup_singleton _
  | localChange _ => exact nodup_singleton _
  | changeFactors count => exact nodup_range'

omit [DecidableEq T] in
/-- The number of an awaited request is one of the call's. -/
theorem mem_numbers_of_mem_awaitedOf {serial : ℕ} {numbers : List ℕ} {x : ℕ × ℕ} (hx : x ∈ awaitedOf serial numbers) :
    x.1 ∈ numbers := (of_mem_zip hx).1

omit [DecidableEq T] in
/-- The number of an awaited request determines it. -/
theorem awaitedOf_inj {serial : ℕ} {numbers : List ℕ} (hnodup : numbers.Nodup) {x y : ℕ × ℕ}
    (hx : x ∈ awaitedOf serial numbers) (hy : y ∈ awaitedOf serial numbers) (h : x.1 = y.1) : x = y := by
  have hmap : (awaitedOf serial numbers).map Prod.fst = numbers := map_fst_zip (by simp)
  exact inj_on_of_nodup_map (hmap.symm ▸ hnodup) hx hy h

/-- A thread sends its requests. -/
theorem Inv.call (h : s.Inv) {th : T} {kind : CallKind} (hfresh : s.Fresh threadNum (.call th kind)) :
    (s.call threadNum th kind).Inv := by
  refine ⟨fun m hm w hw x hx hnumber => ?_, h.accepted⟩
  have hmem : m ∈ s.requests ++ s.responses ∨
      m ∈ (awaitedOf s.serial (kind.numbers threadNum (s.rid th))).map fun x => (⟨th, x.1, x.2⟩ : Message T) := by
    simp only [Exchange.call, mem_append] at hm ⊢
    tauto
  by_cases hth : m.requester = th
  · simp only [Exchange.call, hth, update_self, Option.some.injEq] at hw
    subst hw
    rcases hmem with hmem | hmem
    · exact absurd (hnumber ▸ mem_numbers_of_mem_awaitedOf hx) (hfresh m hmem hth)
    · obtain ⟨y, hy, rfl⟩ := mem_map.mp hmem
      rw [awaitedOf_inj (nodup_numbers _ _) hx hy hnumber]
  · simp only [Exchange.call, update_of_ne hth] at hw
    rcases hmem with hmem | hmem
    · exact h.own m hmem w hw x hx hnumber
    · obtain ⟨y, -, rfl⟩ := mem_map.mp hmem
      exact absurd rfl hth

/-- A thread takes a message from its socket. -/
theorem Inv.receive (h : s.Inv) {m : Message T} {w : Waiting} (hm : m ∈ s.requests ++ s.responses)
    (hw : s.waiting m.requester = some w) {responses : List (Message T)} (hsub : responses ⊆ s.responses) :
    (Exchange.receive { s with responses := responses } m w).Inv := by
  have hown : ∀ m' ∈ s.requests ++ responses, m' ∈ s.requests ++ s.responses := fun m' hm' => by
    rcases mem_append.mp hm' with hm' | hm'
    · exact mem_append_left _ hm'
    · exact mem_append_right _ (hsub hm')
  unfold Exchange.receive
  cases hfind : w.awaited.find? fun x => x.1 = m.number with
  | none => exact ⟨fun m' hm' => h.own m' (hown m' hm'), h.accepted⟩
  | some x =>
    have hx : x.1 = m.number := by simpa using List.find?_some hfind
    refine ⟨fun m' hm' w' hw' y hy hnumber => ?_, fun y hy => ?_⟩
    · by_cases hth : m'.requester = m.requester
      · simp only [hth, update_self] at hw'
        split_ifs at hw'
        cases hw'
        exact h.own m' (hown m' hm') w (hth ▸ hw) y (mem_of_mem_filter hy) hnumber
      · simp only [update_of_ne hth] at hw'
        exact h.own m' (hown m' hm') w' hw' y hy hnumber
    · rcases mem_append.mp hy with hy | hy
      · exact h.accepted y hy
      · obtain rfl := mem_singleton.mp hy
        exact (h.own m hm w hw x (mem_of_find?_eq_some hfind) hx).symm

/-- Every event that reuses no identifier keeps responses with their requests. -/
theorem Inv.step {e : ExchangeEvent T} (h : s.Inv) (hok : s.Fresh threadNum e) (hstep : s.step threadNum e = some s') :
    s'.Inv := by
  cases e with
  | call th kind =>
    simp only [Exchange.step] at hstep
    split_ifs at hstep
    cases hstep
    exact h.call hok
  | answer i =>
    simp only [Exchange.step] at hstep
    cases hm : s.requests[i]? with
    | none => simp [hm] at hstep
    | some m =>
      simp only [hm] at hstep
      cases hstep
      refine ⟨fun m' hm' => h.own m' ?_, h.accepted⟩
      simp only [mem_append, mem_singleton] at hm' ⊢
      rcases hm' with hm' | hm' | rfl
      · exact .inl (mem_of_mem_eraseIdx hm')
      · exact .inr hm'
      · exact .inl (mem_of_getElem? hm)
  | receive j =>
    simp only [Exchange.step] at hstep
    cases hm : s.responses[j]? with
    | none => simp [hm] at hstep
    | some m =>
      simp only [hm] at hstep
      cases hw : s.waiting m.requester with
      | none => simp [hw] at hstep
      | some w =>
        simp only [hw] at hstep
        cases hstep
        exact h.receive (mem_append_right _ (mem_of_getElem? hm)) hw (eraseIdx_subset)
  | timeout th =>
    simp only [Exchange.step] at hstep
    cases hw : s.waiting th with
    | none => simp [hw] at hstep
    | some w =>
      simp only [hw] at hstep
      cases hstep
      refine ⟨fun m hm w' hw' x hx hnumber => ?_, h.accepted⟩
      by_cases hth : m.requester = th
      · simp only [hth, update_self] at hw'
        split_ifs at hw'
        cases hw'
        exact h.own m hm w (hth ▸ hw) x hx hnumber
      · simp only [update_of_ne hth] at hw'
        exact h.own m hm w' hw' x hx hnumber

/-- The invariant holds in every run that reuses no identifier. -/
theorem Inv.run (es : List (ExchangeEvent T)) (hrun : run threadNum es = some s)
    (hok : Transition.Guarded (Exchange.step threadNum) (Exchange.Fresh threadNum) init es) : s.Inv := by
  have hinit : (init : Exchange T).Inv := ⟨by simp [init], by simp [init, AnswersOwn]⟩
  exact Transition.invariant_of_guarded (fun _ _ _ h hok hstep => h.step hok hstep) hinit hrun hok

end Own

end Exchange

/-- In every run whose calls reuse no identifier of which a message is still on its way, a response is taken only for
the request it answers. -/
theorem responses_answer_own_request {T : Type*} [DecidableEq T] (threadNum : ℕ) (es : List (ExchangeEvent T))
    (s : Exchange T) (hrun : Exchange.run threadNum es = some s)
    (hok : Transition.Guarded (Exchange.step threadNum) (Exchange.Fresh threadNum) Exchange.init es) : s.AnswersOwn :=
  (Exchange.Inv.run es hrun hok).accepted

/-- A join round that times out and is made again under another identifier: its late response is refused. -/
def secondRound : List (ExchangeEvent ℕ) :=
  [.call 0 (.joinNode 0), .timeout 0, .answer 0, .call 0 (.joinNode 1), .receive 0, .answer 0, .receive 0]

/-- The second round is answered by the second response. -/
theorem responses_answer_own_request_secondRound :
    (Exchange.run 2 secondRound).map (fun s => s.accepted) = some [(⟨0, 1, 1⟩, 1)] ∧
      ∀ s, Exchange.run 2 secondRound = some s → s.AnswersOwn :=
  ⟨by decide, fun s hrun => responses_answer_own_request 2 secondRound s hrun (by decide)⟩

/-- Thread `0` forwards a change of replication factors to thread `1` and gives up waiting; the identifier of the next
forward is the same, and the late response to the first is taken for a response to the second. -/
theorem late_response_answers_next_request :
    ∃ es : List (ExchangeEvent ℕ), ∃ s, Exchange.run 2 es = some s ∧ s.accepted = [(⟨0, 1, 0⟩, 1)] ∧ ¬ s.AnswersOwn := by
  refine ⟨[.call 0 (.localChange 1), .timeout 0, .answer 0, .call 0 (.localChange 1), .receive 0], _, rfl, rfl, ?_⟩
  intro hown
  exact absurd (hown (⟨0, 1, 0⟩, 1) (List.mem_singleton_self _)) (by decide)

end Dinomo
