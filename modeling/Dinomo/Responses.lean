import Mathlib.Data.Finset.Card
import Mathlib.Data.Finset.Range
import Mathlib.Data.List.Infix
import Mathlib.Algebra.Group.Nat.Defs

/-!
# Collecting responses

`receive` waits for one response to each of a set of requests.  It reads from a socket that delivers messages, among
them responses that nobody waits for any more, or times out.  As many timeouts are allowed as there are requests, counted
down in a word of 32 bits.  `make_request` sends one request and waits for its response.
-/

namespace Dinomo

open List

/-- What a read from the socket ends with. -/
inductive SocketOutcome (R : Type*) where
  | message (response : R)
  | timeout
  deriving Repr, DecidableEq

/-- What `receive` returns, what it leaves in its arguments, and the outcomes that it has not read. -/
structure ReceiveResult (I R : Type*) where
  succeed : Bool
  requestIds : Finset I
  responses : List R
  rest : List (SocketOutcome R)

section Receive

variable {I R : Type*} [DecidableEq I] (responseId : R → I)

/-- The loop of `receive`.  Without a further outcome it waits. -/
def receiveLoop (requestIds : Finset I) (timeoutLimit : ℕ) (responses : List R) :
    List (SocketOutcome R) → Option (ReceiveResult I R)
  | [] => none
  | .message response :: rest =>
    let ids := if responseId response ∈ requestIds then requestIds.erase (responseId response) else requestIds
    let collected := if responseId response ∈ requestIds then responses ++ [response] else responses
    if ids.card = 0 then some ⟨true, ids, collected, rest⟩ else receiveLoop ids timeoutLimit collected rest
  | .timeout :: rest =>
    let limit := (timeoutLimit + (2 ^ 32 - 1)) % 2 ^ 32
    if limit = 0 then some ⟨false, requestIds, [], rest⟩ else receiveLoop requestIds limit responses rest

/-- `receive`. -/
def receive (requestIds : Finset I) (responses : List R) (outcomes : List (SocketOutcome R)) :
    Option (ReceiveResult I R) :=
  receiveLoop responseId requestIds (requestIds.card % 2 ^ 32) responses outcomes

/-- `make_request`, after the request has been sent: the response, and whether there was one. -/
def makeRequest [Inhabited R] (requestId : I) (outcomes : List (SocketOutcome R)) : Option (R × Bool) :=
  (receive responseId {requestId} [] outcomes).map fun res =>
    (if res.succeed then res.responses.headD default else default, res.succeed)

end Receive

namespace SocketOutcome

variable {I R : Type*} [DecidableEq I] (responseId : R → I)

/-- The response of a message. -/
def response? : SocketOutcome R → Option R
  | message response => some response
  | timeout => none

/-- Whether a read has timed out. -/
def isTimeout : SocketOutcome R → Bool
  | message _ => false
  | timeout => true

/-- The messages among outcomes. -/
def messages (outcomes : List (SocketOutcome R)) : List R := outcomes.filterMap response?

/-- The number of timeouts among outcomes. -/
def timeouts (outcomes : List (SocketOutcome R)) : ℕ := outcomes.countP isTimeout

/-- Every request has been answered. -/
def Answered (requestIds : Finset I) (outcomes : List (SocketOutcome R)) : Prop :=
  ∀ i ∈ requestIds, ∃ r ∈ messages outcomes, responseId r = i

/-- Every request is answered before a number of timeouts. -/
def AnsweredBefore (limit : ℕ) (requestIds : Finset I) (outcomes : List (SocketOutcome R)) : Prop :=
  ∃ seen, seen <+: outcomes ∧ timeouts seen < limit ∧ Answered responseId requestIds seen

/-- Responses are the first ones to each of the requests, and no others, in the order of their arrival. -/
structure FirstResponses (requestIds : Finset I) (outcomes : List (SocketOutcome R)) (responses : List R) : Prop where
  mem : ∀ r, r ∈ responses ↔
    responseId r ∈ requestIds ∧ (messages outcomes).find? (fun q => responseId q = responseId r) = some r
  nodup : (responses.map responseId).Nodup
  sublist : responses.Sublist (messages outcomes)

/-- The number of times that a word of 32 bits is counted down before it is zero. -/
def countdown (n : ℕ) : ℕ := (n - 1) % 2 ^ 32 + 1

theorem countdown_eq_iff {n : ℕ} (hpos : 0 < n) : countdown n = n ↔ n ≤ 2 ^ 32 := by
  unfold countdown
  omega

theorem countdown_le_self {n : ℕ} (hpos : 0 < n) : countdown n ≤ n := by
  unfold countdown
  omega

theorem countdown_mod {n : ℕ} (hpos : 0 < n) : countdown n % 2 ^ 32 = n % 2 ^ 32 := by
  unfold countdown
  omega

section Lists

omit [DecidableEq I]

@[simp] theorem messages_message (r : R) (rest : List (SocketOutcome R)) :
    messages (message r :: rest) = r :: messages rest := rfl

@[simp] theorem messages_timeout (rest : List (SocketOutcome R)) : messages (timeout :: rest) = messages rest := rfl

@[simp] theorem timeouts_nil : timeouts ([] : List (SocketOutcome R)) = 0 := rfl

@[simp] theorem timeouts_message (r : R) (rest : List (SocketOutcome R)) :
    timeouts (message r :: rest) = timeouts rest := countP_cons_of_neg Bool.false_ne_true

@[simp] theorem timeouts_timeout (rest : List (SocketOutcome R)) : timeouts (timeout :: rest) = timeouts rest + 1 :=
  countP_cons_of_pos rfl

theorem timeouts_append (l₁ l₂ : List (SocketOutcome R)) : timeouts (l₁ ++ l₂) = timeouts l₁ + timeouts l₂ :=
  countP_append

theorem timeouts_le {l₁ l₂ : List (SocketOutcome R)} (h : l₁ <+: l₂) : timeouts l₁ ≤ timeouts l₂ :=
  h.sublist.countP_le

variable {responseId} {requestIds : Finset I}

theorem Answered.mono {l₁ l₂ : List (SocketOutcome R)} (ha : Answered responseId requestIds l₁) (h : l₁ <+: l₂) :
    Answered responseId requestIds l₂ := by
  intro i hi
  obtain ⟨r, hr, heq⟩ := ha i hi
  exact ⟨r, (h.filterMap response?).subset hr, heq⟩

theorem AnsweredBefore.mono {limit limit' : ℕ} {outcomes : List (SocketOutcome R)}
    (ha : AnsweredBefore responseId limit requestIds outcomes) (hle : limit ≤ limit') :
    AnsweredBefore responseId limit' requestIds outcomes := by
  obtain ⟨seen, hseen, hlt, hanswered⟩ := ha
  exact ⟨seen, hseen, hlt.trans_le hle, hanswered⟩

theorem not_answered_nil (hids : requestIds.Nonempty) : ¬ Answered responseId requestIds [] := by
  intro ha
  obtain ⟨i, hi⟩ := hids
  obtain ⟨r, hr, -⟩ := ha i hi
  exact not_mem_nil hr

end Lists

/-- A message answers the request with its id. -/
theorem answered_message {requestIds : Finset I} {r : R} {rest : List (SocketOutcome R)} :
    Answered responseId requestIds (message r :: rest) ↔
      Answered responseId (requestIds.erase (responseId r)) rest := by
  constructor
  · intro ha i hi
    obtain ⟨hne, hmem⟩ := Finset.mem_erase.mp hi
    obtain ⟨q, hq, rfl⟩ := ha i hmem
    refine ⟨q, (mem_cons.mp hq).resolve_left ?_, rfl⟩
    rintro rfl
    exact hne rfl
  · intro ha i hi
    by_cases heq : responseId r = i
    · exact ⟨r, mem_cons_self, heq⟩
    · obtain ⟨q, hq, hqi⟩ := ha i (Finset.mem_erase.mpr ⟨Ne.symm heq, hi⟩)
      exact ⟨q, mem_cons_of_mem r hq, hqi⟩

end SocketOutcome

section Collect

variable {I R : Type*} [DecidableEq I] (responseId : R → I)

/-- The responses that the loop adds for messages. -/
def collect (requestIds : Finset I) : List R → List R
  | [] => []
  | r :: rest =>
    if responseId r ∈ requestIds then r :: collect (requestIds.erase (responseId r)) rest else collect requestIds rest

variable {responseId}

theorem mem_collect {requestIds : Finset I} {l : List R} {r : R} :
    r ∈ collect responseId requestIds l ↔
      responseId r ∈ requestIds ∧ l.find? (fun q => responseId q = responseId r) = some r := by
  induction l generalizing requestIds with
  | nil => simp [collect]
  | cons q l ih =>
    rw [collect]
    split_ifs with hq
    · rw [mem_cons, ih, Finset.mem_erase]
      by_cases heq : responseId q = responseId r
      · rw [List.find?_cons_of_pos (by simpa using heq)]
        simp only [heq.symm, ne_eq, not_true_eq_false, false_and, or_false, Option.some.injEq, hq, true_and]
        exact eq_comm
      · rw [List.find?_cons_of_neg (by simpa using heq)]
        constructor
        · rintro (rfl | ⟨⟨-, hmem⟩, hfind⟩)
          · exact absurd rfl heq
          · exact ⟨hmem, hfind⟩
        · rintro ⟨hmem, hfind⟩
          exact Or.inr ⟨⟨Ne.symm heq, hmem⟩, hfind⟩
    · rw [ih]
      refine and_congr_right fun hmem => ?_
      rw [List.find?_cons_of_neg]
      simp only [decide_eq_true_eq]
      intro heq
      exact hq (heq ▸ hmem)

theorem collect_sublist (requestIds : Finset I) (l : List R) : (collect responseId requestIds l).Sublist l := by
  induction l generalizing requestIds with
  | nil => exact List.Sublist.refl _
  | cons q l ih =>
    rw [collect]
    split_ifs
    · exact (ih _).cons_cons q
    · exact (ih _).cons q

theorem nodup_map_collect (requestIds : Finset I) (l : List R) :
    ((collect responseId requestIds l).map responseId).Nodup := by
  induction l generalizing requestIds with
  | nil => exact nodup_nil
  | cons q l ih =>
    rw [collect]
    split_ifs
    · refine nodup_cons.mpr ⟨?_, ih _⟩
      intro hmem
      obtain ⟨r, hr, heq⟩ := mem_map.mp hmem
      exact (Finset.mem_erase.mp (mem_collect.mp hr).1).1 heq
    · exact ih _

theorem collect_empty (l : List R) : collect responseId ∅ l = [] := by
  induction l with
  | nil => rfl
  | cons r l ih => rw [collect, if_neg (Finset.notMem_empty _), ih]

/-- For one request the first response to it is collected. -/
theorem head?_collect (i : I) (l : List R) :
    (collect responseId {i} l).head? = l.find? fun r => responseId r = i := by
  induction l with
  | nil => rfl
  | cons r l ih =>
    rw [collect]
    split_ifs with hr
    · rw [List.head?_cons, find?_cons_of_pos (by simpa using hr)]
    · rw [ih, find?_cons_of_neg (by simpa using hr)]

theorem firstResponses_collect (requestIds : Finset I) (outcomes : List (SocketOutcome R)) :
    SocketOutcome.FirstResponses responseId requestIds outcomes
      (collect responseId requestIds (SocketOutcome.messages outcomes)) :=
  ⟨fun _ => mem_collect, nodup_map_collect _ _, collect_sublist _ _⟩

/-- A response is added if its request has not been answered. -/
theorem append_collect (requestIds : Finset I) (responses : List R) (r : R) (l : List R) :
    (if responseId r ∈ requestIds then responses ++ [r] else responses) ++
      collect responseId (requestIds.erase (responseId r)) l =
      responses ++ collect responseId requestIds (r :: l) := by
  rw [collect]
  split_ifs with hr
  · rw [append_assoc, singleton_append]
  · rw [Finset.erase_eq_of_notMem hr]

end Collect

section Loop

open SocketOutcome

variable {I R : Type*} [DecidableEq I] {responseId : R → I}

theorem receiveLoop_message (requestIds : Finset I) (limit : ℕ) (responses : List R) (r : R)
    (rest : List (SocketOutcome R)) :
    receiveLoop responseId requestIds limit responses (.message r :: rest) =
      if requestIds.erase (responseId r) = ∅ then
        some ⟨true, ∅, if responseId r ∈ requestIds then responses ++ [r] else responses, rest⟩
      else receiveLoop responseId (requestIds.erase (responseId r)) limit
        (if responseId r ∈ requestIds then responses ++ [r] else responses) rest := by
  have hids : (if responseId r ∈ requestIds then requestIds.erase (responseId r) else requestIds) =
      requestIds.erase (responseId r) := by
    split_ifs with hr
    · rfl
    · exact (Finset.erase_eq_of_notMem hr).symm
  simp only [receiveLoop, hids, Finset.card_eq_zero]
  refine ite_congr rfl (fun hempty => ?_) fun _ => rfl
  rw [hempty]

/-- The word is counted down from the timeouts that are left. -/
theorem receiveLoop_timeout {left : ℕ} (hpos : 0 < left) (hle : left ≤ 2 ^ 32) (requestIds : Finset I)
    (responses : List R) (rest : List (SocketOutcome R)) :
    receiveLoop responseId requestIds (left % 2 ^ 32) responses (.timeout :: rest) =
      if left = 1 then some ⟨false, requestIds, [], rest⟩
      else receiveLoop responseId requestIds ((left - 1) % 2 ^ 32) responses rest := by
  have hword : (left % 2 ^ 32 + (2 ^ 32 - 1)) % 2 ^ 32 = (left - 1) % 2 ^ 32 := by omega
  simp only [receiveLoop, hword]
  refine if_congr ?_ rfl rfl
  omega

/-- How a loop ends with some timeouts left, or that it has not ended. -/
inductive Ends (responseId : R → I) (requestIds : Finset I) (left : ℕ) (responses : List R) :
    List (SocketOutcome R) → Option (ReceiveResult I R) → Prop
  | waiting (outcomes) (hlt : timeouts outcomes < left) (hna : ¬ Answered responseId requestIds outcomes) :
    Ends responseId requestIds left responses outcomes none
  | answered (before r rest) (hlt : timeouts before < left) (hna : ¬ Answered responseId requestIds before)
    (ha : Answered responseId requestIds (before ++ [.message r])) :
    Ends responseId requestIds left responses (before ++ .message r :: rest)
      (some ⟨true, ∅, responses ++ collect responseId requestIds (messages (before ++ .message r :: rest)), rest⟩)
  | timedOut (before rest ids) (hlimit : timeouts before + 1 = left) (hna : ¬ Answered responseId requestIds before) :
    Ends responseId requestIds left responses (before ++ .timeout :: rest) (some ⟨false, ids, [], rest⟩)

theorem Ends.message {requestIds : Finset I} {left : ℕ} {responses : List R} {outcomes : List (SocketOutcome R)}
    {res : Option (ReceiveResult I R)} (r : R)
    (h : Ends responseId (requestIds.erase (responseId r)) left
      (if responseId r ∈ requestIds then responses ++ [r] else responses) outcomes res) :
    Ends responseId requestIds left responses (.message r :: outcomes) res := by
  cases h with
  | waiting _ hlt hna => exact .waiting _ (by rwa [timeouts_message]) (mt (answered_message responseId).mp hna)
  | answered before q rest hlt hna ha =>
    rw [append_collect]
    exact .answered (.message r :: before) q rest (by rwa [timeouts_message])
      (mt (answered_message responseId).mp hna) ((answered_message responseId).mpr ha)
  | timedOut before rest ids hlimit hna =>
    exact .timedOut (.message r :: before) rest ids (by rwa [timeouts_message])
      (mt (answered_message responseId).mp hna)

theorem Ends.timeout {requestIds : Finset I} {left : ℕ} {responses : List R} {outcomes : List (SocketOutcome R)}
    {res : Option (ReceiveResult I R)} (h : Ends responseId requestIds left responses outcomes res) :
    Ends responseId requestIds (left + 1) responses (.timeout :: outcomes) res := by
  cases h with
  | waiting _ hlt hna => exact .waiting _ (by rw [timeouts_timeout]; omega) hna
  | answered before q rest hlt hna ha =>
    exact .answered (.timeout :: before) q rest (by rw [timeouts_timeout]; omega) hna ha
  | timedOut before rest ids hlimit hna =>
    exact .timedOut (.timeout :: before) rest ids (by rw [timeouts_timeout]; omega) hna

theorem receiveLoop_ends {requestIds : Finset I} (hids : requestIds.Nonempty) {left : ℕ} (hpos : 0 < left)
    (hle : left ≤ 2 ^ 32) (responses : List R) (outcomes : List (SocketOutcome R)) :
    Ends responseId requestIds left responses outcomes
      (receiveLoop responseId requestIds (left % 2 ^ 32) responses outcomes) := by
  induction outcomes generalizing requestIds left responses with
  | nil => exact .waiting [] hpos (not_answered_nil hids)
  | cons outcome outcomes ih =>
    cases outcome with
    | message r =>
      rw [receiveLoop_message]
      by_cases hempty : requestIds.erase (responseId r) = ∅
      · have ha : Answered responseId requestIds ([] ++ [.message r]) := by
          rw [nil_append, answered_message, hempty]
          exact fun i hi => absurd hi (Finset.notMem_empty i)
        have hcollected : (if responseId r ∈ requestIds then responses ++ [r] else responses) =
            responses ++ collect responseId requestIds (r :: messages outcomes) := by
          rw [← append_collect, hempty, collect_empty, append_nil]
        rw [if_pos hempty, hcollected]
        exact .answered [] r outcomes hpos (not_answered_nil hids) ha
      · rw [if_neg hempty]
        exact (ih (Finset.nonempty_iff_ne_empty.mpr hempty) hpos hle _).message r
    | timeout =>
      rw [receiveLoop_timeout hpos hle]
      by_cases hone : left = 1
      · rw [if_pos hone]
        exact .timedOut [] outcomes requestIds hone.symm (not_answered_nil hids)
      · rw [if_neg hone]
        have hend := (ih hids (show 0 < left - 1 by omega) (by omega) responses).timeout
        rwa [Nat.sub_add_cancel hpos] at hend

theorem countdown_le (n : ℕ) : countdown n ≤ 2 ^ 32 := Nat.mod_lt _ (by decide)

theorem receive_ends (responseId : R → I) {requestIds : Finset I} (hids : requestIds.Nonempty) (responses : List R)
    (outcomes : List (SocketOutcome R)) :
    Ends responseId requestIds (countdown requestIds.card) responses outcomes
      (receive responseId requestIds responses outcomes) := by
  rw [receive, ← countdown_mod (Finset.card_pos.mpr hids)]
  exact receiveLoop_ends hids (Nat.succ_pos _) (countdown_le _) responses outcomes

omit [DecidableEq I] in
/-- Answers that come in time come before the last timeout. -/
theorem not_answeredBefore {requestIds : Finset I} {before rest : List (SocketOutcome R)} {limit : ℕ}
    (hlimit : timeouts before + 1 = limit) (hna : ¬ Answered responseId requestIds before) :
    ¬ AnsweredBefore responseId limit requestIds (before ++ .timeout :: rest) := by
  rintro ⟨seen, hseen, hlt, ha⟩
  have hcount : timeouts (before ++ [.timeout]) = limit := by simpa [timeouts_append] using hlimit
  have hcut : before ++ [.timeout] <+: before ++ .timeout :: rest := ⟨rest, by simp⟩
  rcases prefix_or_prefix_of_prefix hseen hcut with hle | hle
  · rcases prefix_concat_iff.mp hle with rfl | hbefore
    · exact absurd hcount hlt.ne
    · exact hna (ha.mono hbefore)
  · exact absurd (timeouts_le hle) (by omega)

end Loop

section Results

open SocketOutcome

variable {I R : Type*} [DecidableEq I] {responseId : R → I} {requestIds : Finset I} {responses : List R}
  {outcomes : List (SocketOutcome R)} {res : ReceiveResult I R}

theorem receive_succeeds_iff (hids : requestIds.Nonempty) (responses : List R) :
    (∃ res, receive responseId requestIds responses outcomes = some res ∧ res.succeed = true) ↔
      AnsweredBefore responseId (countdown requestIds.card) requestIds outcomes := by
  have hends := receive_ends responseId hids responses outcomes
  generalize receive responseId requestIds responses outcomes = result at hends
  cases hends with
  | waiting _ hlt hna =>
    refine iff_of_false (by simp) ?_
    rintro ⟨seen, hseen, -, ha⟩
    exact hna (ha.mono hseen)
  | answered before r rest hlt hna ha =>
    refine iff_of_true ⟨_, rfl, rfl⟩ ⟨before ++ [.message r], ⟨rest, by simp⟩, ?_, ha⟩
    simpa [timeouts_append] using hlt
  | timedOut _ _ _ hlimit hna => exact iff_of_false (by simp) (not_answeredBefore hlimit hna)

theorem receive_fails_iff (hids : requestIds.Nonempty) (responses : List R) :
    (∃ res, receive responseId requestIds responses outcomes = some res ∧ res.succeed = false) ↔
      countdown requestIds.card ≤ timeouts outcomes ∧
      ¬ AnsweredBefore responseId (countdown requestIds.card) requestIds outcomes := by
  rw [← receive_succeeds_iff hids responses]
  have hends := receive_ends responseId hids responses outcomes
  generalize receive responseId requestIds responses outcomes = result at hends ⊢
  cases hends with
  | waiting _ hlt hna => simp [hlt]
  | answered _ _ _ hlt hna ha => simp
  | timedOut before rest ids hlimit hna =>
    have hle : countdown requestIds.card ≤ timeouts (before ++ .timeout :: rest) := by
      rw [timeouts_append, timeouts_timeout]
      omega
    simp [hle]

/-- On success the responses that the loop adds are those for all messages. -/
theorem receive_of_succeed (hids : requestIds.Nonempty)
    (hres : receive responseId requestIds responses outcomes = some res) (hsucceed : res.succeed = true) :
    res.requestIds = ∅ ∧ res.responses = responses ++ collect responseId requestIds (messages outcomes) ∧
      ∃ before r, outcomes = before ++ .message r :: res.rest ∧ ¬ Answered responseId requestIds before := by
  have hends := receive_ends responseId hids responses outcomes
  rw [hres] at hends
  cases hends with
  | answered before r rest hlt hna ha => exact ⟨rfl, rfl, before, r, rfl, hna⟩
  | timedOut _ _ _ hlimit hna => cases hsucceed

/-- A failure comes with the last timeout that is allowed. -/
theorem receive_of_fail (hids : requestIds.Nonempty)
    (hres : receive responseId requestIds responses outcomes = some res) (hfail : res.succeed = false) :
    res.responses = [] ∧
      ∃ before, outcomes = before ++ .timeout :: res.rest ∧ timeouts before + 1 = countdown requestIds.card := by
  have hends := receive_ends responseId hids responses outcomes
  rw [hres] at hends
  cases hends with
  | answered _ _ _ hlt hna ha => cases hfail
  | timedOut before rest ids hlimit hna => exact ⟨rfl, before, rfl, hlimit⟩

/-- `make_request` succeeds if and only if there is a response before a timeout, and returns the first. -/
theorem makeRequest_succeeds_iff [Inhabited R] {i : I} {r : R} :
    makeRequest responseId i outcomes = some (r, true) ↔
      AnsweredBefore responseId 1 {i} outcomes ∧ (messages outcomes).find? (fun q => responseId q = i) = some r := by
  have hids : ({i} : Finset I).Nonempty := Finset.singleton_nonempty i
  have hone : countdown ({i} : Finset I).card = 1 := by rw [Finset.card_singleton]; rfl
  have hsucceeds : (∃ res, receive responseId {i} [] outcomes = some res ∧ res.succeed = true) ↔
      AnsweredBefore responseId 1 {i} outcomes := by
    rw [← hone]
    exact receive_succeeds_iff hids []
  rw [← hsucceeds, makeRequest]
  constructor
  · intro h
    obtain ⟨res, hres, heq⟩ := Option.map_eq_some_iff.mp h
    obtain ⟨hr, hsucceed⟩ := Prod.mk.inj heq
    obtain ⟨-, hresponses, -⟩ := receive_of_succeed hids hres hsucceed
    obtain ⟨seen, hseen, -, ha⟩ := hsucceeds.mp ⟨res, hres, hsucceed⟩
    obtain ⟨q, hq, hqi⟩ := ha.mono hseen i (Finset.mem_singleton_self i)
    obtain ⟨first, hfirst⟩ : ∃ first, (messages outcomes).find? (fun q => responseId q = i) = some first :=
      Option.isSome_iff_exists.mp (find?_isSome.mpr ⟨q, hq, decide_eq_true hqi⟩)
    rw [if_pos hsucceed, hresponses, nil_append, headD_eq_head?_getD, head?_collect, hfirst,
      Option.getD_some] at hr
    exact ⟨⟨res, hres, hsucceed⟩, hr ▸ hfirst⟩
  · rintro ⟨⟨res, hres, hsucceed⟩, hfind⟩
    obtain ⟨-, hresponses, -⟩ := receive_of_succeed hids hres hsucceed
    rw [hres, Option.map_some, if_pos hsucceed, hsucceed, hresponses, nil_append, headD_eq_head?_getD,
      head?_collect, hfind, Option.getD_some]

/-- On success the first responses have been added. -/
theorem receive_collected (hids : requestIds.Nonempty) (res : ReceiveResult I R)
    (hres : receive responseId requestIds responses outcomes = some res) (hsucceed : res.succeed = true) :
    res.requestIds = ∅ ∧
    (∃ new, res.responses = responses ++ new ∧ FirstResponses responseId requestIds outcomes new) ∧
    ∃ before r, outcomes = before ++ .message r :: res.rest ∧ ¬ Answered responseId requestIds before := by
  obtain ⟨hempty, hresponses, hlast⟩ := receive_of_succeed hids hres hsucceed
  exact ⟨hempty, ⟨_, hresponses, firstResponses_collect requestIds outcomes⟩, hlast⟩

/-- What `receive` is for.  It returns true if and only if every request is answered before as many timeouts as there
are requests, and then it has collected the first response to each and nothing else.  Otherwise it returns false with
that many timeouts, and with nothing. -/
structure Collects (responseId : R → I) (requestIds : Finset I) (responses : List R)
    (outcomes : List (SocketOutcome R)) : Prop where
  succeeds_iff : (∃ res, receive responseId requestIds responses outcomes = some res ∧ res.succeed = true) ↔
    AnsweredBefore responseId requestIds.card requestIds outcomes
  fails_iff : (∃ res, receive responseId requestIds responses outcomes = some res ∧ res.succeed = false) ↔
    requestIds.card ≤ timeouts outcomes ∧ ¬ AnsweredBefore responseId requestIds.card requestIds outcomes
  of_succeed : ∀ res, receive responseId requestIds responses outcomes = some res → res.succeed = true →
    res.requestIds = ∅ ∧
    (∃ new, res.responses = responses ++ new ∧ FirstResponses responseId requestIds outcomes new) ∧
    ∃ before r, outcomes = before ++ .message r :: res.rest ∧ ¬ Answered responseId requestIds before
  of_fail : ∀ res, receive responseId requestIds responses outcomes = some res → res.succeed = false →
    res.responses = [] ∧ ∃ before, outcomes = before ++ .timeout :: res.rest ∧ timeouts before + 1 = requestIds.card

omit [DecidableEq I] in
/-- A larger number of timeouts changes nothing if there are fewer. -/
theorem answeredBefore_congr {limit limit' : ℕ} (h : timeouts outcomes < limit) (h' : timeouts outcomes < limit') :
    AnsweredBefore responseId limit requestIds outcomes ↔ AnsweredBefore responseId limit' requestIds outcomes := by
  refine exists_congr fun seen => and_congr_right fun hseen => ?_
  have hle := timeouts_le hseen
  rw [iff_true_intro (hle.trans_lt h), iff_true_intro (hle.trans_lt h')]

/-- `receive` does what it is for if and only if the number of requests is at most `2 ^ 32`, or the timeouts that its
counter allows do not come before all responses. -/
theorem receive_collects_iff (responseId : R → I) (hids : requestIds.Nonempty) (responses : List R)
    (outcomes : List (SocketOutcome R)) :
    Collects responseId requestIds responses outcomes ↔
      requestIds.card ≤ 2 ^ 32 ∨ timeouts outcomes < countdown requestIds.card ∨
      AnsweredBefore responseId (countdown requestIds.card) requestIds outcomes := by
  have hpos : 0 < requestIds.card := Finset.card_pos.mpr hids
  have hle : countdown requestIds.card ≤ requestIds.card := countdown_le_self hpos
  constructor
  · intro h
    by_contra hcond
    obtain ⟨hmany, hcond⟩ := not_or.mp hcond
    obtain ⟨hcount, hna⟩ := not_or.mp hcond
    obtain ⟨res, hres, hfail⟩ := (receive_fails_iff hids responses).mpr ⟨not_lt.mp hcount, hna⟩
    -- The moment of the failure gives both numbers of timeouts.
    obtain ⟨-, before, houtcomes, hcard⟩ := h.of_fail res hres hfail
    obtain ⟨-, before', houtcomes', hcountdown⟩ := receive_of_fail hids hres hfail
    have hbefore : before = before' := List.append_cancel_right (houtcomes.symm.trans houtcomes')
    exact hmany ((countdown_eq_iff hpos).mp (by rw [← hcountdown, ← hbefore, hcard]))
  · intro hcond
    by_cases hfew : requestIds.card ≤ 2 ^ 32
    · have heq : countdown requestIds.card = requestIds.card := (countdown_eq_iff hpos).mpr hfew
      refine ⟨?_, ?_, receive_collected hids, ?_⟩
      · rw [receive_succeeds_iff hids responses, heq]
      · rw [receive_fails_iff hids responses, heq]
      · intro res hres hfail
        rw [← heq]
        exact receive_of_fail hids hres hfail
    · have hnever : ¬ ∃ res, receive responseId requestIds responses outcomes = some res ∧ res.succeed = false := by
        rw [receive_fails_iff hids responses, not_and_or, not_le, not_not]
        exact hcond.resolve_left hfew
      refine ⟨?_, iff_of_false hnever ?_, receive_collected hids, fun res hres hfail => absurd ⟨res, hres, hfail⟩ hnever⟩
      · rw [receive_succeeds_iff hids responses]
        rcases hcond.resolve_left hfew with hlt | ha
        · exact answeredBefore_congr hlt (hlt.trans_le hle)
        · exact iff_of_true ha (ha.mono hle)
      · rintro ⟨hcard, hna⟩
        rcases hcond.resolve_left hfew with hlt | ha
        · omega
        · exact hna (ha.mono hle)

/-- A stale response, a response that comes twice, and two timeouts before the last response. -/
def mixedOutcomes : List (SocketOutcome ℕ) :=
  [.message 2, .timeout, .message 7, .message 2, .message 1, .timeout, .message 3]

/-- Three requests are few enough. -/
theorem receive_collects_iff_threeRequests :
    ({1, 2, 3} : Finset ℕ).card ≤ 2 ^ 32 ∧ Collects id {1, 2, 3} [] mixedOutcomes :=
  ⟨by decide, (receive_collects_iff id (by simp) [] mixedOutcomes).mpr (Or.inl (by decide))⟩

/-- With one request more than the counter can count, the first timeout is the last. -/
theorem receive_gives_up_early :
    receive id (Finset.range (2 ^ 32 + 1)) [] [.timeout] = some ⟨false, Finset.range (2 ^ 32 + 1), [], []⟩ ∧
    ¬ Collects id (Finset.range (2 ^ 32 + 1)) [] [.timeout] := by
  have hreceive : receive id (Finset.range (2 ^ 32 + 1)) [] [.timeout] =
      some ⟨false, Finset.range (2 ^ 32 + 1), [], []⟩ := by
    rw [receive, Finset.card_range]
    exact receiveLoop_timeout Nat.one_pos (by decide) _ _ _
  refine ⟨hreceive, fun h => ?_⟩
  have hmany := (h.fails_iff.mp ⟨_, hreceive, rfl⟩).1
  rw [Finset.card_range] at hmany
  exact absurd hmany (by decide)

end Results

end Dinomo
