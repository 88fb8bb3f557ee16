import Dinomo.Monitor
import Dinomo.Library.Transition

/-!
# Nodes that are added

A policy of the monitor asks the management node for new memory nodes and keeps their number in `new_memory_count`; no
policy asks again before it is zero.  Thread `0` of a server that starts announces the join to the monitor, once before
it opens the store and once more before its event loop, and `membership_handler` lowers the count at every announcement.
Servers are also started by hand, and announcements of different servers arrive in any order.
-/

namespace Dinomo

open Option

/-- A server that has been started, on a request of the monitor or not.  `handled` counts the announcements of its join
that the monitor has handled. -/
structure StartedServer (N : Type*) where
  node : N
  requested : Bool
  handled : ℕ
deriving DecidableEq, Repr

/-- How often a server announces its join to the monitor. -/
def joinAnnouncements : ℕ := 2

/-- A monitor and the servers that start; `asked` counts the requested nodes that have not been started yet. -/
structure Addition (K N H : Type*) [LinearOrder H] where
  monitor : Monitor K N H
  asked : ℕ
  servers : List (StartedServer N)

/-- What can happen: a policy adds nodes, a server starts, and an announcement of a server arrives. -/
inductive AdditionEvent (N : Type*)
  | addNode (number : ℕ)
  | start (n : N) (requested : Bool)
  | announce (i : ℕ)
deriving DecidableEq, Repr

namespace Monitor

variable {K N H L : Type*} [DecidableEq K] [DecidableEq N] [LinearOrder H] [LinearOrder L]
variable {cfg : FleetConfig K N H L} {params : MonitorParams K} {ep : Epoch K} {s s' : Monitor K N H}

/-- `add_node`. -/
def addNode (s : Monitor K N H) (number : ℕ) : Monitor K N H := { s with newMemoryCount := number }

end Monitor

namespace StartedServer

variable {N : Type*}

/-- A requested server of which the monitor has not heard. -/
def outstanding (sv : StartedServer N) : Bool := sv.requested && sv.handled = 0

/-- One more announcement has been handled. -/
def announce (sv : StartedServer N) : StartedServer N := { sv with handled := sv.handled + 1 }

/-- A server that has been heard of is not outstanding. -/
@[simp] theorem outstanding_announce (sv : StartedServer N) : sv.announce.outstanding = false := by
  simp [outstanding, announce]

end StartedServer

namespace Addition

variable {K N H L : Type*} [DecidableEq N] [LinearOrder H] [LinearOrder L]
variable (cfg : FleetConfig K N H L)

/-- No node has been asked for, and no server runs. -/
def init : Addition K N H := ⟨.init, 0, []⟩

/-- The requested nodes that have not joined. -/
def outstanding (s : Addition K N H) : ℕ := s.asked + s.servers.countP StartedServer.outstanding

/-- One event; `none` if it cannot happen. -/
def step (s : Addition K N H) : AdditionEvent N → Option (Addition K N H)
  | .addNode number =>
    if s.monitor.newMemoryCount = 0 then
      some { s with monitor := s.monitor.addNode number, asked := s.asked + number }
    else none
  | .start n false => some { s with servers := s.servers ++ [⟨n, false, 0⟩] }
  | .start n true =>
    if 0 < s.asked then some { s with asked := s.asked - 1, servers := s.servers ++ [⟨n, true, 0⟩] } else none
  | .announce i =>
    match s.servers[i]? with
    | none => none
    | some sv =>
      if sv.handled < joinAnnouncements then
        some { s with monitor := s.monitor.join cfg sv.node, servers := s.servers.set i sv.announce }
      else none

/-- A run of the monitor and the servers. -/
def run (es : List (AdditionEvent N)) : Option (Addition K N H) := Transition.run (step cfg) init es

/-- The announcements that arrive while the count is not zero are first ones of requested servers. -/
def Expected (s : Addition K N H) : AdditionEvent N → Prop
  | .announce i => s.monitor.newMemoryCount = 0 ∨ ∀ sv ∈ s.servers[i]?, sv.outstanding
  | _ => True

instance (s : Addition K N H) : ∀ e : AdditionEvent N, Decidable (s.Expected e)
  | .announce i => inferInstanceAs (Decidable (_ ∨ ∀ sv ∈ s.servers[i]?, _))
  | .addNode _ => .isTrue trivial
  | .start _ _ => .isTrue trivial

variable {cfg} {s s' : Addition K N H}

omit [DecidableEq N] in
/-- An announcement takes its server from the outstanding ones, if it is one of them. -/
theorem countP_set_announce {servers : List (StartedServer N)} {i : ℕ} {sv : StartedServer N}
    (h : servers[i]? = some sv) :
    (servers.set i sv.announce).countP StartedServer.outstanding =
      servers.countP StartedServer.outstanding - if sv.outstanding then 1 else 0 := by
  obtain ⟨hi, rfl⟩ := List.getElem?_eq_some_iff.mp h
  simp [List.countP_set hi]

omit [LinearOrder L] in
/-- Every expected event keeps the count right. -/
theorem newMemoryCount_step {e : AdditionEvent N} (hinv : s.monitor.newMemoryCount = s.outstanding) (hok : s.Expected e)
    (hstep : s.step cfg e = some s') : s'.monitor.newMemoryCount = s'.outstanding := by
  cases e with
  | addNode number =>
    obtain ⟨hzero, hs'⟩ := ite_none_right_eq_some.mp hstep
    cases hs'
    simp only [outstanding] at hinv ⊢
    simp only [Monitor.addNode]
    omega
  | start n requested =>
    cases requested with
    | false =>
      cases hstep
      simpa [outstanding, List.countP_append, StartedServer.outstanding] using hinv
    | true =>
      obtain ⟨hasked, hs'⟩ := ite_none_right_eq_some.mp hstep
      cases hs'
      simp only [outstanding, List.countP_append] at hinv ⊢
      simp only [List.countP_singleton, StartedServer.outstanding, Bool.true_and, decide_true, if_true]
      omega
  | announce i =>
    simp only [step] at hstep
    split at hstep
    · cases hstep
    · next sv hsv =>
      obtain ⟨-, hs'⟩ := ite_none_right_eq_some.mp hstep
      cases hs'
      have hcount := countP_set_announce hsv
      simp only [outstanding] at hinv ⊢
      simp only [Monitor.join, hcount]
      by_cases hout : sv.outstanding
      · -- the server is one of those that the count stands for
        have hpos : 0 < s.servers.countP StartedServer.outstanding :=
          List.countP_pos_iff.mpr ⟨sv, List.mem_of_getElem? hsv, hout⟩
        simp only [hout, if_true]
        omega
      · rcases hok with hzero | hfirst
        · simp only [hout, Bool.false_eq_true, if_false]
          omega
        · exact absurd (hfirst sv hsv) hout

omit [LinearOrder L] in
/-- In a run whose announcements are expected the count is that of the requested nodes that have not joined. -/
theorem newMemoryCount_eq_outstanding (cfg : FleetConfig K N H L) (es : List (AdditionEvent N)) (s : Addition K N H)
    (hrun : run cfg es = some s) (hok : Transition.Guarded (step cfg) Expected init es) :
    s.monitor.newMemoryCount = s.outstanding ∧ (s.monitor.newMemoryCount = 0 ↔ s.outstanding = 0) := by
  have hcount : s.monitor.newMemoryCount = s.outstanding :=
    Transition.invariant_of_guarded (P := fun s => s.monitor.newMemoryCount = s.outstanding)
      (fun _ _ _ hinv hok hstep => newMemoryCount_step hinv hok hstep) rfl hrun hok
  exact ⟨hcount, by rw [hcount]⟩

/-- Nodes with one thread and one virtual thread. -/
def additionConfig : FleetConfig ℕ ℕ ℕ ℕ where
  params := ⟨fun _ => 1, 1, 1⟩
  hash := ⟨id, fun n _ => n, fun _ => 0, fun tid _ => tid⟩
  virtualThreads := 1

/-- A node that was there before and one that was asked for announce their joins twice each, at a zero count the second
time. -/
def addOne : List (AdditionEvent ℕ) :=
  [.start 0 false, .announce 0, .announce 0, .addNode 1, .start 1 true, .announce 1, .announce 1]

/-- One node is added. -/
theorem newMemoryCount_eq_outstanding_addOne : ∃ s, run additionConfig addOne = some s ∧
    s.monitor.newMemoryCount = s.outstanding ∧ (s.monitor.newMemoryCount = 0 ↔ s.outstanding = 0) :=
  ⟨_, rfl, newMemoryCount_eq_outstanding additionConfig addOne _ rfl (by decide +kernel)⟩

/-- Two nodes are asked for, and one of them announces its join twice. -/
def addTwo : List (AdditionEvent ℕ) := [.addNode 2, .start 0 true, .announce 0, .announce 0]

/-- One server makes the count zero while another one is still to come. -/
theorem announced_twice_counts_two : ∃ s, run additionConfig addTwo = some s ∧
    s.monitor.newMemoryCount = 0 ∧ s.outstanding = 1 ∧ s.monitor.ring.uniqueServers = [0] :=
  ⟨_, rfl, by decide +kernel⟩

end Addition

end Dinomo
