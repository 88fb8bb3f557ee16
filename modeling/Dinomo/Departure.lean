import Dinomo.Fleet

/-!
# Departure of a node

Every thread of a departing node removes the node from its ring, merges its log and ends.  Thread `0` does so
first and then tells the other nodes, the routing nodes and the other threads of its own node, without waiting
for any of them.  A thread `0` that is told removes the node from its ring and tells the other threads of its
node.  Messages arrive in any order and after any time, and clients may send a request to any thread at any
time: a routing node decides only which thread it names.
-/

namespace Dinomo

open Function List

/-- A cluster before a departure: the factors that each thread knows, the servers it has in its ring, in the order in
which it inserted them, and the node that will leave. -/
structure DepartConfig (K N H L : Type*) where
  fleet : FleetConfig K N H L
  maps : ServerThread N → ReplicationMap K
  servers : ServerThread N → List N
  departing : N

/-- A message about the departure, to a thread of the departing node or of another one. -/
inductive DepartMessage (N : Type*)
  | selfDepart (tid : ℕ)
  | nodeDepart (st : ServerThread N)
deriving DecidableEq, Repr

/-- A cluster during a departure.  `logs` has the keys of the oplogs of each thread that are not merged, and `left` the
threads of the departing node that have ended. -/
structure Departure (K N H : Type*) [LinearOrder H] where
  rings : ServerThread N → HashRing H N
  logs : ServerThread N → List K
  left : List ℕ
  inFlight : List (DepartMessage N)

open Departure

/-- What can happen: a thread gets a request to write a key, the storage side merges oplogs of a thread, and a message
arrives. -/
inductive DepartEvent (K N : Type*)
  | put (st : ServerThread N) (k : K)
  | merge (st : ServerThread N) (count : ℕ)
  | deliver (i : ℕ)
deriving DecidableEq, Repr

namespace Departure

variable {K N H L : Type*} [DecidableEq K] [DecidableEq N] [LinearOrder H] [LinearOrder L]
variable (c : DepartConfig K N H L)

/-- Remove a node from a ring, at all its places. -/
def removeNode (r : HashRing H N) (n : N) : HashRing H N :=
  (List.range c.fleet.virtualThreads).foldl (fun r v => r.erase (c.fleet.hash.globalThread n v)) r

/-- The departing node's thread `0` has been told to depart. -/
def init : Departure K N H where
  rings st := (c.servers st).foldl c.fleet.insertNode .empty
  logs _ := []
  left := []
  inFlight := [.selfDepart 0]

/-- The threads that a thread takes to be responsible for a key. -/
def threads (s : Departure K N H) (st : ServerThread N) (k : K) : List (ServerThread N) :=
  (getResponsibleThreads c.fleet.params c.fleet.hash ⟨s.rings st, c.fleet.localRing⟩ (c.maps st) k).1

/-- A thread answers data requests of a key. -/
def Answers (s : Departure K N H) (st : ServerThread N) (k : K) : Prop :=
  st ∈ s.threads c st k ∧ ¬(st.node = c.departing ∧ st.tid ∈ s.left)

instance (s : Departure K N H) (st : ServerThread N) (k : K) : Decidable (s.Answers c st k) :=
  inferInstanceAs (Decidable (_ ∧ _))

/-- `self_depart_handler`. -/
def selfDepart (s : Departure K N H) (tid : ℕ) : Departure K N H :=
  let st : ServerThread N := ⟨c.departing, tid⟩
  let others := (c.servers st).filter fun n => n ≠ c.departing
  let told := others.map (fun n => DepartMessage.nodeDepart ⟨n, 0⟩) ++
    (List.range' 1 (c.fleet.params.threadNum - 1)).map DepartMessage.selfDepart
  { rings := Function.update s.rings st (removeNode c (s.rings st) c.departing)
    logs := Function.update s.logs st []
    left := tid :: s.left
    inFlight := s.inFlight ++ if tid = 0 then told else [] }

/-- `node_depart_handler`. -/
def nodeDepart (s : Departure K N H) (st : ServerThread N) : Departure K N H :=
  let told := (List.range' 1 (c.fleet.params.threadNum - 1)).map fun tid => DepartMessage.nodeDepart ⟨st.node, tid⟩
  { s with
    rings := Function.update s.rings st (removeNode c (s.rings st) c.departing)
    inFlight := s.inFlight ++ if st.tid = 0 then told else [] }

/-- A thread handles a message. -/
def handle (s : Departure K N H) : DepartMessage N → Option (Departure K N H)
  | .selfDepart tid => if tid ∈ s.left then none else some (s.selfDepart c tid)
  | .nodeDepart st => if st.node = c.departing ∧ st.tid ∈ s.left then none else some (s.nodeDepart c st)

/-- One event; `none` if it cannot happen. -/
def step (s : Departure K N H) : DepartEvent K N → Option (Departure K N H)
  | .put st k =>
    if s.Answers c st k then some { s with logs := Function.update s.logs st (s.logs st ++ [k]) } else some s
  | .merge st count => some { s with logs := Function.update s.logs st ((s.logs st).drop count) }
  | .deliver i =>
    match s.inFlight[i]? with
    | none => none
    | some m => handle c { s with inFlight := s.inFlight.eraseIdx i } m

/-- A run of a departure. -/
def run (es : List (DepartEvent K N)) : Option (Departure K N H) := Transition.run (step c) (init c) es

/-- A key belongs to a thread of the departing node: the thread answers its requests, and no thread of another node
does. -/
def Owned (s : Departure K N H) (tid : ℕ) (k : K) : Prop :=
  s.Answers c ⟨c.departing, tid⟩ k ∧ ∀ st : ServerThread N, st.node ≠ c.departing → ¬s.Answers c st k

/-- A thread of another node answers requests of a key only if a thread of the departing node has merged its log. -/
def MergedFirst (s : Departure K N H) (tid : ℕ) (k : K) : Prop :=
  ∀ st : ServerThread N, st.node ≠ c.departing → s.Answers c st k → tid ∈ s.left ∧ s.logs ⟨c.departing, tid⟩ = []

/-- A thread of another node handles the departure when a thread of the departing node has; for thread `0` this needs
no condition. -/
def Later (tid : ℕ) (s : Departure K N H) : DepartEvent K N → Prop
  | .deliver i => ∀ st, s.inFlight[i]? = some (.nodeDepart st) → tid = 0 ∨ tid ∈ s.left
  | _ => True

section Order

variable {c} {s s' : Departure K N H} {tid : ℕ}

/-- While a thread of the departing node has not ended, no other node has changed its ring; once it has, its log stays
empty. -/
structure Inv (c : DepartConfig K N H L) (tid : ℕ) (s : Departure K N H) : Prop where
  told : ∀ st, .nodeDepart st ∈ s.inFlight → 0 ∈ s.left
  kept : ∀ st : ServerThread N, st.node ≠ c.departing → s.rings st = (init c : Departure K N H).rings st ∨ tid ∈ s.left
  merged : tid ∈ s.left → s.logs ⟨c.departing, tid⟩ = []

/-- A thread of the departing node departs. -/
theorem Inv.selfDepart (h : s.Inv c tid) (t : ℕ) : (s.selfDepart c t).Inv c tid where
  told st hst := by
    simp only [Departure.selfDepart, mem_append] at hst
    rcases hst with hst | hst
    · exact mem_cons_of_mem _ (h.told st hst)
    · split_ifs at hst with ht
      · exact ht ▸ mem_cons_self
      · cases hst
  kept st hst := by
    have hne : st ≠ ⟨c.departing, t⟩ := fun heq => hst (congrArg ServerThread.node heq)
    simp only [Departure.selfDepart, update_of_ne hne]
    exact (h.kept st hst).imp_right (mem_cons_of_mem _)
  merged hleft := by
    by_cases ht : tid = t
    · simp only [Departure.selfDepart, ht, update_self]
    · have hne : (⟨c.departing, tid⟩ : ServerThread N) ≠ ⟨c.departing, t⟩ := fun heq => ht (ServerThread.mk.inj heq).2
      simp only [Departure.selfDepart, update_of_ne hne]
      exact h.merged ((mem_cons.mp hleft).resolve_left ht)

/-- A thread of another node handles the departure after the thread of the departing node. -/
theorem Inv.nodeDepart (h : s.Inv c tid) (st : ServerThread N) (htold : 0 ∈ s.left) (hleft : tid ∈ s.left) :
    (s.nodeDepart c st).Inv c tid :=
  ⟨fun _ _ => htold, fun _ _ => .inr hleft, h.merged⟩

/-- The log of a thread changes; that of a thread that has ended stays empty. -/
theorem Inv.withLog (h : s.Inv c tid) (st : ServerThread N) {log : List K}
    (hlog : st = ⟨c.departing, tid⟩ → tid ∈ s.left → log = []) :
    ({ s with logs := update s.logs st log } : Departure K N H).Inv c tid where
  told := h.told
  kept := h.kept
  merged hleft := by
    by_cases hst : st = ⟨c.departing, tid⟩
    · simp only [hst, update_self, hlog hst hleft]
    · simp only [update_of_ne (Ne.symm hst), h.merged hleft]

/-- Every event under its condition keeps the order. -/
theorem Inv.step {e : DepartEvent K N} (h : s.Inv c tid) (hok : s.Later tid e) (hstep : s.step c e = some s') :
    s'.Inv c tid := by
  cases e with
  | put st k =>
    simp only [Departure.step] at hstep
    split_ifs at hstep with hanswers
    · cases hstep
      refine h.withLog st ?_
      rintro rfl hleft
      exact absurd ⟨rfl, hleft⟩ hanswers.2
    · cases hstep
      exact h
  | merge st count =>
    simp only [Departure.step] at hstep
    cases hstep
    refine h.withLog st ?_
    rintro rfl hleft
    rw [h.merged hleft, drop_nil]
  | deliver i =>
    simp only [Departure.step] at hstep
    cases hm : s.inFlight[i]? with
    | none => simp [hm] at hstep
    | some m =>
      simp only [hm] at hstep
      have hrest : ({ s with inFlight := s.inFlight.eraseIdx i } : Departure K N H).Inv c tid :=
        ⟨fun st hst => h.told st (mem_of_mem_eraseIdx hst), h.kept, h.merged⟩
      cases m with
      | selfDepart t =>
        simp only [handle] at hstep
        split_ifs at hstep
        cases hstep
        exact hrest.selfDepart t
      | nodeDepart st =>
        simp only [handle] at hstep
        split_ifs at hstep
        cases hstep
        have htold : 0 ∈ s.left := h.told st (mem_of_getElem? hm)
        exact hrest.nodeDepart st htold ((hok st hm).elim (fun h0 => h0 ▸ htold) id)

end Order

end Departure

/-- In every run in which the other nodes handle the departure after a thread of the departing node has, or for its
thread `0` in every run, no other thread answers requests of a key of that thread before the thread has merged its
log. -/
theorem departure_merges_first {K N H L : Type*} [DecidableEq K] [DecidableEq N] [LinearOrder H] [LinearOrder L]
    (c : DepartConfig K N H L) (tid : ℕ) (k : K) (hk : (Departure.init c : Departure K N H).Owned c tid k)
    (es : List (DepartEvent K N)) (s : Departure K N H) (hrun : Departure.run c es = some s)
    (hok : Transition.Guarded (Departure.step c) (Departure.Later tid) (Departure.init c) es) : s.MergedFirst c tid k := by
  have hinit : (Departure.init c : Departure K N H).Inv c tid :=
    ⟨by simp [Departure.init], fun _ _ => .inl rfl, fun h => absurd h List.not_mem_nil⟩
  have hinv : s.Inv c tid := Transition.invariant_of_guarded (fun _ _ _ h hok hstep => h.step hok hstep) hinit hrun hok
  intro st hst hanswers
  rcases hinv.kept st hst with hring | hleft
  · -- its ring has not changed, so it does not answer
    refine absurd ⟨?_, fun h => hst h.1⟩ (hk.2 st hst)
    rw [Departure.threads, ← hring]
    exact hanswers.1
  · exact ⟨hleft, hinv.merged hleft⟩

section Runs

/-- Two nodes with two threads each; the first node departs.  Nodes and threads have one place each in the rings; keys are
at the first node and at the thread of their number. -/
def departPair (virtualThreads : ℕ) : DepartConfig ℕ ℕ ℕ ℕ where
  fleet := ⟨⟨fun _ => 1, 1, 2⟩, ⟨fun _ => 0, fun n _ => n, id, fun tid _ => tid⟩, virtualThreads⟩
  maps _ _ := none
  servers _ := [0, 1]
  departing := 0

/-- Virtual threads at one place of the rings count once. -/
theorem departPair_step (virtualThreads : ℕ) (hpos : 0 < virtualThreads) :
    init (departPair virtualThreads) = init (departPair 1) ∧
      Answers (departPair virtualThreads) = Answers (departPair 1) ∧
        step (departPair virtualThreads) = step (departPair 1) := by
  have hne : List.range virtualThreads ≠ [] := by
    rw [Ne, range_eq_nil]
    omega
  have hinsert : (departPair virtualThreads).fleet.insertNode = (departPair 1).fleet.insertNode := by
    funext r n
    exact HashRing.foldl_insert_same r n n hne
  have hremove : removeNode (departPair virtualThreads) = removeNode (departPair 1) := by
    funext r n
    exact HashRing.foldl_erase_same r n hne
  have hlocal : (departPair virtualThreads).fleet.localRing = (departPair 1).fleet.localRing := by
    have hinner : (fun (r : HashRing ℕ ℕ) (tid : ℕ) => (List.range virtualThreads).foldl (fun r _ => r.insert tid tid) r) =
        fun r tid => r.insert tid tid := by
      funext r tid
      exact HashRing.foldl_insert_same r tid tid hne
    exact congrArg (fun f => (List.range 2).foldl f HashRing.empty) hinner
  have hanswers : Answers (departPair virtualThreads) = Answers (departPair 1) := by
    funext s st k
    simp only [Answers, threads, hlocal]
    rfl
  refine ⟨?_, hanswers, ?_⟩
  · simp only [init, hinsert]
    rfl
  · funext s e
    cases e with
    | put st k => simp only [step, hanswers]
    | merge st count => rfl
    | deliver i =>
      simp only [step]
      cases s.inFlight[i]? with
      | none => rfl
      | some m =>
        cases m with
        | selfDepart tid =>
          simp only [handle, selfDepart, hremove]
          rfl
        | nodeDepart st =>
          simp only [handle, nodeDepart, hremove]
          rfl

/-- Key `1` belongs to thread `1` of the departing node. -/
theorem departPair_owned : (init (departPair 1)).Owned (departPair 1) 1 1 := by
  refine ⟨by decide, ?_⟩
  rintro ⟨n, tid⟩ hn hst
  have hmem : (⟨n, tid⟩ : ServerThread ℕ) ∈ [⟨0, 1⟩] := hst.1
  exact hn (congrArg ServerThread.node (mem_singleton.mp hmem))

/-- Thread `1` of the departing node acknowledges a write, and is the last to hear of the departure. -/
def lateThread : List (DepartEvent ℕ ℕ) := [.put ⟨0, 1⟩ 1, .deliver 0, .deliver 0, .deliver 1]

/-- The other node then answers requests of the key that was written, and the write is in the log of a thread that has
not merged it. -/
theorem late_thread_write_missed : (Departure.init (departPair 3000)).Owned (departPair 3000) 1 1 ∧
    ∃ s, Departure.run (departPair 3000) lateThread = some s ∧ s.Answers (departPair 3000) ⟨1, 1⟩ 1 ∧
      s.left = [0] ∧ s.logs ⟨0, 1⟩ = [1] ∧ ¬s.MergedFirst (departPair 3000) 1 1 := by
  obtain ⟨hinit, hanswers, hstep⟩ := departPair_step 3000 (by decide)
  have howned := departPair_owned
  rw [Departure.Owned] at howned ⊢
  rw [hinit, hanswers, Departure.run, hstep, hinit]
  refine ⟨howned, _, rfl, by decide, by decide, by decide, fun h => ?_⟩
  have hleft := (h ⟨1, 1⟩ (by decide) (by rw [hanswers]; decide)).1
  exact absurd hleft (by decide)

/-- The departure is heard of everywhere, by the threads of the departing node first. -/
def orderlyDeparture : List (DepartEvent ℕ ℕ) :=
  [.put ⟨0, 1⟩ 1, .deliver 0, .deliver 1, .put ⟨0, 1⟩ 1, .deliver 0, .deliver 0, .put ⟨1, 1⟩ 1]

/-- The other node answers requests of the key when the write has been merged. -/
theorem departure_merges_first_orderlyDeparture :
    ∃ s, Departure.run (departPair 1) orderlyDeparture = some s ∧ s.Answers (departPair 1) ⟨1, 1⟩ 1 ∧
      s.MergedFirst (departPair 1) 1 1 := by
  refine ⟨_, rfl, by decide, departure_merges_first (departPair 1) 1 1 departPair_owned orderlyDeparture _ rfl ?_⟩
  refine ⟨trivial, fun st hst => ?_, fun st hst => ?_, trivial, fun st hst => ?_, fun st hst => ?_, trivial, trivial⟩
  · cases hst
  · cases hst
  · exact .inr (by decide)
  · exact .inr (by decide)

end Runs

end Dinomo
