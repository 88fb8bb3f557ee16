import Dinomo.Replication

/-!
# Changes of replication factors

`replication_change_handler` takes the new factors of some keys into the replication map of a thread.  The
primary thread of a key installs the key's indirect pointer when the memory factor leaves the default value
and removes it when the factor comes back; another thread drops its cached entries of the key when it loses
the key.  The factor before the change is read with `operator[]`, so that a key the map does not have counts
as one with factor zero.
-/

namespace Dinomo

open List

/-- `ReplicationFactor`: the new factors of a key. -/
structure ReplicationFactor (K : Type*) where
  key : K
  globalFactors : List (Tier × ℕ)
  localFactors : List (Tier × ℕ)
deriving DecidableEq, Repr

/-- `ReplicationFactorUpdate`. -/
structure ReplicationFactorUpdate (K : Type*) where
  updates : List (ReplicationFactor K)
  responseAddress : String
  requestId : String
deriving DecidableEq, Repr

/-- What a thread does when it handles an update.  `swap(key, true)` is a merge, an invalidation and an
installation, and `swap(key, false)` is an invalidation and a removal. -/
inductive ChangeAction (K : Type*)
  | forward (tid : ℕ) (waits : Bool)
  | merge
  | invalidateCache (key : K)
  | installPointer (key : K)
  | removePointer (key : K)
  | storeGlobal (key : K) (tier : Tier) (value : ℕ)
  | storeLocal (key : K) (tier : Tier) (value : ℕ)
  | acknowledge (address requestId : String)
deriving DecidableEq, Repr

section Handler

variable {K N H L : Type*} [DecidableEq K] [DecidableEq N] [LinearOrder H] [LinearOrder L]
variable (params : ClusterParams) (hash : Hashers K N H L) (rings : Rings N H L) (self : ServerThread N)

/-- What the primary thread of a key does before it stores a new memory factor. -/
def switchActions (k : K) (origin value : ℕ) : List (ChangeAction K) :=
  if origin = params.defaultGlobalReplication .memory ∧ origin < value then
    [.merge, .invalidateCache k, .installPointer k]
  else if params.defaultGlobalReplication .memory < origin ∧ value = params.defaultGlobalReplication .memory then
    [.invalidateCache k, .removePointer k]
  else []

/-- The change of the memory factor of a key. -/
def changeMemory (m : ReplicationMap K) (k : K) (value : ℕ) : ReplicationMap K × List (ChangeAction K) :=
  let origin := (m.read k).globalReplication .memory
  let m := m.touch k
  if isPrimaryReplica hash rings m k self then
    (m.setGlobal k .memory value, switchActions params k origin value ++ [.storeGlobal k .memory value])
  else
    let found := getResponsibleThreads params hash rings m k
    let m := found.2.setGlobal k .memory value
    if self ∈ found.1 ∧ value < origin ∧ value = params.defaultGlobalReplication .memory then
      let found := getResponsibleThreads params hash rings m k
      (found.2, .storeGlobal k .memory value :: if self ∈ found.1 then [] else [.invalidateCache k])
    else (m, [.storeGlobal k .memory value])

/-- The change of a global factor of a key. -/
def changeGlobal (m : ReplicationMap K) (k : K) (factor : Tier × ℕ) : ReplicationMap K × List (ChangeAction K) :=
  match factor with
  | (.memory, value) => changeMemory params hash rings self m k value
  | (tier, value) => (m.setGlobal k tier value, [.storeGlobal k tier value])

/-- The change of a local factor of a key. -/
def changeLocal (m : ReplicationMap K) (k : K) (factor : Tier × ℕ) : ReplicationMap K × List (ChangeAction K) :=
  (m.setLocal k factor.1 factor.2, [.storeLocal k factor.1 factor.2])

/-- A loop that changes the map and emits actions. -/
def changeAll {α : Type*} (change : ReplicationMap K → α → ReplicationMap K × List (ChangeAction K)) :
    ReplicationMap K → List α → ReplicationMap K × List (ChangeAction K)
  | m, [] => (m, [])
  | m, a :: as =>
    let done := change m a
    let rest := changeAll change done.1 as
    (rest.1, done.2 ++ rest.2)

/-- The new factors of a key, first the global and then the local ones. -/
def changeKey (m : ReplicationMap K) (u : ReplicationFactor K) : ReplicationMap K × List (ChangeAction K) :=
  let done := changeAll (fun m => changeGlobal params hash rings self m u.key) m u.globalFactors
  let rest := changeAll (fun m => changeLocal m u.key) done.1 u.localFactors
  (rest.1, done.2 ++ rest.2)

/-- Thread `0` passes the update on to the other threads of its node first. -/
def forwards (req : ReplicationFactorUpdate K) : List (ChangeAction K) :=
  if self.tid = 0 then
    (List.range' 1 (params.threadNum - 1)).map fun tid => .forward tid (req.responseAddress ≠ "")
  else []

/-- The answer to an update that asks for one. -/
def acknowledgements (req : ReplicationFactorUpdate K) : List (ChangeAction K) :=
  if req.responseAddress ≠ "" then [.acknowledge req.responseAddress req.requestId] else []

/-- `replication_change_handler`. -/
def replicationChangeHandler (m : ReplicationMap K) (req : ReplicationFactorUpdate K) :
    ReplicationMap K × List (ChangeAction K) :=
  let done := changeAll (changeKey params hash rings self) m req.updates
  (done.1, forwards params self req ++ done.2 ++ acknowledgements req)

end Handler

/-- The new memory factor of a key, or the answer. -/
def ChangeAction.Settles {K : Type*} (k : K) : ChangeAction K → Prop
  | .storeGlobal j tier _ => j = k ∧ tier = .memory
  | .acknowledge _ _ => True
  | _ => False

/-- The thread merges its log and installs the pointer of a key before it stores the key's new memory factor and
before it answers. -/
def InstallsFirst {K : Type*} (k : K) (value : ℕ) (actions : List (ChangeAction K)) : Prop :=
  ∃ pre mid post, actions = pre ++ .merge :: mid ++ .installPointer k :: post ∧
    (∀ x ∈ pre ++ mid, ¬x.Settles k) ∧ .storeGlobal k .memory value ∈ post

section Frame

variable {K N H L : Type*} [DecidableEq K] [DecidableEq N] [LinearOrder H] [LinearOrder L]
variable {params : ClusterParams} {hash : Hashers K N H L} {rings : Rings N H L} {self : ServerThread N}
  {m : ReplicationMap K} {k : K}

/-- A change that leaves the memory factor of a key alone. -/
structure Unconcerned (k : K) (m : ReplicationMap K) (done : ReplicationMap K × List (ChangeAction K)) : Prop where
  factor : (done.1.read k).globalReplication .memory = (m.read k).globalReplication .memory
  quiet : ∀ x ∈ done.2, ¬x.Settles k ∧ x ≠ .installPointer k

omit [DecidableEq K] in
/-- One such change after another. -/
theorem Unconcerned.append {done rest : ReplicationMap K × List (ChangeAction K)} (h : Unconcerned k m done)
    (h' : Unconcerned k done.1 rest) : Unconcerned k m (rest.1, done.2 ++ rest.2) := by
  refine ⟨h'.factor.trans h.factor, fun x hx => ?_⟩
  rcases mem_append.mp hx with hx | hx
  · exact h.quiet x hx
  · exact h'.quiet x hx

omit [DecidableEq K] in
/-- A loop of such changes. -/
theorem unconcerned_changeAll {α : Type*} {change : ReplicationMap K → α → ReplicationMap K × List (ChangeAction K)}
    {as : List α} (h : ∀ a ∈ as, ∀ m, Unconcerned k m (change m a)) : Unconcerned k m (changeAll change m as) := by
  induction as generalizing m with
  | nil => exact ⟨rfl, by simp [changeAll]⟩
  | cons a as ih =>
    have hdone := h a mem_cons_self m
    have hrest := ih (m := (change m a).1) fun b hb => h b (mem_cons_of_mem _ hb)
    exact hdone.append hrest

omit [DecidableEq K] in
/-- A loop over two lists, one after the other. -/
theorem changeAll_append {α : Type*} (change : ReplicationMap K → α → ReplicationMap K × List (ChangeAction K))
    (m : ReplicationMap K) (as bs : List α) :
    changeAll change m (as ++ bs) =
      ((changeAll change (changeAll change m as).1 bs).1,
        (changeAll change m as).2 ++ (changeAll change (changeAll change m as).1 bs).2) := by
  induction as generalizing m with
  | nil => rfl
  | cons a as ih => simp only [cons_append, changeAll, ih, append_assoc]

/-- An entry of another key stays as it is. -/
theorem ReplicationMap.read_update_of_ne {j : K} (h : j ≠ k) (x : Option KeyReplication) :
    read (Function.update m j x) k = read m k := by
  simp [read, Function.update_of_ne h.symm]

/-- Whether a thread is the primary one of a key is read from the entry `operator[]` creates. -/
theorem isPrimaryReplica_touch : isPrimaryReplica hash rings (m.touch k) k self = isPrimaryReplica hash rings m k self := by
  simp [isPrimaryReplica, ReplicationMap.touch, ReplicationMap.read]

/-- The lookup of a key with an entry. -/
theorem getResponsibleThreads_update (rep : KeyReplication) :
    getResponsibleThreads params hash rings (Function.update m k (some rep)) k =
      (threadsFor hash rings k rep, Function.update m k (some rep)) := by
  simp [getResponsibleThreads]

/-- The factors of a key with a new memory factor. -/
def KeyReplication.withMemory (rep : KeyReplication) (value : ℕ) : KeyReplication :=
  { rep with globalReplication := Function.update rep.globalReplication .memory value }

/-- Factors before and after a change under which a thread loses a replicated key for good. -/
def LosesKey (params : ClusterParams) (hash : Hashers K N H L) (rings : Rings N H L) (self : ServerThread N)
    (m : ReplicationMap K) (k : K) (value : ℕ) : Prop :=
  self ∈ threadsFor hash rings k (m.read k) ∧ value < (m.read k).globalReplication .memory ∧
    value = params.defaultGlobalReplication .memory ∧ self ∉ threadsFor hash rings k ((m.read k).withMemory value)

instance (value : ℕ) : Decidable (LosesKey params hash rings self m k value) :=
  inferInstanceAs (Decidable (_ ∧ _ ∧ _ ∧ _))

/-- What a change of the memory factor does: the primary thread of the key installs or removes its pointer, a
thread that loses the key drops its cached entries, and all store the factor. -/
theorem changeMemory_eq (value : ℕ) :
    changeMemory params hash rings self m k value =
      (m.setGlobal k .memory value,
        if isPrimaryReplica hash rings m k self then
          switchActions params k ((m.read k).globalReplication .memory) value ++ [.storeGlobal k .memory value]
        else .storeGlobal k .memory value ::
          if LosesKey params hash rings self m k value then [.invalidateCache k] else []) := by
  have hset : (m.touch k).setGlobal k .memory value = m.setGlobal k .memory value := by
    simp [ReplicationMap.setGlobal, ReplicationMap.touch, ReplicationMap.read]
  have htouch : getResponsibleThreads params hash rings (m.touch k) k =
      (threadsFor hash rings k (m.read k), m.touch k) := getResponsibleThreads_update _
  have hlookup : getResponsibleThreads params hash rings (m.setGlobal k .memory value) k =
      (threadsFor hash rings k ((m.read k).withMemory value), m.setGlobal k .memory value) :=
    getResponsibleThreads_update _
  simp only [changeMemory, isPrimaryReplica_touch, htouch, hset, hlookup]
  by_cases hp : isPrimaryReplica hash rings m k self = true
  · rw [if_pos hp, if_pos hp]
  · rw [if_neg hp, if_neg hp]
    by_cases hlow : self ∈ threadsFor hash rings k (m.read k) ∧ value < (m.read k).globalReplication .memory ∧
        value = params.defaultGlobalReplication .memory
    · rw [if_pos hlow]
      by_cases hself : self ∈ threadsFor hash rings k ((m.read k).withMemory value)
      · have hloses : ¬LosesKey params hash rings self m k value := fun h => h.2.2.2 hself
        rw [if_pos hself, if_neg hloses]
      · have hloses : LosesKey params hash rings self m k value := ⟨hlow.1, hlow.2.1, hlow.2.2, hself⟩
        rw [if_neg hself, if_pos hloses]
    · have hloses : ¬LosesKey params hash rings self m k value := fun h => hlow ⟨h.1, h.2.1, h.2.2.1⟩
      rw [if_neg hlow, if_neg hloses]

/-- The actions of a change concern its key. -/
theorem mem_changeMemory {x : ChangeAction K} {value : ℕ} (hx : x ∈ (changeMemory params hash rings self m k value).2) :
    x ∈ [.merge, .invalidateCache k, .installPointer k, .removePointer k, .storeGlobal k .memory value] := by
  rw [changeMemory_eq, switchActions] at hx
  simp only [mem_cons, not_mem_nil, or_false]
  split_ifs at hx <;> simp only [cons_append, nil_append, mem_cons, not_mem_nil, or_false] at hx <;>
    tauto

/-- A change of the memory factor of another key. -/
theorem unconcerned_changeMemory {j : K} (h : j ≠ k) (value : ℕ) :
    Unconcerned k m (changeMemory params hash rings self m j value) := by
  refine ⟨?_, fun x hx => ?_⟩
  · rw [changeMemory_eq]
    exact congrArg (fun rep => KeyReplication.globalReplication rep .memory) (ReplicationMap.read_update_of_ne h _)
  · have := mem_changeMemory hx
    simp only [mem_cons, not_mem_nil, or_false] at this
    rcases this with rfl | rfl | rfl | rfl | rfl <;> simp [ChangeAction.Settles, h]

/-- A change of a global factor of another key or tier. -/
theorem unconcerned_changeGlobal {j : K} {factor : Tier × ℕ} (h : j ≠ k ∨ factor.1 ≠ .memory) :
    Unconcerned k m (changeGlobal params hash rings self m j factor) := by
  obtain ⟨tier, value⟩ := factor
  cases tier with
  | memory => exact unconcerned_changeMemory (h.resolve_right (by simp)) value
  | storage =>
    refine ⟨?_, by simp [changeGlobal, ChangeAction.Settles]⟩
    by_cases hj : j = k
    · subst hj
      simp [changeGlobal, ReplicationMap.setGlobal, ReplicationMap.read]
    · exact congrArg (fun rep => KeyReplication.globalReplication rep .memory) (ReplicationMap.read_update_of_ne hj _)

/-- A change of a local factor. -/
theorem unconcerned_changeLocal (j : K) (factor : Tier × ℕ) : Unconcerned k m (changeLocal m j factor) := by
  refine ⟨?_, by simp [changeLocal, ChangeAction.Settles]⟩
  by_cases hj : j = k
  · subst hj
    simp [changeLocal, ReplicationMap.setLocal, ReplicationMap.read]
  · exact congrArg (fun rep => KeyReplication.globalReplication rep .memory) (ReplicationMap.read_update_of_ne hj _)

/-- The new factors of a key do not concern the memory factor of another one. -/
theorem unconcerned_changeKey {u : ReplicationFactor K}
    (h : u.key = k → ∀ factor ∈ u.globalFactors, factor.1 ≠ .memory) :
    Unconcerned k m (changeKey params hash rings self m u) := by
  have hglobal : Unconcerned k m (changeAll (fun m => changeGlobal params hash rings self m u.key) m u.globalFactors) := by
    refine unconcerned_changeAll fun factor hfactor m => unconcerned_changeGlobal ?_
    by_cases hk : u.key = k
    · exact .inr (h hk factor hfactor)
    · exact .inl hk
  exact hglobal.append (unconcerned_changeAll fun factor _ m => unconcerned_changeLocal u.key factor)

end Frame

section Raise

variable {K N H L : Type*} [DecidableEq K] [DecidableEq N] [LinearOrder H] [LinearOrder L]
variable {params : ClusterParams} {hash : Hashers K N H L} {rings : Rings N H L} {self : ServerThread N}
  {m : ReplicationMap K} {k : K} {value : ℕ} {req : ReplicationFactorUpdate K}

/-- The first memory factor that an update has for a key. -/
def ReplicationFactorUpdate.SetsMemory (req : ReplicationFactorUpdate K) (k : K) (value : ℕ) : Prop :=
  ∃ pre factors post before after, req.updates = pre ++ ⟨k, before ++ (.memory, value) :: after, factors⟩ :: post ∧
    (∀ u ∈ pre, u.key = k → ∀ factor ∈ u.globalFactors, factor.1 ≠ .memory) ∧ ∀ factor ∈ before, factor.1 ≠ .memory

omit [DecidableEq K] in
/-- An action that stores the factor or answers, with no installation before it. -/
theorem not_installsFirst {pre post : List (ChangeAction K)} {x : ChangeAction K} (hx : x.Settles k)
    (hpre : ∀ y ∈ pre, y ≠ .installPointer k) : ¬InstallsFirst k value (pre ++ x :: post) := by
  rintro ⟨a, b, c, heq, hquiet, -⟩
  have hmerge : ∀ y ∈ a ++ .merge :: b, ¬y.Settles k := by
    intro y hy
    rcases mem_append.mp hy with hy | hy
    · exact hquiet y (mem_append_left _ hy)
    · rcases mem_cons.mp hy with rfl | hy
      · exact id
      · exact hquiet y (mem_append_right _ hy)
  rcases append_eq_append_iff.mp heq with ⟨l, hl, hrest⟩ | ⟨l, hl, hrest⟩
  · cases l with
    | nil =>
      obtain ⟨rfl, -⟩ := cons_eq_cons.mp hrest
      exact hx
    | cons y l =>
      obtain ⟨rfl, -⟩ := cons_eq_cons.mp hrest
      exact hmerge x (by simp [hl]) hx
  · cases l with
    | nil =>
      obtain ⟨rfl, -⟩ := cons_eq_cons.mp hrest
      exact hx
    | cons y l =>
      obtain ⟨rfl, -⟩ := cons_eq_cons.mp hrest
      exact hpre _ (by simp [hl]) rfl

/-- The handler's actions around the change of the memory factor of a key. -/
theorem replicationChangeHandler_split (params : ClusterParams) (hash : Hashers K N H L) (rings : Rings N H L)
    (self : ServerThread N) (m : ReplicationMap K) (h : req.SetsMemory k value) :
    ∃ (m' : ReplicationMap K) (pre post : List (ChangeAction K)),
      (replicationChangeHandler params hash rings self m req).2 =
          pre ++ (changeMemory params hash rings self m' k value).2 ++ post ∧
        (m'.read k).globalReplication .memory = (m.read k).globalReplication .memory ∧
          ∀ x ∈ pre, ¬x.Settles k ∧ x ≠ .installPointer k := by
  obtain ⟨pre, factors, post, before, after, hreq, hpre, hbefore⟩ := h
  have hkeys : Unconcerned k m (changeAll (changeKey params hash rings self) m pre) :=
    unconcerned_changeAll fun u hu m => unconcerned_changeKey (hpre u hu)
  set m₁ := (changeAll (changeKey params hash rings self) m pre).1 with hm₁
  have hfactors : Unconcerned k m₁ (changeAll (fun m => changeGlobal params hash rings self m k) m₁ before) :=
    unconcerned_changeAll fun factor hfactor m => unconcerned_changeGlobal (.inr (hbefore factor hfactor))
  have hforwards : ∀ x ∈ forwards params self req, ¬x.Settles k ∧ x ≠ .installPointer k := by
    intro x hx
    unfold forwards at hx
    split_ifs at hx
    · obtain ⟨tid, -, rfl⟩ := mem_map.mp hx
      simp [ChangeAction.Settles]
    · simp at hx
  refine ⟨(changeAll (fun m => changeGlobal params hash rings self m k) m₁ before).1,
    forwards params self req ++ (changeAll (changeKey params hash rings self) m pre).2 ++
      (changeAll (fun m => changeGlobal params hash rings self m k) m₁ before).2, ?_, ?_,
    hfactors.factor.trans hkeys.factor, fun x hx => ?_⟩
  rotate_left
  · simp only [replicationChangeHandler, hreq, changeAll_append, ← hm₁, changeAll, changeKey, changeGlobal,
      append_assoc]
    rfl
  · rcases mem_append.mp hx with hx | hx
    · rcases mem_append.mp hx with hx | hx
      · exact hforwards x hx
      · exact hkeys.quiet x hx
    · exact hfactors.quiet x hx

/-- The place of a key in the rings is with a thread. -/
def ServesFirst (hash : Hashers K N H L) (rings : Rings N H L) (k : K) (st : ServerThread N) : Prop :=
  rings.globalRing.find (hash.globalKey k) = some st.node ∧ rings.localRing.find (hash.localKey k) = some st.tid

/-- A thread with the key's place in the rings is the primary one unless its map has no replica of the key. -/
theorem isPrimaryReplica_iff (h : ServesFirst hash rings k self) :
    isPrimaryReplica hash rings m k self = true ↔ (m.read k).globalReplication .memory ≠ 0 := by
  unfold isPrimaryReplica
  split_ifs with hzero
  · simp [hzero]
  · simp [hzero, h.1, h.2]

/-- The primary thread has the key's place in the rings. -/
theorem servesFirst_of_isPrimaryReplica (h : isPrimaryReplica hash rings m k self = true) :
    ServesFirst hash rings k self := by
  unfold isPrimaryReplica at h
  split_ifs at h
  obtain ⟨hglobal, hlocal⟩ := of_decide_eq_true h
  exact ⟨hglobal, hlocal⟩

/-- An update that raises the memory factor of a key above the default makes the thread with the key's place in
the rings install the pointer before it stores the factor and answers, if and only if the map of the thread has the
default factor for the key, and that factor is not zero. -/
theorem raise_installs_pointer_iff (params : ClusterParams) (hash : Hashers K N H L) (rings : Rings N H L)
    (self : ServerThread N) (m : ReplicationMap K) (req : ReplicationFactorUpdate K) (k : K) (value : ℕ)
    (hself : ServesFirst hash rings k self) (hreq : req.SetsMemory k value)
    (hraise : params.defaultGlobalReplication .memory < value) :
    InstallsFirst k value (replicationChangeHandler params hash rings self m req).2 ↔
      (m.read k).globalReplication .memory = params.defaultGlobalReplication .memory ∧
        params.defaultGlobalReplication .memory ≠ 0 := by
  obtain ⟨m', pre, post, heq, hfactor, hpre⟩ := replicationChangeHandler_split params hash rings self m hreq
  rw [heq, changeMemory_eq, ← hfactor]
  by_cases hprimary : isPrimaryReplica hash rings m' k self = true
  · have hne := (isPrimaryReplica_iff hself).mp hprimary
    by_cases horigin : (m'.read k).globalReplication .memory = params.defaultGlobalReplication .memory
    · rw [if_pos hprimary, switchActions, if_pos ⟨horigin, by omega⟩]
      refine ⟨fun _ => ⟨horigin, horigin ▸ hne⟩, fun _ => ?_⟩
      refine ⟨pre, [.invalidateCache k], .storeGlobal k .memory value :: post, by simp, fun x hx => ?_, by simp⟩
      rcases List.mem_append.mp hx with hx | hx
      · exact (hpre x hx).1
      · rw [List.mem_singleton.mp hx]
        exact id
    · have hlow : ¬(params.defaultGlobalReplication .memory < (m'.read k).globalReplication .memory ∧
          value = params.defaultGlobalReplication .memory) := by omega
      rw [if_pos hprimary, switchActions, if_neg fun h => horigin h.1, if_neg hlow, List.nil_append, List.append_assoc]
      refine ⟨fun h => absurd h (not_installsFirst ⟨rfl, rfl⟩ fun y hy => (hpre y hy).2), fun h => absurd h.1 horigin⟩
  · have hzero : (m'.read k).globalReplication .memory = 0 := by
      by_contra hne
      exact hprimary ((isPrimaryReplica_iff hself).mpr hne)
    rw [if_neg hprimary, List.append_assoc, List.cons_append]
    refine ⟨fun h => absurd h (not_installsFirst ⟨rfl, rfl⟩ fun y hy => (hpre y hy).2), fun h => ?_⟩
    exact absurd (h.1 ▸ hzero) h.2

end Raise

/-- The monitor raises the memory factor of key `1` to two. -/
def raiseToTwo : ReplicationFactorUpdate ℕ := ⟨[⟨1, [(.memory, 2)], []⟩], "monitor", "0"⟩

/-- A thread that has served the key installs the pointer. -/
theorem raise_installs_pointer_served :
    ServesFirst soloHash soloRings 1 ⟨(), 0⟩ ∧ raiseToTwo.SetsMemory 1 2 ∧ InstallsFirst 1 2
      (replicationChangeHandler soloParams soloHash soloRings ⟨(), 0⟩
        (ReplicationMap.initReplication soloParams (fun _ => none) 1) raiseToTwo).2 := by
  have hself : ServesFirst soloHash soloRings 1 ⟨(), 0⟩ := ⟨by decide, by decide⟩
  have hreq : raiseToTwo.SetsMemory 1 2 := ⟨[], [], [], [], [], rfl, by simp, by simp⟩
  exact ⟨hself, hreq, (raise_installs_pointer_iff _ _ _ _ _ _ _ _ hself hreq (by decide)).mpr ⟨rfl, by decide⟩⟩

/-- A thread whose map does not have the key stores the factor and answers without installing the pointer. -/
theorem raise_of_absent_key_installs_nothing :
    ServesFirst soloHash soloRings 1 ⟨(), 0⟩ ∧ ¬InstallsFirst 1 2
      (replicationChangeHandler soloParams soloHash soloRings ⟨(), 0⟩ (fun _ => none) raiseToTwo).2 := by
  refine ⟨⟨by decide, by decide⟩, ?_⟩
  have hactions : (replicationChangeHandler soloParams soloHash soloRings ⟨(), 0⟩ (fun _ => none) raiseToTwo).2 =
      [.storeGlobal 1 .memory 2, .acknowledge "monitor" "0"] := by decide
  have hsettles : (.storeGlobal 1 .memory 2 : ChangeAction ℕ).Settles 1 := ⟨rfl, rfl⟩
  have hnone : ∀ y ∈ ([] : List (ChangeAction ℕ)), y ≠ .installPointer 1 := by simp
  rw [hactions]
  exact not_installsFirst hsettles hnone

end Dinomo
