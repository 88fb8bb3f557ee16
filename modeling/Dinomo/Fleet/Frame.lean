import Dinomo.Fleet.Balance

/-!
# Events that leave replicated keys alone

Lookups, writes into the log, merges of the log and replicated accesses keep the threads and the index in step:
they change the factors of no key, and a cached pointer is the one the index has.
-/

namespace Dinomo

open Function

namespace Fleet

variable {K N H L : Type*} [DecidableEq K] [DecidableEq N] [LinearOrder H] [LinearOrder L]
variable (cfg : FleetConfig K N H L)

/-- Between two states nothing happened to a key, except that its first write may have been merged. -/
structure Same (s s' : Fleet K N H L) (k : K) : Prop where
  ring : s'.monitorRing = s.monitorRing
  target : s'.target cfg k = s.target cfg k
  factors : ∀ st, s'.factors cfg st k = s.factors cfg st k
  known : ∀ st, s.maps st k ≠ none → s'.maps st k ≠ none
  notices : ∀ n, n.key = k → (n ∈ s'.unhandled ↔ n ∈ s.unhandled)
  pointers : ∀ st, s'.pointers st k = s.pointers st k
  index : s'.index k = s.index k ∨ s.index k = none ∧ s'.index k = some .oplog
  logged : ∀ st, k ∈ s.logged st → s'.index k ≠ none ∨ k ∈ s'.logged st

variable {cfg} {s s' : Fleet K N H L} {k : K} {old : ℕ}

namespace Same

/-- The memory factors are the same. -/
theorem factor (h : Same cfg s s' k) (st : ServerThread N) : s'.factor cfg st k = s.factor cfg st k := by
  simp only [Fleet.factor, h.factors]

/-- The same threads have not handled their update. -/
theorem awaits (h : Same cfg s s' k) (st : ServerThread N) : s'.Awaits st k ↔ s.Awaits st k := by
  constructor
  · rintro ⟨n, hn, hdest, hkey⟩
    exact ⟨n, (h.notices n hkey).mp hn, hdest, hkey⟩
  · rintro ⟨n, hn, hdest, hkey⟩
    exact ⟨n, (h.notices n hkey).mpr hn, hdest, hkey⟩

/-- The primary thread is the same. -/
theorem isPrimary (h : Same cfg s s' k) (p : ServerThread N) : s'.IsPrimary cfg k p ↔ s.IsPrimary cfg k p := by
  simp only [IsPrimary, h.ring]

/-- An entry stays as it is. -/
theorem index_of_some (h : Same cfg s s' k) {e : Entry} (he : s.index k = some e) : s'.index k = some e := by
  rcases h.index with heq | ⟨hnone, -⟩
  · rw [heq, he]
  · rw [hnone] at he
    cases he

end Same

/-- A key to which nothing happened stays in step. -/
theorem Balanced.of_same (h : s.Balanced cfg k old) (hs : Same cfg s s' k) : s'.Balanced cfg k old where
  old_pos := h.old_pos
  target_pos := hs.target ▸ h.target_pos
  direction := by
    rw [hs.target]
    exact h.direction
  enough := by
    rw [hs.target, hs.ring]
    exact h.enough
  locals := fun st => by
    rw [hs.factors]
    exact h.locals st
  told := fun n hn hkey => by
    rw [hs.target, hs.ring]
    exact h.told n ((hs.notices n hkey).mp hn) hkey
  pending := fun st hst => by
    rw [hs.factor, hs.ring]
    exact h.pending st ((hs.awaits st).mp hst)
  settled := fun st htid hst => by
    rw [hs.factor, hs.ring, hs.target]
    exact h.settled st htid fun hw => hst ((hs.awaits st).mpr hw)
  raising := fun hold htarget p hp hw => by
    obtain ⟨hknown, hentry, hrest⟩ := h.raising hold (hs.target ▸ htarget) p ((hs.isPrimary p).mp hp) ((hs.awaits p).mp hw)
    refine ⟨hs.known p hknown, ?_, fun st hnode htid hne => ?_⟩
    · rcases hentry with hentry | hlog
      · obtain ⟨e, he⟩ := Option.ne_none_iff_exists'.mp hentry
        exact .inl (by simp [hs.index_of_some he])
      · exact hs.logged p hlog
    · rw [hs.target, hs.ring] at hnode
      exact (hs.awaits st).mpr (hrest st hnode htid hne)
  lowering := fun hold htarget p hp hw st hst =>
    h.lowering hold (hs.target ▸ htarget) p ((hs.isPrimary p).mp hp) (fun hw' => hw ((hs.awaits p).mpr hw')) st
      ((hs.awaits st).mp hst)
  pointed := fun p hp hf => by
    rw [hs.factor] at hf
    obtain ⟨q, hq⟩ := h.pointed p ((hs.isPrimary p).mp hp) hf
    exact ⟨q, hs.index_of_some hq⟩
  direct := fun hf => by
    have hdirect := h.direct fun p hp => hs.factor p ▸ hf p ((hs.isPrimary p).mpr hp)
    rcases hs.index with heq | ⟨-, hsome⟩
    · rw [heq]
      exact hdirect
    · exact .inr hsome
  holders := fun st e he => by
    rw [hs.pointers] at he
    obtain ⟨hf, hnode, hlocal, hentry⟩ := h.holders st e he
    rw [hs.factor, hs.ring]
    exact ⟨hf, hnode, hlocal, hs.index_of_some hentry⟩

/-- A state in which nothing happened to any key. -/
theorem Inv.of_same (h : s.Inv cfg) (hs : ∀ k, Same cfg s s' k) (hflight : s'.inFlight = s.inFlight)
    (hdeferred : s'.deferred = s.deferred) (hrings : s'.rings = s.rings) (hring : s'.monitorRing = s.monitorRing) :
    s'.Inv cfg := by
  have hunhandled : s'.unhandled = s.unhandled := by rw [unhandled, unhandled, hflight, hdeferred]
  refine ⟨fun k => ?_, ?_, ?_, ?_, ?_⟩
  · obtain ⟨old, hb⟩ := h.balanced k
    exact ⟨old, hb.of_same (hs k)⟩
  · rw [hunhandled]
    exact h.nodup
  · rw [hdeferred]
    exact h.deferred
  · rw [hflight, hunhandled]
    exact h.released
  · intro hbusy
    rw [hrings, hring]
    refine h.rings ?_
    rw [hunhandled] at hbusy
    simpa only [(hs _).target] using hbusy

section Quiet

/-- The log of a thread is merged. -/
theorem same_merge (s : Fleet K N H L) (st : ServerThread N) (k : K) : Same cfg s (s.merge st) k where
  ring := rfl
  target := rfl
  factors := fun _ => rfl
  known := fun _ h => h
  notices := fun _ _ => Iff.rfl
  pointers := fun _ => rfl
  index := by
    simp only [merge]
    split_ifs with h
    · exact .inr ⟨h.1, rfl⟩
    · exact .inl rfl
  logged := fun st' hlog => by
    by_cases hst : st' = st
    · subst hst
      by_cases hnone : s.index k = none
      · exact .inl (by simp [merge, hnone, hlog])
      · exact .inl (by simp [merge, hnone])
    · exact .inr (by simpa [merge, update_of_ne hst] using hlog)

/-- The monitor learns of a key. -/
theorem same_monitorKey (s : Fleet K N H L) (j k : K) :
    Same cfg s { s with monitor := if s.monitor j = none then s.monitor.initReplication cfg.params j else s.monitor } k where
  ring := rfl
  target := by
    by_cases hj : s.monitor j = none
    · by_cases hk : k = j
      · subst hk
        simp [target, hj, ReplicationMap.initReplication]
      · simp [target, hj, ReplicationMap.initReplication, update_of_ne hk]
    · simp [target, hj]
  factors := fun _ => rfl
  known := fun _ h => h
  notices := fun _ _ => Iff.rfl
  pointers := fun _ => rfl
  index := .inl rfl
  logged := fun _ h => .inr h

/-- A key with an entry in a replication map keeps it. -/
theorem getResponsibleThreads_known {params : ClusterParams} {hash : Hashers K N H L} {rings : Rings N H L}
    {m : ReplicationMap K} {j : K} (h : m k ≠ none) : (getResponsibleThreads params hash rings m j).2 k ≠ none := by
  unfold getResponsibleThreads
  cases hj : m j with
  | some rep => exact h
  | none =>
    by_cases hk : k = j
    · subst hk
      exact absurd hj h
    · simpa [ReplicationMap.initReplication, update_of_ne hk] using h

/-- A thread looks a key up, and may put it into its log. -/
theorem same_lookUp (s : Fleet K N H L) (st : ServerThread N) (j k : K) {logged : ServerThread N → List K}
    (hlogged : ∀ st', s.logged st' ⊆ logged st') : Same cfg s { s.lookUp cfg st j with logged := logged } k where
  ring := rfl
  target := rfl
  factors := fun st' => by
    by_cases hst : st' = st
    · subst hst
      simp only [factors, lookUp, update_self]
      exact getResponsibleThreads_snd _ _ _ _ _ _
    · simp [factors, lookUp, update_of_ne hst]
  known := fun st' h => by
    by_cases hst : st' = st
    · subst hst
      simpa [lookUp] using getResponsibleThreads_known h
    · simpa [lookUp, update_of_ne hst] using h
  notices := fun _ _ => Iff.rfl
  pointers := fun _ => rfl
  index := .inl rfl
  logged := fun st' h => .inr (hlogged st' h)

/-- A responsible thread that takes the replicated path keeps the pointer of the index. -/
theorem Balanced.keepPointer (h : s.Balanced cfg k old) {st : ServerThread N} {j : K}
    (hst : j = k → 1 < s.factor cfg st k ∧ st.node ∈ cfg.nodesOf s.monitorRing k (s.factor cfg st k) ∧
      cfg.localRing.find (cfg.hash.localKey k) = some st.tid) :
    (s.keepPointer st j).Balanced cfg k old := by
  refine { h with holders := fun st' e he => ?_ }
  by_cases hsame : st' = st ∧ k = j
  · obtain ⟨rfl, rfl⟩ := hsame
    simp only [Fleet.keepPointer, update_self] at he
    cases hcached : s.pointers st' k with
    | some e' =>
      rw [hcached, Option.some_or] at he
      exact h.holders st' e (hcached.trans he)
    | none =>
      rw [hcached, Option.none_or] at he
      exact ⟨(hst rfl).1, (hst rfl).2.1, (hst rfl).2.2, he⟩
  · have hpointers : s.pointers st' k = some e := by
      rw [← he]
      by_cases hst' : st' = st
      · subst hst'
        simp [Fleet.keepPointer, update_of_ne fun hk => hsame ⟨rfl, hk⟩]
      · simp [Fleet.keepPointer, update_of_ne hst']
    exact h.holders st' e hpointers

/-- A thread on the replicated path has a factor above one and its place in the monitor's ring. -/
theorem Inv.replicated (h : s.Inv cfg) {st : ServerThread N} (hst : st ∈ s.threads cfg st k)
    (hlong : 1 < (s.threads cfg st k).length) : 1 < s.factor cfg st k ∧
      st.node ∈ cfg.nodesOf s.monitorRing k (s.factor cfg st k) ∧
        cfg.localRing.find (cfg.hash.localKey k) = some st.tid := by
  obtain ⟨old, hb⟩ := h.balanced k
  obtain ⟨hnode, hlocal⟩ := (mem_threads (hb.locals st)).mp hst
  rw [length_threads (hb.locals st) hst] at hlong
  have hle : (cfg.nodesOf (s.rings st) k (s.factor cfg st k)).length ≤ s.factor cfg st k := List.length_take_le _ _
  have hf : 1 < s.factor cfg st k := by omega
  rw [h.nodesOf_rings (tid_lt_of_localRing hlocal) hf hnode] at hnode
  exact ⟨hf, hnode, hlocal⟩

/-- A thread gets a request. -/
theorem Inv.serve (h : s.Inv cfg) (st : ServerThread N) (k : K) (write : Bool) : (s.serve cfg st k write).Inv cfg := by
  have hsame : ∀ j, Same cfg s (s.lookUp cfg st k) j := fun j => same_lookUp s st k j fun _ => List.Subset.refl _
  have hlook : (s.lookUp cfg st k).Inv cfg := h.of_same hsame rfl rfl rfl rfl
  unfold Fleet.serve
  split_ifs with hst hlong
  · obtain ⟨hf, hnode, hlocal⟩ := h.replicated hst hlong
    refine ⟨fun j => ?_, hlook.nodup, hlook.deferred, hlook.released, hlook.rings⟩
    obtain ⟨old, hb⟩ := hlook.balanced j
    refine ⟨old, hb.keepPointer ?_⟩
    rintro rfl
    rw [(hsame k).factor]
    exact ⟨hf, hnode, hlocal⟩
  · refine h.of_same (fun j => same_lookUp s st k j fun st' => ?_) rfl rfl rfl rfl
    by_cases hst' : st' = st
    · subst hst'
      simp
    · simp [update_of_ne hst']
  · exact hlook
  · exact hlook

end Quiet

end Fleet

end Dinomo
