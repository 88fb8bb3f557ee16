import Dinomo.Fleet.Frame

/-!
# An update is handled

A thread that handles the update of a key takes the new factors.  The primary thread installs or removes the
pointer of the key with it, and a thread that loses the key drops its cached pointer.
-/

namespace Dinomo

open Function List KeyReplication

namespace Fleet

variable {K N H L : Type*} [DecidableEq K] [DecidableEq N] [LinearOrder H] [LinearOrder L]
variable {cfg : FleetConfig K N H L} {s s' : Fleet K N H L} {k : K} {old : ℕ}

section Handle

/-- The update of a key sets all its factors. -/
theorem changeKey_updateOf (rings : Rings N H L) (st : ServerThread N) (m : ReplicationMap K) (n : Notice K N) :
    changeKey cfg.params cfg.hash rings st m (FleetConfig.updateOf n) =
      (update m n.key (some n.rep),
        (changeMemory cfg.params cfg.hash rings st m n.key (n.rep.globalReplication .memory)).2 ++
          [.storeGlobal n.key .storage (n.rep.globalReplication .storage),
            .storeLocal n.key .memory (n.rep.localReplication .memory),
              .storeLocal n.key .storage (n.rep.localReplication .storage)]) := by
  have hrep : ∀ rep : KeyReplication, (⟨update (update rep.globalReplication .memory
        (n.rep.globalReplication .memory)) .storage (n.rep.globalReplication .storage),
      update (update rep.localReplication .memory (n.rep.localReplication .memory)) .storage
        (n.rep.localReplication .storage)⟩ : KeyReplication) = n.rep := by
    intro rep
    ext tier <;> cases tier <;> rfl
  simp only [changeKey, FleetConfig.updateOf, changeAll, changeGlobal, changeLocal, changeMemory_eq,
    ReplicationMap.setGlobal, ReplicationMap.setLocal, ReplicationMap.read, update_self, update_idem,
    Option.getD_some, hrep, append_nil, append_assoc, cons_append, nil_append]

/-- What a thread that handles an update does before and besides storing the factors. -/
def switched (cfg : FleetConfig K N H L) (s : Fleet K N H L) (n : Notice K N) : Fleet K N H L :=
  let origin := ((s.maps n.dest).read n.key).globalReplication .memory
  let value := n.rep.globalReplication .memory
  let default := cfg.params.defaultGlobalReplication .memory
  if isPrimaryReplica cfg.hash (s.ringsOf cfg n.dest) (s.maps n.dest) n.key n.dest then
    if origin = default ∧ origin < value then
      (((s.merge n.dest).act n.dest (.invalidateCache n.key)).act n.dest (.installPointer n.key))
    else if default < origin ∧ value = default then
      ((s.act n.dest (.invalidateCache n.key)).act n.dest (.removePointer n.key))
    else s
  else if LosesKey cfg.params cfg.hash (s.ringsOf cfg n.dest) n.dest (s.maps n.dest) n.key value then
    s.act n.dest (.invalidateCache n.key)
  else s

/-- A thread that handles an update. -/
theorem handle_eq (s : Fleet K N H L) (n : Notice K N) :
    s.handle cfg n = { s.switched cfg n with
      maps := update s.maps n.dest (update (s.maps n.dest) n.key (some n.rep)) } := by
  unfold handle switched
  rw [changeKey_updateOf, changeMemory_eq]
  simp only [switchActions]
  split_ifs <;> rfl

end Handle

section Deliver

variable {n : Notice K N} {l₁ l₂ : List (Notice K N)}

omit [DecidableEq K] [DecidableEq N] in
/-- The update that is handled is the only one of its key for its thread. -/
theorem mem_unhandled_erase (hnodup : (s.unhandled.map fun n => (n.dest, n.key)).Nodup)
    (hflight : s.inFlight = l₁ ++ n :: l₂) (m : Notice K N) :
    m ∈ l₁ ++ l₂ ++ s.deferred ↔ m ∈ s.unhandled ∧ ¬(m.dest = n.dest ∧ m.key = n.key) := by
  simp only [unhandled, hflight, append_assoc, cons_append, map_append, map_cons] at hnodup ⊢
  have hnot := (nodup_middle.mp hnodup).notMem
  simp only [← map_append, mem_map, not_exists, not_and] at hnot
  constructor
  · intro hm
    refine ⟨?_, fun heq => hnot m hm (Prod.ext heq.1 heq.2)⟩
    simp only [mem_append, mem_cons] at hm ⊢
    tauto
  · rintro ⟨hm, hne⟩
    simp only [mem_append, mem_cons] at hm ⊢
    rcases hm with hm | rfl | hm
    · exact .inl hm
    · exact absurd ⟨rfl, rfl⟩ hne
    · exact .inr hm

/-- When the primary thread waits for a raise from the default, only threads of its node handle their update. -/
theorem Inv.raising_node (h : s.Inv cfg) (hcfg : cfg.SingleDefault) (hb : s.Balanced cfg n.key old)
    (hn : n ∈ s.inFlight) (hold : old = 1) (htarget : 1 < s.target cfg n.key) {p : ServerThread N}
    (hp : s.IsPrimary cfg n.key p) (hw : s.Awaits p n.key) : n.dest.node = p.node := by
  obtain ⟨m, hm, rfl, hkey⟩ := hw
  by_contra hne
  have hfind : s.monitorRing.find (cfg.hash.globalKey n.key) = some m.dest.node := hp.1
  have hmw := (hb.told m hm hkey).2.2.2
  have hnw := (hb.told n (mem_append_left _ hn) rfl).2.2.2
  have hne' : m.dest.node ≠ n.dest.node := fun heq => hne heq.symm
  simp only [FleetConfig.waitsFor, hold, htarget, if_true, hcfg.global, hfind] at hmw hnw
  have hfalse : n.waits = false := by simpa [hne'] using hnw
  have htrue : m.waits = true := by simpa [show s.target cfg n.key ≠ 0 by omega] using hmw
  rw [h.released n hn hfalse m hm hkey] at htrue
  cases htrue

/-- When the primary thread handles a return to the default, the threads of the other nodes have done so. -/
theorem Inv.lowering_node (h : s.Inv cfg) (hcfg : cfg.SingleDefault) (hb : s.Balanced cfg n.key old)
    (hn : n ∈ s.inFlight) (hold : 1 < old) (htarget : s.target cfg n.key = 1) (hp : s.IsPrimary cfg n.key n.dest)
    {st : ServerThread N} (hw : s.Awaits st n.key) : st.node = n.dest.node := by
  obtain ⟨m, hm, rfl, hkey⟩ := hw
  by_contra hne
  have hfind : s.monitorRing.find (cfg.hash.globalKey n.key) = some n.dest.node := hp.1
  have hmw := (hb.told m hm hkey).2.2.2
  have hnw := (hb.told n (mem_append_left _ hn) rfl).2.2.2
  have hne' : n.dest.node ≠ m.dest.node := fun heq => hne heq.symm
  simp only [FleetConfig.waitsFor, htarget, hcfg.global, hfind, not_lt.mpr hold.le, if_false, hold, if_true] at hmw hnw
  have hfalse : n.waits = false := by simpa using hnw
  have htrue : m.waits = true := by simpa [hne'] using hmw
  rw [h.released n hn hfalse m hm hkey] at htrue
  cases htrue

/-- Between two states a thread took the new factors of a key. -/
structure Handled (cfg : FleetConfig K N H L) (s s' : Fleet K N H L) (k : K) (dest : ServerThread N) : Prop where
  ring : s'.monitorRing = s.monitorRing
  target : s'.target cfg k = s.target cfg k
  factors : ∀ st, st ≠ dest → s'.factors cfg st k = s.factors cfg st k
  factor_dest : s'.factor cfg dest k = s.target cfg k
  local_dest : (s'.factors cfg dest k).localReplication .memory = 1
  known : ∀ st, s.maps st k ≠ none → s'.maps st k ≠ none
  notices : ∀ m, m.key = k → (m ∈ s'.unhandled ↔ m ∈ s.unhandled ∧ m.dest ≠ dest)
  logged : ∀ st, s.index k ≠ none ∨ k ∈ s.logged st → s'.index k ≠ none ∨ k ∈ s'.logged st

namespace Handled

variable {dest : ServerThread N}

/-- The factor of another thread. -/
theorem factor_of_ne (h : Handled cfg s s' k dest) {st : ServerThread N} (hst : st ≠ dest) :
    s'.factor cfg st k = s.factor cfg st k := by
  simp only [factor, h.factors st hst]

/-- The threads that have not handled their update are those of before, without the one that has. -/
theorem awaits (h : Handled cfg s s' k dest) (st : ServerThread N) :
    s'.Awaits st k ↔ s.Awaits st k ∧ st ≠ dest := by
  constructor
  · rintro ⟨m, hm, rfl, hkey⟩
    obtain ⟨hm', hne⟩ := (h.notices m hkey).mp hm
    exact ⟨⟨m, hm', rfl, hkey⟩, hne⟩
  · rintro ⟨⟨m, hm, rfl, hkey⟩, hne⟩
    exact ⟨m, (h.notices m hkey).mpr ⟨hm, hne⟩, rfl, hkey⟩

/-- The primary thread is the same. -/
theorem isPrimary (h : Handled cfg s s' k dest) (p : ServerThread N) : s'.IsPrimary cfg k p ↔ s.IsPrimary cfg k p := by
  simp only [IsPrimary, h.ring]

/-- The key stays in step if the index and the cached pointers do. -/
theorem balanced (h : Handled cfg s s' k dest) (hb : s.Balanced cfg k old)
    (hnode : dest.node ∈ cfg.nodesOf s.monitorRing k (max old (s.target cfg k)))
    (hraise : old = 1 → 1 < s.target cfg k → ∀ p, s.IsPrimary cfg k p → s.Awaits p k → dest.node = p.node)
    (hlower : 1 < old → s.target cfg k = 1 → s.IsPrimary cfg k dest → ∀ st, s.Awaits st k → st.node = dest.node)
    (hpointed : ∀ p, s.IsPrimary cfg k p → 1 < s'.factor cfg p k → ∃ q, s'.index k = some (.pointer q .oplog))
    (hdirect : (∀ p, s.IsPrimary cfg k p → s'.factor cfg p k ≤ 1) → s'.index k = none ∨ s'.index k = some .oplog)
    (hholders : ∀ st e, s'.pointers st k = some e → 1 < s'.factor cfg st k ∧
      st.node ∈ cfg.nodesOf s.monitorRing k (s'.factor cfg st k) ∧
        cfg.localRing.find (cfg.hash.localKey k) = some st.tid ∧ s'.index k = some e) : s'.Balanced cfg k old where
  old_pos := hb.old_pos
  target_pos := h.target ▸ hb.target_pos
  direction := by
    rw [h.target]
    exact hb.direction
  enough := by
    rw [h.target, h.ring]
    exact hb.enough
  locals := fun st => by
    by_cases hst : st = dest
    · subst hst
      exact h.local_dest
    · rw [h.factors st hst]
      exact hb.locals st
  told := fun n hn hkey => by
    rw [h.target, h.ring]
    exact hb.told n ((h.notices n hkey).mp hn).1 hkey
  pending := fun st hst => by
    obtain ⟨hw, hne⟩ := (h.awaits st).mp hst
    rw [h.factor_of_ne hne, h.ring]
    exact hb.pending st hw
  settled := fun st htid hst => by
    rw [h.ring, h.target]
    by_cases hne : st = dest
    · subst hne
      rw [if_pos hnode, h.factor_dest]
    · rw [h.factor_of_ne hne]
      exact hb.settled st htid fun hw => hst ((h.awaits st).mpr ⟨hw, hne⟩)
  raising := fun hold htarget p hp hw => by
    rw [h.target] at htarget
    obtain ⟨hw', -⟩ := (h.awaits p).mp hw
    have hp' := (h.isPrimary p).mp hp
    obtain ⟨hknown, hentry, hrest⟩ := hb.raising hold htarget p hp' hw'
    refine ⟨h.known p hknown, h.logged p hentry, fun st hst htid hne => ?_⟩
    rw [h.target, h.ring] at hst
    refine (h.awaits st).mpr ⟨hrest st hst htid hne, ?_⟩
    rintro rfl
    exact hne (hraise hold htarget p hp' hw')
  lowering := fun hold htarget p hp hw st hst => by
    rw [h.target] at htarget
    have hp' := (h.isPrimary p).mp hp
    obtain ⟨hst', -⟩ := (h.awaits st).mp hst
    by_cases hpd : p = dest
    · subst hpd
      exact hlower hold htarget hp' st hst'
    · exact hb.lowering hold htarget p hp' (fun hw' => hw ((h.awaits p).mpr ⟨hw', hpd⟩)) st hst'
  pointed := fun p hp => hpointed p ((h.isPrimary p).mp hp)
  direct := fun hf => hdirect fun p hp => hf p ((h.isPrimary p).mpr hp)
  holders := fun st e he => by
    rw [h.ring]
    exact hholders st e he

end Handled

/-- The rest of the cluster while a thread handles an update. -/
theorem switched_frame (cfg : FleetConfig K N H L) (s : Fleet K N H L) (n : Notice K N) :
    (s.switched cfg n).rings = s.rings ∧ (s.switched cfg n).monitorRing = s.monitorRing ∧
      (s.switched cfg n).monitor = s.monitor ∧ (s.switched cfg n).deferred = s.deferred := by
  simp only [switched]
  split_ifs <;> exact ⟨rfl, rfl, rfl, rfl⟩

/-- A key of another update. -/
theorem switched_of_ne (cfg : FleetConfig K N H L) (s : Fleet K N H L) (n : Notice K N) {j : K} (hj : j ≠ n.key) :
    ((s.switched cfg n).index j = s.index j ∨ s.index j = none ∧ (s.switched cfg n).index j = some .oplog) ∧
      (∀ st, (s.switched cfg n).pointers st j = s.pointers st j) ∧
        ∀ st, j ∈ s.logged st → (s.switched cfg n).index j ≠ none ∨ j ∈ (s.switched cfg n).logged st := by
  have hpointers : ∀ st, update s.pointers n.dest (update (s.pointers n.dest) n.key none) st j =
      s.pointers st j := by
    intro st
    by_cases hst : st = n.dest
    · subst hst
      simp [update_of_ne hj]
    · simp [update_of_ne hst]
  have hmerge : Same cfg s (s.merge n.dest) j := same_merge s n.dest j
  simp only [switched]
  split_ifs
  · refine ⟨?_, hpointers, fun st hlog => ?_⟩
    · simpa only [act, update_of_ne hj] using hmerge.index
    · simpa only [act, update_of_ne hj] using hmerge.logged st hlog
  · exact ⟨.inl (by simp [act, update_of_ne hj]), hpointers, fun st hlog => .inr hlog⟩
  · exact ⟨.inl rfl, fun _ => rfl, fun _ hlog => .inr hlog⟩
  · exact ⟨.inl rfl, hpointers, fun st hlog => .inr hlog⟩
  · exact ⟨.inl rfl, fun _ => rfl, fun _ hlog => .inr hlog⟩

/-- A key that has an entry or is in a log stays so. -/
theorem switched_known (s : Fleet K N H L) (n : Notice K N) (st : ServerThread N)
    (h : s.index n.key ≠ none ∨ n.key ∈ s.logged st) :
    (s.switched cfg n).index n.key ≠ none ∨ n.key ∈ (s.switched cfg n).logged st := by
  have hmerge : (s.merge n.dest).index n.key ≠ none ∨ n.key ∈ (s.merge n.dest).logged st := by
    have hsame : Same cfg s (s.merge n.dest) n.key := same_merge s n.dest n.key
    rcases h with hentry | hlog
    · obtain ⟨e, he⟩ := Option.ne_none_iff_exists'.mp hentry
      exact .inl (by simp [hsame.index_of_some he])
    · exact hsame.logged st hlog
  simp only [switched]
  split_ifs
  · simpa [act] using hmerge
  · simpa [act] using h
  · exact h
  · exact h
  · exact h

/-- An update of another key was handled. -/
theorem same_deliver (hnodup : (s.unhandled.map fun n => (n.dest, n.key)).Nodup)
    (hflight : s.inFlight = l₁ ++ n :: l₂) {j : K} (hj : j ≠ n.key) :
    Same cfg s { s.handle cfg n with inFlight := l₁ ++ l₂ } j := by
  obtain ⟨-, hring, hmonitor, hdeferred⟩ := switched_frame cfg s n
  obtain ⟨hindex, hpointers, hlogged⟩ := switched_of_ne cfg s n hj
  have hmaps : ∀ st, update s.maps n.dest (update (s.maps n.dest) n.key (some n.rep)) st j =
      s.maps st j := by
    intro st
    by_cases hst : st = n.dest
    · subst hst
      simp [update_of_ne hj]
    · simp [update_of_ne hst]
  rw [handle_eq]
  exact
    { ring := hring
      target := by simp only [target, hmonitor]
      factors := fun st => by simp only [factors, hmaps]
      known := fun st h => by
        change update s.maps _ _ st j ≠ none
        rw [hmaps]
        exact h
      notices := fun m hkey => by
        have hmem := mem_unhandled_erase hnodup hflight m
        simp only [unhandled, hdeferred] at hmem ⊢
        rw [hmem]
        exact ⟨fun h => h.1, fun h => ⟨h, fun heq => hj (hkey.symm.trans heq.2)⟩⟩
      pointers := hpointers
      index := hindex
      logged := hlogged }

/-- The thread that handles an update has its factors. -/
theorem handled_deliver (hb : s.Balanced cfg n.key old) (hnodup : (s.unhandled.map fun n => (n.dest, n.key)).Nodup)
    (hflight : s.inFlight = l₁ ++ n :: l₂) :
    Handled cfg s { s.handle cfg n with inFlight := l₁ ++ l₂ } n.key n.dest := by
  obtain ⟨-, hring, hmonitor, hdeferred⟩ := switched_frame cfg s n
  have hn : n ∈ s.unhandled := by simp [unhandled, hflight]
  obtain ⟨hrep, hlocal, -⟩ := hb.told n hn rfl
  rw [handle_eq]
  exact
    { ring := hring
      target := by simp only [target, hmonitor]
      factors := fun st hst => by simp [factors, update_of_ne hst]
      factor_dest := by simpa [factor, factors] using hrep
      local_dest := by simpa [factors] using hlocal
      known := fun st h => by
        by_cases hst : st = n.dest
        · subst hst
          simp
        · simpa [update_of_ne hst] using h
      notices := fun m hkey => by
        have hmem := mem_unhandled_erase hnodup hflight m
        simp only [unhandled, hdeferred] at hmem ⊢
        rw [hmem]
        simp [hkey]
      logged := fun st h => switched_known s n st h }

section Own

variable (hcfg : cfg.SingleDefault) (h : s.Inv cfg) (hb : s.Balanced cfg n.key old) (hflight : s.inFlight = l₁ ++ n :: l₂)

include hflight

omit [DecidableEq K] [DecidableEq N] in
/-- The update is on its way. -/
theorem mem_inFlight : n ∈ s.inFlight := by simp [hflight]

omit [DecidableEq K] [DecidableEq N] in
/-- The thread of the update waits for it. -/
theorem awaits_dest : s.Awaits n.dest n.key := ⟨n, mem_append_left _ (mem_inFlight hflight), rfl, rfl⟩

include h hb

/-- The thread of an update knows the ring of the monitor. -/
theorem rings_dest : s.rings n.dest = s.monitorRing := by
  have hmem := mem_inFlight hflight
  have hunhandled : n ∈ s.unhandled := mem_append_left _ hmem
  have hnode := (hb.told n hunhandled rfl).2.2.1
  rw [h.rings (.inr (ne_nil_of_mem hunhandled)) n.dest, if_pos (HashRing.mem_of_mem_responsible hnode)]

omit h in
/-- The factor before the update. -/
theorem factor_dest_of_node (hnode : n.dest.node ∈ cfg.nodesOf s.monitorRing n.key old) :
    s.factor cfg n.dest n.key = old := by
  rw [hb.pending _ (awaits_dest hflight), if_pos hnode]

include hcfg

omit h hb hflight in
/-- A factor above one is in the map. -/
theorem read_of_factor {st : ServerThread N} {k : K} (hf : 1 < s.factor cfg st k) :
    (s.maps st).read k = s.factors cfg st k := by
  cases hm : s.maps st k with
  | none =>
    simp only [factor, factors, hm, Option.getD_none, defaults, hcfg.global] at hf
    omega
  | some rep => simp [ReplicationMap.read, factors, hm]

omit h hb hflight hcfg in
/-- A thread that is not the primary one drops its cached pointer if it loses the key, and keeps it otherwise. -/
theorem pointers_dest {e : Entry}
    (hnot : ¬isPrimaryReplica cfg.hash (s.ringsOf cfg n.dest) (s.maps n.dest) n.key n.dest = true)
    (he : (s.handle cfg n).pointers n.dest n.key = some e) : s.pointers n.dest n.key = some e ∧
      ¬LosesKey cfg.params cfg.hash (s.ringsOf cfg n.dest) n.dest (s.maps n.dest) n.key
        (n.rep.globalReplication .memory) := by
  rw [handle_eq] at he
  simp only [switched, if_neg hnot] at he
  split_ifs at he with hloses
  · simp [act] at he
  · exact ⟨he, hloses⟩

/-- A thread with a cached pointer loses the key when the factor comes back to the default, unless it is the
primary thread. -/
theorem losesKey_dest {e : Entry} (hp : ¬s.IsPrimary cfg n.key n.dest) (he : s.pointers n.dest n.key = some e)
    (htarget : s.target cfg n.key = 1) :
    LosesKey cfg.params cfg.hash (s.ringsOf cfg n.dest) n.dest (s.maps n.dest) n.key
      (n.rep.globalReplication .memory) := by
  obtain ⟨hf, hnode, hlocal, -⟩ := hb.holders n.dest e he
  obtain ⟨hrep, -⟩ := hb.told n (mem_append_left _ (mem_inFlight hflight)) rfl
  have hring := rings_dest h hb hflight
  have hread := read_of_factor hcfg hf
  have hone : (((s.maps n.dest).read n.key).withMemory 1).localReplication .memory = 1 := by
    rw [hread]
    exact hb.locals n.dest
  rw [hrep, htarget]
  refine ⟨?_, hread ▸ hf, hcfg.global.symm, fun hmem => ?_⟩
  · rw [hread, mem_threadsFor (hb.locals n.dest)]
    simp only [responsibleGlobal, ringsOf, hring]
    exact ⟨hnode, hlocal⟩
  · rw [mem_threadsFor hone] at hmem
    simp only [responsibleGlobal, ringsOf, hring, withMemory, update_self] at hmem
    exact hp ⟨HashRing.mem_responsible_one.mp hmem.1, hmem.2⟩

/-- A thread that is not the primary one leaves the index alone. -/
theorem balanced_deliver_of_not_primary (hp : ¬s.IsPrimary cfg n.key n.dest) :
    Balanced cfg { s.handle cfg n with inFlight := l₁ ++ l₂ } n.key old := by
  have hh := handled_deliver hb h.nodup hflight
  have hring := rings_dest h hb hflight
  have hnot : ¬isPrimaryReplica cfg.hash (s.ringsOf cfg n.dest) (s.maps n.dest) n.key n.dest = true := by
    intro hprimary
    have hfirst := servesFirst_of_isPrimaryReplica hprimary
    simp only [ringsOf, hring] at hfirst
    exact hp hfirst
  have hindex : (s.handle cfg n).index = s.index := by
    rw [handle_eq]
    simp only [switched, if_neg hnot]
    split_ifs <;> rfl
  have hother : ∀ p, s.IsPrimary cfg n.key p →
      factor cfg { s.handle cfg n with inFlight := l₁ ++ l₂ } p n.key = s.factor cfg p n.key := fun p hp' =>
    hh.factor_of_ne fun heq => hp (heq ▸ hp')
  refine hh.balanced hb (hb.told n (mem_append_left _ (mem_inFlight hflight)) rfl).2.2.1
    (fun hold htarget p hp' hw => h.raising_node hcfg hb (mem_inFlight hflight) hold htarget hp' hw)
    (fun _ _ hp' => absurd hp' hp) (fun p hp' hf => ?_) (fun hf => ?_) fun st e he => ?_
  · rw [hother p hp'] at hf
    simpa only [hindex] using hb.pointed p hp' hf
  · simpa only [hindex] using hb.direct fun p hp' => hother p hp' ▸ hf p hp'
  · by_cases hst : st = n.dest
    · subst hst
      obtain ⟨hcached, hkeeps⟩ := pointers_dest hnot he
      obtain ⟨hf, hnode, hlocal, hentry⟩ := hb.holders n.dest e hcached
      have hold : s.factor cfg n.dest n.key = old := by
        have hpending := hb.pending _ (awaits_dest hflight)
        split_ifs at hpending
        · exact hpending
        · omega
      have hle : old ≤ s.target cfg n.key := by
        rcases hb.direction with hone | hle
        · exact absurd (losesKey_dest hcfg h hb hflight hp hcached hone) hkeeps
        · exact hle
      rw [hh.factor_dest]
      rw [hold] at hf hnode
      exact ⟨hf.trans_le hle, HashRing.mem_responsible_mono hle hnode, hlocal, by simpa only [hindex] using hentry⟩
    · have hcached : s.pointers st n.key = some e := by
        rw [← he, handle_eq]
        simp only [switched, if_neg hnot]
        split_ifs
        · simp [act, update_of_ne hst]
        · rfl
      rw [hh.factor_of_ne hst]
      simpa only [hindex] using hb.holders st e hcached

omit h hb hflight hcfg in
/-- There is one primary thread. -/
theorem IsPrimary.unique {k : K} {p q : ServerThread N} (hp : s.IsPrimary cfg k p) (hq : s.IsPrimary cfg k q) : p = q := by
  have hnode := Option.some.inj (hp.1.symm.trans hq.1)
  have htid := Option.some.inj (hp.2.symm.trans hq.2)
  cases p
  cases q
  simp_all

omit hcfg in
/-- The primary thread knows its place. -/
theorem isPrimaryReplica_dest (hp : s.IsPrimary cfg n.key n.dest)
    (hzero : ((s.maps n.dest).read n.key).globalReplication .memory ≠ 0) :
    isPrimaryReplica cfg.hash (s.ringsOf cfg n.dest) (s.maps n.dest) n.key n.dest = true := by
  have hring := rings_dest h hb hflight
  refine (isPrimaryReplica_iff ?_).mpr hzero
  simp only [ringsOf, hring]
  exact hp

/-- The primary thread installs the pointer when the factor leaves the default. -/
theorem balanced_deliver_install (hp : s.IsPrimary cfg n.key n.dest) (hold : old = 1) (htarget : 1 < s.target cfg n.key) :
    Balanced cfg { s.handle cfg n with inFlight := l₁ ++ l₂ } n.key old := by
  have hh := handled_deliver hb h.nodup hflight
  have hn : n ∈ s.inFlight := mem_inFlight hflight
  obtain ⟨hrep, -, hnode, -⟩ := hb.told n (mem_append_left _ hn) rfl
  obtain ⟨hknown, hentry, -⟩ := hb.raising hold htarget n.dest hp (awaits_dest hflight)
  have hf : s.factor cfg n.dest n.key = 1 := by
    rw [factor_dest_of_node hb hflight (Balanced.primary_node hp hb.old_pos), hold]
  have hread : ((s.maps n.dest).read n.key).globalReplication .memory = 1 := by
    obtain ⟨rep, hrep⟩ := Option.ne_none_iff_exists'.mp hknown
    rw [← hf]
    simp [factor, factors, ReplicationMap.read, hrep]
  have hindex : (s.handle cfg n).index n.key = some (.pointer s.nextPointer .oplog) := by
    have hdirect := hb.direct fun p hp' => (hp'.unique hp).symm ▸ hf.le
    have hmerge : (s.merge n.dest).index n.key = some .oplog := by
      rcases hdirect with hnone | hsome
      · have hlog := hentry.resolve_left fun hne => hne hnone
        simp [merge, hnone, hlog]
      · simp [merge, hsome]
    have hnext : (s.merge n.dest).nextPointer = s.nextPointer := rfl
    rw [handle_eq]
    simp only [switched, if_pos (isPrimaryReplica_dest h hb hflight hp (by omega)), hread, hcfg.global, hrep, htarget,
      and_self, if_true, act, update_self, hmerge, Option.map_some, hnext]
  have hpointers : ∀ st e, (s.handle cfg n).pointers st n.key = some e → st ≠ n.dest ∧ s.pointers st n.key = some e := by
    intro st e he
    rw [handle_eq] at he
    simp only [switched, if_pos (isPrimaryReplica_dest h hb hflight hp (by omega)), hread, hcfg.global, hrep, htarget,
      and_self, if_true, act] at he
    by_cases hst : st = n.dest
    · subst hst
      simp at he
    · exact ⟨hst, by simpa [update_of_ne hst, merge] using he⟩
  refine hh.balanced hb hnode
    (fun _ _ p hp' _ => by rw [hp'.unique hp]) (fun hold' => by omega) (fun _ _ _ => ⟨_, hindex⟩) (fun hle => ?_)
    fun st e he => ?_
  · have hle := hle n.dest hp
    rw [hh.factor_dest] at hle
    omega
  · obtain ⟨-, hcached⟩ := hpointers st e he
    obtain ⟨hst, -, hlocal, -⟩ := hb.holders st e hcached
    have htid : st.tid = n.dest.tid := Option.some.inj (hlocal.symm.trans hp.2)
    have := hb.primary_factor hp st htid hst
    omega

/-- The primary thread removes the pointer when the factor comes back to the default. -/
theorem balanced_deliver_remove (hp : s.IsPrimary cfg n.key n.dest) (hold : 1 < old) (htarget : s.target cfg n.key = 1) :
    Balanced cfg { s.handle cfg n with inFlight := l₁ ++ l₂ } n.key old := by
  have hh := handled_deliver hb h.nodup hflight
  have hn : n ∈ s.inFlight := mem_inFlight hflight
  obtain ⟨hrep, -, hnode, -⟩ := hb.told n (mem_append_left _ hn) rfl
  have hf : s.factor cfg n.dest n.key = old :=
    factor_dest_of_node hb hflight (Balanced.primary_node hp hb.old_pos)
  have hread : ((s.maps n.dest).read n.key).globalReplication .memory = old := by
    rw [read_of_factor hcfg (hf ▸ hold)]
    exact hf
  have hremove : s.switched cfg n = (s.act n.dest (.invalidateCache n.key)).act n.dest (.removePointer n.key) := by
    have hne : ¬(old = 1 ∧ old < 1) := by omega
    simp only [switched, if_pos (isPrimaryReplica_dest h hb hflight hp (by omega)), hread, hcfg.global, hrep, htarget,
      if_neg hne, hold, and_self, if_true]
  have hindex : (s.handle cfg n).index n.key = some .oplog := by
    obtain ⟨q, hq⟩ := hb.pointed n.dest hp (hf ▸ hold)
    rw [handle_eq, hremove]
    simp [act, hq, Entry.removeIndirect]
  refine hh.balanced hb hnode (fun hone => by omega)
    (fun hold' htarget' hp' st hw => h.lowering_node hcfg hb hn hold' htarget' hp' hw) (fun p hp' hlong => ?_)
    (fun _ => .inr hindex) fun st e he => ?_
  · rw [hp'.unique hp, hh.factor_dest] at hlong
    omega
  · have hcached : st ≠ n.dest ∧ s.pointers st n.key = some e := by
      rw [handle_eq, hremove] at he
      by_cases hst : st = n.dest
      · subst hst
        simp [act] at he
      · exact ⟨hst, by simpa [act, update_of_ne hst] using he⟩
    obtain ⟨hst, -, hlocal, -⟩ := hb.holders st e hcached.2
    have htid : st.tid = n.dest.tid := Option.some.inj (hlocal.symm.trans hp.2)
    -- the threads of the other nodes have already handled the update
    rcases hb.factor_cases (tid_lt_of_localRing hlocal) with ⟨hw, -⟩ | ⟨-, hone, -⟩ | hone
    · have hnode := h.lowering_node hcfg hb hn hold htarget hp hw
      refine absurd ?_ hcached.1
      cases st
      cases hd : n.dest
      simp_all
    · omega
    · omega

/-- The primary thread only stores the factor when it stays above the default or at it. -/
theorem balanced_deliver_store (hp : s.IsPrimary cfg n.key n.dest) (hle : old ≤ s.target cfg n.key)
    (hboth : 1 < old ∨ s.target cfg n.key = 1) :
    Balanced cfg { s.handle cfg n with inFlight := l₁ ++ l₂ } n.key old := by
  have hh := handled_deliver hb h.nodup hflight
  have hn : n ∈ s.inFlight := mem_inFlight hflight
  obtain ⟨hrep, -, hnode, -⟩ := hb.told n (mem_append_left _ hn) rfl
  have hpos := hb.old_pos
  have hf : s.factor cfg n.dest n.key = old :=
    factor_dest_of_node hb hflight (Balanced.primary_node hp hb.old_pos)
  have hread : ((s.maps n.dest).read n.key).globalReplication .memory = old ∨
      ((s.maps n.dest).read n.key).globalReplication .memory = 0 ∧ old = 1 := by
    cases hm : s.maps n.dest n.key with
    | none =>
      refine .inr ⟨by simp [ReplicationMap.read, hm, zero], ?_⟩
      rw [← hf]
      simp [factor, factors, hm, defaults, hcfg.global]
    | some rep =>
      left
      rw [← hf]
      simp [factor, factors, ReplicationMap.read, hm]
  have hstore : s.switched cfg n = s := by
    simp only [switched, hcfg.global, hrep]
    split_ifs with hprimary hinstall hremove hloses
    · omega
    · omega
    · rfl
    · have := hloses.2.1
      omega
    · rfl
  refine hh.balanced hb hnode (fun _ _ p hp' _ => by rw [hp'.unique hp]) (fun hold htarget => by omega)
    (fun p hp' hlong => ?_) (fun hf' => ?_) fun st e he => ?_
  · rw [handle_eq, hstore]
    rw [hp'.unique hp, hh.factor_dest] at hlong
    exact hb.pointed n.dest hp (by omega)
  · have hone := hf' n.dest hp
    rw [hh.factor_dest] at hone
    rw [handle_eq, hstore]
    exact hb.direct fun p hp' => by
      rw [hp'.unique hp]
      omega
  · rw [handle_eq, hstore] at he
    rw [handle_eq, hstore] at hh ⊢
    obtain ⟨hst, hmem, hlocal, hentry⟩ := hb.holders st e he
    by_cases hd : st = n.dest
    · subst hd
      rw [hh.factor_dest]
      rw [hf] at hst hmem
      exact ⟨hst.trans_le hle, HashRing.mem_responsible_mono hle hmem, hlocal, hentry⟩
    · rw [hh.factor_of_ne hd]
      exact ⟨hst, hmem, hlocal, hentry⟩

/-- A key whose update was handled stays in step. -/
theorem balanced_deliver : Balanced cfg { s.handle cfg n with inFlight := l₁ ++ l₂ } n.key old := by
  have hold := hb.old_pos
  have htarget := hb.target_pos
  by_cases hp : s.IsPrimary cfg n.key n.dest
  · rcases hb.direction with hone | hle
    · by_cases hlow : 1 < old
      · exact balanced_deliver_remove hcfg h hb hflight hp hlow hone
      · exact balanced_deliver_store hcfg h hb hflight hp (by omega) (.inr hone)
    · by_cases hlow : 1 < old
      · exact balanced_deliver_store hcfg h hb hflight hp hle (.inl hlow)
      · by_cases hraise : 1 < s.target cfg n.key
        · exact balanced_deliver_install hcfg h hb hflight hp (by omega) hraise
        · exact balanced_deliver_store hcfg h hb hflight hp hle (.inr (by omega))
  · exact balanced_deliver_of_not_primary hcfg h hb hflight hp

end Own

/-- An update is handled. -/
theorem Inv.deliver (h : s.Inv cfg) (hcfg : cfg.SingleDefault) (hflight : s.inFlight = l₁ ++ n :: l₂) :
    Inv cfg { s.handle cfg n with inFlight := l₁ ++ l₂ } := by
  obtain ⟨hrings, hring, hmonitor, hdeferred⟩ := switched_frame cfg s n
  have hmem := mem_unhandled_erase h.nodup hflight
  have hunhandled : ({ s.handle cfg n with inFlight := l₁ ++ l₂ } : Fleet K N H L).unhandled =
      l₁ ++ l₂ ++ s.deferred := by
    rw [handle_eq]
    simp only [unhandled, hdeferred]
  refine ⟨fun k => ?_, ?_, ?_, ?_, ?_⟩
  · by_cases hk : k = n.key
    · subst hk
      obtain ⟨old, hb⟩ := h.balanced n.key
      exact ⟨old, balanced_deliver hcfg h hb hflight⟩
    · obtain ⟨old, hb⟩ := h.balanced k
      exact ⟨old, hb.of_same (same_deliver h.nodup hflight hk)⟩
  · rw [hunhandled]
    have hnodup := h.nodup
    simp only [unhandled, hflight] at hnodup
    refine hnodup.sublist (List.Sublist.map _ ?_)
    exact ((List.Sublist.refl l₁).append (sublist_cons_self n l₂)).append (List.Sublist.refl _)
  · rw [handle_eq]
    simpa only [hdeferred] using h.deferred
  · intro m hm hwaits m' hm' hkey
    rw [hunhandled, hmem] at hm'
    have hmin : m ∈ s.inFlight := by
      rw [hflight]
      rcases mem_append.mp hm with hm | hm <;> simp [hm]
    exact h.released m hmin hwaits m' hm'.1 hkey
  · intro _
    rw [handle_eq]
    simp only [hrings, hring]
    have hn : n ∈ s.unhandled := by simp [unhandled, hflight]
    exact h.rings (.inr (ne_nil_of_mem hn))

end Deliver

end Fleet

end Dinomo
