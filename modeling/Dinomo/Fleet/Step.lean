import Dinomo.Fleet.Deliver

/-!
# Steps that keep the factors in step

Each event of the cluster, under its condition, keeps the threads and the index in step, and so does every run of
such events.
-/

namespace Dinomo

open List

namespace Fleet

variable {K N H L : Type*} [DecidableEq K] [DecidableEq N] [LinearOrder H] [LinearOrder L]
variable (cfg : FleetConfig K N H L)

/-- The threads of the nodes in the monitor's ring know that ring, and no other thread is part of the cluster. -/
def OneRing (s : Fleet K N H L) : Prop :=
  ∀ st, s.rings st = if st.node ∈ s.monitorRing.nodes.map Prod.snd then s.monitorRing else .empty

/-- A change of a key that keeps its threads in step: one thread per node; no more replicas than nodes; a raise, or a
return to one replica; and, from one replica, a primary thread that has the key in its map and in its log or in
the index. -/
structure Allowed (s : Fleet K N H L) (k : K) (rep : KeyReplication) : Prop where
  monitored : s.monitor k ≠ none
  onNode : rep.localReplication .memory = 1
  positive : 1 ≤ rep.globalReplication .memory
  enough : (cfg.nodesOf s.monitorRing k (rep.globalReplication .memory)).length = rep.globalReplication .memory
  direction : rep.globalReplication .memory = 1 ∨ s.target cfg k ≤ rep.globalReplication .memory
  primary : s.target cfg k = 1 → 1 < rep.globalReplication .memory → ∀ p, s.IsPrimary cfg k p →
    s.maps p k ≠ none ∧ (s.index k ≠ none ∨ k ∈ s.logged p)

/-- The conditions under which events keep the threads in step.  A node joins only while every key has one replica
and no update is on its way; a change begins when the updates of the one before have been handled and all
threads know one ring; the monitor gives up no answer it waits for. -/
def Orderly (s : Fleet K N H L) : FleetEvent K N → Prop
  | .insertNode _ _ => s.unhandled = [] ∧ ∀ k, s.target cfg k = 1
  | .insertMonitor _ => s.unhandled = [] ∧ ∀ k, s.target cfg k = 1
  | .change requests => s.unhandled = [] ∧ s.OneRing ∧ (requests.map Prod.fst).Nodup ∧
      ∀ r ∈ requests, s.Allowed cfg r.1 r.2
  | .sendDeferred => ∀ n ∈ s.inFlight, n.waits = false
  | _ => True

variable {cfg} {s s' : Fleet K N H L} {k : K} {old : ℕ}

section Change

variable {requests : List (K × KeyReplication)}

omit [DecidableEq K] in
/-- The updates of a key. -/
theorem mem_notices {r : HashRing H N} {k : K} {orig new : KeyReplication} {n : Notice K N} :
    n ∈ cfg.notices r k orig new ↔ n.key = k ∧ n.rep = new ∧ n.dest.tid < cfg.params.threadNum ∧
      n.dest.node ∈ cfg.nodesOf r k (max (new.globalReplication .memory) (orig.globalReplication .memory)) ∧
        n.waits = cfg.waitsFor r k (orig.globalReplication .memory) (new.globalReplication .memory) n.dest.node := by
  simp only [FleetConfig.notices, mem_flatMap, mem_map, mem_range]
  constructor
  · rintro ⟨node, hnode, tid, htid, rfl⟩
    exact ⟨rfl, rfl, htid, hnode, rfl⟩
  · rintro ⟨rfl, rfl, htid, hnode, hwaits⟩
    obtain ⟨⟨node, tid⟩, key, rep, waits⟩ := n
    simp only at hwaits
    subst hwaits
    exact ⟨node, hnode, tid, htid, rfl⟩

omit [DecidableEq N] [LinearOrder H] [LinearOrder L] in
/-- The monitor's factors after a change. -/
theorem setAll_apply (m : ReplicationMap K) (hnodup : (requests.map Prod.fst).Nodup) :
    (∀ r ∈ requests, m.setAll requests r.1 = some r.2) ∧ ∀ k ∉ requests.map Prod.fst, m.setAll requests k = m k := by
  induction requests generalizing m with
  | nil => simp [ReplicationMap.setAll]
  | cons r requests ih =>
    have hcons : m.setAll (r :: requests) = ReplicationMap.setAll (Function.update m r.1 (some r.2)) requests := rfl
    obtain ⟨hnot, hnodup⟩ := nodup_cons.mp hnodup
    obtain ⟨hin, hout⟩ := ih (Function.update m r.1 (some r.2)) hnodup
    refine ⟨fun r' hr' => ?_, fun k hk => ?_⟩
    · rcases mem_cons.mp hr' with rfl | hr'
      · rw [hcons, hout _ hnot, Function.update_self]
      · exact hin r' hr'
    · rw [map_cons, mem_cons, not_or] at hk
      rw [hcons, hout k hk.2, Function.update_of_ne hk.1]

/-- The updates of a change are on their way or wait for the answers. -/
theorem mem_unhandled_changeFactors (hquiet : s.unhandled = []) {n : Notice K N} :
    n ∈ (s.changeFactors cfg requests).unhandled ↔
      ∃ r ∈ requests, n ∈ cfg.notices s.monitorRing r.1 (s.monitor.read r.1) r.2 := by
  have hflight : s.inFlight = [] := (append_eq_nil_iff.mp hquiet).1
  simp only [unhandled, changeFactors, hflight, nil_append, mem_append, mem_filter, mem_flatMap]
  cases n.waits <;> simp

omit [DecidableEq K] in
/-- The updates of a key are to different threads. -/
theorem nodup_notices (r : HashRing H N) (k : K) (orig new : KeyReplication) :
    ((cfg.notices r k orig new).map fun n => (n.dest, n.key)).Nodup := by
  simp only [FleetConfig.notices, map_flatMap, map_map]
  refine nodup_flatMap.mpr ⟨fun n _ => ?_, ?_⟩
  · refine List.Nodup.map (fun a b hab => ?_) nodup_range
    simpa using hab
  · refine (HashRing.nodup_responsible : (cfg.nodesOf r k _).Nodup).imp fun {a b} hab x hx hx' => hab ?_
    obtain ⟨_, -, rfl⟩ := mem_map.mp hx
    obtain ⟨_, -, heq⟩ := mem_map.mp hx'
    simpa using (congrArg (fun x => ServerThread.node x.1) heq).symm

/-- The updates of a change are different ones. -/
theorem nodup_changeFactors (hquiet : s.unhandled = []) (hnodup : (requests.map Prod.fst).Nodup) :
    ((s.changeFactors cfg requests).unhandled.map fun n => (n.dest, n.key)).Nodup := by
  have hflight : s.inFlight = [] := (append_eq_nil_iff.mp hquiet).1
  have hperm : (s.changeFactors cfg requests).unhandled.Perm
      (requests.flatMap fun r => cfg.notices s.monitorRing r.1 (s.monitor.read r.1) r.2) := by
    simp only [unhandled, changeFactors, hflight, nil_append]
    exact filter_append_perm _ _
  rw [(hperm.map _).nodup_iff, map_flatMap]
  refine nodup_flatMap.mpr ⟨fun r _ => nodup_notices _ _ _ _, ?_⟩
  refine (pairwise_map.mp hnodup).imp fun {a b} hab x hx hx' => hab ?_
  obtain ⟨n, hn, rfl⟩ := mem_map.mp hx
  obtain ⟨n', hn', heq⟩ := mem_map.mp hx'
  rw [← (mem_notices.mp hn).1, ← (mem_notices.mp hn').1]
  exact (congrArg Prod.snd heq).symm

/-- A key that is not part of a change. -/
theorem same_changeFactors (hquiet : s.unhandled = []) (hnodup : (requests.map Prod.fst).Nodup)
    (hk : k ∉ requests.map Prod.fst) : Same cfg s (s.changeFactors cfg requests) k where
  ring := rfl
  target := by simp only [target, changeFactors, (setAll_apply s.monitor hnodup).2 k hk]
  factors := fun _ => rfl
  known := fun _ h => h
  notices := fun n hkey => by
    rw [mem_unhandled_changeFactors hquiet, hquiet]
    refine ⟨?_, fun hn => absurd hn not_mem_nil⟩
    rintro ⟨r, hr, hn⟩
    exact absurd (mem_map_of_mem hr) (((mem_notices.mp hn).1.symm.trans hkey) ▸ hk)
  pointers := fun _ => rfl
  index := .inl rfl
  logged := fun _ h => .inr h

/-- The memory factor of a key before a change. -/
theorem read_monitor (hk : s.monitor k ≠ none) : (s.monitor.read k).globalReplication .memory = s.target cfg k := by
  obtain ⟨rep, hrep⟩ := Option.ne_none_iff_exists'.mp hk
  simp [ReplicationMap.read, target, hrep]

/-- With no update on its way, the nodes of a key have its factor and the others have one. -/
theorem Balanced.factor_of_quiet (hb : s.Balanced cfg k old) (hquiet : s.unhandled = []) {st : ServerThread N}
    (htid : st.tid < cfg.params.threadNum) : s.factor cfg st k =
      if st.node ∈ cfg.nodesOf s.monitorRing k (s.target cfg k) then s.target cfg k else 1 := by
  have hw : ¬s.Awaits st k := by
    rintro ⟨n, hn, -⟩
    rw [hquiet] at hn
    exact absurd hn not_mem_nil
  rw [hb.settled st htid hw]
  rcases hb.direction with hone | hle
  · simp [hone]
  · rw [max_eq_right hle]

/-- A key that is part of a change. -/
theorem Balanced.changeFactors (hb : s.Balanced cfg k old) (hquiet : s.unhandled = [])
    (hnodup : (requests.map Prod.fst).Nodup) {rep : KeyReplication} (hr : (k, rep) ∈ requests)
    (hallowed : s.Allowed cfg k rep) : (s.changeFactors cfg requests).Balanced cfg k (s.target cfg k) := by
  have htarget : (s.changeFactors cfg requests).target cfg k = rep.globalReplication .memory := by
    simp only [target, Fleet.changeFactors, (setAll_apply s.monitor hnodup).1 _ hr, Option.getD_some]
  have hread : (s.monitor.read k).globalReplication .memory = s.target cfg k := read_monitor hallowed.monitored
  have hnotice : ∀ n, n ∈ (s.changeFactors cfg requests).unhandled → n.key = k →
      n ∈ cfg.notices s.monitorRing k (s.monitor.read k) rep := by
    intro n hn hkey
    obtain ⟨r, hr', hn⟩ := (mem_unhandled_changeFactors hquiet).mp hn
    have heq : r = (k, rep) :=
      inj_on_of_nodup_map hnodup hr' hr ((mem_notices.mp hn).1.symm.trans hkey)
    subst heq
    exact hn
  have hmax : max (rep.globalReplication .memory) (s.target cfg k) = max (s.target cfg k) (rep.globalReplication .memory) :=
    max_comm _ _
  have hawaits : ∀ st, (s.changeFactors cfg requests).Awaits st k ↔ st.tid < cfg.params.threadNum ∧
      st.node ∈ cfg.nodesOf s.monitorRing k (max (s.target cfg k) (rep.globalReplication .memory)) := by
    intro st
    constructor
    · rintro ⟨n, hn, rfl, hkey⟩
      obtain ⟨-, -, htid, hnode, -⟩ := mem_notices.mp (hnotice n hn hkey)
      rw [hread, hmax] at hnode
      exact ⟨htid, hnode⟩
    · rintro ⟨htid, hnode⟩
      refine ⟨⟨st, k, rep, cfg.waitsFor s.monitorRing k (s.target cfg k) (rep.globalReplication .memory) st.node⟩,
        (mem_unhandled_changeFactors hquiet).mpr ⟨_, hr, mem_notices.mpr ⟨rfl, rfl, htid, ?_, ?_⟩⟩, rfl, rfl⟩
      · rw [hread, hmax]
        exact hnode
      · rw [hread]
  have hfactor : ∀ st, (s.changeFactors cfg requests).factor cfg st k = s.factor cfg st k := fun _ => rfl
  refine
    { old_pos := hb.target_pos
      target_pos := htarget ▸ hallowed.positive
      direction := htarget ▸ hallowed.direction
      enough := fun hlong => ?_
      locals := hb.locals
      told := fun n hn hkey => ?_
      pending := fun st hw => ?_
      settled := fun st htid hw => ?_
      raising := fun hold hraise p hp _ => ?_
      lowering := fun _ _ p hp hw => ?_
      pointed := hb.pointed
      direct := hb.direct
      holders := hb.holders }
  · rw [htarget] at hlong ⊢
    rcases hallowed.direction with hone | hle
    · have htarget_pos := hb.target_pos
      have hold : old ≤ s.target cfg k := hb.direction.resolve_left (by omega)
      have henough := hb.enough (by omega)
      rw [max_eq_right hold] at henough
      rw [hone, max_eq_left htarget_pos]
      exact henough
    · rw [max_eq_right hle]
      exact hallowed.enough
  · obtain ⟨-, rfl, -, hnode, hwaits⟩ := mem_notices.mp (hnotice n hn hkey)
    rw [hread] at hwaits
    rw [hread, hmax] at hnode
    rw [htarget]
    exact ⟨rfl, hallowed.onNode, hnode, hwaits⟩
  · exact hb.factor_of_quiet hquiet ((hawaits st).mp hw).1
  · have hnode : st.node ∉ cfg.nodesOf s.monitorRing k (max (s.target cfg k) (rep.globalReplication .memory)) :=
      fun hnode => hw ((hawaits st).mpr ⟨htid, hnode⟩)
    rw [htarget, hfactor, hb.factor_of_quiet hquiet htid]
    refine (if_neg fun hmem => hnode (HashRing.mem_responsible_mono (le_max_left _ _) hmem)).trans (if_neg hnode).symm
  · rw [htarget] at hraise
    obtain ⟨hknown, hentry⟩ := hallowed.primary hold hraise p hp
    refine ⟨hknown, hentry, fun st hnode htid _ => (hawaits st).mpr ⟨htid, ?_⟩⟩
    rw [htarget] at hnode
    exact HashRing.mem_responsible_mono (le_max_right _ _) hnode
  · have hp' : s.IsPrimary cfg k p := hp
    refine absurd ((hawaits p).mpr ⟨tid_lt_of_localRing hp.2, ?_⟩) hw
    exact Balanced.primary_node hp' (hb.target_pos.trans (le_max_left _ _))

/-- A change begins. -/
theorem Inv.changeFactors (h : s.Inv cfg) (hquiet : s.unhandled = []) (hring : s.OneRing)
    (hnodup : (requests.map Prod.fst).Nodup) (hallowed : ∀ r ∈ requests, s.Allowed cfg r.1 r.2) :
    (s.changeFactors cfg requests).Inv cfg := by
  have hflight : s.inFlight = [] := (append_eq_nil_iff.mp hquiet).1
  refine ⟨fun k => ?_, nodup_changeFactors hquiet hnodup, fun n hn => ?_, fun m hm hwaits => ?_, fun _ => hring⟩
  · obtain ⟨old, hb⟩ := h.balanced k
    by_cases hk : k ∈ requests.map Prod.fst
    · obtain ⟨⟨_, rep⟩, hr, rfl⟩ := mem_map.mp hk
      exact ⟨_, hb.changeFactors hquiet hnodup hr (hallowed _ hr)⟩
    · exact ⟨old, hb.of_same (same_changeFactors hquiet hnodup hk)⟩
  · simpa using (mem_filter.mp hn).2
  · simp only [Fleet.changeFactors, hflight, nil_append, mem_filter] at hm
    rw [hm.2] at hwaits
    cases hwaits

end Change

section Default

/-- While a key has one replica, its threads stay in step whatever ring they know. -/
theorem Balanced.of_default (hb : s.Balanced cfg k old) (hquiet : s.unhandled = []) (hone : s.target cfg k = 1)
    (rings : ServerThread N → HashRing H N) (ring : HashRing H N) :
    Balanced cfg { s with rings := rings, monitorRing := ring } k 1 := by
  have hfactor : ∀ st : ServerThread N, st.tid < cfg.params.threadNum → s.factor cfg st k = 1 := fun st htid => by
    rw [hb.factor_of_quiet hquiet htid, hone, ite_self]
  have hnone : ∀ n, n ∉ s.unhandled := fun n hn => by
    rw [hquiet] at hn
    exact absurd hn not_mem_nil
  refine
    { old_pos := le_rfl
      target_pos := hb.target_pos
      direction := .inl hone
      enough := fun hlong => ?_
      locals := hb.locals
      told := fun n hn => absurd hn (hnone n)
      pending := fun st hw => ?_
      settled := fun st htid _ => ?_
      raising := fun _ htarget => ?_
      lowering := fun hold => absurd hold (lt_irrefl 1)
      pointed := fun p hp hlong => ?_
      direct := fun _ => hb.direct fun p hp => (hfactor p (tid_lt_of_localRing hp.2)).le
      holders := fun st e he => ?_ }
  · change 1 < max 1 (s.target cfg k) at hlong
    omega
  · obtain ⟨n, hn, -⟩ := hw
    exact absurd hn (hnone n)
  · change s.factor cfg st k = if _ then s.target cfg k else 1
    rw [hfactor st htid, hone, ite_self]
  · change 1 < s.target cfg k at htarget
    omega
  · change 1 < s.factor cfg p k at hlong
    rw [hfactor p (tid_lt_of_localRing hp.2)] at hlong
    omega
  · obtain ⟨hlong, -, hlocal, -⟩ := hb.holders st e he
    rw [hfactor st (tid_lt_of_localRing hlocal)] at hlong
    omega

/-- While every key has one replica, nodes may join. -/
theorem Inv.of_default (h : s.Inv cfg) (hquiet : s.unhandled = []) (hone : ∀ k, s.target cfg k = 1)
    (rings : ServerThread N → HashRing H N) (ring : HashRing H N) :
    Inv cfg { s with rings := rings, monitorRing := ring } := by
  refine ⟨fun k => ?_, h.nodup, h.deferred, h.released, fun hbusy => ?_⟩
  · obtain ⟨old, hb⟩ := h.balanced k
    exact ⟨1, hb.of_default hquiet (hone k) rings ring⟩
  · rcases hbusy with ⟨k, hk⟩ | hne
    · exact absurd (hone k) hk
    · exact absurd hquiet hne

/-- A cluster with nothing stored. -/
theorem Inv.init (hcfg : cfg.SingleDefault) (nodes : List N) : (init cfg nodes : Fleet K N H L).Inv cfg := by
  have hone : ∀ k, (Fleet.init cfg nodes : Fleet K N H L).target cfg k = 1 := fun k => hcfg.global
  have hfactor : ∀ st k, (Fleet.init cfg nodes : Fleet K N H L).factor cfg st k = 1 := fun st k => hcfg.global
  have hnone : ∀ n, n ∉ (Fleet.init cfg nodes : Fleet K N H L).unhandled := fun n => not_mem_nil
  refine ⟨fun k => ⟨1, ?_⟩, .nil, fun n hn => absurd hn not_mem_nil, fun m hm => absurd hm not_mem_nil, ?_⟩
  · refine
      { old_pos := le_rfl
        target_pos := (hone k).ge
        direction := .inl (hone k)
        enough := fun hlong => by rw [hone k] at hlong; omega
        locals := fun st => hcfg.onNode
        told := fun n hn => absurd hn (hnone n)
        pending := fun st hw => ?_
        settled := fun st _ _ => by rw [hfactor, hone, ite_self]
        raising := fun _ htarget => by rw [hone k] at htarget; omega
        lowering := fun hold => absurd hold (lt_irrefl 1)
        pointed := fun p _ hlong => by rw [hfactor] at hlong; omega
        direct := fun _ => .inl rfl
        holders := fun st e he => by cases he }
    obtain ⟨n, hn, -⟩ := hw
    exact absurd hn (hnone n)
  · rintro (⟨k, hk⟩ | hne)
    · exact absurd (hone k) hk
    · exact absurd rfl hne

end Default

/-- Every event that meets its condition keeps the threads in step. -/
theorem Inv.step (hcfg : cfg.SingleDefault) {e : FleetEvent K N} (h : s.Inv cfg) (hok : s.Orderly cfg e)
    (hstep : s.step cfg e = some s') : s'.Inv cfg := by
  cases e with
  | insertNode st n =>
    cases hstep
    exact h.of_default hok.1 hok.2 _ s.monitorRing
  | insertMonitor n =>
    cases hstep
    exact h.of_default hok.1 hok.2 s.rings _
  | monitorKey j =>
    cases hstep
    exact h.of_same (fun k => same_monitorKey s j k) rfl rfl rfl rfl
  | change requests =>
    simp only [Fleet.step] at hstep
    split_ifs at hstep
    cases hstep
    exact h.changeFactors hok.1 hok.2.1 hok.2.2.1 hok.2.2.2
  | sendDeferred =>
    cases hstep
    have hunhandled : s.inFlight ++ s.deferred ++ [] = s.unhandled := append_nil _
    have hfalse : ∀ n ∈ s.unhandled, n.waits = false := fun n hn =>
      (mem_append.mp hn).elim (hok n) (h.deferred n)
    refine ⟨fun k => ?_, ?_, fun n hn => absurd hn not_mem_nil, fun m _ _ n hn _ => ?_, fun hbusy => ?_⟩
    · obtain ⟨old, hb⟩ := h.balanced k
      refine ⟨old, hb.of_same ⟨rfl, rfl, fun _ => rfl, fun _ h => h, fun n _ => ?_, fun _ => rfl, .inl rfl, fun _ h => .inr h⟩⟩
      rw [← hunhandled]
      rfl
    · exact (hunhandled ▸ h.nodup :)
    · refine hfalse n ?_
      rw [← hunhandled]
      exact hn
    · refine h.rings ?_
      rw [← hunhandled]
      exact hbusy
  | deliver i =>
    simp only [Fleet.step] at hstep
    cases hn : s.inFlight[i]? with
    | none => simp [hn] at hstep
    | some n =>
      simp only [hn] at hstep
      cases hstep
      obtain ⟨hlt, rfl⟩ := List.getElem?_eq_some_iff.mp hn
      have hflight : s.inFlight = s.inFlight.take i ++ s.inFlight[i] :: s.inFlight.drop (i + 1) := by
        simp
      rw [eraseIdx_eq_take_drop_succ]
      exact h.deliver hcfg hflight
  | serve st k write =>
    cases hstep
    exact h.serve st k write
  | mergeLog st =>
    cases hstep
    exact h.of_same (fun k => same_merge s st k) rfl rfl rfl rfl

/-- After every run whose events meet their conditions the threads are in step. -/
theorem Inv.run (hcfg : cfg.SingleDefault) {nodes : List N} {es : List (FleetEvent K N)}
    (hrun : run cfg nodes es = some s) (hok : Transition.Guarded (Fleet.step cfg) (Orderly cfg) (Fleet.init cfg nodes) es) :
    s.Inv cfg :=
  Transition.invariant_of_guarded (fun _ _ _ h hok hstep => h.step hcfg hok hstep) (Inv.init hcfg nodes) hrun hok

end Fleet

end Dinomo
