import Dinomo.Fleet

/-!
# Replication factors in step

When every change of a memory factor is a raise or a return to the default and is handled by all threads before
the next one begins, the threads of a key stay in step: a thread that has not yet handled the update has the
factor from before, all others have the new one or, out of the reach of the key, the default.  The index has
an indirect pointer for the key exactly when the key's primary thread has a factor above one.
-/

namespace Dinomo

open HashRing List

/-- One replica of a key and one thread for it are the defaults. -/
structure FleetConfig.SingleDefault {K N H L : Type*} (cfg : FleetConfig K N H L) : Prop where
  global : cfg.params.defaultGlobalReplication .memory = 1
  onNode : cfg.params.defaultLocalReplication = 1

namespace Fleet

variable {K N H L : Type*} [DecidableEq K] [DecidableEq N] [LinearOrder H] [LinearOrder L]
variable (cfg : FleetConfig K N H L)

/-- The factors a thread takes a key to have. -/
def factors (s : Fleet K N H L) (st : ServerThread N) (k : K) : KeyReplication :=
  (s.maps st k).getD (.defaults cfg.params)

/-- The memory factor a thread takes a key to have. -/
def factor (s : Fleet K N H L) (st : ServerThread N) (k : K) : ℕ := (s.factors cfg st k).globalReplication .memory

/-- The memory factor the monitor has decided on for a key. -/
def target (s : Fleet K N H L) (k : K) : ℕ := ((s.monitor k).getD (.defaults cfg.params)).globalReplication .memory

/-- The updates that their threads have not handled yet. -/
def unhandled (s : Fleet K N H L) : List (Notice K N) := s.inFlight ++ s.deferred

/-- A thread has not yet handled the update of a key. -/
def Awaits (s : Fleet K N H L) (st : ServerThread N) (k : K) : Prop := ∃ n ∈ s.unhandled, n.dest = st ∧ n.key = k

/-- The place of a key in the rings is with a thread. -/
def IsPrimary (s : Fleet K N H L) (k : K) (st : ServerThread N) : Prop :=
  ServesFirst cfg.hash ⟨s.monitorRing, cfg.localRing⟩ k st

/-- The threads and the index are in step for a key whose memory factor was `old` before the last change. -/
structure Balanced (s : Fleet K N H L) (k : K) (old : ℕ) : Prop where
  old_pos : 1 ≤ old
  target_pos : 1 ≤ s.target cfg k
  direction : s.target cfg k = 1 ∨ old ≤ s.target cfg k
  enough : 1 < max old (s.target cfg k) →
    (cfg.nodesOf s.monitorRing k (max old (s.target cfg k))).length = max old (s.target cfg k)
  locals : ∀ st, (s.factors cfg st k).localReplication .memory = 1
  told : ∀ n ∈ s.unhandled, n.key = k → n.rep.globalReplication .memory = s.target cfg k ∧
    n.rep.localReplication .memory = 1 ∧ n.dest.node ∈ cfg.nodesOf s.monitorRing k (max old (s.target cfg k)) ∧
      n.waits = cfg.waitsFor s.monitorRing k old (s.target cfg k) n.dest.node
  pending : ∀ st, s.Awaits st k → s.factor cfg st k = if st.node ∈ cfg.nodesOf s.monitorRing k old then old else 1
  settled : ∀ st, st.tid < cfg.params.threadNum → ¬s.Awaits st k → s.factor cfg st k =
    if st.node ∈ cfg.nodesOf s.monitorRing k (max old (s.target cfg k)) then s.target cfg k else 1
  raising : old = 1 → 1 < s.target cfg k → ∀ p, s.IsPrimary cfg k p → s.Awaits p k →
    s.maps p k ≠ none ∧ (s.index k ≠ none ∨ k ∈ s.logged p) ∧
      ∀ st, st.node ∈ cfg.nodesOf s.monitorRing k (s.target cfg k) → st.tid < cfg.params.threadNum →
        st.node ≠ p.node → s.Awaits st k
  lowering : 1 < old → s.target cfg k = 1 → ∀ p, s.IsPrimary cfg k p → ¬s.Awaits p k →
    ∀ st, s.Awaits st k → st.node = p.node
  pointed : ∀ p, s.IsPrimary cfg k p → 1 < s.factor cfg p k → ∃ q, s.index k = some (.pointer q .oplog)
  direct : (∀ p, s.IsPrimary cfg k p → s.factor cfg p k ≤ 1) → s.index k = none ∨ s.index k = some .oplog
  holders : ∀ st e, s.pointers st k = some e → 1 < s.factor cfg st k ∧
    st.node ∈ cfg.nodesOf s.monitorRing k (s.factor cfg st k) ∧
      cfg.localRing.find (cfg.hash.localKey k) = some st.tid ∧ s.index k = some e

/-- All keys are in step; the updates of one change are on their way, those the monitor waits for first; and the
threads know the same ring as long as a key is not at its default. -/
structure Inv (s : Fleet K N H L) : Prop where
  balanced : ∀ k, ∃ old, s.Balanced cfg k old
  nodup : (s.unhandled.map fun n => (n.dest, n.key)).Nodup
  deferred : ∀ n ∈ s.deferred, n.waits = false
  released : ∀ m ∈ s.inFlight, m.waits = false → ∀ n ∈ s.unhandled, n.key = m.key → n.waits = false
  rings : ((∃ k, s.target cfg k ≠ 1) ∨ s.unhandled ≠ []) →
    ∀ st, s.rings st = if st.node ∈ s.monitorRing.nodes.map Prod.snd then s.monitorRing else .empty

section Rings

variable {cfg}

omit [DecidableEq K] [DecidableEq N] [LinearOrder H] in
/-- The local ring has the threads of a node. -/
theorem tid_lt_of_localRing {h : L} {tid : ℕ} (htid : cfg.localRing.find h = some tid) : tid < cfg.params.threadNum := by
  have hmem : ∀ x ∈ cfg.localRing.nodes, x.2 < cfg.params.threadNum := by
    refine foldlRecOn (motive := fun r : HashRing L ℕ => ∀ x ∈ r.nodes, x.2 < cfg.params.threadNum)
      (range cfg.params.threadNum) _ (by simp [empty]) fun r hr tid htid => ?_
    refine foldlRecOn (motive := fun r : HashRing L ℕ => ∀ x ∈ r.nodes, x.2 < cfg.params.threadNum)
      (range cfg.virtualThreads) _ hr fun r hr v _ x hx => ?_
    rcases mem_insert hx with rfl | hx
    · exact mem_range.mp htid
    · exact hr x hx
  obtain ⟨x, hx, rfl⟩ := mem_map.mp (mem_of_mem_responsible (mem_responsible_one.mpr htid))
  exact hmem x hx

/-- The threads a thread takes to be responsible are those of the factors it takes the key to have. -/
theorem threads_eq (s : Fleet K N H L) (st : ServerThread N) (k : K) :
    s.threads cfg st k = threadsFor cfg.hash (s.ringsOf cfg st) k (s.factors cfg st k) := by
  rw [threads, getResponsibleThreads_fst]
  rfl

/-- With one thread per node, a thread is responsible by its node and its number. -/
theorem mem_threads {s : Fleet K N H L} {st st' : ServerThread N} {k : K}
    (hlocal : (s.factors cfg st k).localReplication .memory = 1) :
    st' ∈ s.threads cfg st k ↔ st'.node ∈ cfg.nodesOf (s.rings st) k (s.factor cfg st k) ∧
      cfg.localRing.find (cfg.hash.localKey k) = some st'.tid := by
  rw [threads_eq, mem_threadsFor hlocal]
  rfl

/-- There are as many responsible threads as nodes. -/
theorem length_threads {s : Fleet K N H L} {st st' : ServerThread N} {k : K}
    (hlocal : (s.factors cfg st k).localReplication .memory = 1) (hst : st' ∈ s.threads cfg st k) :
    (s.threads cfg st k).length = (cfg.nodesOf (s.rings st) k (s.factor cfg st k)).length := by
  have htid : (s.ringsOf cfg st).localRing.find (cfg.hash.localKey k) = some st'.tid := ((mem_threads hlocal).mp hst).2
  rw [threads_eq, threadsFor_eq _ _ _ hlocal, htid]
  simp only [Option.toList_some, map_cons, map_nil, length_flatMap, length_cons, length_nil]
  simp [responsibleGlobal, FleetConfig.nodesOf, ringsOf, factor]

end Rings

namespace Balanced

variable {cfg} {s s' : Fleet K N H L} {k : K} {old : ℕ}

/-- The primary node of a key has the key under every factor. -/
theorem primary_node {p : ServerThread N} (hp : s.IsPrimary cfg k p) {rep : ℕ} (hrep : 1 ≤ rep) :
    p.node ∈ cfg.nodesOf s.monitorRing k rep := mem_responsible_of_find hp.1 hrep

/-- The factor of a thread is the old one, the new one or one. -/
theorem factor_cases (h : s.Balanced cfg k old) {st : ServerThread N} (htid : st.tid < cfg.params.threadNum) :
    (s.Awaits st k ∧ s.factor cfg st k = old ∧ st.node ∈ cfg.nodesOf s.monitorRing k old) ∨
      (¬s.Awaits st k ∧ s.factor cfg st k = s.target cfg k ∧
        st.node ∈ cfg.nodesOf s.monitorRing k (max old (s.target cfg k))) ∨ s.factor cfg st k = 1 := by
  by_cases hst : s.Awaits st k
  · have hf := h.pending st hst
    split_ifs at hf with hnode
    · exact .inl ⟨hst, hf, hnode⟩
    · exact .inr (.inr hf)
  · have hf := h.settled st htid hst
    split_ifs at hf with hnode
    · exact .inr (.inl ⟨hst, hf, hnode⟩)
    · exact .inr (.inr hf)

/-- No factor is zero. -/
theorem factor_pos (h : s.Balanced cfg k old) {st : ServerThread N} (htid : st.tid < cfg.params.threadNum) :
    1 ≤ s.factor cfg st k := by
  rcases h.factor_cases htid with ⟨-, hf, -⟩ | ⟨-, hf, -⟩ | hf
  · exact hf ▸ h.old_pos
  · exact hf ▸ h.target_pos
  · exact hf ▸ le_rfl

/-- No factor is above the old and the new one. -/
theorem factor_le (h : s.Balanced cfg k old) {st : ServerThread N} (htid : st.tid < cfg.params.threadNum) :
    s.factor cfg st k ≤ max old (s.target cfg k) := by
  have hold := h.old_pos
  rcases h.factor_cases htid with ⟨-, hf, -⟩ | ⟨-, hf, -⟩ | hf <;> omega

/-- If some thread at the key's place in its node has a factor above one, so has the primary thread. -/
theorem primary_factor (h : s.Balanced cfg k old) {p : ServerThread N} (hp : s.IsPrimary cfg k p)
    (st : ServerThread N) (htid : st.tid = p.tid) (hst : 1 < s.factor cfg st k) : 1 < s.factor cfg p k := by
  have hlt : p.tid < cfg.params.threadNum := tid_lt_of_localRing hp.2
  by_cases hnode : st.node = p.node
  · have heq : st = p := by
      cases st
      cases p
      simp_all
    exact heq ▸ hst
  by_cases hwait : s.Awaits p k
  · have hf := h.pending p hwait
    rw [if_pos (primary_node hp h.old_pos)] at hf
    by_contra hle
    have hold : old = 1 := by have := h.old_pos; omega
    rcases h.factor_cases (htid ▸ hlt) with ⟨-, hf', -⟩ | ⟨hno, hf', hmem⟩ | hf'
    · omega
    · have htarget : 1 < s.target cfg k := by omega
      rw [max_eq_right (by omega)] at hmem
      exact hno ((h.raising hold htarget p hp hwait).2.2 st hmem (htid ▸ hlt) hnode)
    · omega
  · have hf := h.settled p hlt hwait
    rw [if_pos (primary_node hp (h.old_pos.trans (le_max_left _ _)))] at hf
    by_contra hle
    have htarget : s.target cfg k = 1 := by have := h.target_pos; omega
    rcases h.factor_cases (htid ▸ hlt) with ⟨hyes, hf', -⟩ | ⟨-, hf', -⟩ | hf'
    · exact hnode (h.lowering (by omega) htarget p hp hwait st hyes)
    · omega
    · omega

end Balanced

namespace Inv

variable {cfg} {s : Fleet K N H L} {k : K} {st : ServerThread N}

/-- A factor above one is that of a key under change or above its default, and then the threads know one ring. -/
theorem rings_of_factor (h : s.Inv cfg) (htid : st.tid < cfg.params.threadNum) (hf : 1 < s.factor cfg st k) :
    ∀ st, s.rings st = if st.node ∈ s.monitorRing.nodes.map Prod.snd then s.monitorRing else .empty := by
  obtain ⟨old, hb⟩ := h.balanced k
  refine h.rings ?_
  rcases hb.factor_cases htid with ⟨⟨n, hn, -⟩, -⟩ | ⟨-, hf', -⟩ | hf'
  · exact .inr (ne_nil_of_mem hn)
  · exact .inl ⟨k, by omega⟩
  · omega

/-- A thread that is responsible under a factor above one knows the ring of the monitor. -/
theorem nodesOf_rings (h : s.Inv cfg) (htid : st.tid < cfg.params.threadNum) (hf : 1 < s.factor cfg st k)
    {rep : ℕ} {n : N} (hn : n ∈ cfg.nodesOf (s.rings st) k rep) : s.rings st = s.monitorRing := by
  have hring := h.rings_of_factor htid hf st
  split_ifs at hring with hmem
  · exact hring
  · rw [FleetConfig.nodesOf, hring, responsible_empty] at hn
    simp at hn

/-- A thread that is responsible for a key takes the replicated path exactly if the index has an indirect pointer
for the key. -/
theorem path (h : s.Inv cfg) (hst : st ∈ s.threads cfg st k) :
    1 < (s.threads cfg st k).length ↔ ∃ e, s.index k = some e ∧ e.isPointer = true := by
  obtain ⟨old, hb⟩ := h.balanced k
  obtain ⟨hnode, hlocal⟩ := (mem_threads (hb.locals st)).mp hst
  have htid := tid_lt_of_localRing hlocal
  have hpos := hb.factor_pos htid
  rw [length_threads (hb.locals st) hst]
  by_cases hf : 1 < s.factor cfg st k
  · have hring := h.nodesOf_rings htid hf hnode
    have hle := hb.factor_le htid
    have hlen : (cfg.nodesOf (s.rings st) k (s.factor cfg st k)).length = s.factor cfg st k := by
      rw [hring]
      exact length_responsible_of_le (hb.enough (by omega)) hle
    obtain ⟨n, hn⟩ : ∃ n, s.monitorRing.find (cfg.hash.globalKey k) = some n := by
      have hone := length_responsible_of_le (hb.enough (by omega)) (hpos.trans hle)
      rw [responsible_one] at hone
      exact Option.isSome_iff_exists.mp (by cases hfind : s.monitorRing.find (cfg.hash.globalKey k) <;> simp_all)
    have hp : s.IsPrimary cfg k ⟨n, st.tid⟩ := ⟨hn, hlocal⟩
    obtain ⟨q, hq⟩ := hb.pointed _ hp (hb.primary_factor hp st rfl hf)
    exact ⟨fun _ => ⟨_, hq, rfl⟩, fun _ => by omega⟩
  · have hone : s.factor cfg st k = 1 := by omega
    have hlen : (cfg.nodesOf (s.rings st) k (s.factor cfg st k)).length ≤ 1 := by
      rw [hone]
      exact length_take_le _ _
    refine ⟨fun hlong => by omega, ?_⟩
    rintro ⟨e, he, hpointer⟩
    have hdirect : ∀ p, s.IsPrimary cfg k p → s.factor cfg p k ≤ 1 := by
      intro p hp
      by_contra hle
      have hfp : 1 < s.factor cfg p k := by omega
      -- the thread then knows the ring of the monitor, and is the primary thread itself
      have hring := h.rings_of_factor (tid_lt_of_localRing hp.2) hfp st
      split_ifs at hring with hmem
      · rw [hone, hring] at hnode
        have heq : st = p := by
          have hn := (mem_responsible_one.mp hnode).symm.trans hp.1
          have ht := hlocal.symm.trans hp.2
          cases st
          cases p
          simp_all
        rw [← heq] at hfp
        omega
      · rw [FleetConfig.nodesOf, hring, responsible_empty] at hnode
        simp at hnode
    rcases hb.direct hdirect with hnone | hsome
    · simp [hnone] at he
    · rw [hsome] at he
      cases he
      cases hpointer

end Inv

end Fleet

end Dinomo
