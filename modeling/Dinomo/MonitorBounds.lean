import Mathlib.Data.Finset.Card
import Mathlib.Data.Fintype.Basic
import Dinomo.Monitor

/-!
# Replication factors and the nodes of a ring

A factor fits a ring if the ring has that many nodes and the local ring that many threads; a ring without nodes is
not searched.  The policies of the monitor give out factors that fit its ring, as the number of nodes that they
compute from the size of the ring is at most the number of nodes in it.
-/

namespace Dinomo

open List

/-- Every server of a ring has at most one entry for each of its virtual threads. -/
theorem ServerRing.Sound.size_le {H N : Type*} [LinearOrder H] [DecidableEq N] {p : RingParams H N} {r : ServerRing H N}
    (h : r.Sound p) : r.size ≤ p.virtualThreads * r.positions.count := by
  have hfiber : ∀ n ∈ r.positions.nodes.toFinset.image Prod.snd,
      (r.positions.nodes.toFinset.filter fun x => x.2 = n).card ≤ p.virtualThreads := fun n _ => by
    have hsub : (r.positions.nodes.toFinset.filter fun x => x.2 = n) ⊆ ((p.hashes n).map fun h => (h, n)).toFinset := by
      intro x hx
      obtain ⟨hmem, rfl⟩ := Finset.mem_filter.mp hx
      exact mem_toFinset.mpr (mem_map.mpr ⟨x.1, (h.entries x (mem_toFinset.mp hmem)).2, rfl⟩)
    calc _ ≤ ((p.hashes n).map fun h => (h, n)).toFinset.card := Finset.card_le_card hsub
      _ ≤ ((p.hashes n).map fun h => (h, n)).length := toFinset_card_le _
      _ = p.virtualThreads := by simp [RingParams.hashes]
  have hcount : (r.positions.nodes.toFinset.image Prod.snd).card ≤ r.positions.count := by
    refine (Finset.card_le_card fun n hn => ?_).trans (toFinset_card_le (r.positions.nodes.map Prod.snd).eraseDups)
    obtain ⟨x, hx, rfl⟩ := Finset.mem_image.mp hn
    exact mem_toFinset.mpr (mem_eraseDups.mpr (mem_map_of_mem (mem_toFinset.mp hx)))
  calc r.size = r.positions.nodes.toFinset.card := (toFinset_card_of_nodup r.positions.nodup_nodes).symm
    _ ≤ p.virtualThreads * (r.positions.nodes.toFinset.image Prod.snd).card := Finset.card_le_mul_card_image _ _ hfiber
    _ ≤ _ := Nat.mul_le_mul_left _ hcount

/-- A difference of unsigned numbers that does not wrap round. -/
theorem unsignedSub_le {a b : ℕ} (h : b ≤ a) : unsignedSub a b ≤ a - b := by
  rw [unsignedSub, Int.toNat_le, ← Nat.cast_sub h]
  exact_mod_cast Nat.mod_le _ _

section Fits

variable {K N H L : Type*} [DecidableEq K] [DecidableEq N] [LinearOrder H] [LinearOrder L]

/-- The factors of a key are at most the nodes of a ring and the threads of the local ring, if there is a node. -/
def Fits (cfg : FleetConfig K N H L) (ring : HashRing H N) (rep : KeyReplication) : Prop :=
  ring.nodes ≠ [] → rep.globalReplication .memory ≤ ring.count ∧ rep.localReplication .memory ≤ cfg.localRing.count

instance (cfg : FleetConfig K N H L) (ring : HashRing H N) (rep : KeyReplication) : Decidable (Fits cfg ring rep) :=
  decidable_of_iff (ring.nodes.isEmpty = true ∨ (rep.globalReplication .memory ≤ ring.count ∧
    rep.localReplication .memory ≤ cfg.localRing.count)) (by simp [Fits, or_iff_not_imp_left])

/-- The factors of all keys of a map fit. -/
def Bounded (cfg : FleetConfig K N H L) (ring : HashRing H N) (m : ReplicationMap K) : Prop :=
  ∀ k rep, m k = some rep → Fits cfg ring rep

instance [Fintype K] (cfg : FleetConfig K N H L) (ring : HashRing H N) (m : ReplicationMap K) :
    Decidable (Bounded cfg ring m) := inferInstanceAs (Decidable (∀ k, ∀ rep ∈ m k, Fits cfg ring rep))

variable {cfg : FleetConfig K N H L} {ring ring' : HashRing H N} {m m' : ReplicationMap K} {k : K} {rep : KeyReplication}

omit [DecidableEq K] in
theorem Fits.zero : Fits cfg ring .zero := fun _ => ⟨Nat.zero_le _, Nat.zero_le _⟩

omit [DecidableEq K] in
/-- What `operator[]` reads fits. -/
theorem Bounded.read (h : Bounded cfg ring m) (k : K) : Fits cfg ring (m.read k) := by
  unfold ReplicationMap.read
  cases hk : m k with
  | none => exact .zero
  | some rep => exact h k rep hk

/-- One more key. -/
theorem Bounded.update (h : Bounded cfg ring m) (hrep : Fits cfg ring rep) :
    Bounded cfg ring (Function.update m k (some rep)) := fun j rep' hj => by
  by_cases hjk : j = k
  · subst hjk
    rw [Function.update_self] at hj
    exact Option.some.inj hj ▸ hrep
  · rw [Function.update_of_ne hjk] at hj
    exact h j rep' hj

omit [DecidableEq K] in
/-- A change of one key. -/
theorem Bounded.of_read (h : Bounded cfg ring m) (hne : ∀ j, j ≠ k → m' j = m j) (hk : Fits cfg ring (m'.read k)) :
    Bounded cfg ring m' := fun j rep hj => by
  by_cases hjk : j = k
  · subst hjk
    rwa [ReplicationMap.read, hj] at hk
  · exact h j rep (hne j hjk ▸ hj)

omit [DecidableEq N] in
/-- A larger ring has more nodes. -/
theorem HashRing.count_mono [DecidableEq N] (h : ∀ x ∈ ring.nodes, x ∈ ring'.nodes) : ring.count ≤ ring'.count := by
  refine length_le_eraseDups (nodup_eraseDups _) fun n hn => ?_
  obtain ⟨x, hx, rfl⟩ := mem_map.mp (mem_eraseDups.mp hn)
  exact mem_map_of_mem (h x hx)

omit [DecidableEq K] in
/-- What fits a ring with nodes fits a larger one. -/
theorem Fits.mono (h : Fits cfg ring rep) (hne : ring.nodes ≠ []) (hsub : ∀ x ∈ ring.nodes, x ∈ ring'.nodes) :
    Fits cfg ring' rep := fun _ => ⟨(h hne).1.trans (HashRing.count_mono hsub), (h hne).2⟩

omit [DecidableEq K] in
/-- The search for the nodes of a key ends. -/
theorem Fits.ends (h : Fits cfg ring rep) (hash : H) : ring.Ends hash (rep.globalReplication .memory) := by
  rw [HashRing.ends_iff]
  by_cases hne : ring.nodes = []
  · exact .inl hne
  · exact .inr (h hne).1

omit [DecidableEq K] in
/-- Both searches for the threads of a key end. -/
theorem Fits.responsibleEnds {localRing : HashRing L ℕ} (h : Fits cfg ring ((m k).getD (.defaults cfg.params)))
    (hlocal : ring.nodes = [] ∨ localRing = cfg.localRing) :
    ResponsibleEnds cfg.params cfg.hash ⟨ring, localRing⟩ m k := by
  refine ⟨h.ends _, ?_⟩
  by_cases hne : ring.nodes = []
  · left
    simp [responsibleGlobal, HashRing.responsible, HashRing.walk, hne]
  · right
    rw [hlocal.resolve_left hne]
    exact HashRing.ends_iff.mpr (.inr (h hne).2)

/-- A lookup of the threads of a key keeps the bound if the default factors fit. -/
theorem Bounded.lookUp {rings : Rings N H L} (h : Bounded cfg ring m)
    (hdefault : m k = none → Fits cfg ring (.defaults cfg.params)) :
    Bounded cfg ring (getResponsibleThreads cfg.params cfg.hash rings m k).2 := by
  unfold getResponsibleThreads
  cases hk : m k with
  | none => exact h.update (hdefault hk)
  | some rep => exact h

omit [DecidableEq K] in
/-- The factors that a lookup uses fit. -/
theorem Bounded.getD (h : Bounded cfg ring m) (hdefault : m k = none → Fits cfg ring (.defaults cfg.params)) :
    Fits cfg ring ((m k).getD (.defaults cfg.params)) := by
  cases hk : m k with
  | none => exact hdefault hk
  | some rep => exact h k rep hk

omit [DecidableEq K] in
/-- A join keeps the bound where a node is known. -/
theorem Bounded.insert {r : ServerRing H N} {p : RingParams H N} {n : N} {joinCount : ℤ}
    (h : Bounded cfg r.positions m)
    (hempty : r.positions.nodes = [] → Bounded cfg (r.insert p n joinCount).2.positions m) :
    Bounded cfg (r.insert p n joinCount).2.positions m := by
  by_cases hne : r.positions.nodes = []
  · exact hempty hne
  · exact fun k rep hk => (h k rep hk).mono hne fun _ hx => ServerRing.mem_positions_insert hx n joinCount

/-- New factors of some keys. -/
theorem Bounded.setAll {requests : List (K × KeyReplication)} (h : Bounded cfg ring m)
    (hrequests : ∀ r ∈ requests, Fits cfg ring r.2) : Bounded cfg ring (m.setAll requests) := by
  induction requests generalizing m with
  | nil => exact h
  | cons r requests ih =>
    exact ih (h.update (hrequests r mem_cons_self)) fun r' hr' => hrequests r' (mem_cons_of_mem _ hr')

end Fits

namespace Monitor

variable {K N H L : Type*} [DecidableEq K] [DecidableEq N] [LinearOrder H] [LinearOrder L]

/-- The local ring has all threads of a node. -/
def Staffed (cfg : FleetConfig K N H L) : Prop :=
  0 < cfg.params.threadNum ∧ cfg.params.threadNum ≤ cfg.localRing.count

instance (cfg : FleetConfig K N H L) : Decidable (Staffed cfg) := inferInstanceAs (Decidable (_ ∧ _))

/-- The default factors fit if a key of the epoch needs them. -/
def DefaultsFit (cfg : FleetConfig K N H L) (params : MonitorParams K) (ep : Epoch K) (s : Monitor K N H) : Prop :=
  (∃ x ∈ ep.keyAccessSummary, params.isMetadata x.1 = false ∧ s.keyReplicationMap x.1 = none) →
    Fits cfg s.ring.positions (.defaults cfg.params)

instance (cfg : FleetConfig K N H L) (params : MonitorParams K) (ep : Epoch K) (s : Monitor K N H) :
    Decidable (DefaultsFit cfg params ep s) := inferInstanceAs (Decidable (_ → _))

/-- The ring of a monitor is in order, and the factors of all keys fit it. -/
structure Ok (cfg : FleetConfig K N H L) (s : Monitor K N H) : Prop where
  sound : s.ring.Sound cfg.ringParams
  bounded : Bounded cfg s.ring.positions s.keyReplicationMap

variable {cfg : FleetConfig K N H L} {params : MonitorParams K} {ep : Epoch K} {s : Monitor K N H}

omit [DecidableEq K] in
/-- The number of nodes that the policies work with is at most that of the ring. -/
theorem Ok.memoryNodeCount_le (h : s.Ok cfg) : s.memoryNodeCount cfg ≤ s.ring.positions.count :=
  Nat.div_le_of_le_mul h.sound.size_le

/-- New factors that fit are stored, and the search for the nodes to tell ends. -/
theorem Ok.changeReplicationFactor (h : s.Ok cfg) {requests : List (K × KeyReplication)} (failed : List K)
    (hrequests : ∀ r ∈ requests, Fits cfg s.ring.positions r.2) :
    ∃ s', s.changeReplicationFactor cfg requests failed = some s' ∧ s'.Ok cfg := by
  have hends : ∀ r ∈ requests.filter fun r => r.1 ∉ failed, s.ring.positions.Ends (cfg.hash.globalKey r.1)
      (max (r.2.globalReplication .memory) ((s.keyReplicationMap.read r.1).globalReplication .memory)) := fun r hr => by
    rcases max_choice (r.2.globalReplication .memory) ((s.keyReplicationMap.read r.1).globalReplication .memory)
      with hmax | hmax
    · rw [hmax]
      exact (hrequests r (mem_of_mem_filter hr)).ends _
    · rw [hmax]
      exact (h.bounded.read r.1).ends _
  refine ⟨_, if_pos hends, h.sound, h.bounded.setAll fun r hr => ?_⟩
  obtain ⟨r', hr', rfl⟩ := mem_map.mp hr
  dsimp only
  split_ifs
  · exact h.bounded.read r'.1
  · exact hrequests r' hr'

omit [DecidableEq K] in
/-- The keys that are moved are selected ones. -/
theorem mem_moveKeys {free required : ℕ} {selects : K → ℕ → Bool} {size : K → Option ℕ} {new : K → KeyReplication}
    {l : List (K × ℕ)} {r : K × KeyReplication} (hr : r ∈ (moveKeys free selects size new required l).1) :
    r.2 = new r.1 ∧ ∃ count, selects r.1 count = true := by
  induction l generalizing required with
  | nil => simp [moveKeys] at hr
  | cons x l ih =>
    simp only [moveKeys] at hr
    split at hr
    · exact ih hr
    · split_ifs at hr with hselects hfree
      · exact ih hr
      · rcases mem_cons.mp hr with rfl | hr
        · exact ⟨rfl, x.2, hselects⟩
        · exact ih hr
      · exact ih hr

/-- A ring with entries has a node. -/
theorem count_pos {ring : HashRing H N} (h : ring.nodes ≠ []) : 0 < ring.count := by
  obtain ⟨x, hx⟩ := exists_mem_of_ne_nil _ h
  exact length_pos_of_mem (mem_eraseDups.mpr (mem_map_of_mem hx))

/-- Keys without a replica in memory get one. -/
theorem Ok.promote (h : s.Ok cfg) : ∃ s', s.promote cfg params ep = some s' ∧ s'.Ok cfg := by
  unfold Monitor.promote
  split_ifs
  · dsimp only
    generalize hpromoted : moveKeys _ _ _ _ _ _ = promoted
    have hfits : ∀ r ∈ promoted.1, Fits cfg s.ring.positions r.2 := fun r hr hne => by
      rw [← hpromoted] at hr
      obtain ⟨hnew, count, hselects⟩ := mem_moveKeys hr
      have hzero : (s.keyReplicationMap.read r.1).globalReplication .memory = 0 := by
        simpa using (Bool.and_eq_true_iff.mp hselects).2
      rw [hnew]
      simp only [createNewReplicationVector, hzero]
      exact ⟨count_pos hne, (h.bounded.read r.1 hne).2⟩
    obtain ⟨s', hs', hok⟩ := h.changeReplicationFactor (ep.failed .promote) hfits
    refine ⟨_, Option.map_eq_some_iff.mpr ⟨s', hs', rfl⟩, ?_⟩
    split_ifs
    · exact ⟨hok.sound, hok.bounded⟩
    · exact hok
  · exact ⟨s, rfl, h⟩

/-- Keys lose their replicas in memory. -/
theorem Ok.demote (h : s.Ok cfg) (hstaffed : Staffed cfg) : ∃ s', s.demote cfg params ep = some s' ∧ s'.Ok cfg := by
  unfold Monitor.demote
  split_ifs
  · refine h.changeReplicationFactor (ep.failed .demote) fun r hr _ => ?_
    obtain ⟨hnew, -⟩ := mem_moveKeys hr
    rw [hnew]
    exact ⟨Nat.zero_le _, hstaffed.1.trans_le hstaffed.2⟩
  · exact ⟨s, rfl, h⟩

/-- Keys keep one replica. -/
theorem Ok.reduce (h : s.Ok cfg) (hstaffed : Staffed cfg) : ∃ s', s.reduce cfg params ep = some s' ∧ s'.Ok cfg := by
  unfold Monitor.reduce
  split_ifs
  · refine h.changeReplicationFactor (ep.failed .reduce) fun r hr hne => ?_
    obtain ⟨x, -, rfl⟩ := mem_map.mp hr
    exact ⟨count_pos hne, hstaffed.1.trans_le hstaffed.2⟩
  · exact ⟨s, rfl, h⟩

omit [DecidableEq K] in
/-- Keys do not get more replicas than the ring has nodes. -/
theorem Ok.replicateHot (h : s.Ok cfg) (hstaffed : Staffed cfg) {x : K × ℕ} {r : K × KeyReplication}
    (hr : s.replicateHot cfg params ep x = some r) : Fits cfg s.ring.positions r.2 := fun hne => by
  have hrep := h.bounded.read x.1 hne
  rw [Monitor.replicateHot, Option.ite_none_right_eq_some] at hr
  obtain ⟨-, hr⟩ := hr
  obtain ⟨ratio, -, hr⟩ := Option.bind_eq_some_iff.mp hr
  dsimp only at hr
  split_ifs at hr with htarget hfull
  · cases hr
    exact ⟨(min_le_left _ _).trans h.memoryNodeCount_le, hrep.2⟩
  · cases hr
    exact ⟨hrep.1, hstaffed.2⟩

omit [DecidableEq K] in
/-- Keys on all nodes lose one. -/
theorem Ok.lowerFull (h : s.Ok cfg) (hcount : 0 < s.memoryNodeCount cfg) {x : K × ℕ} {r : K × KeyReplication}
    (hr : s.lowerFull cfg params x = some r) : Fits cfg s.ring.positions r.2 := fun hne => by
  have hrep := h.bounded.read x.1 hne
  simp only [Monitor.lowerFull] at hr
  split_ifs at hr with hfull
  cases hr
  have hone : 1 ≤ (s.keyReplicationMap.read x.1).globalReplication .memory := hfull.2 ▸ hcount
  exact ⟨((unsignedSub_le hone).trans (Nat.sub_le _ _)).trans hrep.1, hrep.2⟩

/-- The policy for the latency target. -/
theorem Ok.sloPolicy (h : s.Ok cfg) (hstaffed : Staffed cfg) : ∃ s', s.sloPolicy cfg params ep = some s' ∧ s'.Ok cfg := by
  unfold Monitor.sloPolicy
  split_ifs with hlatency hadd hgrace hhot hremove
  · exact ⟨_, rfl, h.sound, h.bounded⟩
  · exact ⟨s, rfl, h⟩
  · refine h.changeReplicationFactor (ep.failed .slo) fun r hr => ?_
    obtain ⟨x, -, hx⟩ := mem_filterMap.mp hr
    exact h.replicateHot hstaffed hx
  · exact ⟨s, rfl, h⟩
  · have hcount : 0 < s.memoryNodeCount cfg := (Nat.zero_le _).trans_lt hremove.2.2.2.1
    have hfits : ∀ r ∈ ep.keyAccessSummary.filterMap (s.lowerFull cfg params), Fits cfg s.ring.positions r.2 :=
      fun r hr => by
        obtain ⟨x, -, hx⟩ := mem_filterMap.mp hr
        exact h.lowerFull hcount hx
    obtain ⟨s', hs', hok⟩ := h.changeReplicationFactor (ep.failed .slo) hfits
    exact ⟨_, Option.map_eq_some_iff.mpr ⟨s', hs', rfl⟩, hok.sound, hok.bounded⟩
  · exact ⟨s, rfl, h⟩

/-- New keys get the default factors. -/
theorem Ok.initKeys (h : s.Ok cfg) (hdefaults : s.DefaultsFit cfg params ep) : (s.initKeys cfg params ep).Ok cfg := by
  refine ⟨h.sound, ?_⟩
  have hloop : ∀ (l : List (K × ℕ)) (m : ReplicationMap K), Bounded cfg s.ring.positions m →
      (∀ k, m k = none → s.keyReplicationMap k = none) → l ⊆ ep.keyAccessSummary →
      Bounded cfg s.ring.positions (l.foldl (fun m x =>
        if !params.isMetadata x.1 ∧ m x.1 = none then m.initReplication cfg.params x.1 else m) m) := by
    intro l
    induction l with
    | nil => exact fun m hm _ _ => hm
    | cons x l ih =>
      intro m hm hnone hsub
      obtain ⟨hx, hsub⟩ := cons_subset.mp hsub
      rw [foldl_cons]
      split_ifs with hnew
      · refine ih _ (hm.update (hdefaults ⟨x, hx, by simpa using hnew.1, hnone _ hnew.2⟩)) (fun k hk => ?_) hsub
        by_cases hkx : k = x.1
        · simp [ReplicationMap.initReplication, hkx] at hk
        · exact hnone k (by simpa [ReplicationMap.initReplication, Function.update_of_ne hkx] using hk)
      · exact ih m hm hnone hsub
  exact hloop _ _ h.bounded (fun _ hk => hk) (List.Subset.refl _)

/-- An epoch keeps the bound, and all its searches end. -/
theorem Ok.epoch (h : s.Ok cfg) (hstaffed : Staffed cfg) (hdefaults : s.DefaultsFit cfg params ep) :
    ∃ s', s.epoch cfg params ep = some s' ∧ s'.Ok cfg := by
  have hpromote : ∃ s', (s.initKeys cfg params ep).promote cfg params ep = some s' ∧ s'.Ok cfg :=
    (h.initKeys hdefaults).promote
  obtain ⟨s₁, h₁, hok₁⟩ := hpromote
  obtain ⟨s₂, h₂, hok₂⟩ := hok₁.demote hstaffed
  obtain ⟨s₃, h₃, hok₃⟩ := hok₂.reduce hstaffed
  obtain ⟨s₄, h₄, hok₄⟩ := hok₃.sloPolicy hstaffed
  refine ⟨s₄, ?_, hok₄⟩
  rw [Monitor.epoch, movementPolicy, h₁, Option.bind_some, h₂, Option.bind_some, h₃, Option.bind_some, h₄]

end Monitor

end Dinomo
