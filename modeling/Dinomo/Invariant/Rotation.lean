import Dinomo.Invariant.Hands

/-!
# Rotation, linking and preallocation keep the invariant

A full block is published, the staging pool is reset, and the next preallocated block becomes the
current one.  Its `next` pointer is written first and the log-mapping slot afterwards, so that the
chain from the slot is complete at every moment.
-/

namespace Dinomo

open Chain Function List Cluster

variable {Tid V : Type*} {cfg : Config}

section Facts

variable {st : Storage Tid V} {C : List Addr} {ρ ρ' : Addr → Role Tid} {t : Tid} {k : KnCore V}

/-- Taking a preallocated block out of the array. -/
theorem ThreadInv.pop (h : ThreadInv cfg st C ρ t k) (h0 : (popLogBlocksRaddr k.raddrs).1 ≠ 0) :
    ρ (popLogBlocksRaddr k.raddrs).1 = .prealloc t ∧
      (∀ a ∈ (popLogBlocksRaddr k.raddrs).2, a ≠ 0 →
        ρ a = .prealloc t ∧ a ≠ (popLogBlocksRaddr k.raddrs).1) ∧
      ((popLogBlocksRaddr k.raddrs).2.filter (· ≠ 0)).Nodup := by
  rcases popLogBlocksRaddr_spec k.raddrs with ⟨hz, -⟩ | ⟨-, hf⟩
  · exact absurd hz h0
  · have hnodup := h.nodup_raddrs
    rw [hf] at hnodup
    obtain ⟨hnotin, hrest⟩ := nodup_cons.mp hnodup
    have hmem : ∀ a, a ∈ (popLogBlocksRaddr k.raddrs).1 :: (popLogBlocksRaddr k.raddrs).2.filter (· ≠ 0) →
        ρ a = .prealloc t := by
      intro a ha
      rw [← hf] at ha
      obtain ⟨ha, ha0⟩ := mem_filter.mp ha
      exact h.raddrs a ha (by simpa using ha0)
    refine ⟨hmem _ (by simp), fun a ha ha0 => ?_, hrest⟩
    have hin : a ∈ (popLogBlocksRaddr k.raddrs).2.filter (· ≠ 0) := mem_filter.mpr ⟨ha, by simpa using ha0⟩
    exact ⟨hmem a (mem_cons_of_mem _ hin), fun heq => hnotin (heq ▸ hin)⟩

/-- The facts about a thread that has no block to append to. -/
theorem ThreadInv.unlinked (h : ThreadInv cfg st C ρ t k) {k' : KnCore V}
    (hcomplete : ∀ a ∈ C, (st.mem a).offset = bytesOf (st.mem a).buffer)
    (hrepl : ∀ a, ρ a = .repl t ↔ ρ' a = .repl t)
    (hraddrs : ∀ a ∈ k'.raddrs, a ≠ 0 → ρ' a = .prealloc t) (hnodup : (k'.raddrs.filter (· ≠ 0)).Nodup)
    (hreset : PoolReset k')
    (hcounters : k'.pool.localInvalidCounter = 0 ∧ k'.pool.globalInvalidCounter = 0)
    (hcore : k'.replAlloc = k.replAlloc ∧ k'.replOffset = k.replOffset ∧
      k'.replNumEntries = k.replNumEntries)
    (hold : k.view.crashed = false ∧ k.view.retired = false ∧ k.view.inflight = none)
    (hview : k'.view = if k'.alloc = 0 then .quiet else { (CtlView.quiet : CtlView V) with linking := true })
    (hlinking : k'.alloc ≠ 0 → ρ' k'.alloc = .linking t) : ThreadInv cfg st C ρ' t k' := by
  have hnot : ¬ k'.Live := by
    rintro ⟨-, h0, hl⟩
    rw [hview, if_neg h0] at hl
    cases hl
  have hplain : k'.view.slotPending = false ∧ k'.view.sent = false ∧ k'.view.published = false ∧
      k'.view.inflight = none ∧ k'.view.retired = false := by
    rw [hview]
    split_ifs <;> exact ⟨rfl, rfl, rfl, rfl, rfl⟩
  have hactive : k'.ReplActive → k.ReplActive := fun hr => ⟨hold.1, hcore.1 ▸ hr.2.1, hold.2.1⟩
  refine
    { raddrs := hraddrs
      nodup_raddrs := hnodup
      linking := fun hl => hlinking fun h0 => ?_
      slotNext := fun hx => by rw [hplain.1] at hx; cases hx
      live := fun hx => absurd hx hnot
      liveOk := fun hx => absurd hx hnot
      reset := fun _ _ => hreset
      complete := fun _ _ => hcomplete
      poolCounters := hcounters
      repl := fun hr => by rw [hcore.1]; exact (hrepl _).mp (h.repl (hactive hr))
      repl_only := fun a ha => by
        rw [hcore.1]
        exact ⟨(h.repl_only a ((hrepl a).mpr ha)).1, hplain.2.2.2.2⟩
      replOk := fun hr => ?_
      inflight := fun hx => by rw [hplain.2.2.2.1] at hx; cases hx
      sentLive := fun hx => by rw [hplain.2.1] at hx; cases hx
      publishedLive := fun hx => by rw [hplain.2.2.1] at hx; cases hx }
  · rw [hview, if_pos h0] at hl
    cases hl
  · have hro := h.replOk (hactive hr)
    have hbuf := hro.buffer
    rw [hold.2.2] at hbuf
    rw [hcore.1]
    exact ⟨by rw [hplain.2.2.2.1, hcore.2.1, hcore.2.2]; exact hbuf, hro.writes⟩

/-- A thread with an empty staging pool takes a blank block. -/
theorem LiveOk.of_reset {b : LogBlock V} {k : KnCore V} (hk : PoolReset k) (hbuf : b.buffer = []) (hoff : b.offset = 0)
    (hsent : k.view.sent = false) (hpublished : k.view.published = false) : LiveOk cfg b k where
  aligned := by rw [hk.buffer]; exact aligned_nil
  keys := by simp [hk.buffer]
  tail := by rw [KnCore.tail, hk.buffer, hk.batched, hk.offset, ite_self, bytesOf_nil]
  isPrefix := by rw [hbuf]; exact nil_prefix
  valid := by rw [hk.buffer, hk.valid]; rfl
  immediate _ := ⟨by rw [hbuf, hk.buffer], by rw [hk.flushed, hk.batched]⟩
  batched _ := ⟨by rw [hoff, hk.flushed], by rw [hk.offset, hk.flushed], by rw [hk.flushed]; exact Nat.zero_le _⟩
  unsent _ _ := by rw [hbuf, hk.flushed, bytesOf_nil]
  sent hx := by rw [hsent] at hx; cases hx
  published hx := by rw [hpublished] at hx; cases hx

/-- A log keeps its links when a blank block outside it gets another role. -/
theorem ChainInv.retag (h : ChainInv st C ρ t) {N : Addr} {r : Role Tid} (hold : ρ N ≠ .chain t)
    (hnew : r ≠ .chain t) : ChainInv st C (update ρ N r) t := by
  refine ⟨fun a => ?_, h.nodup, h.links, h.block, h.tail_complete, h.merged_zero⟩
  by_cases ha : a = N
  · subst ha
    rw [h.mem_iff, update_self]
    exact ⟨fun hx => absurd hx hold, fun hx => absurd hx hnew⟩
  · rw [h.mem_iff, update_of_ne ha]

end Facts

section Steps

variable [DecidableEq Tid] [Fintype Tid]

section Rules

variable {st : Storage Tid V} {K : Tid → KnCore V} {C : Tid → List Addr} {ρ : Addr → Role Tid} {t : Tid}

/-- A preallocated block becomes the block a thread is about to link, or the array is empty. -/
theorem Inv.takeBlock (h : Inv cfg st K C ρ) (k' : KnCore V)
    (hcomplete : ∀ a ∈ C t, (st.mem a).offset = bytesOf (st.mem a).buffer)
    (hwait : (K t).view.waiting = false) (howed : (K t).view.owed = none)
    (hold : (K t).view.crashed = false ∧ (K t).view.retired = false ∧ (K t).view.inflight = none)
    (halloc : k'.alloc = (popLogBlocksRaddr (K t).raddrs).1)
    (hraddrs : k'.raddrs = (popLogBlocksRaddr (K t).raddrs).2)
    (hreset : PoolReset k')
    (hcounters : k'.pool.localInvalidCounter = 0 ∧ k'.pool.globalInvalidCounter = 0)
    (hcore : k'.replAlloc = (K t).replAlloc ∧ k'.replOffset = (K t).replOffset ∧
      k'.replNumEntries = (K t).replNumEntries)
    (hview : k'.view = if k'.alloc = 0 then .quiet else { (CtlView.quiet : CtlView V) with linking := true }) :
    ∃ ρ', Inv cfg st (update K t k') C ρ' := by
  have ht := h.thread t
  have howed' : k'.view.owed = (K t).view.owed := by
    rw [howed, hview]
    split_ifs <;> rfl
  have hcrash' : k'.view.crashed = false := by
    rw [hview]
    split_ifs <;> rfl
  by_cases h0 : (popLogBlocksRaddr (K t).raddrs).1 = 0
  · -- no preallocated block is left: the thread has no current block
    rcases popLogBlocksRaddr_spec (K t).raddrs with ⟨-, -, hsame⟩ | ⟨hne, -⟩
    · refine ⟨ρ, h.coreStep hwait hold.1 howed' hcrash' hcore.2.1 ?_⟩
      exact ht.unlinked hcomplete (fun _ => Iff.rfl) (by rw [hraddrs, hsame]; exact ht.raddrs)
        (by rw [hraddrs, hsame]; exact ht.nodup_raddrs) hreset hcounters hcore hold hview
        (fun hx => absurd (halloc.trans h0) hx)
    · exact absurd h0 hne
  · -- the popped block is about to be linked
    obtain ⟨hrole, hrest, hnodup⟩ := ht.pop h0
    have hblank := h.block (popLogBlocksRaddr (K t).raddrs).1
    have hzero := hblank.prealloc t hrole
    refine ⟨update ρ (popLogBlocksRaddr (K t).raddrs).1 (.linking t), ?_⟩
    have := h.retag (r := .linking t) hwait hold.1 (Or.inl hrole) rfl st.logMappingTable (C t) k' howed' hcrash'
      (Or.inl hcore.2.1) (fun _ _ => rfl) ?_ ?_ ?_ (fun _ _ hx => hx)
    · rwa [update_eq_self] at this
    · exact .of_role (update_self _ _ _) (h.allocated _ (by simp [hrole])) hblank.aligned hblank.keys
        (by rw [hzero]; rfl)
    · exact (h.chain t).retag (by simp [hrole]) (by simp)
    · refine ht.unlinked hcomplete (fun a => ?_) (fun a ha ha0 => ?_) ?_ hreset hcounters hcore hold hview
        (fun _ => ?_)
      · by_cases ha : a = (popLogBlocksRaddr (K t).raddrs).1
        · rw [ha, hrole, update_self]
          exact iff_of_false nofun nofun
        · rw [update_of_ne ha]
      · rw [hraddrs] at ha
        obtain ⟨hr, hne⟩ := hrest a ha ha0
        rw [update_of_ne hne]
        exact hr
      · rw [hraddrs]
        exact hnodup
      · rw [halloc, update_self]

end Rules

variable {s : Cluster Tid V} {C : Tid → List Addr} {ρ : Addr → Role Tid} {t : Tid} {w : Write V} {ret : Bool}

omit [DecidableEq Tid] in
/-- A published block is complete, so with the blocks behind it the whole log is. -/
theorem Inv.complete_of_published (h : Inv cfg s.st s.cores C ρ)
    (hp : (s.cores t).view.published = true) :
    ∀ a ∈ C t, (s.st.mem a).offset = bytesOf (s.st.mem a).buffer := by
  intro a ha
  have hl := (h.thread t).publishedLive hp
  have hhead := (h.thread t).live hl
  obtain ⟨hbuf, hoff⟩ := ((h.thread t).liveOk hl).published hp
  by_cases haa : a = (s.cores t).alloc
  · rw [haa, hoff, hbuf]
  · refine (h.chain t).tail_complete a ?_
    cases hC : C t with
    | nil => rw [hC] at ha; cases ha
    | cons b rest =>
      rw [hC] at ha hhead
      simp only [List.head?_cons, Option.some.injEq] at hhead
      rcases mem_cons.mp ha with hab | hab
      · exact absurd (hab.trans hhead) haa
      · exact hab

/-- The staging pool is reset after a block was published. -/
theorem Inv.rotate (h : Inv cfg s.st s.cores C ρ) (hctl : (s.kn t).ctl = .write w ret .clean) {s' : Cluster Tid V}
    (hs' : s.stepWrite cfg t w ret .clean = some s') : ∃ ρ', Inv cfg s'.st s'.cores C ρ' := by
  have hview : (s.cores t).view = { (CtlView.quiet : CtlView V) with published := true } := by
    simp [cores, Kn.core, hctl, Ctl.view]
  simp only [stepWrite, Option.some.injEq] at hs'
  subst hs'
  rw [st_setKn, cores_setKn]
  refine h.takeBlock _ (h.complete_of_published (by rw [hview])) (by rw [hview]; rfl) (by rw [hview]; rfl)
    (by rw [hview]; exact ⟨rfl, rfl, rfl⟩) rfl rfl ⟨rfl, rfl, rfl, rfl, rfl⟩ (h.thread t).poolCounters
    ⟨rfl, rfl, rfl⟩ ?_
  change Ctl.view (.write w true (if _ then _ else _)) = _
  split_ifs with h0 h1 h1
  · rfl
  · exact absurd h0 h1
  · exact absurd h1 h0
  · rfl

/-- The `next` pointer of a new block is written. -/
theorem Inv.link (h : Inv cfg s.st s.cores C ρ) (hctl : (s.kn t).ctl = .write w ret .link) {s' : Cluster Tid V}
    (hs' : s.stepWrite cfg t w ret .link = some s') : Inv cfg s'.st s'.cores C ρ := by
  have hview : (s.cores t).view = { (CtlView.quiet : CtlView V) with linking := true } := by
    simp [cores, Kn.core, hctl, Ctl.view]
  have ht := h.thread t
  have hrole : ρ (s.cores t).alloc = .linking t := ht.linking (by rw [hview])
  have hnot : ¬ (s.cores t).Live := fun hl => by have := hl.2.2; rw [hview] at this; cases this
  have hcrash : (s.cores t).view.crashed = false := by rw [hview]; rfl
  simp only [stepWrite, Option.some.injEq] at hs'
  subst hs'
  rw [st_setKn, cores_setKn, cores_modBlock, st_modBlock]
  have hnotin : (s.cores t).alloc ∉ C t := by
    rw [(h.chain t).mem_iff, hrole]
    exact fun hx => by cases hx
  have hmem : ∀ a ∈ C t, (s.st.modBlock (s.cores t).alloc fun b =>
      { b with next := s.st.logMappingTable t }).mem a = s.st.mem a := fun a ha =>
    s.st.mem_modBlock_of_ne (ne_of_mem_of_not_mem ha hnotin) _
  have hblank := (h.block (s.cores t).alloc).linking t hrole
  have halloc := h.allocated (s.cores t).alloc fun hx => by rw [hrole] at hx; cases hx
  have hreset := ht.reset hcrash hnot
  refine h.threadStep (a := (s.cores t).alloc) (by rw [hview]; rfl) hcrash (by rw [hrole, Role.owner])
    (fun hx => hnotin (mem_of_mem_tail hx)) (prefix_refl _) rfl le_rfl (by rw [hview]; rfl) rfl rfl
    ?_ ?_ ?_ ?_
  · have hb := h.block (s.cores t).alloc
    refine .of_role hrole halloc ?_ ?_ ?_ <;> rw [s.st.mem_modBlock_self]
    · exact hb.aligned
    · exact hb.keys
    · exact hblank
  · intro hc
    rcases hc.used with hr | ⟨_, hr⟩ | ⟨_, hr⟩ <;> · rw [hrole] at hr; cases hr
  · exact (h.chain t).congr (fun _ => Iff.rfl) (fun a ha => .of_eq (hmem a ha)) rfl
  · refine
      { raddrs := ht.raddrs
        nodup_raddrs := ht.nodup_raddrs
        linking := fun _ => hrole
        slotNext := fun _ => ⟨rfl, ?_⟩
        live := fun hx => absurd hx.2.2 (by simp [Kn.core, Ctl.view])
        liveOk := fun hx => absurd hx.2.2 (by simp [Kn.core, Ctl.view])
        reset := fun _ _ => ⟨hreset.buffer, hreset.offset, hreset.valid, hreset.batched, hreset.flushed⟩
        complete := fun _ _ a ha => ?_
        poolCounters := ht.poolCounters
        repl := fun hr => ht.repl ⟨hcrash, hr.2.1, by rw [hview]; rfl⟩
        repl_only := fun a ha => ⟨(ht.repl_only a ha).1, rfl⟩
        replOk := fun hr => ?_
        inflight := fun hx => by cases hx
        sentLive := fun hx => by cases hx
        publishedLive := fun hx => by cases hx }
    · change (update s.st.mem _ _ (s.cores t).alloc).next = _
      rw [update_self]
      rfl
    · rw [hmem a ha]
      exact ht.complete hcrash hnot a ha
    · have hr' : (s.cores t).ReplActive := ⟨hcrash, hr.2.1, by rw [hview]; rfl⟩
      have hro := ht.replOk hr'
      have hne : (s.cores t).replAlloc ≠ (s.cores t).alloc := by
        intro heq
        have := ht.repl hr'
        rw [heq, hrole] at this
        cases this
      have hbuf := hro.buffer
      rw [show (s.cores t).view.inflight = none by rw [hview]; rfl] at hbuf
      change ReplOk (update s.st.mem _ _ (s.cores t).replAlloc) _
      rw [update_of_ne hne]
      exact ⟨hbuf, hro.writes⟩

/-- The log-mapping slot is moved to the new block. -/
theorem Inv.slot (h : Inv cfg s.st s.cores C ρ) (hctl : (s.kn t).ctl = .write w ret .slot) {s' : Cluster Tid V}
    (hs' : s.stepWrite cfg t w ret .slot = some s') :
    Inv cfg s'.st s'.cores (update C t ((s.kn t).nonReplicatedAlloc :: C t))
      (update ρ (s.kn t).nonReplicatedAlloc (.chain t)) := by
  have hview : (s.cores t).view = { (CtlView.quiet : CtlView V) with linking := true, slotPending := true } := by
    simp [cores, Kn.core, hctl, Ctl.view]
  have ht := h.thread t
  have hc := h.chain t
  have hrole : ρ (s.cores t).alloc = .linking t := ht.linking (by rw [hview])
  have hnot : ¬ (s.cores t).Live := fun hl => by have := hl.2.2; rw [hview] at this; cases this
  have hcrash : (s.cores t).view.crashed = false := by rw [hview]; rfl
  have hblank := h.blank (Or.inr hrole)
  have hnotin : (s.cores t).alloc ∉ C t := by
    rw [hc.mem_iff, hrole]
    exact fun hx => by cases hx
  have halloc := h.allocated (s.cores t).alloc fun hx => by rw [hrole] at hx; cases hx
  have h0 : (s.cores t).alloc ≠ 0 := fun hx => h.zero_allocated (hx ▸ halloc)
  have hnext := (ht.slotNext (by rw [hview])).2
  have hcomplete := ht.complete hcrash hnot
  have hreset := ht.reset hcrash hnot
  simp only [stepWrite, Option.some.injEq] at hs'
  subst hs'
  have hcores : (setCtl { s with st := { s.st with
      logMappingTable := update s.st.logMappingTable t (s.kn t).nonReplicatedAlloc } } t
        (.write w ret .retry)).cores = update s.cores t { s.cores t with view := .quiet } :=
    cores_setCtl _ t _
  rw [hcores]
  refine h.retag (N := (s.cores t).alloc) (r := .chain t) (by rw [hview]; rfl) hcrash (Or.inr hrole) rfl _ _ _
    (by rw [hview]) rfl (Or.inl rfl) (fun t' ht' => update_of_ne ht' _ _) ?_ ?_ ?_ ?_
  · have hb := h.block (s.cores t).alloc
    exact .of_role (update_self _ _ _) halloc hb.aligned hb.keys trivial
  · refine
      { mem_iff := fun a => ?_
        nodup := nodup_cons.mpr ⟨hnotin, hc.nodup⟩
        links := ⟨update_self _ _ _, h0, ?_⟩
        block := fun a ha => ?_
        tail_complete := hcomplete
        merged_zero := fun a ha => ?_ }
    · by_cases ha : a = (s.cores t).alloc
      · subst ha
        simp [update_self]
        exact Or.inl rfl
      · rw [update_of_ne ha, ← hc.mem_iff, mem_cons]
        exact ⟨fun hx => hx.resolve_left ha, Or.inr⟩
    · change IsChain (fun a => (s.st.mem a).next) (s.st.mem (s.cores t).alloc).next (C t)
      rw [hnext]
      exact hc.links
    · rcases mem_cons.mp ha with rfl | ha
      · exact hblank.linkedOk
      · exact hc.block a ha
    · cases hC : C t with
      | nil => rw [hC] at ha; cases ha
      | cons b rest =>
        rw [hC, dropLast_cons_cons] at ha
        rcases mem_cons.mp ha with rfl | ha
        · exact hblank.mergedOffset
        · exact hc.merged_zero a (by rw [hC]; exact ha)
  · have hρ : ∀ a, a ≠ (s.cores t).alloc → update ρ (s.cores t).alloc (.chain t) a = ρ a :=
      fun a ha => update_of_ne ha _ _
    have hlive : ({ s.cores t with view := .quiet } : KnCore V).Live := ⟨rfl, h0, rfl⟩
    have hactive : ({ s.cores t with view := .quiet } : KnCore V).ReplActive → (s.cores t).ReplActive :=
      fun hr => ⟨hcrash, hr.2.1, by rw [hview]; rfl⟩
    refine
      { raddrs := fun a ha ha0 => ?_
        nodup_raddrs := ht.nodup_raddrs
        linking := fun hx => by cases hx
        slotNext := fun hx => by cases hx
        live := fun _ => rfl
        liveOk := fun _ => .of_reset ⟨hreset.buffer, hreset.offset, hreset.valid, hreset.batched, hreset.flushed⟩
          hblank.buffer hblank.offset rfl rfl
        reset := fun _ hx => absurd hlive hx
        complete := fun _ hx => absurd hlive hx
        poolCounters := ht.poolCounters
        repl := fun hr => ?_
        repl_only := fun a ha => ?_
        replOk := fun hr => ?_
        inflight := fun hx => by cases hx
        sentLive := fun hx => by cases hx
        publishedLive := fun hx => by cases hx }
    · have hr := ht.raddrs a ha ha0
      rw [hρ a fun hx => by rw [hx, hrole] at hr; cases hr]
      exact hr
    · have hr' := ht.repl (hactive hr)
      change update ρ (s.cores t).alloc (.chain t) (s.cores t).replAlloc = _
      rw [hρ _ fun hx => by rw [hx, hrole] at hr'; cases hr']
      exact hr'
    · have hne : a ≠ (s.cores t).alloc := by
        rintro rfl
        rw [update_self] at ha
        cases ha
      rw [hρ a hne] at ha
      exact ⟨(ht.repl_only a ha).1, rfl⟩
    · have hro := ht.replOk (hactive hr)
      have hbuf := hro.buffer
      rw [show (s.cores t).view.inflight = none by rw [hview]; rfl] at hbuf
      exact ⟨hbuf, hro.writes⟩
  · intro p hk hp
    unfold PassPos at hp ⊢
    cases hph : p.phase with
    | walk =>
      simp only [hph] at hp ⊢
      obtain ⟨pre, rest, hC, hfirst, -⟩ := hp
      exact ⟨(s.kn t).nonReplicatedAlloc :: pre, rest, by rw [hC]; rfl, hfirst, fun hx => absurd hk hx⟩
    | scan =>
      simp only [hph] at hp ⊢
      obtain ⟨pre, hC, hfirst, hprev, hstack, -, hrest⟩ := hp
      exact ⟨(s.kn t).nonReplicatedAlloc :: pre, by rw [hC]; rfl, hfirst, hprev, hstack,
        fun hx => absurd hk hx, hrest⟩
    | stop => exact fun hx => absurd hk hx

end Steps

end Dinomo
