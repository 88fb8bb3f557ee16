import Dinomo.Invariant.Accounting
import Dinomo.Invariant.Threads

/-!
# Blocks change hands

Steps in which a block gets another role: a preallocated block becomes the current block or the
replicated block of a thread, a new block is linked, and a storage manager hands blocks out.  Beside
them, the steps of a thread that touch no block at all.
-/

namespace Dinomo

open Chain Function List Storage LogBlock

variable {Tid V : Type*} {cfg : Config}

/-- A block as it is handed out, up to its `next` pointer. -/
structure LogBlock.Blank (b : LogBlock V) : Prop where
  buffer : b.buffer = []
  offset : b.offset = 0
  mergedOffset : b.mergedOffset = 0
  validCounter : b.validCounter = 0
  localInvalidCounter : b.localInvalidCounter = 0
  globalInvalidCounter : b.globalInvalidCounter = 0

/-- A block that is zero up to its `next` pointer. -/
theorem LogBlock.blank_of_eq {b : LogBlock V} (h : { b with next := 0 } = (.zero : LogBlock V)) : b.Blank := by
  cases b
  simp only [zero, mk.injEq] at h
  obtain ⟨h1, h2, h3, h4, h5, -, h7⟩ := h
  exact ⟨h7, h2, h1, h3, h4, h5⟩

/-- A zero block. -/
theorem LogBlock.blank_zero : (zero : LogBlock V).Blank := ⟨rfl, rfl, rfl, rfl, rfl, rfl⟩

/-- A blank linked block. -/
theorem LogBlock.Blank.linkedOk {b : LogBlock V} (h : b.Blank) : LinkedOk b where
  offset := Or.inl (by rw [h.offset, h.buffer]; rfl)
  merged := Or.inl (by rw [h.mergedOffset, h.buffer]; rfl)
  merged_le := by rw [h.mergedOffset]; exact Nat.zero_le _
  valid := by rw [h.validCounter, h.buffer]; rfl

/-- The first preallocated address is taken, the others stay. -/
theorem popLogBlocksRaddr_spec (l : List Addr) :
    ((popLogBlocksRaddr l).1 = 0 ∧ l.filter (· ≠ 0) = [] ∧ (popLogBlocksRaddr l).2 = l) ∨
      ((popLogBlocksRaddr l).1 ≠ 0 ∧
        l.filter (· ≠ 0) = (popLogBlocksRaddr l).1 :: (popLogBlocksRaddr l).2.filter (· ≠ 0)) := by
  induction l with
  | nil => exact Or.inl ⟨rfl, rfl, rfl⟩
  | cons a l ih =>
    by_cases ha : a = 0
    · subst ha
      simpa [popLogBlocksRaddr] using ih
    · right
      simp [popLogBlocksRaddr, ha]

/-- A control state in which a thread does nothing to its own log. -/
structure CtlView.Still (v : CtlView V) : Prop where
  crashed : v.crashed = false
  linking : v.linking = false
  slotPending : v.slotPending = false
  sent : v.sent = false
  published : v.published = false
  waiting : v.waiting = false

/-- Nothing is under way in a quiet control state. -/
theorem CtlView.still_quiet : (CtlView.quiet : CtlView V).Still := ⟨rfl, rfl, rfl, rfl, rfl, rfl⟩

/-- The facts about a thread when only its replicated block and its preallocated blocks change. -/
theorem ThreadInv.still {st st' : Storage Tid V} {C : List Addr} {ρ ρ' : Addr → Role Tid} {t : Tid} {k k' : KnCore V}
    (h : ThreadInv cfg st C ρ t k)
    (hcore : k' = { k with
      raddrs := k'.raddrs, replAlloc := k'.replAlloc, replOffset := k'.replOffset
      replNumEntries := k'.replNumEntries, view := k'.view })
    (hold : k.view.Still) (hnew : k'.view.Still) (hd : ∀ a ∈ C, (st.mem a).SameData (st'.mem a))
    (hraddrs : ∀ a ∈ k'.raddrs, a ≠ 0 → ρ' a = .prealloc t) (hnodup : (k'.raddrs.filter (· ≠ 0)).Nodup)
    (hrepl : k'.ReplActive → ρ' k'.replAlloc = .repl t)
    (honly : ∀ a, ρ' a = .repl t → a = k'.replAlloc ∧ k'.view.retired = false)
    (hok : k'.ReplActive → ReplOk (st'.mem k'.replAlloc) k')
    (hinflight : k'.view.inflight.isSome → k'.replAlloc ≠ 0) : ThreadInv cfg st' C ρ' t k' := by
  have hpool : k'.pool = k.pool := by rw [hcore]
  have halloc : k'.alloc = k.alloc := by rw [hcore]
  have hbatched : k'.batchedOffset = k.batchedOffset := by rw [hcore]
  have hflushed : k'.flushedOffset = k.flushedOffset := by rw [hcore]
  have hlive : k'.Live ↔ k.Live := by
    simp only [KnCore.Live, halloc, hold.crashed, hnew.crashed, hold.linking, hnew.linking]
  refine
    { raddrs := hraddrs
      nodup_raddrs := hnodup
      linking := fun hx => by rw [hnew.linking] at hx; cases hx
      slotNext := fun hx => by rw [hnew.slotPending] at hx; cases hx
      live := fun hl => by rw [halloc]; exact h.live (hlive.mp hl)
      liveOk := fun hl => ?_
      reset := fun _ hx => ?_
      complete := fun _ hx a ha => ?_
      poolCounters := by rw [hpool]; exact h.poolCounters
      repl := hrepl
      repl_only := honly
      replOk := hok
      inflight := hinflight
      sentLive := fun hx => by rw [hnew.sent] at hx; cases hx
      publishedLive := fun hx => by rw [hnew.published] at hx; cases hx }
  · have hl' := hlive.mp hl
    have hd' := hd _ (mem_of_mem_head? (h.live hl'))
    have hlok := (h.liveOk hl').congr hd'.buffer hd'.offset
    rw [halloc]
    exact
      { aligned := by rw [hpool]; exact hlok.aligned
        keys := by rw [hpool]; exact hlok.keys
        tail := by rw [KnCore.tail, hpool, hbatched]; exact hlok.tail
        isPrefix := by rw [hpool]; exact hlok.isPrefix
        valid := by rw [hpool]; exact hlok.valid
        immediate := by rw [hpool, hflushed, hbatched]; exact hlok.immediate
        batched := by rw [hpool, hbatched, hflushed]; exact hlok.batched
        unsent := fun hb _ => by rw [hflushed]; exact hlok.unsent hb hold.sent
        sent := fun hx => by rw [hnew.sent] at hx; cases hx
        published := fun hx => by rw [hnew.published] at hx; cases hx }
  · have hre := h.reset hold.crashed fun hl => hx (hlive.mpr hl)
    exact ⟨by rw [hpool]; exact hre.buffer, by rw [hpool]; exact hre.offset, by rw [hpool]; exact hre.valid,
      by rw [hbatched]; exact hre.batched, by rw [hflushed]; exact hre.flushed⟩
  · rw [(hd a ha).offset, (hd a ha).buffer]
    exact h.complete hold.crashed (fun hl => hx (hlive.mpr hl)) a ha

section

variable [DecidableEq Tid] [Fintype Tid] {st : Storage Tid V} {K : Tid → KnCore V} {C : Tid → List Addr}
  {ρ : Addr → Role Tid} {t : Tid} {a : Addr} {p : Ptr} {n : ℕ} {fresh : List Addr}

omit [DecidableEq Tid] in
/-- The block a role hands to a thread before it is used is blank. -/
theorem Inv.blank (h : Inv cfg st K C ρ) (hr : ρ a = .prealloc t ∨ ρ a = .linking t) :
    (st.mem a).Blank := by
  rcases hr with hr | hr
  · rw [(h.block a).prealloc t hr]
    exact blank_zero
  · exact blank_of_eq ((h.block a).linking t hr)

/-- A blank block of a thread gets another role with the same thread. -/
theorem Inv.retag (h : Inv cfg st K C ρ) (hwait : (K t).view.waiting = false)
    (hcrash : (K t).view.crashed = false) {N : Addr} (hrole : ρ N = .prealloc t ∨ ρ N = .linking t)
    {r : Role Tid} (hr : r.owner = some t) (slot : Tid → Addr) (c' : List Addr) (k' : KnCore V)
    (howed : k'.view.owed = (K t).view.owed) (hcrash' : k'.view.crashed = false)
    (hroff : k'.replOffset = (K t).replOffset ∨ ∀ b, ρ b ≠ .repl t)
    (hslot : ∀ t', t' ≠ t → slot t' = st.logMappingTable t')
    (hblock : BlockInv st (update ρ N r) N)
    (hchain : ChainInv { st with logMappingTable := slot } c' (update ρ N r) t)
    (hthread : ThreadInv cfg { st with logMappingTable := slot } c' (update ρ N r) t k')
    (hpass : ∀ p : Pass, p.kind = .worker → PassPos st (C t) p → PassPos st c' p) :
    Inv cfg { st with logMappingTable := slot } (update K t k') (update C t c')
      (update ρ N r) := by
  have hown : (ρ N).owner = some t := by rcases hrole with hx | hx <;> rw [hx, Role.owner]
  have hblank := h.blank hrole
  have hρ : ∀ b, b ≠ N → update ρ N r b = ρ b := fun b hb => update_of_ne hb _ _
  have hρN : update ρ N r N = r := update_self _ _ _
  have hsame : ∀ t', t' ≠ t → SameFor t' st { st with logMappingTable := slot } ρ (update ρ N r) := by
    intro t' ht'
    refine ⟨fun b hb => hρ b ?_, fun _ _ => .of_eq rfl, hslot t' ht', rfl, rfl, rfl⟩
    rintro rfl
    rw [hown, hρN, hr] at hb
    simp [Ne.symm ht'] at hb
  have hins : ∀ t' o b, ρ b = .repl t' → (update K t k' t').installed o = (K t').installed o := by
    intro t' o b hb
    rcases hroff with hroff | hnone
    · exact update_congr K t k' (fun k : KnCore V => k.installed o)
        (by simp [KnCore.installed, howed, hcrash, hcrash', hroff]) t'
    · rw [update_of_ne]
      rintro rfl
      exact hnone b hb
  have hisrel : ∀ b, b ≠ N → ∀ o, isReleased { st with logMappingTable := slot }
      (update K t k') (update ρ N r) b o = st.isReleased K ρ b o := fun b hb =>
    isReleased_congr (hρ b hb) (fun _ _ => rfl) fun t' o hx => hins t' o b hx
  have hpool : SamePool st { st with logMappingTable := slot } K (update K t k') ρ (update ρ N r) :=
    { ht := rfl, cells := rfl, allocated := rfl, queue := rfl
      buffer := fun _ => rfl
      counters := fun _ => ⟨rfl, rfl⟩
      released := fun b o ho => by
        refine hisrel b ?_ o
        rintro rfl
        rw [hblank.buffer] at ho
        cases ho
      owed := update_congr K t k' (fun k : KnCore V => k.view.owed) howed
      queued := fun b => by
        by_cases hb : b = N
        · subst hb
          refine iff_of_false (fun hx => ?_) fun hx => ?_
          · rw [← hρN, hx] at hr
            cases hr
          · rw [hx] at hown
            cases hown
        · rw [hρ b hb]
      used := fun b hb => by
        by_cases hbN : b = N
        · subst hbN
          intro hx
          rw [hx] at hown
          cases hown
        · rwa [← hρ b hbN] }
  refine { h.keep hpool (fun b => ?_) (fun t' p b hp hb => ?_) h.check_unique with
    log := LogInv.update h.log hsame ((h.log t).step hwait hcrash rfl rfl rfl hthread hchain
      fun p hk hp => (hpass p hk hp).congr fun _ _ => .of_eq rfl) }
  · by_cases hb : b = N
    · subst hb
      exact hblock.congr rfl rfl id
    · exact (h.block b).congr (hρ b hb) rfl id
  · have hc := h.check t' p b hp hb
    have hbN : b ≠ N := by
      rintro rfl
      rcases hrole with hx | hx <;> rcases hc.used with hy | ⟨_, hy⟩ | ⟨_, hy⟩ <;> · rw [hx] at hy; cases hy
    exact hc.congr (hρ b hbN) rfl hc.alloc

/-- A thread moves to another control state; nothing else changes but an answer it has consumed. -/
theorem Inv.viewStep (h : Inv cfg st K C ρ) {v : CtlView V} (reply : Tid → Bool)
    (hthread : ThreadInv cfg st (C t) ρ t { K t with view := v })
    (howed : ∀ p off, v.owed = some (p, off) →
      (∃ off', (K t).view.owed = some (p, off')) ∧ ∀ n, off = some n → n = p.off)
    (hins : (K t).view.crashed = true ∨ (K t).view.owed.isSome → v.crashed = true ∨ v.owed.isSome)
    (hrequest : ∀ p, st.progressTable t = some p → p.kind = .request →
      (v.waiting = true ∨ v.crashed = true) ∧ reply t = false)
    (hfail : ∀ p, st.progressTable t = some p → p.kind = .failover → v.crashed = true)
    (hreply : reply t = true → (v.waiting = true ∨ v.crashed = true) ∧ st.mergeReply t = true)
    (hother : ∀ t', t' ≠ t → reply t' = st.mergeReply t')
    (hdone : st.failoverDone t = true → v.crashed = true) :
    Inv cfg { st with mergeReply := reply } (update K t { K t with view := v }) C ρ := by
  have hK : ∀ t', t' ≠ t → update K t { K t with view := v } t' = K t' := fun t' ht' =>
    update_of_ne ht' _ _
  have hle : ∀ b, owedTo (update K t { K t with view := v }) b ≤ owedTo K b := by
    intro b
    refine Finset.card_le_card fun t' ht' => ?_
    simp only [Finset.mem_filter, Finset.mem_univ, true_and] at ht' ⊢
    by_cases hx : t' = t
    · subst hx
      rw [update_self] at ht'
      obtain ⟨⟨p, off⟩, ho, hb⟩ := Option.map_eq_some_iff.mp ht'
      obtain ⟨⟨off', ho'⟩, -⟩ := howed p off ho
      rw [ho', Option.map_some]
      exact congrArg some hb
    · rwa [hK t' hx] at ht'
  have hinst : ∀ t' o, (K t').installed o = true →
      (update K t { K t with view := v } t').installed o = true := by
    intro t' o ho
    by_cases ht' : t' = t
    · subst ht'
      rw [update_self]
      simp only [KnCore.installed, Bool.or_eq_true, decide_eq_true_eq, or_assoc] at ho ⊢
      exact ho.imp_right hins
    · rwa [hK t' ht']
  have hisrel : ∀ b o, st.isReleased K ρ b o = true → isReleased { st with mergeReply := reply }
      (update K t { K t with view := v }) ρ b o = true := by
    intro b o ho
    unfold isReleased at ho ⊢
    cases hb : ρ b with
    | repl t' =>
      simp only [hb] at ho ⊢
      exact hinst t' o ho
    | _ =>
      simp only [hb] at ho ⊢
      try exact ho
  have hrel : ∀ b, st.released K ρ b ≤ released { st with mergeReply := reply }
      (update K t { K t with view := v }) ρ b := fun b =>
    writesIn_mono fun o _ ho => hisrel b o ho
  have hlog : LogInv cfg { st with mergeReply := reply } (C t) ρ t { K t with view := v } := by
    have hd : ∀ a ∈ C t, (st.mem a).SameData (st.mem a) := fun _ _ => .of_eq rfl
    refine ⟨hthread.congr (h.chain t) (fun _ _ => rfl) (fun _ _ => .of_eq rfl) rfl,
      (h.chain t).congr (fun _ => Iff.rfl) hd rfl, fun p hp => ?_, fun p hp hk => (hrequest p hp hk).2,
      fun hx => ?_, fun hx => ?_⟩
    · exact ⟨((h.log t).pass p hp).pos.congr hd, fun hk => (hrequest p hp hk).1, hfail p hp⟩
    · obtain ⟨hv, hr⟩ := hreply hx
      exact ⟨hv, ((h.log t).reply hr).2.congr hd⟩
    · exact ⟨hdone hx, ((h.log t).failover hx).2.congr hd⟩
  have hsame : ∀ t', t' ≠ t → SameFor t' st { st with mergeReply := reply } ρ ρ := fun t' ht' =>
    ⟨fun _ _ => rfl, fun _ _ => .of_eq rfl, rfl, rfl, hother t' ht', rfl⟩
  have hlogs := LogInv.update h.log hsame hlog
  rw [update_eq_self] at hlogs
  have hcounted : Counted st { st with mergeReply := reply } none :=
    ⟨rfl, rfl, fun _ => .of_eq rfl, fun _ _ => rfl, fun _ => rfl⟩
  have hindex : IndexInv { st with mergeReply := reply } (update K t { K t with view := v }) ρ :=
    { h.index with
      ref := fun key p h0 hx => by
        obtain ⟨o, ho, hoff, hkey, hw, hm⟩ := h.index.ref key p h0 hx
        exact ⟨o, ho, hoff, hkey, hw, hisrel _ o hm⟩ }
  refine { h.counted hcounted (by simp) (fun t' p b hp hb => ?_) h.check_unique hindex (fun t' p off ho => ?_)
    (fun b => ?_) with log := hlogs }
  · exact hcounted.checkOk h.toPoolInv (h.check t' p b hp hb) (by simp)
  · by_cases ht' : t' = t
    · subst ht'
      rw [update_self] at ho
      obtain ⟨⟨off', ho'⟩, hn⟩ := howed p off ho
      exact ⟨(h.owed t' p off' ho').1, hn⟩
    · rw [hK t' ht'] at ho
      exact h.owed t' p off ho
  · exact Nat.add_le_add (Nat.add_le_add_left (hle b) _) (hrel b)

omit [DecidableEq Tid] in
/-- Nothing in the index refers to a block of the queue, and no replicated write is about to count one
of its oplogs. -/
theorem Inv.queue_unreferenced (h : Inv cfg st K C ρ) (ha : a ∈ st.reservedAllocQueue) :
    st.refs a = 0 ∧ owedTo K a = 0 := by
  have h₁ := h.acct a
  have h₂ := h.dead a ha
  omega

omit [DecidableEq Tid] in
/-- A block the index refers to has a counted reference. -/
theorem Inv.refs_pos (h : Inv cfg st K C ρ) {k : Key} (hk : k ≠ 0) (hr : st.resolve k = some p) :
    0 < st.refs p.block := by
  obtain ⟨o, ho, hoff, hkey, -⟩ := h.index.ref k p hk hr
  refine countP_pos_iff.mpr ⟨o, ho, ?_⟩
  simp only [decide_eq_true_eq, hkey, hoff]
  exact hr

omit [DecidableEq Tid] in
/-- A replicated write that still has to count an oplog is counted in its block. -/
theorem owedTo_pos {off : Option ℕ} (ho : (K t).view.owed = some (p, off)) :
    0 < owedTo K p.block := by
  refine Finset.card_pos.mpr ⟨t, ?_⟩
  simp [ho]

omit [DecidableEq Tid] in
/-- A block handed out was queued or new. -/
theorem Inv.handedOut_cases (h : Inv cfg st K C ρ) (hfresh : st.Fresh n fresh) (ha : a ∈ st.handedOut n fresh) :
    a ∈ st.reservedAllocQueue ∨ (a ∉ st.allocated ∧ ρ a = .unowned) := by
  obtain ⟨-, -, hnew⟩ := hfresh
  rcases mem_append.mp ha with ha | ha
  · exact Or.inl (mem_of_mem_take ha)
  · refine Or.inr ⟨(hnew a ha).2, ?_⟩
    by_contra hr
    exact (hnew a ha).2 (h.allocated a hr)

omit [DecidableEq Tid] in
/-- No thread owned a block handed out. -/
theorem Inv.handedOut_ownerless (h : Inv cfg st K C ρ) (hfresh : st.Fresh n fresh)
    (ha : a ∈ st.handedOut n fresh) : (ρ a).owner = none := by
  rcases h.handedOut_cases hfresh ha with hq | ⟨-, hu⟩
  · rw [(h.queued a).mp hq, Role.owner]
  · rw [hu, Role.owner]

omit [DecidableEq Tid] in
/-- The index refers to no block handed out. -/
theorem Inv.resolve_notMem_handedOut (h : Inv cfg st K C ρ)
    (hfresh : st.Fresh n fresh) {k : Key} (hk : k ≠ 0) (hr : st.resolve k = some p) :
    p.block ∉ st.handedOut n fresh := by
  intro hp
  rcases h.handedOut_cases hfresh hp with hq | ⟨hna, -⟩
  · have := h.refs_pos hk hr
    have := (h.queue_unreferenced hq).1
    omega
  · obtain ⟨o, ho, -⟩ := h.index.ref k p hk hr
    rw [(h.block _).unalloc hna] at ho
    cases ho

/-- A storage manager hands blocks out to a waiting thread. -/
theorem Inv.serve (h : Inv cfg st K C ρ) (hstill : (K t).view.Still) (hfresh : st.Fresh n fresh) :
    Inv cfg (st.preallocate n fresh) (update K t { K t with raddrs := st.handedOut n fresh }) C
      (fun a => if a ∈ st.handedOut n fresh then .prealloc t else ρ a) := by
  have ⟨_, hnodup, hnew⟩ := hfresh
  have ht := h.thread t
  have hqueue : ∀ b ∈ st.reservedAllocQueue, b ∈ st.allocated := fun b hb =>
    h.allocated b (by simp [(h.queued b).mp hb])
  have hmem : ∀ a, a ∉ st.handedOut n fresh → (st.preallocate n fresh).mem a = st.mem a := fun a ha => by
    simp [preallocate, ha]
  have hzero : ∀ a, a ∈ st.handedOut n fresh → (st.preallocate n fresh).mem a = .zero := fun a ha => by
    simp [preallocate, ha]
  have hnot : ∀ {a t'}, (ρ a).owner = some t' → a ∉ st.handedOut n fresh := fun {a t'} ha hx => by
    rw [h.handedOut_ownerless hfresh hx] at ha
    cases ha
  have hchain : ∀ t', ∀ b ∈ C t', b ∉ st.handedOut n fresh := fun t' b hb =>
    hnot (by rw [((h.chain t').mem_iff b).mp hb, Role.owner])
  have hd : ∀ b ∈ C t, (st.mem b).SameData ((st.preallocate n fresh).mem b) := fun b hb =>
    .of_eq (hmem b (hchain t b hb))
  have howedOut : ∀ t' p off, (K t').view.owed = some (p, off) → p.block ∉ st.handedOut n fresh := by
    intro t' p off ho hp
    rcases h.handedOut_cases hfresh hp with hq | ⟨hna, -⟩
    · have := owedTo_pos ho
      have := (h.queue_unreferenced hq).2
      omega
    · obtain ⟨⟨o, ho', -⟩, -⟩ := h.owed t' p off ho
      rw [(h.block _).unalloc hna] at ho'
      cases ho'
  have hcompared : ∀ t' p b, st.progressTable t' = some p → p.check = some b → b ∉ st.handedOut n fresh := by
    intro t' p b hp hb hx
    have hc := h.check t' p b hp hb
    rcases h.handedOut_cases hfresh hx with hq | ⟨hna, -⟩
    · rcases hc.used with hy | ⟨_, hy⟩ | ⟨_, hy⟩ <;> · rw [(h.queued b).mp hq] at hy; cases hy
    · exact hna hc.alloc
  have howed := update_congr K t { K t with raddrs := st.handedOut n fresh } (fun k : KnCore V => k.view.owed) rfl
  have hins := update_congr K t { K t with raddrs := st.handedOut n fresh } KnCore.installed rfl
  generalize hρ' : (fun a => if a ∈ st.handedOut n fresh then Role.prealloc t else ρ a) = ρ'
  have hin : ∀ a ∈ st.handedOut n fresh, ρ' a = .prealloc t := fun a ha => by rw [← hρ']; exact if_pos ha
  have hout : ∀ a, a ∉ st.handedOut n fresh → ρ' a = ρ a := fun a ha => by rw [← hρ']; exact if_neg ha
  have hsame : ∀ t', t' ≠ t → SameFor t' st (st.preallocate n fresh) ρ ρ' := by
    intro t' ht'
    refine ⟨fun a ha => hout a ?_, fun a ha => .of_eq (hmem a (hnot ha)), rfl, rfl, rfl, rfl⟩
    rcases ha with ha | ha
    · exact hnot ha
    · intro hx
      rw [hin a hx, Role.owner] at ha
      exact ht' (Option.some.inj ha).symm
  have hdrop : ∀ b ∈ st.reservedAllocQueue.drop n, b ∈ st.reservedAllocQueue ∧ b ∉ st.handedOut n fresh := by
    intro b hb
    have hq := mem_of_mem_drop hb
    refine ⟨hq, fun hx => ?_⟩
    rcases mem_append.mp hx with hx | hx
    · exact disjoint_take_drop h.nodup_queue (le_refl n) hx hb
    · exact (hnew b hx).2 (hqueue b hq)
  have halloc : ∀ b ∈ st.handedOut n fresh, b ∈ (st.preallocate n fresh).allocated := by
    intro b hb
    rcases mem_append.mp hb with hy | hy
    · exact mem_append_right _ (hqueue b (mem_of_mem_take hy))
    · exact mem_append_left _ hy
  have hmpos : ∀ t' b, b ∉ st.handedOut n fresh → (st.preallocate n fresh).mpos t' b = st.mpos t' b :=
    fun t' b hb => mpos_congr rfl (by rw [hmem b hb])
  have hreleased : ∀ b, b ∉ st.handedOut n fresh → released (st.preallocate n fresh)
      (update K t { K t with raddrs := st.handedOut n fresh }) ρ' b = st.released K ρ b := fun b hb =>
    released_congr (hout b hb) (by rw [hmem b hb]) (fun t' _ => hmpos t' b hb) fun t' o _ => congrFun (hins t') o
  have hthread : ThreadInv cfg (st.preallocate n fresh) (C t) ρ' t { K t with raddrs := st.handedOut n fresh } := by
    refine ht.still rfl hstill hstill hd (fun a ha _ => hin a ha) ?_ (fun hr => ?_) (fun a ha => ?_) (fun hr => ?_) ht.inflight
    · refine List.Nodup.filter _ (nodup_append.mpr ⟨h.nodup_queue.sublist (take_sublist n _), hnodup, ?_⟩)
      rintro a ha b hb rfl
      exact (hnew a hb).2 (hqueue a (mem_of_mem_take ha))
    · exact (hout _ (hnot (by rw [ht.repl hr, Role.owner]))).trans (ht.repl hr)
    · refine ht.repl_only a ((hout a fun hx => ?_).symm.trans ha)
      rw [hin a hx] at ha
      cases ha
    · have hro := ht.replOk hr
      change ReplOk ((st.preallocate n fresh).mem (K t).replAlloc) _
      rw [hmem _ (hnot (by rw [ht.repl hr, Role.owner]))]
      exact ⟨hro.buffer, hro.writes⟩
  have hchain' : ChainInv (st.preallocate n fresh) (C t) ρ' t := by
    refine (h.chain t).congr (fun a => ?_) hd rfl
    by_cases hx : a ∈ st.handedOut n fresh
    · rw [hin a hx]
      exact iff_of_false (fun hy => hnot (by rw [hy, Role.owner]) hx) (by simp)
    · rw [hout a hx]
  have hlogs := LogInv.update h.log hsame ((h.log t).step hstill.waiting hstill.crashed rfl rfl rfl hthread hchain'
    fun p _ hp => hp.congr hd)
  rw [update_eq_self] at hlogs
  refine
    { log := hlogs
      check := fun t' p b hp hb => ?_
      check_unique := fun t₁ t₂ p₁ p₂ b h₁ h₂ hb₁ hb₂ hall =>
        h.check_unique t₁ t₂ p₁ p₂ b h₁ h₂ hb₁ hb₂ (hmem b (hcompared t₁ p₁ b h₁ hb₁) ▸ hall)
      block := fun b => ?_
      allocated := fun b hb => ?_
      zero_allocated := ?_
      queued := fun b => ?_
      nodup_queue := h.nodup_queue.sublist (drop_sublist n _)
      index :=
        { h.index with
          cell_alloc := fun k c hk hc => mem_append_right _ (h.index.cell_alloc k c hk hc)
          ref := fun k p hk hr => ?_ }
      owed := fun t' p off ho => ?_
      acct := fun b => ?_
      dead := fun b hb => ?_ }
  · have hc := h.check t' p b hp hb
    have hnot := hcompared t' p b hp hb
    exact hc.congr (hout b hnot) (hmem b hnot) (mem_append_right _ hc.alloc)
  · by_cases hb : b ∈ st.handedOut n fresh
    · have hz := hzero b hb
      exact .of_role (hin b hb) (halloc b hb) (by rw [hz]; exact aligned_nil) (by simp [hz, zero]) hz
    · exact (h.block b).congr (hout b hb) (hmem b hb) (mem_append_right _)
  · by_cases hx : b ∈ st.handedOut n fresh
    · exact halloc b hx
    · rw [hout b hx] at hb
      exact mem_append_right _ (h.allocated b hb)
  · intro hx
    rcases mem_append.mp hx with hy | hy
    · exact (hnew 0 hy).1 rfl
    · exact h.zero_allocated hy
  · by_cases hb : b ∈ st.handedOut n fresh
    · rw [hin b hb]
      exact iff_of_false (fun hx => (hdrop b hx).2 hb) (by simp)
    · rw [hout b hb, ← h.queued b]
      refine ⟨mem_of_mem_drop, fun hx => ?_⟩
      rw [← take_append_drop n st.reservedAllocQueue] at hx
      exact (mem_append.mp hx).resolve_left fun hy => hb (mem_append_left _ hy)
  · have hr' : st.resolve k = some p := hr
    have hnot := h.resolve_notMem_handedOut hfresh hk hr'
    obtain ⟨o, ho, hoff, hkey, hw, hm⟩ := h.index.ref k p hk hr'
    refine ⟨o, by rw [hmem _ hnot]; exact ho, hoff, hkey, hw, ?_⟩
    rwa [isReleased_congr (hout _ hnot) (fun t' _ => hmpos t' _ hnot) fun t' o _ => congrFun (hins t') o]
  · have ho' := (howed t').symm.trans ho
    have := h.owed t' p off ho'
    rwa [hmem _ (howedOut t' p off ho')]
  · rw [owedTo_congr howed]
    by_cases hb : b ∈ st.handedOut n fresh
    · have hno : owedTo K b = 0 := by
        refine Nat.eq_zero_of_not_pos fun hpos => ?_
        obtain ⟨t', ht'⟩ := Finset.card_pos.mp hpos
        simp only [Finset.mem_filter, Finset.mem_univ, true_and] at ht'
        obtain ⟨⟨p, off⟩, ho, hpb⟩ := Option.map_eq_some_iff.mp ht'
        exact howedOut t' p off ho (by rw [hpb]; exact hb)
      simp [hno, refs, hzero b hb, zero]
    · have hrefs : (st.preallocate n fresh).refs b = st.refs b := by
        rw [refs, hmem b hb]
        rfl
      rw [hreleased b hb, hrefs, hmem b hb]
      exact h.acct b
  · obtain ⟨hq, hnot⟩ := hdrop b hb
    rw [hreleased b hnot, hmem b hnot]
    exact h.dead b hq

end

end Dinomo
