import Dinomo.Invariant.Indirect

/-!
# The passes of the storage side keep the invariant

The lock of a log is taken, its chain is walked to the end, blocks are cut off once they are merged,
blocks without live entries are pushed to the queue, and the lock is released.
-/

namespace Dinomo

open Chain Function Storage List Option

variable {Tid V : Type*} {cfg : Config} {st : Storage Tid V} {K : Tid → KnCore V} {C : Tid → List Addr}
  {ρ : Addr → Role Tid} {t : Tid} {p : Pass}

/-- The merge position of the block a pass is in. -/
theorem Storage.mpos_scan (hp : st.progressTable t = some p) (hphase : p.phase = .scan) :
    st.mpos t p.next = p.offset := by
  simp [mpos, hp, hphase]

/-- The merge position of any other block. -/
theorem Storage.mpos_of_ne (hp : st.progressTable t = some p) {a : Addr} (ha : p.phase = .scan → p.next ≠ a) :
    st.mpos t a = (st.mem a).mergedOffset := by
  simp only [mpos, hp]
  rw [if_neg]
  exact fun hx => ha hx.1 hx.2

/-- Without a pass, or before it is in a block, the merge position is in the header. -/
theorem Storage.mpos_none (hp : st.progressTable t = none) (a : Addr) :
    st.mpos t a = (st.mem a).mergedOffset := by
  simp [mpos, hp]

/-- The pass of a log after it was set. -/
@[simp] theorem Storage.setPass_self [DecidableEq Tid] (q : Option Pass) :
    (st.setPass t q).progressTable t = q := update_self _ _ _

/-- The passes of the other logs. -/
theorem Storage.setPass_of_ne [DecidableEq Tid] {t' : Tid} (ht' : t' ≠ t) (q : Option Pass) :
    (st.setPass t q).progressTable t' = st.progressTable t' := update_of_ne ht' _ _

/-- A pass that has merged nothing yet does not move the merge positions. -/
theorem Storage.mpos_setPass [DecidableEq Tid] {q : Pass}
    (hq : q.phase = .scan → q.offset = (st.mem q.next).mergedOffset) (a : Addr) :
    (st.setPass t (some q)).mpos t a = (st.mem a).mergedOffset := by
  simp only [mpos, setPass, update_self]
  split_ifs with h
  · rw [hq h.1, h.2]
  · rfl

/-- A pass over the blocks of a log is at the newest of them when its work stack is empty. -/
theorem scan_first_iff {pre ws : List Addr} {next first : Addr} (hnodup : (pre ++ (ws.reverse ++ [next])).Nodup)
    (hhead : (ws.reverse ++ [next]).head? = some first) : next = first ↔ ws = [] := by
  refine ⟨fun heq => ?_, fun hws => ?_⟩
  · by_contra hws
    obtain ⟨a, l, hl⟩ := exists_cons_of_ne_nil (reverse_ne_nil_iff.mpr hws)
    rw [hl, cons_append, List.head?_cons, some.injEq] at hhead
    rw [hl, heq, ← hhead, cons_append] at hnodup
    exact (nodup_cons.mp (nodup_append.mp hnodup).2.1).1 (by simp)
  · rw [hws] at hhead
    exact some.inj hhead

/-- What finishing the newest block of a log does. -/
theorem Storage.finishBlock_head [DecidableEq Tid] (st : Storage Tid V) (hfirst : p.next = p.first)
    (hprev : p.prev = 0) : ∃ q : Pass,
      { st with
        mem := (st.finishBlock t p).mem
        progressTable := update st.progressTable t (some q) } = st.finishBlock t p ∧
      (∀ b, b ≠ p.next → (st.finishBlock t p).mem b = st.mem b) ∧
      (st.finishBlock t p).mem p.next = { st.mem p.next with mergedOffset := (st.mem p.next).offset } ∧
      q.phase = .stop ∧ q.kind = p.kind ∧ q.check = none := by
  have hmem : (st.finishBlock t p).mem =
      update st.mem p.next { st.mem p.next with mergedOffset := (st.mem p.next).offset } := by
    rw [finishBlock, if_pos hfirst]
    rfl
  refine ⟨(st.modBlock p.next fun b => { b with mergedOffset := b.offset }).passAfter p, ?_, fun b hb => ?_, ?_,
    if_pos (Or.inl hprev), rfl, if_pos hfirst⟩
  · rw [hmem, finishBlock, if_pos hfirst]
    rfl
  · rw [hmem, update_of_ne hb]
  · rw [hmem, update_self]

/-- What finishing an older block of a log does. -/
theorem Storage.finishBlock_cut [DecidableEq Tid] (st : Storage Tid V) (hfirst : p.next ≠ p.first)
    (hprev : p.prev ≠ 0) (hne : p.prev ≠ p.next) : ∃ q : Pass,
      { st with
        mem := (st.finishBlock t p).mem
        progressTable := update st.progressTable t (some q) } = st.finishBlock t p ∧
      (∀ b, b ≠ p.next → b ≠ p.prev → (st.finishBlock t p).mem b = st.mem b) ∧
      (st.finishBlock t p).mem p.next = { st.mem p.next with mergedOffset := (st.mem p.next).offset } ∧
      (st.finishBlock t p).mem p.prev = { st.mem p.prev with next := 0 } ∧
      q = { p with
        phase := if p.kind = .worker ∧ p.prev = p.first then .stop else .scan
        next := p.prev
        prev := if p.prev = p.first then 0 else p.workStack.tail.head?.getD 0
        workStack := p.workStack.tail
        offset := (st.mem p.prev).mergedOffset
        check := some p.next } := by
  have hmem : (st.finishBlock t p).mem = update
      (update st.mem p.next { st.mem p.next with mergedOffset := (st.mem p.next).offset })
      p.prev { st.mem p.prev with next := 0 } := by
    rw [finishBlock, if_neg hfirst]
    simp [modBlock, setPass, hne]
  refine ⟨_, ?_, fun b hb hb' => ?_, ?_, ?_, rfl⟩
  · rw [hmem, finishBlock, if_neg hfirst]
    simp [modBlock, setPass, passAfter, hne, hprev, hfirst]
  · rw [hmem, update_of_ne hb', update_of_ne hb]
  · rw [hmem, update_of_ne (Ne.symm hne), update_self]
  · rw [hmem, update_self]

/-- The facts about a thread when a pass changes headers in its log and takes blocks out behind the
newest one. -/
theorem ThreadInv.settle {st' : Storage Tid V} {c c' : List Addr} {ρ' : Addr → Role Tid} {k : KnCore V}
    (h : ThreadInv cfg st c ρ t k) (hhead : ∀ a, c.head? = some a → c'.head? = some a) (hsub : ∀ a ∈ c', a ∈ c)
    (hdata : ∀ a, (st'.mem a).buffer = (st.mem a).buffer ∧ (st'.mem a).offset = (st.mem a).offset)
    (hkeep : ∀ a, ρ a ≠ .chain t → ρ' a = ρ a ∧ st'.mem a = st.mem a)
    (hcut : ∀ a, ρ a = .chain t → ρ' a = .chain t ∨ ρ' a = .unowned)
    (hslot : st'.logMappingTable t = st.logMappingTable t) : ThreadInv cfg st' c' ρ' t k := by
  have hrole : ∀ {a : Addr} {r : Role Tid}, ρ a = r → r ≠ .chain t → ρ' a = r ∧ st'.mem a = st.mem a :=
    fun {a r} ha hr =>
      have hk := hkeep a (ha ▸ hr)
      ⟨hk.1.trans ha, hk.2⟩
  refine
    { raddrs := fun a ha h0 => (hrole (h.raddrs a ha h0) nofun).1
      nodup_raddrs := h.nodup_raddrs
      linking := fun hl => (hrole (h.linking hl) nofun).1
      slotNext := fun hp => ?_
      live := fun hl => hhead _ (h.live hl)
      liveOk := fun hl => (h.liveOk hl).congr (hdata _).1 (hdata _).2
      reset := h.reset
      complete := fun h1 h2 a ha => ?_
      poolCounters := h.poolCounters
      repl := fun hr => (hrole (h.repl hr) nofun).1
      repl_only := fun a ha => h.repl_only a ?_
      replOk := fun hr => ?_
      inflight := h.inflight
      sentLive := h.sentLive
      publishedLive := h.publishedLive }
  · obtain ⟨hl, hn⟩ := h.slotNext hp
    exact ⟨hl, by rw [(hrole (h.linking hl) nofun).2, hslot, hn]⟩
  · rw [(hdata a).1, (hdata a).2]
    exact h.complete h1 h2 a (hsub a ha)
  · by_cases hc : ρ a = .chain t
    · rcases hcut a hc with hx | hx <;> · rw [hx] at ha; cases ha
    · rw [← (hkeep a hc).1]
      exact ha
  · have hro := h.replOk hr
    exact ⟨by rw [(hdata _).1]; exact hro.buffer, by rw [(hdata _).1]; exact hro.writes⟩

section Rules

variable [DecidableEq Tid] [Fintype Tid]

/-- The pass over a log moves on without touching a block. -/
theorem Inv.passMove (h : Inv cfg st K C ρ) {q : Option Pass} {reply done : Tid → Bool}
    (hmpos : ∀ a ∈ C t, mpos { st with
      progressTable := update st.progressTable t q, mergeReply := reply, failoverDone := done } t a =
        st.mpos t a)
    (hpass : ∀ p', q = some p' → PassInv st (C t) (K t) p' ∧ (p'.kind = .request → reply t = false))
    (hcheck : ∀ p' a, q = some p' → p'.check = some a → ∃ p, st.progressTable t = some p ∧ p.check = some a)
    (hreply : reply t = true → ((K t).view.waiting = true ∨ (K t).view.crashed = true) ∧ Drained st (C t))
    (hdone : done t = true → (K t).view.crashed = true ∧ Drained st (C t))
    (hother : ∀ t', t' ≠ t → reply t' = st.mergeReply t' ∧ done t' = st.failoverDone t') :
    Inv cfg { st with
      progressTable := update st.progressTable t q, mergeReply := reply, failoverDone := done }
      K C ρ := by
  generalize hst' : ({ st with
    progressTable := update st.progressTable t q, mergeReply := reply, failoverDone := done } :
      Storage Tid V) = st' at *
  have hmem : st'.mem = st.mem := by rw [← hst']
  have hprog : st'.progressTable t = q := by rw [← hst']; exact update_self _ _ _
  have hprog' : ∀ t', t' ≠ t → st'.progressTable t' = st.progressTable t' := fun t' ht' => by
    rw [← hst']
    exact update_of_ne ht' _ _
  have hd : ∀ a, (st.mem a).SameData (st'.mem a) := fun a => .of_eq (by rw [hmem])
  have hsame : ∀ t', t' ≠ t → SameFor t' st st' ρ ρ := fun t' ht' =>
    ⟨fun _ _ => rfl, fun a _ => hd a, by rw [← hst'], hprog' t' ht', by rw [← hst']; exact (hother t' ht').1,
      by rw [← hst']; exact (hother t' ht').2⟩
  have hck : ∀ t' p' a, st'.progressTable t' = some p' → p'.check = some a →
      ∃ p, st.progressTable t' = some p ∧ p.check = some a := by
    intro t' p' a hp' ha
    by_cases ht' : t' = t
    · subst ht'
      exact hcheck p' a (hprog ▸ hp') ha
    · exact ⟨p', (hprog' t' ht') ▸ hp', ha⟩
  have hisrel : ∀ a o, st'.isReleased K ρ a o = st.isReleased K ρ a o := by
    intro a
    refine isReleased_congr rfl (fun t' hr => ?_) fun _ _ _ => rfl
    by_cases ht' : t' = t
    · subst ht'
      exact hmpos a (((h.chain t').mem_iff a).mpr hr)
    · exact mpos_congr (hprog' t' ht') (by rw [hmem])
  have hlog : LogInv cfg st' (C t) ρ t (K t) := by
    have hslot : st'.logMappingTable t = st.logMappingTable t := by rw [← hst']
    refine ⟨(h.thread t).congr (h.chain t) (fun _ _ => rfl) (fun a _ => hd a) hslot,
      (h.chain t).congr (fun _ => Iff.rfl) (fun a _ => hd a) hslot, fun p' hp' => ?_, fun p' hp' hk => ?_,
      fun hr => ?_, fun hr => ?_⟩
    · have hpi := (hpass p' (hprog ▸ hp')).1
      exact ⟨hpi.pos.congr fun a _ => hd a, hpi.request, hpi.failover⟩
    · rw [← hst']
      exact (hpass p' (hprog ▸ hp')).2 hk
    · have := hreply (by rw [← hst'] at hr; exact hr)
      exact ⟨this.1, this.2.congr fun a _ => hd a⟩
    · have := hdone (by rw [← hst'] at hr; exact hr)
      exact ⟨this.1, this.2.congr fun a _ => hd a⟩
  have hpool : SamePool st st' K K ρ ρ := by
    refine ⟨?_, ?_, ?_, ?_, fun b => by rw [hmem], fun b => by rw [hmem]; exact ⟨rfl, rfl⟩, fun b o _ => hisrel b o,
      fun _ => rfl, fun _ => Iff.rfl, fun _ hb => hb⟩ <;> rw [← hst']
  refine { h.keep hpool (fun a => ?_) (fun t' p' a hp' ha => ?_) (fun t₁ t₂ p₁ p₂ a h₁ h₂ ha₁ ha₂ hall => ?_) with
    log := fun t' => ?_ }
  · exact (h.block a).congr rfl (by rw [hmem]) (by rw [hpool.allocated]; exact id)
  · obtain ⟨p, hp, hpa⟩ := hck t' p' a hp' ha
    have hc := h.check t' p a hp hpa
    exact hc.congr rfl (by rw [hmem]) (by rw [hpool.allocated]; exact hc.alloc)
  · obtain ⟨q₁, hq₁, hqa₁⟩ := hck t₁ p₁ a h₁ ha₁
    obtain ⟨q₂, hq₂, hqa₂⟩ := hck t₂ p₂ a h₂ ha₂
    exact h.check_unique t₁ t₂ q₁ q₂ a hq₁ hq₂ hqa₁ hqa₂ (hmem ▸ hall)
  · by_cases ht' : t' = t
    · rw [ht']
      exact hlog
    · exact (h.log t').frame (hsame t' ht')

/-- A pass unlocks its log and answers the request that asked for it. -/
theorem Inv.finishPass (h : Inv cfg st K C ρ) {kind : PassKind} (hdrained : kind ≠ .worker → Drained st (C t))
    (hrequest : kind = .request → (K t).view.waiting = true ∨ (K t).view.crashed = true)
    (hfailover : kind = .failover → (K t).view.crashed = true)
    (hmpos : ∀ a ∈ C t, st.mpos t a = (st.mem a).mergedOffset) : Inv cfg (st.finishPass t kind) K C ρ := by
  have hmpos' : ∀ reply done, ∀ a ∈ C t, mpos { st with
      progressTable := update st.progressTable t none, mergeReply := reply, failoverDone := done } t a =
        st.mpos t a := fun reply done a ha =>
    (mpos_none (update_self _ _ _) a).trans (hmpos a ha).symm
  cases kind with
  | worker =>
    exact h.passMove (hmpos' _ _) nofun nofun (h.log t).reply (h.log t).failover fun _ _ => ⟨rfl, rfl⟩
  | request =>
    exact h.passMove (hmpos' _ _) nofun nofun (fun _ => ⟨hrequest rfl, hdrained nofun⟩) (h.log t).failover
      fun t' ht' => ⟨update_of_ne ht' _ _, rfl⟩
  | failover =>
    exact h.passMove (hmpos' _ _) nofun nofun (h.log t).reply (fun _ => ⟨hfailover rfl, hdrained nofun⟩)
      fun t' ht' => ⟨rfl, update_of_ne ht' _ _⟩

/-- A pass of a given kind enters a log. -/
theorem Inv.enterPass (h : Inv cfg st K C ρ) {q : Pass} (hpos : PassPos st (C t) q)
    (hrequest : q.kind = .request →
      ((K t).view.waiting = true ∨ (K t).view.crashed = true) ∧ st.mergeReply t = false)
    (hfailover : q.kind = .failover → (K t).view.crashed = true)
    (hmpos : ∀ a ∈ C t, (st.setPass t (some q)).mpos t a = st.mpos t a)
    (hcheck : ∀ a, q.check = some a → ∃ p, st.progressTable t = some p ∧ p.check = some a) :
    Inv cfg (st.setPass t (some q)) K C ρ := by
  refine h.passMove hmpos (fun p' hp' => ?_) (fun p' a hp' => ?_) (h.log t).reply (h.log t).failover
    fun _ _ => ⟨rfl, rfl⟩
  · cases hp'
    exact ⟨⟨hpos, fun hk => (hrequest hk).1, hfailover⟩, fun hk => (hrequest hk).2⟩
  · cases hp'
    exact hcheck a

/-- A pass starts. -/
theorem Inv.beginPass (h : Inv cfg st K C ρ) {kind : PassKind}
    (hrequest : kind = .request →
      ((K t).view.waiting = true ∨ (K t).view.crashed = true) ∧ st.mergeReply t = false)
    (hfailover : kind = .failover → (K t).view.crashed = true) {st' : Storage Tid V}
    (hst' : st.beginPass t kind = some st') : Inv cfg st' K C ρ := by
  unfold Storage.beginPass at hst'
  cases hprog : st.progressTable t with
  | some q => simp [hprog] at hst'
  | none =>
    simp only [hprog] at hst'
    have hmpos : ∀ a, st.mpos t a = (st.mem a).mergedOffset := mpos_none hprog
    have hlinks := (h.chain t).links
    by_cases h0 : st.logMappingTable t = 0
    · rw [if_pos h0] at hst'
      split_ifs at hst' with hk
      cases hst'
      refine h.finishPass (fun _ => ?_) (fun hk => (hrequest hk).1) hfailover fun a _ => hmpos a
      rw [hlinks.eq_nil h0]
      exact ⟨Nat.zero_le _, nofun⟩
    · rw [if_neg h0] at hst'
      obtain ⟨rest, hC, hafter⟩ := hlinks.exists_cons h0
      have hfirst := (h.chain t).block (st.logMappingTable t) (by rw [hC]; exact mem_cons_self)
      split_ifs at hst' with hn hk
      · -- one block: a manager merges the head at once
        cases hst'
        refine h.enterPass ⟨[], by rw [hC, hafter.eq_nil hn]; rfl, rfl, rfl, fun hx => absurd hx hk, fun _ => rfl, hfirst.merged,
          le_rfl, hfirst.merged_le⟩ hrequest hfailover (fun a _ => ?_) nofun
        rw [hmpos, mpos_setPass fun _ => rfl]
      · -- a longer chain is walked first
        cases hst'
        obtain ⟨rest', hrest, -⟩ := hafter.exists_cons hn
        refine h.enterPass ⟨[], rest', by rw [hC, hrest]; rfl, rfl, fun _ => rfl⟩ hrequest hfailover (fun a _ => ?_)
          nofun
        rw [hmpos, mpos_setPass fun hx => by cases hx]

omit [DecidableEq Tid] in
/-- The kind of a running pass does not change, so its request stays open. -/
theorem Inv.pass_open (h : Inv cfg st K C ρ) (hp : st.progressTable t = some p) :
    (p.kind = .request → ((K t).view.waiting = true ∨ (K t).view.crashed = true) ∧ st.mergeReply t = false) ∧
      (p.kind = .failover → (K t).view.crashed = true) :=
  have hpass := (h.log t).pass p hp
  ⟨fun hk => ⟨hpass.request hk, (h.log t).request_open p hp hk⟩, hpass.failover⟩

omit [DecidableEq Tid] in
/-- The log of a pass that moves on. -/
theorem Inv.logInv (h : Inv cfg st K C ρ) (hp : st.progressTable t = some p) {st' : Storage Tid V} {q : Pass}
    {c' : List Addr} {ρ' : Addr → Role Tid} (hq : st'.progressTable t = some q) (hkind : q.kind = p.kind)
    (hreply : st'.mergeReply t = st.mergeReply t) (hdone : st'.failoverDone t = st.failoverDone t)
    (hthread : ThreadInv cfg st' c' ρ' t (K t)) (hchain : ChainInv st' c' ρ' t) (hpos : PassPos st' c' q)
    (hdrained : Drained st (C t) → Drained st' c') : LogInv cfg st' c' ρ' t (K t) := by
  obtain ⟨hrequest, hfailover⟩ := h.pass_open hp
  refine ⟨hthread, hchain, fun p' hp' => ?_, fun p' hp' hk => ?_, fun hr => ?_, fun hr => ?_⟩
  · obtain rfl := some.inj (hq.symm.trans hp')
    exact ⟨hpos, fun hk => (hrequest (hkind ▸ hk)).1, fun hk => hfailover (hkind ▸ hk)⟩
  · obtain rfl := some.inj (hq.symm.trans hp')
    exact hreply.trans (hrequest (hkind ▸ hk)).2
  · exact ((h.log t).reply (hreply ▸ hr)).imp_right hdrained
  · exact ((h.log t).failover (hdone ▸ hr)).imp_right hdrained

/-- A pass walks one block further. -/
theorem Inv.walkStep (h : Inv cfg st K C ρ) (hp : st.progressTable t = some p) (hphase : p.phase = .walk)
    (hcheck : p.check = none) : Inv cfg (st.walkStep t p) K C ρ := by
  have hpos := ((h.log t).pass p hp).pos
  simp only [PassPos, hphase] at hpos
  obtain ⟨pre, rest, hC, hfirst, hpre⟩ := hpos
  obtain ⟨hrequest, hfailover⟩ := h.pass_open hp
  have hmpos : ∀ a, st.mpos t a = (st.mem a).mergedOffset := fun a =>
    mpos_of_ne hp fun hx => by rw [hphase] at hx; cases hx
  have hafter : IsChain (fun a => (st.mem a).next) (st.mem p.next).next rest := by
    have hlinks := (h.chain t).links
    rw [hC, show pre ++ (p.workStack.reverse ++ p.prev :: p.next :: rest) =
      (pre ++ p.workStack.reverse ++ [p.prev]) ++ p.next :: rest by simp] at hlinks
    exact hlinks.after
  unfold Storage.walkStep
  dsimp only
  split_ifs with hn
  · have hrest := hafter.eq_nil hn
    have hblock := (h.chain t).block p.next (by rw [hC]; simp)
    refine h.enterPass ⟨pre, by simp [hC, hrest], ?_, rfl, fun _ => by simp, hpre, hblock.merged, le_rfl,
      hblock.merged_le⟩ hrequest hfailover (fun a _ => ?_) (fun a ha => by rw [hcheck] at ha; cases ha)
    · rw [List.head?_append, reverse_cons, hfirst]
      rfl
    · rw [hmpos, mpos_setPass fun _ => rfl]
  · obtain ⟨rest', hrest, -⟩ := hafter.exists_cons hn
    refine h.enterPass ?_ hrequest hfailover (fun a _ => ?_) (fun a ha => by rw [hcheck] at ha; cases ha)
    · simp only [PassPos, hphase]
      refine ⟨pre, rest', by simp [hC, hrest], ?_, hpre⟩
      rw [List.head?_append, reverse_cons, hfirst]
      rfl
    · rw [hmpos, mpos_setPass fun hx => by rw [hphase] at hx; cases hx]

omit [DecidableEq Tid] in
/-- A block nobody owns, all of whose entries are counted as invalid, is pushed to the queue. -/
theorem Inv.enqueue (h : Inv cfg st K C ρ) {a : Addr} (hrole : ρ a = .unowned) (halloc : a ∈ st.allocated)
    (hdead : writes (st.mem a).buffer ≤ (st.mem a).localInvalidCounter + (st.mem a).globalInvalidCounter)
    (hcheck : ∀ t p, st.progressTable t = some p → p.check ≠ some a) :
    Inv cfg { st with reservedAllocQueue := st.reservedAllocQueue ++ [a] } K C
      (update ρ a .queued) := by
  have hρ : ∀ b, b ≠ a → update ρ a .queued b = ρ b := fun b hb => update_of_ne hb _ _
  have hρa : update ρ a .queued a = .queued := update_self _ _ _
  have hqueue : ∀ b ∈ st.reservedAllocQueue, b ≠ a := by
    rintro b hb rfl
    rw [(h.queued b).mp hb] at hrole
    cases hrole
  have hsame : ∀ t, SameFor t st { st with reservedAllocQueue := st.reservedAllocQueue ++ [a] } ρ
      (update ρ a .queued) := by
    intro t
    refine ⟨fun b hb => hρ b ?_, fun _ _ => .of_eq rfl, rfl, rfl, rfl, rfl⟩
    rintro rfl
    rw [hrole, hρa] at hb
    rcases hb with hb | hb <;> cases hb
  have hisrel : ∀ b o, isReleased { st with reservedAllocQueue := st.reservedAllocQueue ++ [a] } K
      (update ρ a .queued) b o = st.isReleased K ρ b o := by
    intro b o
    by_cases hb : b = a
    · simp [isReleased, hb, hrole]
    · exact isReleased_congr (hρ b hb) (fun _ _ => rfl) (fun _ _ _ => rfl) o
  have hreleased : ∀ b, released { st with reservedAllocQueue := st.reservedAllocQueue ++ [a] } K
      (update ρ a .queued) b = st.released K ρ b := fun b => by
    simp only [released, funext (hisrel b)]
  refine
    { h with
      log := fun t => (h.log t).frame (hsame t)
      check := fun t p b hp hb => ?_
      block := fun b => ?_
      allocated := fun b hb => ?_
      queued := fun b => ?_
      nodup_queue := ?_
      index :=
        { h.index with
          ref := fun k p hk hr => ?_ }
      acct := fun b => by rw [hreleased]; exact h.acct b
      dead := fun b hb => ?_ }
  · have hc := h.check t p b hp hb
    refine hc.congr (hρ b ?_) rfl hc.alloc
    rintro rfl
    exact hcheck t p hp hb
  · by_cases hb : b = a
    · subst hb
      exact .of_role hρa halloc (h.block b).aligned (h.block b).keys trivial
    · exact (h.block b).congr (hρ b hb) rfl id
  · by_cases hba : b = a
    · rw [hba]
      exact halloc
    · rw [hρ b hba] at hb
      exact h.allocated b hb
  · by_cases hb : b = a
    · rw [hb, hρa]
      exact iff_of_true (by simp) rfl
    · rw [hρ b hb, ← h.queued b, mem_append, mem_singleton]
      exact ⟨fun hx => hx.resolve_right hb, Or.inl⟩
  · refine nodup_append.mpr ⟨h.nodup_queue, nodup_singleton a, fun b hb c hc => ?_⟩
    rw [mem_singleton.mp hc]
    exact hqueue b hb
  · obtain ⟨o, ho, hoff, hok, hw, hm⟩ := h.index.ref k p hk hr
    exact ⟨o, ho, hoff, hok, hw, by rw [hisrel]; exact hm⟩
  · rw [hreleased]
    rcases mem_append.mp hb with hb | hb
    · exact h.dead b hb
    · rw [mem_singleton.mp hb]
      refine le_trans ?_ hdead
      exact writesIn_mono fun _ _ _ => rfl

omit [DecidableEq Tid] in
/-- Nothing beyond the published oplogs of a linked block is merged. -/
theorem Inv.mpos_le (h : Inv cfg st K C ρ) {a : Addr} (hr : ρ a = .chain t) :
    st.mpos t a ≤ (st.mem a).offset := by
  have hle := ((h.chain t).block a (((h.chain t).mem_iff a).mpr hr)).merged_le
  cases hp : st.progressTable t with
  | none =>
    rw [mpos_none hp]
    exact hle
  | some p =>
    by_cases hscan : p.phase = .scan ∧ p.next = a
    · obtain ⟨hphase, rfl⟩ := hscan
      have hpos := ((h.log t).pass p hp).pos
      simp only [PassPos, hphase] at hpos
      rw [mpos_scan hp hphase]
      exact hpos.choose_spec.2.2.2.2.2.2.2
    · rw [mpos_of_ne hp fun hphase hx => hscan ⟨hphase, hx⟩]
      exact hle

/-- The counters of a block are compared, and it is pushed to the queue if they agree. -/
theorem Inv.reclaim (h : Inv cfg st K C ρ) (hp : st.progressTable t = some p) {a : Addr}
    (ha : p.check = some a) :
    ∃ ρ', Inv cfg ((st.reclaim a).setPass t (some { p with check := none })) K C ρ' := by
  have hclear : Inv cfg (st.setPass t (some { p with check := none })) K C ρ := by
    obtain ⟨hrequest, hfailover⟩ := h.pass_open hp
    refine h.enterPass ((h.log t).pass p hp).pos hrequest hfailover (fun b _ => ?_) nofun
    simp [mpos, setPass, hp]
  have hc := h.check t p a hp ha
  unfold Storage.reclaim
  split_ifs with hall
  · have hinv : (st.mem a).validCounter = (st.mem a).localInvalidCounter + (st.mem a).globalInvalidCounter := hall
    obtain ⟨hrole, hvalid⟩ := hc.dead (h.block a) hall
    refine ⟨_, hclear.enqueue hrole hc.alloc (hvalid.symm.trans hinv).le fun t' p' hp' hx => ?_⟩
    by_cases ht' : t' = t
    · subst ht'
      rw [setPass_self] at hp'
      cases hp'
      cases hx
    · rw [setPass_of_ne ht'] at hp'
      exact ht' (h.check_unique t' t p' p a hp' hp hx ha hall)
  · exact ⟨ρ, hclear⟩

/-- A pass changes headers of blocks in its log, and may take a complete block out of it that is merged. -/
theorem Inv.settle (h : Inv cfg st K C ρ) (hp : st.progressTable t = some p) {st' : Storage Tid V} {q : Pass}
    {c' : List Addr} {ρ' : Addr → Role Tid}
    (hst' : { st with mem := st'.mem, progressTable := update st.progressTable t (some q) } = st')
    (hmem : ∀ b, st'.mem b =
      { st.mem b with mergedOffset := (st'.mem b).mergedOffset, next := (st'.mem b).next })
    (hother : ∀ b, ρ b ≠ .chain t → st'.mem b = st.mem b)
    (hρ : ∀ b, (ρ' b = ρ b ∧ st'.mpos t b = st.mpos t b) ∨ (ρ b = .chain t ∧ ρ' b = .unowned ∧
      (st.mem b).validCounter = writes (st.mem b).buffer ∧ bytesOf (st.mem b).buffer ≤ st.mpos t b))
    (hcheck : ∀ a, q.check = some a → ρ a = .chain t ∧ ρ' a = .unowned) (hkind : q.kind = p.kind)
    (hthread : ThreadInv cfg st' c' ρ' t (K t)) (hchain : ChainInv st' c' ρ' t) (hpos : PassPos st' c' q)
    (hdrained : Drained st (C t) → Drained st' c') : Inv cfg st' K (update C t c') ρ' := by
  have hbuf : ∀ b, (st'.mem b).buffer = (st.mem b).buffer := fun b => by rw [hmem b]
  have hvalid : ∀ b, (st'.mem b).validCounter = (st.mem b).validCounter := fun b => by rw [hmem b]
  have hinv : ∀ b, (st'.mem b).localInvalidCounter = (st.mem b).localInvalidCounter ∧
      (st'.mem b).globalInvalidCounter = (st.mem b).globalInvalidCounter := fun b => by
    rw [hmem b]
    exact ⟨rfl, rfl⟩
  have hkeep : ∀ b, ρ b ≠ .chain t → ρ' b = ρ b := fun b hb =>
    ((hρ b).resolve_right fun hx => hb hx.1).1
  have hprog : ∀ t', t' ≠ t → st'.progressTable t' = st.progressTable t' := fun t' ht' => by
    rw [← hst']
    exact update_of_ne ht' _ _
  have hsame : ∀ t', t' ≠ t → SameFor t' st st' ρ ρ' := by
    intro t' ht'
    have hne : ∀ b, (ρ b).owner = some t' → ρ b ≠ .chain t := by
      intro b hb hx
      rw [hx, Role.owner] at hb
      exact ht' (some.inj hb).symm
    refine ⟨fun b hb => ?_, fun b hb => .of_eq ?_, by rw [← hst'], hprog t' ht', by rw [← hst'], by rw [← hst']⟩
    · rcases hρ b with ⟨hb', -⟩ | ⟨-, hb', -⟩
      · exact hb'
      · rcases hb with hb | hb
        · exact hkeep b (hne b hb)
        · rw [hb', Role.owner] at hb
          cases hb
    · exact hother b (hne b hb)
  have hq : st'.progressTable t = some q := by rw [← hst']; exact update_self _ _ _
  have hck : ∀ t' p' a, st'.progressTable t' = some p' → p'.check = some a →
      (t' = t ∧ ρ a = .chain t ∧ ρ' a = .unowned) ∨ st.progressTable t' = some p' := by
    intro t' p' a hp' ha
    by_cases ht' : t' = t
    · subst ht'
      obtain rfl := some.inj (hq.symm.trans hp')
      exact Or.inl ⟨rfl, hcheck a ha⟩
    · exact Or.inr (hprog t' ht' ▸ hp')
  have hall' : ∀ b, (st'.mem b).allInvalid → (st.mem b).allInvalid := fun b hall => by
    have hx : (st'.mem b).validCounter = (st'.mem b).localInvalidCounter + (st'.mem b).globalInvalidCounter :=
      hall
    rw [hvalid, (hinv b).1, (hinv b).2] at hx
    exact hx
  have hlogs := LogInv.update h.log hsame
    (h.logInv hp hq hkind (by rw [← hst']) (by rw [← hst']) hthread hchain hpos hdrained)
  rw [update_eq_self] at hlogs
  have halloc : st'.allocated = st.allocated := by rw [← hst']
  have hpool : SamePool st st' K K ρ ρ' :=
    { ht := by rw [← hst']
      cells := by rw [← hst']
      allocated := halloc
      queue := by rw [← hst']
      buffer := hbuf
      counters := hinv
      released := fun b o ho => by
        rcases hρ b with ⟨hb, hmpos⟩ | ⟨hc, hb, -, hle⟩
        · refine isReleased_congr hb (fun t' hr => ?_) (fun _ _ _ => rfl) o
          by_cases ht' : t' = t
          · rw [ht', hmpos]
          · exact mpos_congr (hprog t' ht') (by rw [hother b (by simp [hr, ht'])])
        · -- everything in the block was merged before it was cut off
          have hend := ((h.block b).aligned.bounds ho).2
          have hsize := o.size_pos
          change o.offset + o.size ≤ 0 + bytesOf (st.mem b).buffer at hend
          have hlt : o.offset < st.mpos t b := by omega
          simp [isReleased, hb, hc, hlt]
      owed := fun _ => rfl
      queued := fun b => by
        by_cases hc : ρ b = .chain t
        · rcases hρ b with ⟨hb, -⟩ | ⟨-, hb, -⟩ <;> simp [hb, hc]
        · rw [hkeep b hc]
      used := fun b hb => by
        rcases hρ b with ⟨hx, -⟩ | ⟨-, hx, -⟩
        · rwa [← hx]
        · exact absurd hx hb }
  refine { h.keep hpool (fun b => ?_) (fun t' p' a hp' ha => ?_) (fun t₁ t₂ p₁ p₂ a h₁ h₂ ha₁ ha₂ hall => ?_) with
    log := hlogs }
  · by_cases hc : ρ b = .chain t
    · have hal : b ∈ st'.allocated := by
        rw [halloc]
        exact h.allocated b (by simp [hc])
      have haligned : Aligned (st'.mem b).buffer := by rw [hbuf]; exact (h.block b).aligned
      have hkeys : ∀ o ∈ (st'.mem b).buffer, o.key ≠ 0 := by rw [hbuf]; exact (h.block b).keys
      rcases hρ b with ⟨hb, -⟩ | ⟨-, hb, hv, -⟩
      · exact .of_role (hb.trans hc) hal haligned hkeys trivial
      · exact .of_role hb hal haligned hkeys (Or.inr (by rw [hvalid, hbuf]; exact hv))
    · exact (h.block b).congr (hkeep b hc) (hother b hc) (by rw [halloc]; exact id)
  · rcases hck t' p' a hp' ha with ⟨-, hr, hr'⟩ | hp'
    · refine ⟨?_, Or.inl ⟨hr', Or.inl ?_⟩⟩
      · rw [halloc]
        exact h.allocated a (by simp [hr])
      · rw [hvalid, hbuf]
        rcases hρ a with ⟨hx, -⟩ | ⟨-, -, hv, -⟩
        · rw [hx, hr] at hr'
          cases hr'
        · exact hv
    · have hc := h.check t' p' a hp' ha
      refine ⟨by rw [halloc]; exact hc.alloc, ?_⟩
      rcases hρ a with ⟨hx, -⟩ | ⟨-, hx, hv, -⟩ <;> rw [hx, hvalid, hbuf, (hinv a).1, (hinv a).2]
      · refine hc.role.imp_right (Or.imp_right ?_)
        rintro ⟨t', hr, hpos, hne⟩
        exact ⟨t', hr, hpos, mt (hall' a) hne⟩
      · exact Or.inl ⟨rfl, Or.inl hv⟩
  · have hlinked : ∀ t' p', st.progressTable t' = some p' → p'.check = some a → ρ a ≠ .chain t :=
      fun t' p' hp' ha' hr => by
        rw [((h.check t' p' a hp' ha').dead (h.block a) (hall' a hall)).1] at hr
        cases hr
    rcases hck t₁ p₁ a h₁ ha₁ with ⟨rfl, hr₁, -⟩ | hp₁ <;> rcases hck t₂ p₂ a h₂ ha₂ with ⟨rfl, hr₂, -⟩ | hp₂
    · rfl
    · exact absurd hr₁ (hlinked t₂ p₂ hp₂ ha₂)
    · exact absurd hr₂ (hlinked t₁ p₁ hp₁ ha₁)
    · exact h.check_unique t₁ t₂ p₁ p₂ a hp₁ hp₂ ha₁ ha₂ (hall' a hall)

omit [DecidableEq Tid] in
/-- A pass in a block is at an entry or at the end of the published ones. -/
theorem Inv.scan_entry (h : Inv cfg st K C ρ) (hp : st.progressTable t = some p) (hphase : p.phase = .scan)
    (hlt : p.offset < (st.mem p.next).offset) :
    ∃ o ∈ (st.mem p.next).buffer, o.offset = p.offset ∧ (st.mem p.next).entryAt p.offset = some o ∧
      p.offset + o.size ≤ (st.mem p.next).offset := by
  have hpos := ((h.log t).pass p hp).pos
  simp only [PassPos, hphase] at hpos
  obtain ⟨pre, hC, -, -, -, -, hb, -, -⟩ := hpos
  have hlinked := (h.chain t).block p.next (by rw [hC]; simp)
  have hal := (h.block p.next).aligned
  have hle := Records.Boundary.le_extent hal hlinked.offset
  obtain ⟨o, ho, hoff⟩ := Records.Boundary.exists_mem hb (by omega)
  refine ⟨o, ho, hoff, ?_, ?_⟩
  · rw [← hoff]
    exact LogBlock.entryAt_of_mem hal ho
  · rw [← hoff]
    exact Records.Boundary.end_le hlinked.offset hal ho (by omega)

/-- A manager has merged the newest block of a log, which stays linked. -/
theorem Inv.finishHead (h : Inv cfg st K C ρ) (hp : st.progressTable t = some p) (hphase : p.phase = .scan)
    (hdone : ¬ p.offset < (st.mem p.next).offset) (hfirst : p.next = p.first) :
    Inv cfg (st.finishBlock t p) K C ρ := by
  have hpos := ((h.log t).pass p hp).pos
  simp only [PassPos, hphase] at hpos
  obtain ⟨pre, hC, hhead, hprev, hworker, hpre, hb, -, hle⟩ := hpos
  have hoff : p.offset = (st.mem p.next).offset := by omega
  have hstack := (scan_first_iff (hC ▸ (h.chain t).nodup) hhead).mp hfirst
  have hkind : p.kind ≠ .worker := fun hk => hworker hk hstack
  rw [hstack] at hprev
  have hC' : C t = [p.next] := by rw [hC, hpre hkind, hstack]; rfl
  have hrole : ρ p.next = .chain t := ((h.chain t).mem_iff _).mp (by rw [hC']; exact mem_cons_self)
  have hlinked := (h.chain t).block p.next (by rw [hC']; exact mem_cons_self)
  obtain ⟨q, hst, hmem, hmemn, hqphase, hqkind, hqcheck⟩ := st.finishBlock_head (t := t) hfirst hprev
  generalize st.finishBlock t p = st' at *
  have hprog : st'.progressTable = update st.progressTable t (some q) := by rw [← hst]
  have hq : st'.progressTable t = some q := by rw [hprog, update_self]
  have hdata : ∀ b, st'.mem b =
      { st.mem b with mergedOffset := (st'.mem b).mergedOffset, next := (st'.mem b).next } := by
    intro b
    by_cases hbn : b = p.next
    · rw [hbn, hmemn]
    · rw [hmem b hbn]
  have hkeep : ∀ b, ρ b ≠ .chain t → st'.mem b = st.mem b := fun b hb => hmem b fun hx => hb (hx ▸ hrole)
  have hmpos : ∀ b, st'.mpos t b = st.mpos t b := by
    intro b
    rw [mpos_of_ne hq fun hx => by rw [hqphase] at hx; cases hx]
    by_cases hbn : b = p.next
    · rw [hbn, mpos_scan hp hphase, hmemn, hoff]
    · rw [mpos_of_ne hp fun _ => Ne.symm hbn, hmem b hbn]
  have hdrained : Drained st' (C t) := by
    rw [hC']
    refine ⟨le_rfl, fun a ha => ?_⟩
    rw [mem_singleton.mp ha, hmemn]
  have hinv : Inv cfg st' K (update C t (C t)) ρ := h.settle hp hst hdata hkeep (fun b => Or.inl ⟨rfl, hmpos b⟩)
    (fun a ha => by rw [hqcheck] at ha; cases ha) hqkind ?_ ?_ ?_ fun _ => hdrained
  · rwa [update_eq_self] at hinv
  · refine (h.thread t).settle (fun _ hx => hx) (fun _ hx => hx) (fun a => ?_) (fun a ha => ⟨rfl, hkeep a ha⟩)
      (fun _ hx => Or.inl hx) (by rw [← hst])
    rw [hdata a]
    exact ⟨rfl, rfl⟩
  · have hc := h.chain t
    rw [hC'] at hc ⊢
    refine ⟨hc.mem_iff, hc.nodup, ?_, fun a ha => ?_, nofun, nofun⟩
    · rw [show st'.logMappingTable t = st.logMappingTable t by rw [← hst]]
      exact hc.links.congr fun b hb => by rw [mem_singleton.mp hb, hmemn]
    · rw [mem_singleton.mp ha, hmemn]
      exact ⟨hlinked.offset, hlinked.offset, le_rfl, hlinked.valid⟩
  · simp only [PassPos, hqphase]
    exact fun _ => hdrained

/-- A pass has merged an older block of a log and cuts it off. -/
theorem Inv.cutBlock (h : Inv cfg st K C ρ) (hp : st.progressTable t = some p) (hphase : p.phase = .scan)
    (hdone : ¬ p.offset < (st.mem p.next).offset) (hfirst : p.next ≠ p.first) :
    Inv cfg (st.finishBlock t p) K (update C t (C t).dropLast)
      (update ρ p.next .unowned) := by
  have hpos := ((h.log t).pass p hp).pos
  simp only [PassPos, hphase] at hpos
  obtain ⟨pre, hC, hhead, hprev, hworker, hpre, hb, -, hle⟩ := hpos
  have hoff : p.offset = (st.mem p.next).offset := by omega
  have hc := h.chain t
  have hnodup := hc.nodup
  have hstack : p.workStack ≠ [] := fun hx => hfirst ((scan_first_iff (hC ▸ hnodup) hhead).mpr hx)
  obtain ⟨a, ws, hws⟩ := exists_cons_of_ne_nil hstack
  rw [hws, List.head?_cons, getD_some] at hprev
  subst hprev
  have hC₁ : C t = (pre ++ ws.reverse) ++ [p.prev, p.next] := by rw [hC, hws]; simp
  have hC₂ : (C t).dropLast = (pre ++ ws.reverse) ++ [p.prev] := by
    rw [hC₁, show (pre ++ ws.reverse) ++ [p.prev, p.next] = ((pre ++ ws.reverse) ++ [p.prev]) ++ [p.next] by simp,
      dropLast_concat]
  have hnext : p.next ∈ C t := by rw [hC₁]; simp
  have hprevC : p.prev ∈ C t := by rw [hC₁]; simp
  have hprev0 := hc.links.ne_zero hprevC
  have hne : p.prev ≠ p.next := by
    intro hx
    rw [hC₁, hx] at hnodup
    simpa using (nodup_append.mp hnodup).2.1
  have hnotin : p.next ∉ (C t).dropLast := by
    rw [hC₂]
    rw [hC₁, show (pre ++ ws.reverse) ++ [p.prev, p.next] = ((pre ++ ws.reverse) ++ [p.prev]) ++ [p.next] by simp]
      at hnodup
    exact fun hx => (nodup_append.mp hnodup).2.2 _ hx _ (mem_singleton_self _) rfl
  have hrole : ρ p.next = .chain t := (hc.mem_iff _).mp hnext
  have hlinked := hc.block p.next hnext
  have htail : p.next ∈ (C t).tail := by
    rw [hC₁, tail_append]
    split_ifs <;> simp
  have hcomplete := hc.tail_complete p.next htail
  have hvalid : (st.mem p.next).validCounter = writes (st.mem p.next).buffer := by
    rw [hlinked.valid]
    refine writesIn_eq_writes fun o ho => ?_
    have := ((h.block p.next).aligned.bounds ho).2
    have hpos := o.size_pos
    change o.offset + o.size ≤ 0 + bytesOf (st.mem p.next).buffer at this
    simp only [decide_eq_true_eq]
    omega
  have hprevlinked := hc.block p.prev hprevC
  have hhead' : (ws.reverse ++ [p.prev]).head? = some p.first := by
    rw [hws, reverse_cons, List.head?_append] at hhead
    rw [List.head?_append] at hhead ⊢
    cases hr : ws.reverse with
    | nil => rw [hr] at hhead; simpa using hhead
    | cons b l => rw [hr] at hhead; simpa using hhead
  have hfirst' : p.prev = p.first ↔ ws = [] := by
    refine @scan_first_iff pre _ _ _ ?_ hhead'
    rw [← append_assoc, ← hC₂]
    exact hnodup.sublist (dropLast_sublist _)
  have hlen : ¬ (C t).length ≤ 1 := by
    rw [hC₁, length_append]
    simp only [length_cons, length_nil]
    omega
  obtain ⟨q, hst, hmem, hmemn, hmemp, hqeq⟩ := st.finishBlock_cut (t := t) hfirst hprev0 hne
  generalize st.finishBlock t p = st' at *
  have hprog : st'.progressTable = update st.progressTable t (some q) := by rw [← hst]
  have hq : st'.progressTable t = some q := by rw [hprog, update_self]
  have hslot : st'.logMappingTable t = st.logMappingTable t := by rw [← hst]
  have hρ : ∀ b, b ≠ p.next → update ρ p.next .unowned b = ρ b := fun b hbn =>
    update_of_ne hbn _ _
  have hρn : update ρ p.next .unowned p.next = .unowned := update_self _ _ _
  have hdata : ∀ b, st'.mem b =
      { st.mem b with mergedOffset := (st'.mem b).mergedOffset, next := (st'.mem b).next } := by
    intro b
    by_cases hbn : b = p.next
    · rw [hbn, hmemn]
    · by_cases hbp : b = p.prev
      · rw [hbp, hmemp]
      · rw [hmem b hbn hbp]
  have hmerged : ∀ b, b ≠ p.next → (st'.mem b).mergedOffset = (st.mem b).mergedOffset := by
    intro b hbn
    by_cases hbp : b = p.prev
    · rw [hbp, hmemp]
    · rw [hmem b hbn hbp]
  have hkeep : ∀ b, ρ b ≠ .chain t → st'.mem b = st.mem b := fun b hbc =>
    hmem b (fun hx => hbc (hx ▸ hrole)) fun hx => hbc (hx ▸ (hc.mem_iff _).mp hprevC)
  have hmpos : ∀ b, b ≠ p.next → st'.mpos t b = st.mpos t b := by
    intro b hbn
    rw [mpos_of_ne hp fun _ => Ne.symm hbn, ← hmerged b hbn]
    simp only [mpos, hq]
    split_ifs with hx
    · rw [hqeq] at hx ⊢
      obtain rfl : p.prev = b := hx.2
      exact (hmerged _ hbn).symm
    · rfl
  have hmem' : ∀ a, a ∈ (C t).dropLast → a ∈ C t ∧ a ≠ p.next := fun a ha =>
    ⟨mem_of_mem_dropLast ha, fun hx => hnotin (hx ▸ ha)⟩
  have hlast : C t = (C t).dropLast ++ [p.next] := by rw [hC₂, hC₁]; simp
  refine h.settle hp hst hdata hkeep (fun b => ?_) (fun a ha => ?_) (by rw [hqeq]) ?_ ?_ ?_ fun hx => absurd hx.1 hlen
  · by_cases hbn : b = p.next
    · subst hbn
      exact Or.inr ⟨hrole, hρn, hvalid, by rw [mpos_scan hp hphase]; omega⟩
    · exact Or.inl ⟨hρ b hbn, hmpos b hbn⟩
  · rw [hqeq] at ha
    cases ha
    exact ⟨hrole, hρn⟩
  · refine (h.thread t).settle (fun a ha => ?_) (fun a ha => (hmem' a ha).1) (fun a => ?_) (fun a ha => ?_)
      (fun a ha => ?_) hslot
    · rw [hlast, hC₂, append_assoc, List.head?_append] at ha
      rw [hC₂, List.head?_append]
      cases hx : (pre ++ ws.reverse).head? with
      | none => rw [hx] at ha; simpa using ha
      | some c => rw [hx] at ha; simpa using ha
    · rw [hdata a]
      exact ⟨rfl, rfl⟩
    · exact ⟨hρ a fun hx => ha (hx ▸ hrole), hkeep a ha⟩
    · by_cases han : a = p.next
      · rw [han]
        exact Or.inr hρn
      · rw [hρ a han]
        exact Or.inl ha
  · refine
      { mem_iff := fun a => ?_
        nodup := hnodup.sublist (dropLast_sublist _)
        links := ?_
        block := fun a ha => ?_
        tail_complete := fun a ha => ?_
        merged_zero := fun a ha => ?_ }
    · by_cases han : a = p.next
      · rw [han, hρn]
        exact iff_of_false hnotin (by simp)
      · rw [hρ a han, ← hc.mem_iff]
        refine ⟨mem_of_mem_dropLast, fun hx => ?_⟩
        rw [hlast] at hx
        exact (mem_append.mp hx).resolve_right fun hy => han (mem_singleton.mp hy)
    · have hcut := (hC₁ ▸ hc.links : IsChain _ _ ((pre ++ ws.reverse) ++ [p.prev, p.next])).cut (hC₁ ▸ hnodup)
      rw [hslot, hC₂]
      refine hcut.congr fun b hbC => ?_
      by_cases hbp : b = p.prev
      · rw [hbp, hmemp, update_self]
      · rw [update_of_ne hbp, hmem b (fun hx => hnotin (by rw [hC₂, ← hx]; exact hbC)) hbp]
    · have hab := hc.block a (hmem' a ha).1
      rw [hdata a]
      refine ⟨hab.offset, ?_, ?_, hab.valid⟩
      · change AtBoundary (st.mem a).buffer (st'.mem a).mergedOffset
        rw [hmerged a (hmem' a ha).2]
        exact hab.merged
      · change (st'.mem a).mergedOffset ≤ (st.mem a).offset
        rw [hmerged a (hmem' a ha).2]
        exact hab.merged_le
    · rw [hdata a]
      refine hc.tail_complete a ?_
      rw [hlast, tail_append_of_ne_nil (by rw [hC₂]; simp)]
      exact mem_append_left _ ha
    · have ha' := mem_of_mem_dropLast ha
      rw [hmerged a (hmem' a ha').2]
      exact hc.merged_zero a ha'
  · subst hqeq
    by_cases hstop : p.kind = .worker ∧ p.prev = p.first
    · simp only [PassPos, if_pos hstop]
      exact fun hk => absurd hstop.1 hk
    · simp only [PassPos, if_neg hstop, hws, tail_cons, hmemp]
      refine ⟨pre, by rw [hC₂, append_assoc], hhead', ?_, fun hk hx => ?_, hpre, hprevlinked.merged, le_rfl,
        hprevlinked.merged_le⟩
      · split_ifs with hx
        · rw [hfirst'.mp hx]
          rfl
        · rfl
      · exact hstop ⟨hk, hfirst'.mpr hx⟩

end Rules

end Dinomo
