import Dinomo.Invariant

/-!
# Frames: what a step leaves alone

The facts about a thread and its log only read the blocks that thread owns, so a step that changes
other blocks keeps them.  A thread's own writes to its current block are collected in one rule: the
buffer only grows at its end, the invalidation counters never grow, and what the index refers to
stays where it is.
-/

namespace Dinomo

open Chain Function

variable {Tid V : Type*} {cfg : Config} {st st' : Storage Tid V} {C : List Addr}
  {ρ ρ' : Addr → Role Tid} {t : Tid} {k k' : KnCore V}

/-- Two contents of a block that differ in the invalidation counters at most. -/
structure LogBlock.SameData (b b' : LogBlock V) : Prop where
  mergedOffset : b'.mergedOffset = b.mergedOffset
  offset : b'.offset = b.offset
  validCounter : b'.validCounter = b.validCounter
  next : b'.next = b.next
  buffer : b'.buffer = b.buffer

variable {b b' : LogBlock V} {K K' : Tid → KnCore V} {a : Addr} {buf : List (Oplog V)} {P Q : Oplog V → Bool}

/-- Equal contents. -/
theorem LogBlock.SameData.of_eq (h : b' = b) : b.SameData b' := by
  subst h
  exact ⟨rfl, rfl, rfl, rfl, rfl⟩

/-- What a thread owns and what the storage side keeps for its log stay the same. -/
structure SameFor (t : Tid) (st st' : Storage Tid V) (ρ ρ' : Addr → Role Tid) : Prop where
  role : ∀ a, (ρ a).owner = some t ∨ (ρ' a).owner = some t → ρ' a = ρ a
  data : ∀ a, (ρ a).owner = some t → (st.mem a).SameData (st'.mem a)
  slot : st'.logMappingTable t = st.logMappingTable t
  progress : st'.progressTable t = st.progressTable t
  reply : st'.mergeReply t = st.mergeReply t
  done : st'.failoverDone t = st.failoverDone t

/-- The blocks of a log keep their contents when the thread's blocks do. -/
theorem ChainInv.sameData (h : ChainInv st C ρ t) (hs : SameFor t st st' ρ ρ') :
    ∀ a ∈ C, (st.mem a).SameData (st'.mem a) := fun a ha =>
  hs.data a (by rw [(h.mem_iff a).mp ha, Role.owner])

/-- The current block matters through its buffer and its offset. -/
theorem LiveOk.congr (h : LiveOk cfg b k) (hbuf : b'.buffer = b.buffer)
    (hoff : b'.offset = b.offset) : LiveOk cfg b' k where
  aligned := h.aligned
  keys := h.keys
  tail := h.tail
  isPrefix := by rw [hbuf]; exact h.isPrefix
  valid := h.valid
  immediate := by rw [hbuf]; exact h.immediate
  batched := by rw [hoff]; exact h.batched
  unsent := by rw [hbuf]; exact h.unsent
  sent := by rw [hbuf]; exact h.sent
  published := by rw [hbuf, hoff]; exact h.published

/-- A linked block matters through everything but its invalidation counters. -/
theorem LinkedOk.congr (h : LinkedOk b) (hd : b.SameData b') : LinkedOk b' where
  offset := by rw [hd.buffer, hd.offset]; exact h.offset
  merged := by rw [hd.buffer, hd.mergedOffset]; exact h.merged
  merged_le := by rw [hd.mergedOffset, hd.offset]; exact h.merged_le
  valid := by rw [hd.validCounter, hd.buffer, hd.offset]; exact h.valid

/-- The facts about a thread depend on the blocks it owns and on its slot. -/
theorem ThreadInv.congr (h : ThreadInv cfg st C ρ t k) (hc : ChainInv st C ρ t)
    (hr : ∀ a, (ρ a).owner = some t ∨ (ρ' a).owner = some t → ρ' a = ρ a)
    (hd : ∀ a, (ρ a).owner = some t → (st.mem a).SameData (st'.mem a))
    (hslot : st'.logMappingTable t = st.logMappingTable t) : ThreadInv cfg st' C ρ' t k := by
  have hrole : ∀ {a : Addr} {r : Role Tid}, ρ a = r → r.owner = some t →
      ρ' a = r ∧ (st.mem a).SameData (st'.mem a) := fun {a r} ha hx =>
    ⟨(hr a (Or.inl (ha ▸ hx))).trans ha, hd a (ha ▸ hx)⟩
  have hcd : ∀ a ∈ C, (st.mem a).SameData (st'.mem a) := fun a ha =>
    hd a (by rw [(hc.mem_iff a).mp ha, Role.owner])
  refine
    { raddrs := fun a ha h0 => (hrole (h.raddrs a ha h0) rfl).1
      nodup_raddrs := h.nodup_raddrs
      linking := fun hl => (hrole (h.linking hl) rfl).1
      slotNext := fun hp => ?_
      live := h.live
      liveOk := fun hl =>
        have hd := hcd _ (List.mem_of_mem_head? (h.live hl))
        (h.liveOk hl).congr hd.buffer hd.offset
      reset := h.reset
      complete := fun h1 h2 a ha => ?_
      poolCounters := h.poolCounters
      repl := fun hr => (hrole (h.repl hr) rfl).1
      repl_only := fun a ha => h.repl_only a ((hr a (Or.inr (by rw [ha, Role.owner]))).symm.trans ha)
      replOk := fun hr => ?_
      inflight := h.inflight
      sentLive := h.sentLive
      publishedLive := h.publishedLive }
  · obtain ⟨hl, hn⟩ := h.slotNext hp
    exact ⟨hl, by rw [(hrole (h.linking hl) rfl).2.next, hslot, hn]⟩
  · rw [(hcd a ha).offset, (hcd a ha).buffer]
    exact h.complete h1 h2 a ha
  · have hd := (hrole (h.repl hr) rfl).2
    have hro := h.replOk hr
    exact ⟨by rw [hd.buffer]; exact hro.buffer, by rw [hd.buffer]; exact hro.writes⟩

/-- The facts about a log depend on its blocks, its slot and which blocks are linked. -/
theorem ChainInv.congr (h : ChainInv st C ρ t) (hrole : ∀ a, ρ a = .chain t ↔ ρ' a = .chain t)
    (hd : ∀ a ∈ C, (st.mem a).SameData (st'.mem a))
    (hslot : st'.logMappingTable t = st.logMappingTable t) : ChainInv st' C ρ' t where
  mem_iff a := (h.mem_iff a).trans (hrole a)
  nodup := h.nodup
  links := by
    rw [hslot]
    exact h.links.congr fun b hb => (hd b hb).next
  block a ha := (h.block a ha).congr (hd a ha)
  tail_complete a ha := by
    rw [(hd a (List.mem_of_mem_tail ha)).offset, (hd a (List.mem_of_mem_tail ha)).buffer]
    exact h.tail_complete a ha
  merged_zero a ha := by
    rw [(hd a (List.mem_of_mem_dropLast ha)).mergedOffset]
    exact h.merged_zero a ha

/-- The facts about a log survive changes to blocks of other threads. -/
theorem ChainInv.frame (h : ChainInv st C ρ t) (hs : SameFor t st st' ρ ρ') : ChainInv st' C ρ' t := by
  refine h.congr (fun a => ⟨fun ha => ?_, fun ha => ?_⟩) (h.sameData hs) hs.slot
  · exact (hs.role a (Or.inl (by rw [ha, Role.owner]))).trans ha
  · exact (hs.role a (Or.inr (by rw [ha, Role.owner]))).symm.trans ha

/-- A drained log stays drained when its blocks do not change. -/
theorem Drained.congr (h : Drained st C) (hm : ∀ a ∈ C, (st.mem a).SameData (st'.mem a)) : Drained st' C :=
  ⟨h.1, fun a ha => by rw [(hm a ha).mergedOffset, (hm a ha).offset]; exact h.2 a ha⟩

/-- The position of a pass in an unchanged chain. -/
theorem PassPos.congr {p : Pass} (h : PassPos st C p) (hm : ∀ a ∈ C, (st.mem a).SameData (st'.mem a)) :
    PassPos st' C p := by
  unfold PassPos at h ⊢
  cases hp : p.phase with
  | walk => simpa only [hp] using h
  | scan =>
    simp only [hp] at h ⊢
    obtain ⟨pre, hC, hrest⟩ := h
    have hd := hm p.next (by simp [hC])
    refine ⟨pre, hC, ?_⟩
    rw [hd.buffer, hd.mergedOffset, hd.offset]
    exact hrest
  | stop =>
    simp only [hp] at h ⊢
    exact fun hk => (h hk).congr hm

/-- The invariant of a thread and its log survives the steps of others. -/
theorem LogInv.frame (h : LogInv cfg st C ρ t k) (hs : SameFor t st st' ρ ρ') : LogInv cfg st' C ρ' t k := by
  have hd := h.chain.sameData hs
  refine
    { thread := h.thread.congr h.chain hs.role hs.data hs.slot
      chain := h.chain.frame hs
      pass := fun p hp => ?_
      request_open := fun p hp hk => hs.reply.trans (h.request_open p (hs.progress ▸ hp) hk)
      reply := fun hr => ?_
      failover := fun hr => ?_ }
  · have hpass := h.pass p (hs.progress ▸ hp)
    exact ⟨hpass.pos.congr hd, hpass.request, hpass.failover⟩
  · have := h.reply (hs.reply ▸ hr)
    exact ⟨this.1, this.2.congr hd⟩
  · have := h.failover (hs.done ▸ hr)
    exact ⟨this.1, this.2.congr hd⟩

/-- The invariants of all threads after a step of one of them. -/
theorem LogInv.update [DecidableEq Tid] {C : Tid → List Addr} {c' : List Addr}
    (h : ∀ t', LogInv cfg st (C t') ρ t' (K t')) (hs : ∀ t', t' ≠ t → SameFor t' st st' ρ ρ')
    (ht : LogInv cfg st' c' ρ' t k') (t' : Tid) :
    LogInv cfg st' (update C t c' t') ρ' t' (update K t k' t') := by
  by_cases heq : t' = t
  · subst heq
    rwa [update_self, update_self]
  · rw [update_of_ne heq, update_of_ne heq]
    exact (h t').frame (hs t' heq)

/-- The only passes over the log of a running thread are worker passes, and no answer is pending. -/
theorem LogInv.running (h : LogInv cfg st C ρ t k) (hwait : k.view.waiting = false)
    (hcrash : k.view.crashed = false) : (∀ p, st.progressTable t = some p → p.kind = .worker) ∧
      st.mergeReply t = false ∧ st.failoverDone t = false := by
  refine ⟨fun p hp => ?_, ?_, ?_⟩
  · cases hk : p.kind with
    | worker => rfl
    | request => simpa [hwait, hcrash] using (h.pass p hp).request hk
    | failover => simpa [hcrash] using (h.pass p hp).failover hk
  · by_contra hr
    simpa [hwait, hcrash] using (h.reply (by simpa using hr)).1
  · by_contra hr
    simpa [hcrash] using (h.failover (by simpa using hr)).1

/-- The invariant of a running thread after a step of its own. -/
theorem LogInv.step (h : LogInv cfg st C ρ t k) (hwait : k.view.waiting = false)
    (hcrash : k.view.crashed = false) {c' : List Addr} (hprogress : st'.progressTable t = st.progressTable t)
    (hreply : st'.mergeReply t = st.mergeReply t) (hdone : st'.failoverDone t = st.failoverDone t)
    (hthread : ThreadInv cfg st' c' ρ' t k') (hchain : ChainInv st' c' ρ' t)
    (hpass : ∀ p : Pass, p.kind = .worker → PassPos st C p → PassPos st' c' p) :
    LogInv cfg st' c' ρ' t k' := by
  obtain ⟨hworker, hr, hd⟩ := h.running hwait hcrash
  refine ⟨hthread, hchain, fun p hp => ?_, fun p hp hk => ?_, fun hx => ?_, fun hx => ?_⟩
  · rw [hprogress] at hp
    have hk := hworker p hp
    exact ⟨hpass p hk (h.pass p hp).pos, fun hx => absurd (hk.symm.trans hx) (by decide),
      fun hx => absurd (hk.symm.trans hx) (by decide)⟩
  · rw [hprogress] at hp
    exact absurd ((hworker p hp).symm.trans hk) (by decide)
  · rw [hreply, hr] at hx
    cases hx
  · rw [hdone, hd] at hx
    cases hx

/-- A block keeps its invariant when neither its contents nor its role change. -/
theorem BlockInv.congr (h : BlockInv st ρ a) (hr : ρ' a = ρ a) (hm : st'.mem a = st.mem a)
    (ha : a ∈ st.allocated → a ∈ st'.allocated) : BlockInv st' ρ' a where
  aligned := by rw [hm]; exact h.aligned
  keys := by rw [hm]; exact h.keys
  unalloc := by rw [hm]; exact fun hx => h.unalloc fun hy => hx (ha hy)
  prealloc := by rw [hm, hr]; exact h.prealloc
  linking := by rw [hm, hr]; exact h.linking
  repl := by rw [hm, hr]; exact h.repl
  retired := by rw [hm, hr]; exact h.retired

/-- What the role of a block says about its contents. -/
def Role.Content (r : Role Tid) (b : LogBlock V) : Prop :=
  match r with
  | .unowned => b.validCounter = 0 ∨ b.validCounter = writes b.buffer
  | .queued => True
  | .chain _ => True
  | .linking _ => { b with next := 0 } = (.zero : LogBlock V)
  | .prealloc _ => b = .zero
  | .repl _ => b.validCounter = 0

/-- An allocated block has to have the contents its role asks for. -/
theorem BlockInv.of_role {r : Role Tid} (hr : ρ a = r) (ha : a ∈ st.allocated)
    (haligned : Aligned (st.mem a).buffer) (hkeys : ∀ o ∈ (st.mem a).buffer, o.key ≠ 0)
    (hcontent : r.Content (st.mem a)) : BlockInv st ρ a := by
  subst hr
  refine ⟨haligned, hkeys, fun hx => absurd ha hx, fun t hx => ?_, fun t hx => ?_, fun t hx => ?_, fun hx => ?_⟩ <;>
    · rw [hx] at hcontent
      exact hcontent

/-- A block about to be compared that does not change. -/
theorem CheckOk.congr (h : CheckOk st ρ a) (hr : ρ' a = ρ a) (hm : st'.mem a = st.mem a)
    (ha : a ∈ st'.allocated) : CheckOk st' ρ' a :=
  ⟨ha, by rw [hr, hm]; exact h.role⟩

/-- When the counters agree the block is in no log and all its entries are counted. -/
theorem CheckOk.dead (h : CheckOk st ρ a) (hb : BlockInv st ρ a) (hall : (st.mem a).allInvalid) :
    ρ a = .unowned ∧ (st.mem a).validCounter = writes (st.mem a).buffer := by
  have hall' : (st.mem a).validCounter = _ := hall
  rcases h.role with ⟨hr, hv | ⟨hv, hpos⟩⟩ | ⟨t, hr, hpos⟩ | ⟨_, -, -, hne⟩
  · exact ⟨hr, hv⟩
  · omega
  · have := hb.repl t hr
    omega
  · exact absurd hall hne

/-- A block about to be compared is not set aside for a thread, being linked, or free. -/
theorem CheckOk.used (h : CheckOk st ρ a) :
    ρ a = .unowned ∨ (∃ t, ρ a = .repl t) ∨ ∃ t, ρ a = .chain t :=
  h.role.imp And.left (Or.imp (Exists.imp fun _ => And.left) (Exists.imp fun _ => And.left))

/-- The merge position of a block whose header field is unchanged. -/
theorem Storage.mpos_congr (hp : st'.progressTable t = st.progressTable t)
    (hm : (st'.mem a).mergedOffset = (st.mem a).mergedOffset) : st'.mpos t a = st.mpos t a := by
  rw [mpos, mpos, hp, hm]

/-- What a key refers to depends on its index word and the cells only. -/
theorem Storage.resolve_congr {key : Key} (hht : st'.ht.get key = st.ht.get key)
    (hcells : st'.cells = st.cells) : st'.resolve key = st.resolve key := by
  rw [resolve, resolve, hht, hcells]

/-- Which entries are released depends on the role of the block, its merge position and its thread. -/
theorem Storage.isReleased_congr {b : Addr} (hr : ρ' b = ρ b)
    (hpos : ∀ t, ρ b = .chain t → st'.mpos t b = st.mpos t b)
    (hins : ∀ t o, ρ b = .repl t → (K' t).installed o = (K t).installed o) (o : Oplog V) :
    st'.isReleased K' ρ' b o = st.isReleased K ρ b o := by
  unfold isReleased
  rw [hr]
  cases hb : ρ b with
  | chain t => simp only [hpos t hb]
  | repl t => exact hins t o hb
  | _ => rfl

/-- The number of released entries depends on the buffer besides. -/
theorem Storage.released_congr {b : Addr} (hr : ρ' b = ρ b)
    (hbuf : (st'.mem b).buffer = (st.mem b).buffer)
    (hpos : ∀ t, ρ b = .chain t → st'.mpos t b = st.mpos t b)
    (hins : ∀ t o, ρ b = .repl t → (K' t).installed o = (K t).installed o) :
    st'.released K' ρ' b = st.released K ρ b := by
  unfold released
  rw [hbuf, funext (isReleased_congr hr hpos hins)]

/-- Appending to a buffer can only add insertions and updates. -/
theorem writesIn_append (buf u : List (Oplog V)) (P : Oplog V → Bool) :
    writesIn (buf ++ u) P = writesIn buf P + writesIn u P := by
  simp [writesIn]

/-- A larger condition counts at least as many oplogs. -/
theorem writesIn_mono (h : ∀ o ∈ buf, P o → Q o) :
    writesIn buf P ≤ writesIn buf Q := by
  refine List.countP_mono_left fun o ho hP => ?_
  simp only [Bool.and_eq_true] at hP ⊢
  exact ⟨hP.1, h o ho hP.2⟩

/-- A larger condition that holds for one more insertion or update counts one more. -/
theorem writesIn_succ_le (h : ∀ o ∈ buf, P o → Q o) {o : Oplog V}
    (ho : o ∈ buf) (hw : o.opType.isWrite = true) (hP : P o = false) (hQ : Q o = true) :
    writesIn buf P + 1 ≤ writesIn buf Q := by
  obtain ⟨l, l', rfl⟩ := List.append_of_mem ho
  have h₁ : writesIn l P ≤ writesIn l Q := writesIn_mono fun x hx => h x (by simp [hx])
  have h₂ : writesIn l' P ≤ writesIn l' Q := writesIn_mono fun x hx => h x (by simp [hx])
  have hl : ∀ R : Oplog V → Bool, writesIn (l ++ o :: l') R = writesIn l R + (writesIn [o] R + writesIn l' R) :=
    fun R => by rw [← writesIn_append, ← writesIn_append]; rfl
  have hPo : writesIn [o] P = 0 := by simp [writesIn, hP]
  have hQo : writesIn [o] Q = 1 := by simp [writesIn, hw, hQ]
  rw [hl, hl, hPo, hQo]
  omega

/-- Conditions that agree on the buffer count the same oplogs. -/
theorem writesIn_congr (h : ∀ o ∈ buf, P o = Q o) :
    writesIn buf P = writesIn buf Q :=
  List.countP_congr fun o ho => by simp [h o ho]

/-- A condition that holds throughout the buffer counts all insertions and updates. -/
theorem writesIn_eq_writes (h : ∀ o ∈ buf, P o = true) :
    writesIn buf P = writes buf :=
  writesIn_congr h

variable [Fintype Tid]

/-- Only the oplogs still to be counted matter for `owedTo`. -/
theorem owedTo_congr (h : ∀ t, (K' t).view.owed = (K t).view.owed) (a : Addr) :
    owedTo K' a = owedTo K a := by
  simp only [owedTo, h]

/-- A step that leaves the index, the allocator and the queue alone, and keeps the oplogs of every
block, how many of them are counted as invalid and which of them are released. -/
structure SamePool (st st' : Storage Tid V) (K K' : Tid → KnCore V) (ρ ρ' : Addr → Role Tid) : Prop where
  ht : st'.ht = st.ht
  cells : st'.cells = st.cells
  allocated : st'.allocated = st.allocated
  queue : st'.reservedAllocQueue = st.reservedAllocQueue
  buffer : ∀ b, (st'.mem b).buffer = (st.mem b).buffer
  counters : ∀ b, (st'.mem b).localInvalidCounter = (st.mem b).localInvalidCounter ∧
    (st'.mem b).globalInvalidCounter = (st.mem b).globalInvalidCounter
  released : ∀ b, ∀ o ∈ (st.mem b).buffer, st'.isReleased K' ρ' b o = st.isReleased K ρ b o
  owed : ∀ t, (K' t).view.owed = (K t).view.owed
  queued : ∀ b, ρ' b = .queued ↔ ρ b = .queued
  used : ∀ b, ρ' b ≠ .unowned → ρ b ≠ .unowned

/-- After such a step only the changed blocks and the comparisons under way have to be looked at. -/
theorem PoolInv.keep (h : PoolInv st K ρ) (hs : SamePool st st' K K' ρ ρ')
    (hblock : ∀ b, BlockInv st' ρ' b)
    (hcheck : ∀ t p a, st'.progressTable t = some p → p.check = some a → CheckOk st' ρ' a)
    (hunique : ∀ t t' p p' a, st'.progressTable t = some p → st'.progressTable t' = some p' →
      p.check = some a → p'.check = some a → (st'.mem a).allInvalid → t = t') : PoolInv st' K' ρ' := by
  have hresolve : ∀ k, st'.resolve k = st.resolve k := fun k =>
    Storage.resolve_congr (by rw [hs.ht]) hs.cells
  have hreleased : ∀ b, st'.released K' ρ' b = st.released K ρ b := fun b => by
    unfold Storage.released
    rw [hs.buffer]
    exact writesIn_congr (hs.released b)
  refine
    { check := hcheck
      check_unique := hunique
      block := hblock
      allocated := fun b hb => by rw [hs.allocated]; exact h.allocated b (hs.used b hb)
      zero_allocated := by rw [hs.allocated]; exact h.zero_allocated
      queued := fun b => by rw [hs.queue, hs.queued]; exact h.queued b
      nodup_queue := by rw [hs.queue]; exact h.nodup_queue
      index :=
        { full := by rw [hs.ht]; exact h.index.full
          cell_alloc := by rw [hs.ht, hs.allocated]; exact h.index.cell_alloc
          cell_some := by rw [hs.ht, hs.cells]; exact h.index.cell_some
          cell_inj := by rw [hs.ht]; exact h.index.cell_inj
          ref := fun k p hk hr => ?_ }
      owed := fun t p off ho => by rw [hs.buffer]; exact h.owed t p off ((hs.owed t).symm.trans ho)
      acct := fun b => ?_
      dead := fun b hb => ?_ }
  · obtain ⟨o, ho, hoff, hkey, hw, hm⟩ := h.index.ref k p hk ((hresolve k).symm.trans hr)
    exact ⟨o, by rw [hs.buffer]; exact ho, hoff, hkey, hw, by rw [hs.released _ o ho]; exact hm⟩
  · have hrefs : st'.refs b = st.refs b := by
      simp only [Storage.refs, hs.buffer, hresolve]
    rw [hrefs, hreleased, owedTo_congr hs.owed, (hs.counters b).1, (hs.counters b).2]
    exact h.acct b
  · rw [hreleased, (hs.counters b).1, (hs.counters b).2]
    exact h.dead b (by rw [← hs.queue]; exact hb)

end Dinomo
