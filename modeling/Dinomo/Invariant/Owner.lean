import Dinomo.Invariant.Frame

/-!
# A thread's own steps

One rule covers every step in which a running thread changes its own state and at most one block it
owns: the buffer of the block only grows at its end, its merge position stays, and its invalidation
counters do not grow.  What remains to be shown for such a step are the facts about that thread, its
log and the changed block.
-/

namespace Dinomo

open Chain Function Storage

variable {Tid V : Type*} {cfg : Config} {st st' : Storage Tid V} {ρ ρ' : Addr → Role Tid}

/-- A worker pass never reads the head block of a log. -/
theorem PassPos.worker_congr {C : List Addr} {p : Pass} (h : PassPos st C p) (hk : p.kind = .worker)
    (hm : ∀ b ∈ C.tail, (st.mem b).SameData (st'.mem b)) : PassPos st' C p := by
  unfold PassPos at h ⊢
  cases hp : p.phase with
  | walk => simpa only [hp] using h
  | scan =>
    simp only [hp] at h ⊢
    obtain ⟨pre, hC, hfirst, hprev, hstack, hrest⟩ := h
    have hnext : p.next ∈ C.tail := by
      have hne : pre ++ p.workStack.reverse ≠ [] := by
        have := hstack hk
        simp [this]
      rw [hC, ← List.append_assoc, List.tail_append_of_ne_nil hne]
      simp
    refine ⟨pre, hC, hfirst, hprev, hstack, ?_⟩
    have hd := hm p.next hnext
    rw [hd.buffer, hd.mergedOffset, hd.offset]
    exact hrest
  | stop => exact fun h' => absurd hk h'

/-- The oplogs of a longer buffer that the index refers to are those of the shorter one. -/
theorem countP_resolve_append {buf u : List (Oplog V)} {a : Addr} {r : Key → Option Ptr}
    (halign : Aligned (buf ++ u)) (hkeys : ∀ o ∈ u, o.key ≠ 0)
    (href : ∀ key p, key ≠ 0 → r key = some p → p.block = a → ∃ o ∈ buf, o.offset = p.off) :
    (buf ++ u).countP (fun o => r o.key = some ⟨a, o.offset⟩) =
      buf.countP (fun o => r o.key = some ⟨a, o.offset⟩) := by
  have hzero : u.countP (fun o => r o.key = some ⟨a, o.offset⟩) = 0 := by
    refine List.countP_eq_zero.mpr fun o ho hr => ?_
    simp only [decide_eq_true_eq] at hr
    obtain ⟨o', ho', hoff⟩ := href o.key _ (hkeys o ho) hr rfl
    have heq : o' = o := halign.eq_of_offset Oplog.size_pos (by simp [ho']) (by simp [ho]) hoff
    have hnodup := halign.nodup Oplog.size_pos
    rw [List.nodup_append] at hnodup
    exact hnodup.2.2 o' ho' o ho heq
  rw [List.countP_append, hzero, Nat.add_zero]

/-- Other threads do not notice a write to an owned block. -/
theorem sameFor_modBlock {t t' : Tid} {a : Addr} {f : LogBlock V → LogBlock V}
    (hown : (ρ a).owner = some t) (hne : t' ≠ t) : SameFor t' st (st.modBlock a f) ρ ρ where
  role _ _ := rfl
  data b hb := by
    have hba : b ≠ a := by
      rintro rfl
      rw [hown] at hb
      simp [Ne.symm hne] at hb
    exact .of_eq (st.mem_modBlock_of_ne hba f)
  slot := rfl
  progress := rfl
  reply := rfl
  done := rfl

/-- What does not change for one thread does not change for any. -/
theorem update_congr [DecidableEq Tid] (K : Tid → KnCore V) (t : Tid) (k' : KnCore V) {β : Type*}
    (g : KnCore V → β) (h : g k' = g (K t)) (t' : Tid) : g (update K t k' t') = g (K t') := by
  by_cases heq : t' = t
  · subst heq
    rw [update_self, h]
  · rw [update_of_ne heq]

section

variable [DecidableEq Tid] [Fintype Tid] {K : Tid → KnCore V} {C : Tid → List Addr} {t : Tid} {a : Addr}
  {f : LogBlock V → LogBlock V} {k' : KnCore V}

/-- A running thread changes its own state and one block it owns. -/
theorem Inv.threadStep (h : Inv cfg st K C ρ) (hwait : (K t).view.waiting = false)
    (hcrash : (K t).view.crashed = false) (hown : (ρ a).owner = some t) (hhead : a ∉ (C t).tail)
    (hbuf : (st.mem a).buffer <+: (f (st.mem a)).buffer)
    (hmerged : (f (st.mem a)).mergedOffset = (st.mem a).mergedOffset)
    (hinv : (f (st.mem a)).localInvalidCounter + (f (st.mem a)).globalInvalidCounter ≤
      (st.mem a).localInvalidCounter + (st.mem a).globalInvalidCounter)
    (howed : k'.view.owed = (K t).view.owed) (hcrash' : k'.view.crashed = false)
    (hroff : k'.replOffset = (K t).replOffset)
    (hblock : BlockInv (st.modBlock a f) ρ a)
    (hcheck : CheckOk st ρ a → CheckOk (st.modBlock a f) ρ a)
    (hchain : ChainInv (st.modBlock a f) (C t) ρ t)
    (hthread : ThreadInv cfg (st.modBlock a f) (C t) ρ t k') :
    Inv cfg (st.modBlock a f) (update K t k') C ρ := by
  have hmem : ∀ b, b ≠ a → (st.modBlock a f).mem b = st.mem b := fun b hb => st.mem_modBlock_of_ne hb f
  have hmema := st.mem_modBlock_self a f
  obtain ⟨u, hu⟩ := hbuf
  have hmpos : ∀ t' b, (st.modBlock a f).mpos t' b = st.mpos t' b := by
    intro t' b
    refine mpos_congr rfl ?_
    by_cases hb : b = a
    · rw [hb, hmema, hmerged]
    · rw [hmem b hb]
  have hgrow : ∀ b, ∃ v, ((st.modBlock a f).mem b).buffer = (st.mem b).buffer ++ v := by
    intro b
    by_cases hb : b = a
    · exact ⟨u, by rw [hb, hmema, hu]⟩
    · exact ⟨[], by rw [hmem b hb, List.append_nil]⟩
  have hrefs : ∀ b, (st.modBlock a f).refs b = st.refs b := by
    intro b
    by_cases hb : b = a
    · subst hb
      have hal : Aligned ((st.mem b).buffer ++ u) := by rw [hu, ← hmema]; exact hblock.aligned
      have hk : ∀ o ∈ u, o.key ≠ 0 := fun o ho =>
        hblock.keys o (by rw [hmema, ← hu]; simp [ho])
      have := countP_resolve_append (a := b) (r := st.resolve) hal hk (fun key p h0 hr hp => by
        obtain ⟨o, ho, hoff, _⟩ := h.index.ref key p h0 hr
        exact ⟨o, hp ▸ ho, hoff⟩)
      rw [refs, hmema, ← hu]
      exact this
    · rw [refs, hmem b hb]
      rfl
  have howed' := update_congr K t k' (fun k : KnCore V => k.view.owed) howed
  have hins := update_congr K t k' KnCore.installed
    (funext fun o => by simp [KnCore.installed, howed, hcrash, hcrash', hroff])
  have hisrel : ∀ b o, (st.modBlock a f).isReleased (update K t k') ρ b o = st.isReleased K ρ b o :=
    fun b => isReleased_congr rfl (fun t' _ => hmpos t' b) fun t' o _ => congrFun (hins t') o
  have hreleased : ∀ b, st.released K ρ b ≤ (st.modBlock a f).released (update K t k') ρ b := by
    intro b
    obtain ⟨v, hv⟩ := hgrow b
    unfold released
    rw [hv, writesIn_append, funext (hisrel b)]
    exact Nat.le_add_right _ _
  have hother : ∀ b ∈ st.reservedAllocQueue, b ≠ a := by
    rintro b hb rfl
    rw [(h.queued b).mp hb] at hown
    cases hown
  have hlog : LogInv cfg (st.modBlock a f) (C t) ρ t k' :=
    (h.log t).step hwait hcrash rfl rfl rfl hthread hchain fun p hk hp =>
      hp.worker_congr hk fun b hb => .of_eq (hmem b fun hba => hhead (hba ▸ hb))
  have hlogs := LogInv.update h.log (fun t' ht' => sameFor_modBlock hown ht') hlog
  rw [update_eq_self] at hlogs
  refine
    { h with
      log := hlogs
      check := fun t' p b hp hb => ?_
      check_unique := fun t₁ t₂ p₁ p₂ b h₁ h₂ hb₁ hb₂ hall => ?_
      block := fun b => ?_
      index :=
        { h.index with
          ref := fun key p h0 hr => ?_ }
      owed := fun t' p off ho => ?_
      acct := fun b => ?_
      dead := fun b hb => ?_ }
  · have hc := h.check t' p b hp hb
    by_cases hba : b = a
    · subst hba
      exact hcheck hc
    · exact hc.congr rfl (hmem b hba) hc.alloc
  · by_cases hba : b = a
    · subst hba
      rw [((hcheck (h.check t₁ p₁ b h₁ hb₁)).dead hblock hall).1] at hown
      cases hown
    · exact h.check_unique t₁ t₂ p₁ p₂ b h₁ h₂ hb₁ hb₂ (hmem b hba ▸ hall)
  · by_cases hb : b = a
    · rw [hb]
      exact hblock
    · exact (h.block b).congr rfl (hmem b hb) id
  · obtain ⟨o, ho, hoff, hkey, hw, hm⟩ := h.index.ref key p h0 hr
    obtain ⟨v, hv⟩ := hgrow p.block
    exact ⟨o, by rw [hv]; simp [ho], hoff, hkey, hw, by rw [hisrel]; exact hm⟩
  · obtain ⟨⟨o, hmo, hoff⟩, hn⟩ := h.owed t' p off ((howed' t').symm.trans ho)
    obtain ⟨v, hv⟩ := hgrow p.block
    exact ⟨⟨o, by rw [hv]; simp [hmo], hoff⟩, hn⟩
  · have hac := h.acct b
    have hrel := hreleased b
    have hi : ((st.modBlock a f).mem b).localInvalidCounter + ((st.modBlock a f).mem b).globalInvalidCounter ≤
        (st.mem b).localInvalidCounter + (st.mem b).globalInvalidCounter := by
      by_cases hb : b = a
      · rw [hb, hmema]
        exact hinv
      · rw [hmem b hb]
    rw [hrefs, owedTo_congr howed']
    omega
  · have hne := hother b hb
    rw [released_congr rfl (by rw [hmem b hne]) (fun t' _ => hmpos t' b)
      fun t' o _ => congrFun (hins t') o, hmem b hne]
    exact h.dead b hb

/-- A running thread changes its own state only. -/
theorem Inv.coreStep (h : Inv cfg st K C ρ) (hwait : (K t).view.waiting = false)
    (hcrash : (K t).view.crashed = false) (howed : k'.view.owed = (K t).view.owed)
    (hcrash' : k'.view.crashed = false) (hroff : k'.replOffset = (K t).replOffset)
    (hthread : ThreadInv cfg st (C t) ρ t k') : Inv cfg st (update K t k') C ρ := by
  have howed' := update_congr K t k' (fun k : KnCore V => k.view.owed) howed
  have hins := update_congr K t k' KnCore.installed
    (funext fun o => by simp [KnCore.installed, howed, hcrash, hcrash', hroff])
  have hlogs := LogInv.update h.log
    (fun t' _ => ⟨fun _ _ => rfl, fun _ _ => .of_eq rfl, rfl, rfl, rfl, rfl⟩)
    ((h.log t).step hwait hcrash rfl rfl rfl hthread (h.chain t) fun _ _ hp => hp)
  rw [update_eq_self] at hlogs
  have hsame : SamePool st st K (update K t k') ρ ρ :=
    { ht := rfl, cells := rfl, allocated := rfl, queue := rfl
      buffer := fun _ => rfl
      counters := fun _ => ⟨rfl, rfl⟩
      released := fun b o _ =>
        isReleased_congr rfl (fun _ _ => rfl) (fun t' o _ => congrFun (hins t') o) o
      owed := howed'
      queued := fun _ => Iff.rfl
      used := fun _ hb => hb }
  exact { h.keep hsame h.block h.check h.check_unique with log := hlogs }

end

end Dinomo
