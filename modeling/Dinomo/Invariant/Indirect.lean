import Dinomo.Invariant.Replicated

/-!
# Installing and removing indirect pointers keeps the invariant

`swap` moves the word of a key into a cell and back.  Neither step changes which oplog the key refers
to.
-/

namespace Dinomo

open Function Storage

variable {Tid V : Type*} {cfg : Config} {st : Storage Tid V} {K : Tid → KnCore V} {ρ : Addr → Role Tid}

section Rules

variable [Fintype Tid] {C : Tid → List Addr}

/-- A step that changes the index, its cells and the allocator, but not what keys refer to. -/
theorem Inv.reindex (h : Inv cfg st K C ρ) {cells : Addr → Option IndexVal} {ht : Clht IndexVal}
    {allocated : List Addr} (hsub : ∀ a ∈ st.allocated, a ∈ allocated) (hzero : 0 ∉ allocated)
    (hresolve : ∀ k, k ≠ 0 → resolve { st with cells := cells, ht := ht, allocated := allocated } k =
      st.resolve k)
    (hfull : ht.Full)
    (hcell : ∀ k c, k ≠ 0 → ht.get k = some (.indirect c) → c ∈ allocated ∧ ∃ p, cells c = some (.oplog p))
    (hinj : ∀ k k' c, k ≠ 0 → k' ≠ 0 → ht.get k = some (.indirect c) → ht.get k' = some (.indirect c) → k = k') :
    Inv cfg { st with cells := cells, ht := ht, allocated := allocated } K C ρ := by
  have hsame : ∀ t, SameFor t st { st with cells := cells, ht := ht, allocated := allocated } ρ ρ := fun t =>
    ⟨fun _ _ => rfl, fun _ _ => .of_eq rfl, rfl, rfl, rfl, rfl⟩
  refine
    { log := fun t => (h.log t).frame (hsame t)
      check := fun t p a hp ha =>
        have hc := h.check t p a hp ha
        hc.congr rfl rfl (hsub a hc.alloc)
      check_unique := h.check_unique
      block := fun a => (h.block a).congr rfl rfl (hsub a)
      allocated := fun a ha => hsub a (h.allocated a ha)
      zero_allocated := hzero
      queued := h.queued
      nodup_queue := h.nodup_queue
      index :=
        { full := hfull
          cell_alloc := fun k c hk hc => (hcell k c hk hc).1
          cell_some := fun k c hk hc => (hcell k c hk hc).2
          cell_inj := hinj
          ref := fun k p hk hr => h.index.ref k p hk ((hresolve k hk).symm.trans hr) }
      owed := h.owed
      acct := fun a => ?_
      dead := h.dead }
  have hrefs : refs { st with cells := cells, ht := ht, allocated := allocated } a = st.refs a := by
    refine List.countP_congr fun o ho => ?_
    simp only [hresolve _ ((h.block a).keys o ho)]
  rw [hrefs]
  exact h.acct a

variable {k k' : Key} {p : Ptr} {c : Addr} {st' : Storage Tid V}

omit [Fintype Tid] in
/-- The words of the index after `clht_install_indirect` on a key with an index entry. -/
theorem IndexInv.get_installIndirect (h : IndexInv st K ρ)
    (hget : st.ht.get k = some (.oplog p)) (c : Addr) (hk' : k' ≠ 0) :
    (st.installIndirect k c).ht.get k' = if k' = k then some (.indirect c) else st.ht.get k' := by
  change (st.ht.redirect k fun _ => some (.indirect c)).get k' = _
  rw [h.full.get_redirect k _ hk', hget]
  rfl

omit [Fintype Tid] in
/-- A new cell is none of the cells in use. -/
theorem IndexInv.cell_ne (h : IndexInv st K ρ) {c' : Addr} (hc : c ∉ st.allocated) (hk : k ≠ 0)
    (hget : st.ht.get k = some (.indirect c')) : c' ≠ c := fun hx => hc (hx ▸ h.cell_alloc k c' hk hget)

omit [Fintype Tid] in
/-- `clht_install_indirect` does not change what keys refer to. -/
theorem IndexInv.resolve_installIndirect (h : IndexInv st K ρ)
    (hget : st.ht.get k = some (.oplog p)) (hc : c ∉ st.allocated) (hk' : k' ≠ 0) :
    (st.installIndirect k c).resolve k' = st.resolve k' := by
  unfold resolve
  rw [h.get_installIndirect hget c hk']
  split_ifs with heq
  · rw [heq, hget]
    simp only [installIndirect, update_self, hget]
  · cases hg : st.ht.get k' with
    | none => rfl
    | some v =>
      cases v with
      | oplog p' => rfl
      | indirect c' => simp only [installIndirect, update_of_ne (h.cell_ne hc hk' hg)]

/-- `clht_install_indirect` on a key with an index entry. -/
theorem Inv.installIndirect (h : Inv cfg st K C ρ)
    (hget : st.ht.get k = some (.oplog p)) (hc0 : c ≠ 0) (hc : c ∉ st.allocated) :
    Inv cfg (st.installIndirect k c) K C ρ := by
  have hget' : ∀ k', k' ≠ 0 → (st.ht.redirect k fun _ => some (.indirect c)).get k' =
      if k' = k then some (.indirect c) else st.ht.get k' := fun k' hk' => h.index.get_installIndirect hget c hk'
  have hcells : update st.cells c (st.ht.get k) c = some (.oplog p) := by
    rw [update_self, hget]
  refine h.reindex (fun a ha => List.mem_cons_of_mem _ ha) ?_
    (fun k' hk' => h.index.resolve_installIndirect hget hc hk')
    (h.index.full.redirect k fun _ _ => nofun) (fun k' c' hk' hg => ?_) (fun k₁ k₂ c' h₁ h₂ hg₁ hg₂ => ?_)
  · simp only [List.mem_cons, not_or]
    exact ⟨Ne.symm hc0, h.zero_allocated⟩
  · rw [hget' k' hk'] at hg
    split_ifs at hg with heq
    · obtain rfl : c = c' := by injection hg with hg; injection hg
      exact ⟨List.mem_cons_self, p, hcells⟩
    · obtain ⟨q, hq⟩ := h.index.cell_some k' c' hk' hg
      exact ⟨List.mem_cons_of_mem _ (h.index.cell_alloc k' c' hk' hg), q,
        (update_of_ne (h.index.cell_ne hc hk' hg) _ _).trans hq⟩
  · rw [hget' k₁ h₁] at hg₁
    rw [hget' k₂ h₂] at hg₂
    split_ifs at hg₁ hg₂ with heq₁ heq₂ heq₂
    · rw [heq₁, heq₂]
    · obtain rfl : c = c' := by injection hg₁ with hg₁; injection hg₁
      exact absurd rfl (h.index.cell_ne hc h₂ hg₂)
    · obtain rfl : c = c' := by injection hg₂ with hg₂; injection hg₂
      exact absurd rfl (h.index.cell_ne hc h₁ hg₁)
    · exact h.index.cell_inj k₁ k₂ c' h₁ h₂ hg₁ hg₂

omit [Fintype Tid] in
/-- What `clht_remove_indirect` does: the word of the key becomes what its cell holds, or stays absent. -/
theorem IndexInv.removeIndirect_eq (h : IndexInv st K ρ) (hk : k ≠ 0)
    (hst' : st.removeIndirect k = some st') : ∃ deref, st' = { st with ht := st.ht.redirect k deref } ∧
      ∀ v, st.ht.get k = some v → ∃ c p, v = .indirect c ∧ st.cells c = some (.oplog p) ∧
        deref (some v) = some (.oplog p) := by
  unfold removeIndirect at hst'
  cases hget : st.ht.get k with
  | none =>
    simp only [hget, Option.some.injEq] at hst'
    exact ⟨_, hst'.symm, nofun⟩
  | some v =>
    cases v with
    | oplog p => simp [hget] at hst'
    | indirect c =>
      simp only [hget, Option.some.injEq] at hst'
      obtain ⟨p, hp⟩ := h.cell_some k c hk hget
      refine ⟨_, hst'.symm, fun v hv => ?_⟩
      cases hv
      exact ⟨c, p, rfl, hp, hp⟩

omit [Fintype Tid] in
/-- `clht_remove_indirect` does not change what keys refer to. -/
theorem IndexInv.resolve_removeIndirect (h : IndexInv st K ρ) (hk : k ≠ 0)
    (hst' : st.removeIndirect k = some st') (hk' : k' ≠ 0) : st'.resolve k' = st.resolve k' := by
  obtain ⟨deref, rfl, hd⟩ := h.removeIndirect_eq hk hst'
  by_cases hne : k' = k
  · subst hne
    have hget : (st.ht.redirect k' deref).get k' = (st.ht.get k').bind fun v => deref (some v) := by
      rw [h.full.get_redirect k' _ hk, if_pos rfl]
    unfold resolve
    simp only [hget]
    cases hv : st.ht.get k' with
    | none => rfl
    | some v =>
      obtain ⟨c, p, rfl, hc, hp⟩ := hd v hv
      simp only [Option.bind_some, hp, hc]
  · refine resolve_congr ?_ rfl
    change (st.ht.redirect k deref).get k' = _
    rw [h.full.get_redirect k _ hk', if_neg hne]

/-- `clht_remove_indirect`. -/
theorem Inv.removeIndirect (h : Inv cfg st K C ρ) (hk : k ≠ 0)
    (hst' : st.removeIndirect k = some st') : Inv cfg st' K C ρ := by
  have hresolve : ∀ k', k' ≠ 0 → st'.resolve k' = st.resolve k' := fun k' hk' =>
    h.index.resolve_removeIndirect hk hst' hk'
  obtain ⟨deref, rfl, hd⟩ := h.index.removeIndirect_eq hk hst'
  have hdirect : ∀ c, (st.ht.redirect k deref).get k ≠ some (.indirect c) := by
    intro c hc
    rw [h.index.full.get_redirect k _ hk, if_pos rfl] at hc
    obtain ⟨v, hv, hdv⟩ := Option.bind_eq_some_iff.mp hc
    obtain ⟨_, p, -, -, hp⟩ := hd v hv
    rw [hp] at hdv
    cases hdv
  have hother : ∀ k' c, k' ≠ 0 → (st.ht.redirect k deref).get k' = some (.indirect c) →
      st.ht.get k' = some (.indirect c) := by
    intro k' c hk' hc
    by_cases hne : k' = k
    · exact absurd (hne ▸ hc) (hdirect c)
    · rwa [h.index.full.get_redirect k _ hk', if_neg hne] at hc
  refine h.reindex (fun _ ha => ha) h.zero_allocated hresolve ?_ (fun k' c hk' hg => ?_)
    (fun k₁ k₂ c h₁ h₂ hg₁ hg₂ => ?_)
  · refine h.index.full.redirect k fun v hv => ?_
    obtain ⟨_, p, -, -, hp⟩ := hd v hv
    rw [hp]
    exact nofun
  · exact ⟨h.index.cell_alloc k' c hk' (hother k' c hk' hg), h.index.cell_some k' c hk' (hother k' c hk' hg)⟩
  · exact h.index.cell_inj k₁ k₂ c h₁ h₂ (hother k₁ c h₁ hg₁) (hother k₂ c h₂ hg₂)

end Rules

end Dinomo
