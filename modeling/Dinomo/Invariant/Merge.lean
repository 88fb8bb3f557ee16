import Dinomo.IndexSpec
import Dinomo.Invariant.Passes

/-!
# Applying an oplog keeps the invariant

A pass applies the next published oplog of its log to the index and counts the superseded oplog as
invalid in the block that holds it.  The counters of that block are compared next, without regard to
where the block is: this is sound as long as it is neither linked in the log of another thread nor
about to be compared by another pass.
-/

namespace Dinomo

open Chain Storage

variable {Tid V : Type*} {cfg : Config} {st : Storage Tid V} {K : Tid → KnCore V} {C : Tid → List Addr}
  {ρ : Addr → Role Tid} {t : Tid} {p : Pass}

/-- The oplog the next step of a pass applies. -/
def Storage.nextOplog (st : Storage Tid V) (p : Pass) : Option (Oplog V) :=
  if p.check = none ∧ p.phase = .scan ∧ p.offset < (st.mem p.next).offset then
    (st.mem p.next).entryAt p.offset
  else none

/-- The next oplog of a pass does not supersede the last valid oplog of a block that is linked in
another log or that another pass is about to compare. -/
def Storage.SupersedesSafely (st : Storage Tid V) (t : Tid) : Prop :=
  ∀ p o v, st.progressTable t = some p → st.nextOplog p = some o → st.superseded o = some v →
    ∃ q : Ptr, v = .oplog q ∧ ((st.mem q.block).lastValid →
      (q.block = p.next ∨ ∀ t', t' ≠ t → ¬ st.Linked t' q.block) ∧
      ∀ t' p', t' ≠ t → st.progressTable t' = some p' → p'.check ≠ some q.block)

/-- The blocks after an oplog is applied: one counter is incremented if something was superseded. -/
theorem Storage.mem_apply {o : Oplog V} {q : Ptr} {sup : Option Ptr}
    (hsup : st.superseded o = sup.map .oplog) (hblock : ∀ r, sup = some r → st.logBlockMerged (.oplog r) = r.block)
    (b : Addr) : (st.applyOplog t q o).mem b =
      { st.mem b with localInvalidCounter := (st.mem b).localInvalidCounter + hits b sup } := by
  unfold applyOplog
  rw [hsup]
  cases sup with
  | none => rfl
  | some r =>
    have hr := hblock r rfl
    change (Function.update st.mem (st.logBlockMerged (.oplog r)) _ b) = _
    rw [hr]
    by_cases hb : b = r.block
    · subst hb
      rw [Function.update_self, hits_some, if_pos rfl]
      change { st.mem (st.logBlockMerged (.oplog r)) with
        localInvalidCounter := (st.mem (st.logBlockMerged (.oplog r))).localInvalidCounter + 1 } = _
      rw [hr]
    · rw [Function.update_of_ne hb, hits_some, if_neg (Ne.symm hb)]
      rfl

variable {o : Oplog V}

/-- Applying an oplog changes an invalidation counter of a block at most. -/
theorem Storage.data_applyOplog (st : Storage Tid V) (t : Tid) (q : Ptr) (o : Oplog V) (b : Addr) :
    (st.mem b).SameData ((st.applyOplog t q o).mem b) := by
  unfold applyOplog
  cases st.superseded o with
  | none => exact .of_eq rfl
  | some v =>
    simp only [invalidate]
    by_cases hb : b = logBlockMerged { st with
        ht := indexAfter st.ht q o, applied := st.applied ++ [⟨t, q, o⟩] } v
    · rw [← hb, mem_modBlock_self]
      exact ⟨rfl, rfl, rfl, rfl, rfl⟩
    · rw [mem_modBlock_of_ne _ hb]
      exact .of_eq rfl

/-- The oplog a pass applies next lies at its offset. -/
theorem Storage.nextOplog_eq_some : st.nextOplog p = some o ↔ p.check = none ∧ p.phase = .scan ∧
    p.offset < (st.mem p.next).offset ∧ (st.mem p.next).entryAt p.offset = some o := by
  unfold nextOplog
  split_ifs with hc
  · simp [hc]
  · simp only [false_iff]
    exact fun h => hc ⟨h.1, h.2.1, h.2.2.1⟩

section Applies

variable [DecidableEq Tid] {st' : Storage Tid V} {q : Pass} {t' : Tid} {b : Addr}

/-- What applying an oplog changes: the index, how far the pass is, and counters. -/
structure Storage.Applies (st st' : Storage Tid V) (t : Tid) (p q : Pass) (o : Oplog V) : Prop where
  ht : st'.ht = indexAfter st.ht ⟨p.next, p.offset⟩ o
  cells : st'.cells = st.cells
  applied : st'.applied = st.applied ++ [⟨t, ⟨p.next, p.offset⟩, o⟩]
  allocated : st'.allocated = st.allocated
  queue : st'.reservedAllocQueue = st.reservedAllocQueue
  slots : st'.logMappingTable = st.logMappingTable
  replies : st'.mergeReply = st.mergeReply
  done : st'.failoverDone = st.failoverDone
  pass : st'.progressTable = Function.update st.progressTable t (some q)
  data : ∀ b, (st.mem b).SameData (st'.mem b)
  phase : q.phase = p.phase
  next : q.next = p.next
  offset : q.offset = p.offset + o.size

/-- A pass applies an oplog and goes on behind it. -/
theorem Storage.applies (st : Storage Tid V) (t : Tid) (o : Oplog V) (hphase : q.phase = p.phase)
    (hnext : q.next = p.next) (hoffset : q.offset = p.offset + o.size) :
    st.Applies ((st.applyOplog t ⟨p.next, p.offset⟩ o).setPass t (some q)) t p q o := by
  have hdata := st.data_applyOplog t ⟨p.next, p.offset⟩ o
  rw [applyOplog_eq]
  exact ⟨rfl, rfl, rfl, rfl, rfl, rfl, rfl, rfl, rfl, hdata, hphase, hnext, hoffset⟩

namespace Storage.Applies

theorem pass_self (ha : st.Applies st' t p q o) : st'.progressTable t = some q := by
  rw [ha.pass, Function.update_self]

theorem pass_of_ne (ha : st.Applies st' t p q o) (ht' : t' ≠ t) : st'.progressTable t' = st.progressTable t' := by
  rw [ha.pass, Function.update_of_ne ht']

/-- The index refers to the same oplogs for the other keys. -/
theorem resolve_of_ne (ha : st.Applies st' t p q o) (hf : st.ht.Full) {k : Key} (hk : k ≠ 0) (hne : k ≠ o.key) :
    st'.resolve k = st.resolve k :=
  resolve_congr (by rw [ha.ht, get_indexAfter hf _ _ hk, if_neg hne]) ha.cells

/-- What applying an oplog does to its key: nothing, or the key now refers to the oplog or to nothing,
and what it referred to is superseded. -/
theorem superseded (ha : st.Applies st' t p q o) (hf : st.ht.Full) (hk : o.key ≠ 0)
    (hdirect : ∀ v, st.superseded o = some v → ∃ r, v = .oplog r) :
    ∃ sup : Option Ptr, st.superseded o = sup.map .oplog ∧ (∀ r, sup = some r → st.resolve o.key = some r) ∧
      ((st'.resolve o.key = st.resolve o.key ∧ sup = none) ∨
        ((st'.resolve o.key = none ∨ (st'.resolve o.key = some ⟨p.next, p.offset⟩ ∧ o.opType.isWrite)) ∧
          sup = st.resolve o.key)) := by
  have hget : st'.ht.get o.key = o.opType.wordAfter (.oplog ⟨p.next, p.offset⟩) (st.ht.get o.key) := by
    rw [ha.ht, get_indexAfter hf _ o hk, if_pos rfl]
  unfold Storage.superseded at hdirect ⊢
  unfold resolve
  rw [hget, ha.cells]
  cases hop : o.opType with
  | insert =>
    cases hg : st.ht.get o.key with
    | none => exact ⟨none, rfl, fun _ hr => hr, .inr ⟨.inr ⟨rfl, rfl⟩, rfl⟩⟩
    | some v => exact ⟨none, rfl, by simp, .inl ⟨rfl, rfl⟩⟩
  | update =>
    cases hg : st.ht.get o.key with
    | none => exact ⟨none, rfl, by simp, .inl ⟨rfl, rfl⟩⟩
    | some v =>
      obtain ⟨r, rfl⟩ := hdirect v (by simp only [hop, hg])
      exact ⟨some r, rfl, fun _ hr => hr, .inr ⟨.inr ⟨rfl, rfl⟩, rfl⟩⟩
  | delete =>
    cases hg : st.ht.get o.key with
    | none => exact ⟨none, rfl, by simp, .inl ⟨rfl, rfl⟩⟩
    | some v =>
      obtain ⟨r, rfl⟩ := hdirect v (by simp only [hop, hg])
      exact ⟨some r, rfl, fun _ hr => hr, .inr ⟨.inl rfl, rfl⟩⟩

/-- The other blocks of the log are merged as far as before. -/
theorem mpos_of_ne (ha : st.Applies st' t p q o) (hp : st.progressTable t = some p) (hne : t' = t → b ≠ p.next) :
    st'.mpos t' b = st.mpos t' b := by
  by_cases ht' : t' = t
  · subst ht'
    rw [Storage.mpos_of_ne ha.pass_self fun _ => ha.next ▸ Ne.symm (hne rfl),
      Storage.mpos_of_ne hp fun _ => Ne.symm (hne rfl)]
    exact (ha.data b).mergedOffset
  · exact mpos_congr (ha.pass_of_ne ht') (ha.data b).mergedOffset

/-- The oplog is merged. -/
theorem mpos_next (ha : st.Applies st' t p q o) (hphase : p.phase = .scan) :
    st'.mpos t p.next = p.offset + o.size := by
  rw [← ha.next, mpos_scan ha.pass_self (ha.phase.trans hphase), ha.offset]

/-- What had reached the index has still reached it. -/
theorem isReleased (ha : st.Applies st' t p q o) (hp : st.progressTable t = some p) (hphase : p.phase = .scan)
    (hrole : ρ p.next = .chain t) {o' : Oplog V} (hx : st.isReleased K ρ b o' = true) :
    st'.isReleased K ρ b o' = true := by
  by_cases hb : b = p.next
  · subst hb
    simp only [Storage.isReleased, hrole, decide_eq_true_eq, mpos_scan hp hphase, ha.mpos_next hphase] at hx ⊢
    omega
  · rw [isReleased_congr rfl (fun t' _ => ha.mpos_of_ne hp fun _ => hb) fun _ _ _ => rfl]
    exact hx

/-- The oplog has reached the index. -/
theorem isReleased_next (ha : st.Applies st' t p q o) (hphase : p.phase = .scan) (hrole : ρ p.next = .chain t)
    (hoff : o.offset = p.offset) : st'.isReleased K ρ p.next o = true := by
  have hsize := o.size_pos
  simp only [Storage.isReleased, hrole, decide_eq_true_eq, ha.mpos_next hphase]
  omega

theorem released_le (ha : st.Applies st' t p q o) (hp : st.progressTable t = some p) (hphase : p.phase = .scan)
    (hrole : ρ p.next = .chain t) (b : Addr) : st.released K ρ b ≤ st'.released K ρ b := by
  rw [released, released, (ha.data b).buffer]
  exact writesIn_mono fun o' _ hx => ha.isReleased hp hphase hrole hx

/-- An insertion or update is one more write that has reached the index. -/
theorem released_succ_le (ha : st.Applies st' t p q o) (hp : st.progressTable t = some p) (hphase : p.phase = .scan)
    (hrole : ρ p.next = .chain t) (ho : o ∈ (st.mem p.next).buffer) (hoff : o.offset = p.offset)
    (hw : o.opType.isWrite = true) : st.released K ρ p.next + 1 ≤ st'.released K ρ p.next := by
  rw [released, released, (ha.data _).buffer]
  refine writesIn_succ_le (fun o' _ hx => ha.isReleased hp hphase hrole hx) ho hw ?_
    (ha.isReleased_next hphase hrole hoff)
  simp only [Storage.isReleased, hrole, decide_eq_false_iff_not, mpos_scan hp hphase, hoff]
  omega

end Storage.Applies

end Applies

section Rules

variable [DecidableEq Tid] [Fintype Tid]

omit [DecidableEq Tid] in
/-- An oplog the index refers to can be found from its pool address. -/
theorem Inv.logBlockMerged_eq (h : Inv cfg st K C ρ) {k : Key} (hk : k ≠ 0) {r : Ptr}
    (hr : st.resolve k = some r) : st.logBlockMerged (.oplog r) = r.block := by
  obtain ⟨o, ho, hoff, -⟩ := h.index.ref k r hk hr
  refine logBlockMerged_oplog (o := o) ?_ hoff
  rw [oplogAt, ← hoff]
  exact LogBlock.entryAt_of_mem (h.block r.block).aligned ho

omit [DecidableEq Tid] in
/-- A superseded block other than the one being merged: nobody owns it, it is a replicated block, or
it is linked in another log. -/
theorem Inv.superseded_role (h : Inv cfg st K C ρ) (hp : st.progressTable t = some p) (hphase : p.phase = .scan)
    {k : Key} (hk : k ≠ 0) {r : Ptr} (hr : st.resolve k = some r) (hne : r.block ≠ p.next) :
    ρ r.block = .unowned ∨ (∃ t', ρ r.block = .repl t') ∨ ∃ t', t' ≠ t ∧ ρ r.block = .chain t' := by
  obtain ⟨o, ho, hoff, -, -, hrel⟩ := h.index.ref k r hk hr
  cases hrole : ρ r.block with
  | unowned => exact Or.inl rfl
  | repl t' => exact Or.inr (Or.inl ⟨t', rfl⟩)
  | queued =>
    have hpos := h.refs_pos hk hr
    have hzero := (h.queue_unreferenced ((h.queued _).mpr hrole)).1
    omega
  | chain t' =>
    refine Or.inr (Or.inr ⟨t', ?_, rfl⟩)
    -- nothing is merged yet in the newer blocks of the log
    rintro rfl
    have hpos := ((h.log t').pass p hp).pos
    simp only [PassPos, hphase] at hpos
    obtain ⟨pre, hC, -⟩ := hpos
    have hmem := ((h.chain t').mem_iff _).mpr hrole
    have hzero := (h.chain t').merged_zero r.block (by
      rw [hC, ← List.append_assoc, List.dropLast_concat]
      rw [hC, ← List.append_assoc] at hmem
      exact (List.mem_append.mp hmem).resolve_right fun hx => hne (List.mem_singleton.mp hx))
    simp only [isReleased, hrole, decide_eq_true_eq] at hrel
    rw [mpos_of_ne hp fun _ => Ne.symm hne, hzero] at hrel
    omega
  | linking t' =>
    rw [(h.blank (Or.inr hrole)).buffer] at ho
    cases ho
  | prealloc t' =>
    rw [(h.blank (Or.inl hrole)).buffer] at ho
    cases ho

omit [DecidableEq Tid] in
/-- The block of a superseded oplog may be compared, unless it is linked elsewhere and has no other. -/
theorem Inv.checkOk_superseded (h : Inv cfg st K C ρ) (hp : st.progressTable t = some p)
    (hphase : p.phase = .scan) {k : Key} (hk : k ≠ 0) {r : Ptr} (hr : st.resolve k = some r)
    (hne : r.block ≠ p.next) (hlinked : ∀ t', t' ≠ t → ρ r.block = .chain t' → ¬ (st.mem r.block).lastValid)
    {st' : Storage Tid V} (halloc : st'.allocated = st.allocated)
    (hd : (st.mem r.block).SameData (st'.mem r.block))
    (hcount : (st'.mem r.block).localInvalidCounter + (st'.mem r.block).globalInvalidCounter =
      (st.mem r.block).localInvalidCounter + (st.mem r.block).globalInvalidCounter + 1) :
    CheckOk st' ρ r.block := by
  obtain ⟨o, ho, hoff, -, hw, hrel⟩ := h.index.ref k r hk hr
  refine ⟨?_, ?_⟩
  · rw [halloc]
    by_contra hx
    rw [(h.block _).unalloc hx] at ho
    cases ho
  rcases h.superseded_role hp hphase hk hr hne with hx | ⟨t', hx⟩ | ⟨t', ht', hx⟩
  · refine Or.inl ⟨hx, ?_⟩
    rw [hd.validCounter, hd.buffer]
    rcases (h.block _).retired hx with hv | hv
    · exact Or.inr ⟨hv, by omega⟩
    · exact Or.inl hv
  · exact Or.inr (Or.inl ⟨t', hx, by omega⟩)
  · have hvalid := ((h.chain t').block _ (((h.chain t').mem_iff _).mpr hx)).valid
    have hle := h.mpos_le hx
    refine Or.inr (Or.inr ⟨t', hx, ?_, fun hall => hlinked t' ht' hx ?_⟩)
    · simp only [isReleased, hx, decide_eq_true_eq] at hrel
      rw [hd.validCounter, hvalid]
      exact List.countP_pos_iff.mpr ⟨o, ho, by simp only [hw, Bool.true_and, decide_eq_true_eq]; omega⟩
    · have : (st'.mem r.block).validCounter = _ := hall
      rw [hd.validCounter, hcount] at this
      exact this

omit [DecidableEq Tid] in
/-- The next oplog of a pass is a published one of the block the pass is in. -/
theorem Inv.nextOplog_mem (h : Inv cfg st K C ρ) (hp : st.progressTable t = some p)
    (hnext : st.nextOplog p = some o) : p.phase = .scan ∧ ρ p.next = .chain t ∧ o ∈ (st.mem p.next).buffer ∧
      o.offset = p.offset ∧ p.offset + o.size ≤ (st.mem p.next).offset := by
  obtain ⟨-, hphase, hlt, hentry⟩ := nextOplog_eq_some.mp hnext
  obtain ⟨o', ho, hoff, ho', hend⟩ := h.scan_entry hp hphase hlt
  obtain rfl := Option.some.inj (hentry.symm.trans ho')
  have hpos := ((h.log t).pass p hp).pos
  simp only [PassPos, hphase] at hpos
  obtain ⟨pre, hC, -⟩ := hpos
  exact ⟨hphase, ((h.chain t).mem_iff _).mp (by rw [hC]; simp), ho, hoff, hend⟩

/-- The index refers to existing oplogs after an oplog is applied to its key. -/
theorem Inv.index_applies (h : Inv cfg st K C ρ) (hp : st.progressTable t = some p)
    (hnext : st.nextOplog p = some o) {st' : Storage Tid V} {q : Pass} (ha : st.Applies st' t p q o)
    (heffect : st'.resolve o.key = st.resolve o.key ∨ st'.resolve o.key = none ∨
      (st'.resolve o.key = some ⟨p.next, p.offset⟩ ∧ o.opType.isWrite)) : IndexInv st' K ρ := by
  obtain ⟨hphase, hrole, ho, hoff, -⟩ := h.nextOplog_mem hp hnext
  have hindirect : ∀ k c, k ≠ 0 → st'.ht.get k = some (.indirect c) → st.ht.get k = some (.indirect c) := by
    intro k c hk hc
    rw [ha.ht, get_indexAfter h.index.full _ _ hk] at hc
    split_ifs at hc with heq
    · rw [heq]
      exact OpType.eq_indirect_of_wordAfter hc
    · exact hc
  refine
    { full := by rw [ha.ht]; exact full_indexAfter h.index.full _ _
      cell_alloc := fun k c hk hc => ?_
      cell_some := fun k c hk hc => by rw [ha.cells]; exact h.index.cell_some k c hk (hindirect k c hk hc)
      cell_inj := fun k k' c hk₁ hk₂ hc hc' =>
        h.index.cell_inj k k' c hk₁ hk₂ (hindirect k c hk₁ hc) (hindirect k' c hk₂ hc')
      ref := fun k r hk hr => ?_ }
  · rw [ha.allocated]
    exact h.index.cell_alloc k c hk (hindirect k c hk hc)
  have hkept : st.resolve k = some r → ∃ o' ∈ (st'.mem r.block).buffer, o'.offset = r.off ∧
      o'.key = k ∧ o'.opType.isWrite ∧ st'.isReleased K ρ r.block o' := fun hr => by
    obtain ⟨o', hmo, hoff', hok, hw, hm⟩ := h.index.ref k r hk hr
    exact ⟨o', (ha.data _).buffer.symm ▸ hmo, hoff', hok, hw, ha.isReleased hp hphase hrole hm⟩
  by_cases heq : k = o.key
  · subst heq
    rcases heffect with hsame | hnone | ⟨hnew, hw⟩
    · exact hkept (hsame.symm.trans hr)
    · cases hnone.symm.trans hr
    · cases hnew.symm.trans hr
      exact ⟨o, (ha.data _).buffer.symm ▸ ho, hoff, rfl, hw, ha.isReleased_next hphase hrole hoff⟩
  · exact hkept ((ha.resolve_of_ne h.index.full hk heq).symm.trans hr)

/-- A pass applies the next oplog of its log. -/
theorem Inv.applyStep (h : Inv cfg st K C ρ) (hp : st.progressTable t = some p)
    (hnext : st.nextOplog p = some o) (hsafe : st.SupersedesSafely t) :
    Inv cfg ((st.applyOplog t ⟨p.next, p.offset⟩ o).setPass t
      (some { p with offset := p.offset + o.size, check := st.checkAfter p.next o })) K C ρ := by
  obtain ⟨hphase, hrole, ho, hoff, hend⟩ := h.nextOplog_mem hp hnext
  have hk := (h.block p.next).keys o ho
  generalize hq : ({ p with offset := p.offset + o.size, check := st.checkAfter p.next o } : Pass) = q
  have ha : st.Applies ((st.applyOplog t ⟨p.next, p.offset⟩ o).setPass t (some q)) t p q o := by
    subst hq
    exact st.applies t o rfl rfl rfl
  obtain ⟨sup, hsup, hold, heffect⟩ := ha.superseded h.index.full hk fun v hv =>
    (hsafe p o v hp hnext hv).imp fun _ hr => hr.1
  have hblock : ∀ r, sup = some r → st.logBlockMerged (.oplog r) = r.block := fun r hr =>
    h.logBlockMerged_eq hk (hold r hr)
  have hmem : ∀ b, ((st.applyOplog t ⟨p.next, p.offset⟩ o).setPass t (some q)).mem b =
      { st.mem b with localInvalidCounter := (st.mem b).localInvalidCounter + hits b sup } := mem_apply hsup hblock
  generalize (st.applyOplog t ⟨p.next, p.offset⟩ o).setPass t (some q) = st' at *
  have hcounted : Counted st st' sup := by
    refine ⟨ha.allocated, ha.queue, ha.data, fun b hb => (hmem b).trans (by rw [hb]; rfl), fun b => ?_⟩
    rw [hmem b, Nat.add_right_comm]
  -- the block to be compared next
  have hckt : ∀ a, q.check = some a → ∃ r, sup = some r ∧ a = r.block ∧ r.block ≠ p.next := by
    intro a ha
    rw [← hq] at ha
    simp only [checkAfter, hsup] at ha
    cases sup with
    | none => simp at ha
    | some r =>
      simp only [Option.map_some, hblock r rfl] at ha
      split_ifs at ha with hx
      exact ⟨r, rfl, (Option.some.inj ha).symm, hx⟩
  have hlast : ∀ r, sup = some r → (st.mem r.block).lastValid →
      (r.block = p.next ∨ ∀ t', t' ≠ t → ¬ st.Linked t' r.block) ∧
        ∀ t' p', t' ≠ t → st.progressTable t' = some p' → p'.check ≠ some r.block := by
    intro r hr
    obtain ⟨r', hr', hx⟩ := hsafe p o (.oplog r) hp hnext (by rw [hsup, hr]; rfl)
    obtain rfl : r = r' := by injection hr'
    exact hx
  have hck : ∀ t' p' a, st'.progressTable t' = some p' → p'.check = some a →
      (t' = t ∧ ∃ r, sup = some r ∧ a = r.block ∧ r.block ≠ p.next) ∨
        (t' ≠ t ∧ st.progressTable t' = some p') := by
    intro t' p' a hp' hca
    by_cases ht' : t' = t
    · rw [ht', ha.pass_self] at hp'
      cases hp'
      exact Or.inl ⟨ht', hckt a hca⟩
    · exact Or.inr ⟨ht', ha.pass_of_ne ht' ▸ hp'⟩
  have hsame : ∀ t', t' ≠ t → SameFor t' st st' ρ ρ := fun t' ht' =>
    ⟨fun _ _ => rfl, fun b _ => ha.data b, by rw [ha.slots], ha.pass_of_ne ht', by rw [ha.replies], by rw [ha.done]⟩
  have hlog : LogInv cfg st' (C t) ρ t (K t) := by
    have hslot : st'.logMappingTable t = st.logMappingTable t := by rw [ha.slots]
    refine h.logInv hp ha.pass_self (by rw [← hq]) (by rw [ha.replies]) (by rw [ha.done])
      ((h.thread t).congr (h.chain t) (fun _ _ => rfl) (fun b _ => ha.data b) hslot)
      ((h.chain t).congr (fun _ => Iff.rfl) (fun b _ => ha.data b) hslot)
      ((?_ : PassPos st (C t) q).congr fun b _ => ha.data b) fun hx => hx.congr fun b _ => ha.data b
    have hpos := ((h.log t).pass p hp).pos
    rw [← hq]
    simp only [PassPos, hphase] at hpos ⊢
    obtain ⟨pre, hC, hhead, hprev, hworker, hpre, -, hmle, -⟩ := hpos
    refine ⟨pre, hC, hhead, hprev, hworker, hpre, ?_, by omega, hend⟩
    rw [← hoff]
    exact (h.block p.next).aligned.boundary_after ho
  have hindex : IndexInv st' K ρ := h.index_applies hp hnext ha (heffect.imp And.left And.left)
  refine { h.counted hcounted (fun r hr => ?_) (fun t' p' a hp' hca => ?_) (fun t₁ t₂ p₁ p₂ a h₁ h₂ ha₁ ha₂ hall => ?_)
    hindex h.owed (fun b => ?_) with log := fun t' => ?_ }
  · obtain ⟨o', hmo, hoff', -⟩ := h.index.ref o.key r hk (hold r hr)
    exact ⟨o', hmo, hoff'⟩
  · rcases hck t' p' a hp' hca with ⟨-, r, hr, rfl, hne⟩ | ⟨ht', hp'⟩
    · refine h.checkOk_superseded hp hphase hk (hold r hr) hne (fun t'' ht'' hx hlv => ?_) ha.allocated
        (ha.data _) ((hcounted.count r.block).trans (by rw [hr, hits_some, if_pos rfl]))
      exact ((hlast r hr hlv).1.resolve_left hne) t'' ht'' (h.linked_iff.mpr hx)
    · refine hcounted.checkOk h.toPoolInv (h.check t' p' a hp' hca) fun r hr hra hlv => ?_
      subst hra
      exact absurd hca ((hlast r hr hlv).2 t' p' ht' hp')
  · rcases hcounted.agree hall with ⟨hall, hne⟩ | ⟨r, hr, rfl, hlv⟩
    · have hother : ∀ t' p', st'.progressTable t' = some p' → p'.check = some a →
          st.progressTable t' = some p' := by
        intro t' p' hp' ha
        rcases hck t' p' a hp' ha with ⟨-, r, hr, rfl, -⟩ | ⟨-, hp'⟩
        · exact absurd rfl (hne r hr)
        · exact hp'
      exact h.check_unique t₁ t₂ p₁ p₂ a (hother t₁ p₁ h₁ ha₁) (hother t₂ p₂ h₂ ha₂) ha₁ ha₂ hall
    · have hme : ∀ t' p', st'.progressTable t' = some p' → p'.check = some r.block →
          t' = t := by
        intro t' p' hp' ha
        rcases hck t' p' _ hp' ha with ⟨rfl, -⟩ | ⟨ht', hp'⟩
        · rfl
        · exact absurd ha ((hlast r hr hlv).2 t' p' ht' hp')
      exact (hme t₁ p₁ h₁ ha₁).trans (hme t₂ p₂ h₂ ha₂).symm
  · have hadd := h.refs_redirect hcounted hindex hk (fun k => ha.resolve_of_ne h.index.full) b
    have hrb : st.released K ρ b ≤ st'.released K ρ b := ha.released_le hp hphase hrole b
    rcases heffect with ⟨hsame', hs⟩ | ⟨hnone | ⟨hnew, hw⟩, hs⟩
    · rw [hsame'] at hadd
      rw [hs, hits_none]
      omega
    · rw [hnone, hits_none] at hadd
      rw [hs]
      omega
    · rw [hnew, hits_some] at hadd
      rw [hs]
      split_ifs at hadd with hx
      · obtain rfl : p.next = b := hx
        have : st.released K ρ p.next + 1 ≤ st'.released K ρ p.next :=
          ha.released_succ_le hp hphase hrole ho hoff hw
        omega
      · omega
  · by_cases ht' : t' = t
    · rw [ht']
      exact hlog
    · exact (h.log t').frame (hsame t' ht')

end Rules

end Dinomo
