import Mathlib.Algebra.BigOperators.Group.Finset.Piecewise
import Dinomo.Invariant.Owner

/-!
# Counting references

How the number of references to a block changes when the index word of one key changes, and how the
number of oplogs still to be counted changes when one thread moves on.
-/

namespace Dinomo

open List

variable {Tid V : Type*}

/-- One reference if a pointer leads into block `a`. -/
def hits (a : Addr) (r : Option Ptr) : ℕ := if r.map Ptr.block = some a then 1 else 0

@[simp] theorem hits_none (a : Addr) : hits a none = 0 := rfl

@[simp] theorem hits_some (a : Addr) (p : Ptr) : hits a (some p) = if p.block = a then 1 else 0 := by
  simp [hits]

/-- A key contributes one reference to the block its pointer leads into. -/
theorem countP_key {buf : List (Oplog V)} (hal : Aligned buf) {a : Addr} {k : Key} {r : Option Ptr}
    (hr : ∀ p, r = some p → p.block = a → ∃ o ∈ buf, o.offset = p.off ∧ o.key = k) :
    buf.countP (fun o => decide (r = some ⟨a, o.offset⟩) && decide (o.key = k)) = hits a r := by
  unfold hits
  split_ifs with h
  · obtain ⟨p, rfl, hp⟩ := Option.map_eq_some_iff.mp h
    obtain ⟨o, ho, hoff, hkey⟩ := hr p rfl hp
    -- the entry at the pointer's offset is the only one counted
    obtain ⟨l, l', rfl⟩ := append_of_mem ho
    have hnodup := hal.nodup Oplog.size_pos
    have hzero : ∀ o' ∈ l ++ l', ¬ ((decide (some p = some ⟨a, o'.offset⟩) && decide (o'.key = k)) = true) := by
      intro o' ho' hx
      simp only [Bool.and_eq_true, decide_eq_true_eq, Option.some.injEq] at hx
      have hmem : o' ∈ l ++ o :: l' := by
        rcases mem_append.mp ho' with h' | h' <;> simp [h']
      have heq : o' = o := hal.eq_of_offset Oplog.size_pos hmem ho (by rw [hoff, hx.1])
      subst heq
      rw [nodup_middle, nodup_cons] at hnodup
      exact hnodup.1 ho'
    have h1 : (decide (some p = some ⟨a, o.offset⟩) && decide (o.key = k)) = true := by
      simp [hoff, hkey, ← hp]
    rw [countP_append, countP_cons, if_pos h1,
      countP_eq_zero.mpr fun o' ho' => hzero o' (by simp [ho']),
      countP_eq_zero.mpr fun o' ho' => hzero o' (by simp [ho'])]
  · refine countP_eq_zero.mpr fun o _ hx => h ?_
    simp only [Bool.and_eq_true, decide_eq_true_eq] at hx
    rw [hx.1]
    rfl

/-- The references to a block when what one key refers to changes. -/
theorem refs_add (st st' : Storage Tid V) (k : Key) (a : Addr) (hal : Aligned (st.mem a).buffer)
    (hbuf : (st'.mem a).buffer = (st.mem a).buffer)
    (hother : ∀ o ∈ (st.mem a).buffer, o.key ≠ k → st'.resolve o.key = st.resolve o.key)
    (hold : ∀ p, st.resolve k = some p → p.block = a →
      ∃ o ∈ (st.mem a).buffer, o.offset = p.off ∧ o.key = k)
    (hnew : ∀ p, st'.resolve k = some p → p.block = a →
      ∃ o ∈ (st.mem a).buffer, o.offset = p.off ∧ o.key = k) :
    st'.refs a + hits a (st.resolve k) = st.refs a + hits a (st'.resolve k) := by
  have hsplit : ∀ (P : Oplog V → Bool), (st.mem a).buffer.countP P =
      (st.mem a).buffer.countP (fun o => P o && decide (o.key = k)) +
        (st.mem a).buffer.countP (fun o => P o && !decide (o.key = k)) := fun P => by
    rw [countP_eq_countP_filter_add _ P fun o => decide (o.key = k), countP_filter, countP_filter]
  have hkey : ∀ (st₀ : Storage Tid V), (st.mem a).buffer.countP
      (fun o => decide (st₀.resolve o.key = some ⟨a, o.offset⟩) && decide (o.key = k)) =
        (st.mem a).buffer.countP (fun o => decide (st₀.resolve k = some ⟨a, o.offset⟩) && decide (o.key = k)) := by
    intro st₀
    refine countP_congr fun o _ => ?_
    simp only [Bool.and_eq_true, decide_eq_true_eq]
    exact ⟨fun ⟨h1, h2⟩ => ⟨h2 ▸ h1, h2⟩, fun ⟨h1, h2⟩ => ⟨h2.symm ▸ h1, h2⟩⟩
  have hrest : (st.mem a).buffer.countP
      (fun o => decide (st'.resolve o.key = some ⟨a, o.offset⟩) && !decide (o.key = k)) =
        (st.mem a).buffer.countP
          (fun o => decide (st.resolve o.key = some ⟨a, o.offset⟩) && !decide (o.key = k)) := by
    refine countP_congr fun o ho => ?_
    simp only [Bool.and_eq_true, decide_eq_true_eq, Bool.not_eq_true', decide_eq_false_iff_not]
    exact and_congr_left fun hne => by rw [hother o ho hne]
  unfold Storage.refs
  rw [hbuf, hsplit, hsplit (fun o => decide (st.resolve o.key = some ⟨a, o.offset⟩)), hkey, hkey, hrest,
    countP_key hal hold, countP_key hal hnew]
  omega

/-- Counting an oplog as invalid does not bring a block closer to being reclaimed wrongly, unless it is
the last one of a linked block. -/
theorem CheckOk.count {st st' : Storage Tid V} {ρ : Addr → Role Tid} {a : Addr} (h : CheckOk st ρ a)
    (hd : (st.mem a).SameData (st'.mem a))
    (hle : (st.mem a).localInvalidCounter + (st.mem a).globalInvalidCounter ≤
      (st'.mem a).localInvalidCounter + (st'.mem a).globalInvalidCounter)
    (hlinked : ∀ t, ρ a = .chain t → ¬ (st'.mem a).allInvalid)
    (ha : a ∈ st'.allocated) : CheckOk st' ρ a := by
  refine ⟨ha, ?_⟩
  rcases h.role with ⟨hr, hv⟩ | ⟨t, hr, hpos⟩ | ⟨t, hr, hv, -⟩
  · rw [hd.validCounter, hd.buffer]
    exact Or.inl ⟨hr, hv.imp_right fun ⟨h0, hpos⟩ => ⟨h0, by omega⟩⟩
  · exact Or.inr (Or.inl ⟨t, hr, by omega⟩)
  · exact Or.inr (Or.inr ⟨t, hr, by rw [hd.validCounter]; exact hv, hlinked t hr⟩)

/-- A block with an oplog in it may change its invalidation counters. -/
theorem BlockInv.count {st st' : Storage Tid V} {ρ : Addr → Role Tid} {a : Addr} (h : BlockInv st ρ a)
    (hd : (st.mem a).SameData (st'.mem a)) {o : Oplog V} (ho : o ∈ (st.mem a).buffer)
    (ha : a ∈ st.allocated → a ∈ st'.allocated) : BlockInv st' ρ a := by
  have hnil : (st.mem a).buffer ≠ [] := ne_nil_of_mem ho
  refine ⟨by rw [hd.buffer]; exact h.aligned, by rw [hd.buffer]; exact h.keys, fun hx => absurd ?_ hnil,
    fun t hx => absurd ?_ hnil, fun t hx => absurd ?_ hnil, fun t hx => by rw [hd.validCounter]; exact h.repl t hx,
    fun hx => by rw [hd.validCounter, hd.buffer]; exact h.retired hx⟩
  · rw [h.unalloc fun hy => hx (ha hy)]
    rfl
  · rw [h.prealloc t hx]
    rfl
  · exact congrArg LogBlock.buffer (h.linking t hx)

section Counted

variable {st st' : Storage Tid V} {K K' : Tid → KnCore V} {ρ : Addr → Role Tid} {sup : Option Ptr} {a : Addr}

/-- A step that counts at most one oplog as invalid, and changes nothing else in the blocks. -/
structure Counted (st st' : Storage Tid V) (sup : Option Ptr) : Prop where
  allocated : st'.allocated = st.allocated
  queue : st'.reservedAllocQueue = st.reservedAllocQueue
  data : ∀ b, (st.mem b).SameData (st'.mem b)
  same : ∀ b, hits b sup = 0 → st'.mem b = st.mem b
  count : ∀ b, (st'.mem b).localInvalidCounter + (st'.mem b).globalInvalidCounter =
    (st.mem b).localInvalidCounter + (st.mem b).globalInvalidCounter + hits b sup

/-- Counters that agree did so before, or the counted oplog was the last valid one. -/
theorem Counted.agree (h : Counted st st' sup) (hall : (st'.mem a).allInvalid) :
    ((st.mem a).allInvalid ∧ ∀ r, sup = some r → r.block ≠ a) ∨
      ∃ r, sup = some r ∧ r.block = a ∧ (st.mem a).lastValid := by
  have hx : (st'.mem a).validCounter = _ := hall
  rw [(h.data a).validCounter, h.count a] at hx
  cases sup with
  | none => exact .inl ⟨hx, by simp⟩
  | some r =>
    rw [hits_some] at hx
    split_ifs at hx with hr
    · exact .inr ⟨r, rfl, hr, hx⟩
    · refine .inl ⟨hx, fun r' hr' => ?_⟩
      cases hr'
      exact hr

/-- A comparison under way stays sound if the last valid oplog of a linked block is not counted. -/
theorem Counted.checkOk [Fintype Tid] (h : Counted st st' sup) (hpool : PoolInv st K ρ) (hc : CheckOk st ρ a)
    (hlast : ∀ r, sup = some r → r.block = a → (st.mem a).lastValid → ∀ t, ρ a ≠ .chain t) : CheckOk st' ρ a := by
  refine hc.count (h.data a) ((Nat.le_add_right _ _).trans_eq (h.count a).symm) (fun t hrole hall => ?_)
    (by rw [h.allocated]; exact hc.alloc)
  rcases h.agree hall with ⟨hall, -⟩ | ⟨r, hr, hra, hlv⟩
  · rw [(hc.dead (hpool.block a) hall).1] at hrole
    cases hrole
  · exact hlast r hr hra hlv t hrole

/-- After such a step the comparisons, the index and the counters have to be looked at. -/
theorem PoolInv.counted [Fintype Tid] (h : PoolInv st K ρ) (hs : Counted st st' sup)
    (hsup : ∀ r, sup = some r → ∃ o ∈ (st.mem r.block).buffer, o.offset = r.off)
    (hcheck : ∀ t p a, st'.progressTable t = some p → p.check = some a → CheckOk st' ρ a)
    (hunique : ∀ t t' p p' a, st'.progressTable t = some p → st'.progressTable t' = some p' →
      p.check = some a → p'.check = some a → (st'.mem a).allInvalid → t = t')
    (hindex : IndexInv st' K' ρ)
    (howed : ∀ t p off, (K' t).view.owed = some (p, off) →
      (∃ o ∈ (st.mem p.block).buffer, o.offset = p.off) ∧ ∀ n, off = some n → n = p.off)
    (hacct : ∀ b, st'.refs b + hits b sup + owedTo K' b + st.released K ρ b ≤
      st.refs b + owedTo K b + st'.released K' ρ b) : PoolInv st' K' ρ where
  check := hcheck
  check_unique := hunique
  block b := by
    by_cases hb : hits b sup = 0
    · exact (h.block b).congr rfl (hs.same b hb) (by rw [hs.allocated]; exact id)
    · obtain ⟨r, hr, rfl⟩ := Option.map_eq_some_iff.mp (by_contra fun hmap => hb (if_neg hmap))
      obtain ⟨o, ho, -⟩ := hsup r hr
      exact (h.block _).count (hs.data _) ho (by rw [hs.allocated]; exact id)
  allocated := by rw [hs.allocated]; exact h.allocated
  zero_allocated := by rw [hs.allocated]; exact h.zero_allocated
  queued := by rw [hs.queue]; exact h.queued
  nodup_queue := by rw [hs.queue]; exact h.nodup_queue
  index := hindex
  owed t p off ho := by rw [(hs.data _).buffer]; exact howed t p off ho
  acct b := by
    have hac := h.acct b
    have hcb := hs.count b
    have hb := hacct b
    omega
  dead b hb := by
    rw [hs.queue] at hb
    have hrole := (h.queued b).mp hb
    have hdead := h.dead b hb
    have hcb := hs.count b
    have hreleased : st'.released K' ρ b = st.released K ρ b :=
      Storage.released_congr rfl (hs.data b).buffer (fun _ hx => by simp [hrole] at hx)
        fun _ _ hx => by simp [hrole] at hx
    omega

/-- The references to the blocks when one key is redirected. -/
theorem PoolInv.refs_redirect [Fintype Tid] (h : PoolInv st K ρ) (hs : Counted st st' sup) (hindex : IndexInv st' K' ρ)
    {k : Key} (hk : k ≠ 0) (hother : ∀ k', k' ≠ 0 → k' ≠ k → st'.resolve k' = st.resolve k') (b : Addr) :
    st'.refs b + hits b (st.resolve k) = st.refs b + hits b (st'.resolve k) := by
  refine refs_add st st' k b (h.block b).aligned (hs.data b).buffer
    (fun o ho hne => hother _ ((h.block b).keys o ho) hne) (fun p hp hpb => ?_) fun p hp hpb => ?_
  · obtain ⟨o, ho, hoff, hkey, -⟩ := h.index.ref k p hk hp
    exact ⟨o, hpb ▸ ho, hoff, hkey⟩
  · obtain ⟨o, ho, hoff, hkey, -⟩ := hindex.ref k p hk hp
    rw [(hs.data _).buffer] at ho
    exact ⟨o, hpb ▸ ho, hoff, hkey⟩

end Counted

/-- The oplogs still to be counted when one thread moves on. -/
theorem owedTo_update [DecidableEq Tid] [Fintype Tid] (K : Tid → KnCore V) (t : Tid) (k' : KnCore V)
    (a : Addr) : owedTo (Function.update K t k') a + hits a ((K t).view.owed.map Prod.fst) =
      owedTo K a + hits a (k'.view.owed.map Prod.fst) := by
  have hsum : ∀ K' : Tid → KnCore V, owedTo K' a = ∑ t', hits a ((K' t').view.owed.map Prod.fst) := by
    intro K'
    simp only [owedTo, hits, Finset.card_filter, Option.map_map]
    rfl
  rw [hsum, hsum, ← Finset.add_sum_erase _ _ (Finset.mem_univ t),
    ← Finset.add_sum_erase Finset.univ (fun t' => hits a ((K t').view.owed.map Prod.fst)) (Finset.mem_univ t),
    Function.update_self]
  have hrest : ∑ t' ∈ Finset.univ.erase t, hits a ((Function.update K t k' t').view.owed.map Prod.fst) =
      ∑ t' ∈ Finset.univ.erase t, hits a ((K t').view.owed.map Prod.fst) :=
    Finset.sum_congr rfl fun t' ht' => by rw [Function.update_of_ne (Finset.ne_of_mem_erase ht')]
  omega

end Dinomo
