import Mathlib.Order.Lattice
import Mathlib.Order.BoundedOrder.Lattice
import Mathlib.Data.Finset.Card
import Mathlib.Data.Finset.SDiff
import Mathlib.Data.Finset.Dedup

/-!
# Merging versions with partially ordered clocks

A version has a clock and a content, both from a join semilattice with a least element.  A version is merged into a
state by joining the clocks; the content of the version replaces that of the state if its clock is above, is dropped
if its clock is below, and is joined otherwise.

The result depends on the order of the merges.  For a bound `u` on contents, two conditions on the versions alone say
when the content is within `u` after all orders, and when after none; the merges converge exactly if one of the two
holds for every bound.
-/

namespace CausalMerge

open List

variable {C S : Type*} [SemilatticeSup C] [SemilatticeSup S]

/-- Merge a version into a state. -/
def merge [DecidableEq C] (s p : C × S) : C × S :=
  if s.1 ⊔ p.1 = p.1 then (s.1 ⊔ p.1, p.2)
  else if s.1 ⊔ p.1 = s.1 then (s.1 ⊔ p.1, s.2)
  else (s.1 ⊔ p.1, s.2 ⊔ p.2)

section Merge

variable [DecidableEq C] {s p : C × S} {u : S}

/-- The clocks are joined. -/
@[simp] theorem merge_fst (s p : C × S) : (merge s p).1 = s.1 ⊔ p.1 := by
  unfold merge
  split_ifs <;> rfl

/-- The version replaces the state. -/
theorem merge_of_le (h : s.1 ≤ p.1) : merge s p = p := by
  rw [merge, if_pos (sup_eq_right.mpr h), sup_eq_right.mpr h]

/-- The version is dropped. -/
theorem merge_of_ge (h : ¬s.1 ≤ p.1) (h' : p.1 ≤ s.1) : merge s p = s := by
  rw [merge, if_neg (mt sup_eq_right.mp h), if_pos (sup_eq_left.mpr h'), sup_eq_left.mpr h']

/-- The contents are joined. -/
theorem merge_of_not_le (h : ¬s.1 ≤ p.1) (h' : ¬p.1 ≤ s.1) : merge s p = (s.1 ⊔ p.1, s.2 ⊔ p.2) := by
  rw [merge, if_neg (mt sup_eq_right.mp h), if_neg (mt sup_eq_left.mp h')]

/-- What a merge can do. -/
theorem merge_cases (s p : C × S) : (s.1 ≤ p.1 ∧ merge s p = p) ∨ (¬s.1 ≤ p.1 ∧ p.1 ≤ s.1 ∧ merge s p = s) ∨
    (¬s.1 ≤ p.1 ∧ ¬p.1 ≤ s.1 ∧ merge s p = (s.1 ⊔ p.1, s.2 ⊔ p.2)) := by
  by_cases h : s.1 ≤ p.1
  · exact .inl ⟨h, merge_of_le h⟩
  · by_cases h' : p.1 ≤ s.1
    · exact .inr (.inl ⟨h, h', merge_of_ge h h'⟩)
    · exact .inr (.inr ⟨h, h', merge_of_not_le h h'⟩)

/-- Merging versions within a bound into a content within it. -/
theorem merge_within (hs : s.2 ≤ u) (hp : p.2 ≤ u) : (merge s p).2 ≤ u := by
  rcases merge_cases s p with ⟨-, h⟩ | ⟨-, -, h⟩ | ⟨-, -, h⟩ <;> rw [h]
  · exact hp
  · exact hs
  · exact sup_le hs hp

/-- Merging many versions within a bound into a content within it. -/
theorem foldl_merge_within {l : List (C × S)} (hs : s.2 ≤ u) (hl : ∀ p ∈ l, p.2 ≤ u) : (l.foldl merge s).2 ≤ u := by
  induction l generalizing s with
  | nil => exact hs
  | cons p l ih =>
    exact ih (merge_within hs (hl p mem_cons_self)) fun q hq => hl q (mem_cons_of_mem _ hq)

/-- Versions with smaller clocks are dropped. -/
theorem foldl_merge_of_ge {l : List (C × S)} (hl : ∀ p ∈ l, ¬s.1 ≤ p.1 ∧ p.1 ≤ s.1) : l.foldl merge s = s := by
  induction l with
  | nil => rfl
  | cons p l ih =>
    obtain ⟨hp, hp'⟩ := hl p mem_cons_self
    rw [foldl_cons, merge_of_ge hp hp']
    exact ih fun q hq => hl q (mem_cons_of_mem _ hq)

/-- Merging a version that exceeds a bound into a content that does. -/
theorem merge_exceeds (hs : ¬s.2 ≤ u) (hp : ¬p.2 ≤ u) : ¬(merge s p).2 ≤ u := by
  rcases merge_cases s p with ⟨-, h⟩ | ⟨-, -, h⟩ | ⟨-, -, h⟩ <;> rw [h]
  · exact hp
  · exact hs
  · exact fun hle => hs (le_sup_left.trans hle)

/-- A content that exceeds a bound still does if it is not replaced. -/
theorem merge_exceeds_of_not_le (hs : ¬s.2 ≤ u) (h : ¬s.1 ≤ p.1) : ¬(merge s p).2 ≤ u := by
  rcases merge_cases s p with ⟨hle, -⟩ | ⟨-, -, heq⟩ | ⟨-, -, heq⟩
  · exact absurd hle h
  · rwa [heq]
  · rw [heq]
    exact fun hle => hs (le_sup_left.trans hle)

end Merge

/-- A list merges exactly the given versions, in some order and with repetitions. -/
def Orders (P l : List (C × S)) : Prop := ∀ p, p ∈ l ↔ p ∈ P

variable [OrderBot C] [OrderBot S]

/-- Merge versions one after the other, from the least state. -/
def mergeAll [DecidableEq C] (l : List (C × S)) : C × S := l.foldl merge (⊥, ⊥)

/-- All orders give the same state. -/
def Converges [DecidableEq C] (P : List (C × S)) : Prop :=
  ∀ l l', Orders P l → Orders P l' → mergeAll l = mergeAll l'

/-- No order ends with a content within the bound: a version exceeds it whose clock is not below all common upper bounds
of the clocks of the versions within it, or is above all these clocks. -/
def Exceeds (u : S) (P : List (C × S)) : Prop :=
  ∃ x ∈ P, ¬x.2 ≤ u ∧
    ((∃ c, (∀ y ∈ P, y.2 ≤ u → y.1 ≤ c) ∧ ¬x.1 ≤ c) ∨ ∀ y ∈ P, y.2 ≤ u → y.1 < x.1)

/-- All orders end with a content within the bound: all versions are within it, or some of those that are have clocks above
all others. -/
def Within (u : S) (P : List (C × S)) : Prop :=
  (∀ x ∈ P, x.2 ≤ u) ∨
    ∃ Z : Set (C × S), Z.Nonempty ∧ ∀ z ∈ Z, z ∈ P ∧ z.2 ≤ u ∧ ∀ y ∈ P, y ∉ Z → y.1 ≤ z.1 ∧ (¬y.2 ≤ u → y.1 < z.1)

variable [DecidableEq C] {u : S} {P l : List (C × S)} {p : C × S}

/-- One more version. -/
theorem mergeAll_concat (l : List (C × S)) (p : C × S) : mergeAll (l ++ [p]) = merge (mergeAll l) p := by
  simp [mergeAll]

/-- The clock is the join of all clocks. -/
theorem mergeAll_fst_le {c : C} : (mergeAll l).1 ≤ c ↔ ∀ p ∈ l, p.1 ≤ c := by
  induction l using List.reverseRecOn with
  | nil => simp [mergeAll]
  | append_singleton l p ih => simp [mergeAll_concat, ih, or_imp, forall_and]

/-- The clocks that have been merged are below the clock. -/
theorem le_mergeAll (h : p ∈ l) : p.1 ≤ (mergeAll l).1 := mergeAll_fst_le.mp le_rfl p h

/-- The clock does not depend on the order. -/
theorem mergeAll_fst_eq {l' : List (C × S)} (h : Orders P l) (h' : Orders P l') : (mergeAll l).1 = (mergeAll l').1 :=
  le_antisymm (mergeAll_fst_le.mpr fun p hp => le_mergeAll ((h' p).mpr ((h p).mp hp)))
    (mergeAll_fst_le.mpr fun p hp => le_mergeAll ((h p).mpr ((h' p).mp hp)))

section Exceeds

/-- While the content is within the bound, the clock is below every upper bound of the clocks merged within it, and a version
at the clock that exceeds the bound has been followed by one within it. -/
structure Hidden (u : S) (l : List (C × S)) : Prop where
  le : ∀ c, (∀ y ∈ l, y.2 ≤ u → y.1 ≤ c) → (mergeAll l).1 ≤ c
  eq : ∀ x ∈ l, ¬x.2 ≤ u → x.1 = (mergeAll l).1 → ∃ y ∈ l, y.2 ≤ u ∧ y.1 = (mergeAll l).1

/-- One more merge that ends within the bound. -/
theorem Hidden.concat (h : (mergeAll l).2 ≤ u → Hidden u l) (hle : (mergeAll (l ++ [p])).2 ≤ u) :
    Hidden u (l ++ [p]) := by
  have hconcat := mergeAll_concat l p
  rcases merge_cases (mergeAll l) p with ⟨hV, heq⟩ | ⟨hV, hp, heq⟩ | ⟨hV, hp, heq⟩ <;> rw [heq] at hconcat
  · -- the version has replaced the content, so it is within the bound
    rw [hconcat] at hle
    refine ⟨fun c hc => ?_, fun x _ _ _ => ⟨p, by simp, hle, by rw [hconcat]⟩⟩
    rw [hconcat]
    exact hc p (by simp) hle
  · -- the version has been dropped
    rw [hconcat] at hle
    have hold := h hle
    refine ⟨fun c hc => ?_, fun x hx hxu hxeq => ?_⟩
    · rw [hconcat]
      exact hold.le c fun y hy => hc y (mem_append_left _ hy)
    · rw [hconcat] at hxeq ⊢
      rcases mem_append.mp hx with hx | hx
      · obtain ⟨y, hy, hyu, hyeq⟩ := hold.eq x hx hxu hxeq
        exact ⟨y, mem_append_left _ hy, hyu, hyeq⟩
      · rw [mem_singleton.mp hx] at hxeq
        exact absurd hxeq.ge hV
  · -- the contents have been joined
    rw [hconcat] at hle
    have hold := h (le_sup_left.trans hle)
    have hpu : p.2 ≤ u := le_sup_right.trans hle
    refine ⟨fun c hc => ?_, fun x hx hxu hxeq => ?_⟩
    · rw [hconcat]
      exact sup_le (hold.le c fun y hy => hc y (mem_append_left _ hy)) (hc p (by simp) hpu)
    · rw [hconcat] at hxeq
      rcases mem_append.mp hx with hx | hx
      · have hx' : p.1 ≤ x.1 := le_sup_right.trans hxeq.ge
        exact absurd (hx'.trans (le_mergeAll hx)) hp
      · exact absurd (mem_singleton.mp hx ▸ hpu) hxu

/-- Whatever the order, a content within the bound hides the versions that exceed it. -/
theorem hidden_of_le (h : (mergeAll l).2 ≤ u) : Hidden u l := by
  induction l using List.reverseRecOn with
  | nil => exact ⟨fun c _ => bot_le, fun x hx => absurd hx not_mem_nil⟩
  | append_singleton l p ih => exact .concat ih h

/-- Under the condition, no order ends within the bound. -/
theorem Exceeds.not_le (h : Exceeds u P) (hl : Orders P l) : ¬(mergeAll l).2 ≤ u := fun hle => by
  obtain ⟨x, hx, hxu, hcond⟩ := h
  have hidden := hidden_of_le hle
  have hxl : x ∈ l := (hl x).mpr hx
  rcases hcond with ⟨c, hc, hxc⟩ | hlt
  · exact hxc ((le_mergeAll hxl).trans (hidden.le c fun y hy hyu => hc y ((hl y).mp hy) hyu))
  · have hxeq : x.1 = (mergeAll l).1 :=
      le_antisymm (le_mergeAll hxl) (hidden.le x.1 fun y hy hyu => (hlt y ((hl y).mp hy) hyu).le)
    obtain ⟨y, hy, hyu, hyeq⟩ := hidden.eq x hxl hxu hxeq
    exact (hlt y ((hl y).mp hy) hyu).ne (hyeq.trans hxeq.symm)

/-- Otherwise the versions within the bound, the others and the first ones again are an order that ends within it. -/
theorem exists_le_of_not_exceeds (h : ¬Exceeds u P) : ∃ l, Orders P l ∧ (mergeAll l).2 ≤ u := by
  classical
  have hhigh : ∀ x ∈ P, ¬x.2 ≤ u → (∀ c, (∀ y ∈ P, y.2 ≤ u → y.1 ≤ c) → x.1 ≤ c) ∧ ∃ y ∈ P, y.2 ≤ u ∧ ¬y.1 < x.1 := by
    intro x hx hxu
    constructor
    · intro c hc
      by_contra hxc
      exact h ⟨x, hx, hxu, .inl ⟨c, hc, hxc⟩⟩
    · by_contra hno
      exact h ⟨x, hx, hxu, .inr fun y hy hyu => by_contra fun hlt => hno ⟨y, hy, hyu, hlt⟩⟩
  let low := P.filter fun p => p.2 ≤ u
  let high := P.filter fun p => ¬p.2 ≤ u
  have hlow : ∀ {p}, p ∈ low ↔ p ∈ P ∧ p.2 ≤ u := by simp [low]
  have hmem : ∀ {p}, p ∈ high ↔ p ∈ P ∧ ¬p.2 ≤ u := by simp [high]
  have horders : Orders P (low ++ high) := fun p => by
    rw [mem_append, hlow, hmem]
    tauto
  have hwithin : (mergeAll low).2 ≤ u := foldl_merge_within bot_le fun p hp => (hlow.mp hp).2
  -- the clock of the versions within the bound is above all others
  have hle : ∀ p ∈ P, p.1 ≤ (mergeAll low).1 := fun p hp => by
    by_cases hpu : p.2 ≤ u
    · exact le_mergeAll (hlow.mpr ⟨hp, hpu⟩)
    · exact (hhigh p hp hpu).1 _ fun y hy hyu => le_mergeAll (hlow.mpr ⟨hy, hyu⟩)
  by_cases htop : ∃ y ∈ low, (mergeAll low).1 ≤ y.1
  · -- a version within the bound at the top clock replaces what was there
    obtain ⟨y, hy, hytop⟩ := htop
    obtain ⟨l₁, l₂, hsplit⟩ := append_of_mem hy
    have hsub : ∀ p ∈ l₁, p ∈ P := fun p hp => (hlow.mp (by rw [hsplit]; simp [hp])).1
    have hpre : (mergeAll (low ++ high ++ l₁)).1 ≤ y.1 := by
      refine le_trans (mergeAll_fst_le.mpr fun p hp => ?_) hytop
      rcases mem_append.mp hp with hp | hp
      · exact hle p ((horders p).mp hp)
      · exact hle p (hsub p hp)
    refine ⟨low ++ high ++ low, fun p => ?_, ?_⟩
    · rw [mem_append, horders p, hlow]
      tauto
    · have heq : mergeAll (low ++ high ++ low) = l₂.foldl merge y := by
        rw [hsplit] at hpre ⊢
        rw [← append_assoc, mergeAll, foldl_append, foldl_cons]
        exact congrArg (fun s => l₂.foldl merge s) (merge_of_le hpre)
      rw [heq]
      exact foldl_merge_within (hlow.mp hy).2 fun p hp => (hlow.mp (by rw [hsplit]; simp [hp])).2
  · -- otherwise no other version reaches the top clock, and all of them are dropped
    refine ⟨low ++ high, horders, ?_⟩
    have hdropped : ∀ x ∈ high, ¬(mergeAll low).1 ≤ x.1 ∧ x.1 ≤ (mergeAll low).1 := fun x hx => by
      obtain ⟨hxP, hxu⟩ := hmem.mp hx
      refine ⟨fun hxtop => ?_, hle x hxP⟩
      obtain ⟨y, hy, hyu, hylt⟩ := (hhigh x hxP hxu).2
      have hyx : y.1 = x.1 := by
        by_contra hne
        exact hylt (lt_of_le_of_ne ((le_mergeAll (hlow.mpr ⟨hy, hyu⟩)).trans hxtop) hne)
      exact htop ⟨y, hlow.mpr ⟨hy, hyu⟩, hyx ▸ hxtop⟩
    rw [mergeAll, foldl_append]
    exact (congrArg Prod.snd (foldl_merge_of_ge hdropped)).trans_le hwithin

end Exceeds

section Within

/-- Under the condition, every order ends within the bound. -/
theorem Within.le (h : Within u P) (hl : Orders P l) : (mergeAll l).2 ≤ u := by
  rcases h with hall | ⟨Z, ⟨z₀, hz₀⟩, hZ⟩
  · exact foldl_merge_within bot_le fun p hp => hall p ((hl p).mp hp)
  · -- before the first version of the set the clock is below all of them, and from then on the content is within the bound
    have hinv : ∀ l', (∀ p ∈ l', p ∈ P) →
        ((∀ z ∈ Z, z ∉ l') ∧ ∀ z ∈ Z, (mergeAll l').1 ≤ z.1) ∨
          ((mergeAll l').2 ≤ u ∧ ∃ z ∈ Z, z.1 ≤ (mergeAll l').1) := by
      intro l' hl'
      induction l' using List.reverseRecOn with
      | nil => exact .inl ⟨fun _ _ => not_mem_nil, fun _ _ => bot_le⟩
      | append_singleton l' p ih =>
        have hp : p ∈ P := hl' p (by simp)
        have hfst : (mergeAll (l' ++ [p])).1 = (mergeAll l').1 ⊔ p.1 := by rw [mergeAll_concat, merge_fst]
        rcases ih fun q hq => hl' q (mem_append_left _ hq) with ⟨hnone, hbelow⟩ | ⟨hle, z, hz, hzle⟩
        · by_cases hpZ : p ∈ Z
          · refine .inr ⟨?_, p, hpZ, hfst ▸ le_sup_right⟩
            rw [mergeAll_concat, merge_of_le (hbelow p hpZ)]
            exact (hZ p hpZ).2.1
          · refine .inl ⟨fun z hz hmem => ?_, fun z hz => ?_⟩
            · rcases mem_append.mp hmem with hmem | hmem
              · exact hnone z hz hmem
              · exact hpZ (mem_singleton.mp hmem ▸ hz)
            · exact hfst ▸ sup_le (hbelow z hz) ((hZ z hz).2.2 p hp hpZ).1
        · refine .inr ⟨?_, z, hz, hzle.trans (hfst ▸ le_sup_left)⟩
          rw [mergeAll_concat]
          by_cases hpu : p.2 ≤ u
          · exact merge_within hle hpu
          · have hlt : p.1 < z.1 := ((hZ z hz).2.2 p hp fun hpZ => hpu (hZ p hpZ).2.1).2 hpu
            rw [merge_of_ge (fun hge => (hlt.trans_le hzle).not_ge hge) (hlt.le.trans hzle)]
            exact hle
    rcases hinv l fun p hp => (hl p).mp hp with ⟨hnone, -⟩ | ⟨hle, -⟩
    · exact absurd ((hl z₀).mpr (hZ z₀ hz₀).1) (hnone z₀ hz₀)
    · exact hle

/-- A list of versions, the ones that exceed the bound among them, whose content exceeds the bound can be continued to such
an order. -/
theorem exists_exceeding_of_not_within (h : ¬Within u P) (hsub : ∀ p ∈ l, p ∈ P) (hhigh : ∀ x ∈ P, ¬x.2 ≤ u → x ∈ l)
    (hl : ¬(mergeAll l).2 ≤ u) : ∃ l', Orders P l' ∧ ¬(mergeAll l').2 ≤ u := by
  classical
  -- by induction on the number of versions that are not in the list
  induction hk : (P.toFinset \ l.toFinset).card using Nat.strong_induction_on generalizing l with
  | _ k ih =>
    by_cases hall : ∀ p ∈ P, p ∈ l
    · exact ⟨l, fun p => ⟨hsub p, hall p⟩, hl⟩
    · -- the versions that are left do not have clocks above all others
      let Z : Set (C × S) := {z | z ∈ P ∧ z ∉ l}
      have hlow : ∀ z ∈ Z, z.2 ≤ u := fun z hz => by_contra fun hzu => hz.2 (hhigh z hz.1 hzu)
      have hnonempty : Z.Nonempty := by
        obtain ⟨z, hz⟩ := not_forall.mp hall
        exact ⟨z, Classical.not_imp.mp hz⟩
      obtain ⟨z, hz, y, hy, hyZ, hcond⟩ : ∃ z ∈ Z, ∃ y ∈ P, y ∉ Z ∧ ¬(y.1 ≤ z.1 ∧ (¬y.2 ≤ u → y.1 < z.1)) := by
        by_contra hno
        push Not at hno
        exact h (.inr ⟨Z, hnonempty, fun z hz => ⟨hz.1, hlow z hz, fun y hy hyZ => hno z hz y hy hyZ⟩⟩)
      have hyl : y ∈ l := by_contra fun hyl => hyZ ⟨hy, hyl⟩
      have hless : ∀ l' : List (C × S), z ∈ l' → (∀ p ∈ l, p ∈ l') → (P.toFinset \ l'.toFinset).card < k := by
        intro l' hzl' hll'
        rw [← hk]
        refine Finset.card_lt_card (Finset.ssubset_iff_of_subset (fun p hp => ?_) |>.mpr ⟨z, ?_, ?_⟩)
        · simp only [Finset.mem_sdiff, mem_toFinset] at hp ⊢
          exact ⟨hp.1, fun hpl => hp.2 (hll' p hpl)⟩
        · exact Finset.mem_sdiff.mpr ⟨mem_toFinset.mpr hz.1, fun hmem => hz.2 (mem_toFinset.mp hmem)⟩
        · simp [hzl']
      by_cases hle : y.1 ≤ z.1
      · -- a version that exceeds the bound and has the same clock comes after it again
        have hyu : ¬y.2 ≤ u := fun hyu => hcond ⟨hle, fun hn => absurd hyu hn⟩
        have hyz : y.1 = z.1 := by
          by_contra hne
          exact hcond ⟨hle, fun _ => lt_of_le_of_ne hle hne⟩
        refine ih _ (hless (l ++ [z] ++ [y]) (by simp) (by simp +contextual)) (fun p hp => ?_) (fun x hx hxu => ?_) ?_ rfl
        · simp only [append_assoc, mem_append, mem_singleton] at hp
          rcases hp with hp | rfl | rfl
          · exact hsub p hp
          · exact hz.1
          · exact hy
        · simp [hhigh x hx hxu]
        · rw [mergeAll_concat, mergeAll_concat]
          by_cases htop : (mergeAll l).1 ≤ z.1
          · rw [merge_of_le htop, merge_of_le hyz.ge]
            exact hyu
          · exact merge_exceeds (merge_exceeds_of_not_le hl htop) hyu
      · have hnot : ¬(mergeAll l).1 ≤ z.1 := fun hge => hle ((le_mergeAll hyl).trans hge)
        refine ih _ (hless (l ++ [z]) (by simp) (by simp +contextual)) (fun p hp => ?_) (fun x hx hxu => ?_) ?_ rfl
        · rcases mem_append.mp hp with hp | hp
          · exact hsub p hp
          · exact mem_singleton.mp hp ▸ hz.1
        · simp [hhigh x hx hxu]
        · rw [mergeAll_concat]
          exact merge_exceeds_of_not_le hl hnot

/-- Without the condition, some order ends with a content that exceeds the bound. -/
theorem exists_not_le_of_not_within (h : ¬Within u P) : ∃ l, Orders P l ∧ ¬(mergeAll l).2 ≤ u := by
  classical
  let high := P.filter fun p => ¬p.2 ≤ u
  have hmem : ∀ {p}, p ∈ high ↔ p ∈ P ∧ ¬p.2 ≤ u := by simp [high]
  have hne : ∃ x, x ∈ high := by
    by_contra hno
    exact h (.inl fun x hx => by_contra fun hxu => hno ⟨x, hmem.mpr ⟨hx, hxu⟩⟩)
  -- the versions that exceed the bound are merged first
  have hfirst : ∀ l : List (C × S), l ≠ [] → (∀ p ∈ l, ¬p.2 ≤ u) → ¬(mergeAll l).2 ≤ u := by
    intro l
    induction l using List.reverseRecOn with
    | nil => exact fun hnil => absurd rfl hnil
    | append_singleton l p ih =>
      intro _ hl
      rw [mergeAll_concat]
      by_cases hnil : l = []
      · rw [hnil, mergeAll, foldl_nil, merge_of_le bot_le]
        exact hl p (by simp)
      · exact merge_exceeds (ih hnil fun q hq => hl q (mem_append_left _ hq)) (hl p (by simp))
  obtain ⟨x, hx⟩ := hne
  exact exists_exceeding_of_not_within h (fun p hp => (hmem.mp hp).1) (fun x hx hxu => hmem.mpr ⟨hx, hxu⟩)
    (hfirst high (ne_nil_of_mem hx) fun p hp => (hmem.mp hp).2)

end Within

/-- The merges converge exactly if every bound is exceeded after all orders or kept after all orders. -/
theorem converges_iff (P : List (C × S)) : Converges P ↔ ∀ u, Exceeds u P ∨ Within u P := by
  constructor
  · intro hconv u
    by_contra hno
    rw [not_or] at hno
    obtain ⟨l, hl, hle⟩ := exists_le_of_not_exceeds hno.1
    obtain ⟨l', hl', hnle⟩ := exists_not_le_of_not_within hno.2
    exact hnle (hconv l l' hl hl' ▸ hle)
  · intro h l l' hl hl'
    have hle : ∀ {l l'}, Orders P l → Orders P l' → (mergeAll l').2 ≤ (mergeAll l).2 := fun {l l'} hl hl' =>
      (h (mergeAll l).2).elim (fun hex => absurd le_rfl (hex.not_le hl)) fun hin => hin.le hl'
    exact Prod.ext (mergeAll_fst_eq hl hl') (le_antisymm (hle hl' hl) (hle hl hl'))

/-- The same for versions that are represented in another way. -/
theorem converges_map_iff {α : Type*} (f : α ≃ C × S) {m : α → α → α} {a : α} (hm : ∀ x y, f (m x y) = merge (f x) (f y))
    (ha : f a = (⊥, ⊥)) (P : List α) :
    (∀ l l' : List α, (∀ p, p ∈ l ↔ p ∈ P) → (∀ p, p ∈ l' ↔ p ∈ P) → l.foldl m a = l'.foldl m a) ↔
      Converges (P.map f) := by
  have hfold : ∀ l : List α, f (l.foldl m a) = mergeAll (l.map f) := fun l => by
    rw [mergeAll, foldl_map, ← ha]
    exact (foldl_hom f fun x y => (hm x y).symm).symm
  have horders : ∀ l : List α, (∀ p, p ∈ l ↔ p ∈ P) ↔ Orders (P.map f) (l.map f) := fun l => by
    rw [Orders, f.surjective.forall]
    simp only [mem_map_of_injective f.injective]
  constructor
  · intro h l l' hl hl'
    have hback : ∀ l : List (C × S), (l.map f.symm).map f = l := fun l => by simp [map_map]
    rw [← hback l] at hl ⊢
    rw [← hback l'] at hl' ⊢
    rw [← hfold, ← hfold, h _ _ ((horders _).mpr hl) ((horders _).mpr hl')]
  · intro h l l' hl hl'
    refine f.injective ?_
    rw [hfold, hfold]
    exact h _ _ ((horders l).mp hl) ((horders l').mp hl')

end CausalMerge
