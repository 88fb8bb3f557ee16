import Dinomo.ClhtSpec

/-!
# Resizing ends

`ht_status` resizes again while the new table has as many expansions as buckets.  An expansion needs a pair, so a
repetition finds a pair for each bucket, and doubles the number of buckets.
-/

namespace Dinomo

open List

variable {α : Type*}

namespace Table

/-- `ht_status` comes to a table that it does not resize again. -/
def StatusEnds : ℕ → Table α → Prop
  | 0, _ => False
  | fuel + 1, t =>
    (t.resize t.statusSize).numBuckets ≤ (t.resize t.statusSize).numExpands → StatusEnds fuel (t.resize t.statusSize)

/-- The bin of a key in a table gives its bin in every smaller one. -/
theorem hash_mod_of_le {t t' : Table α} (h : t.logBuckets ≤ t'.logBuckets) (k : Key) :
    t'.hash k % t.numBuckets = t.hash k := by
  have hmod : ∀ t : Table α, t.hash k = k % t.numBuckets := fun t => Nat.and_two_pow_sub_one_eq_mod k t.logBuckets
  rw [hmod, hmod]
  exact Nat.mod_mod_of_dvd k (Nat.pow_dvd_pow 2 h)

/-- The pairs of a table, bin by bin. -/
theorem entries_eq (t : Table α) : t.entries = (List.range t.numBuckets).flatMap fun b => pairs (t.table b) :=
  filter_flatMap ..

/-- One more pair. -/
theorem entries_putSeq (t : Table α) {s : Slot α} (hs : s.key ≠ 0) : (t.putSeq s).entries.Perm (s :: t.entries) := by
  have hbin := perm_cons_erase (mem_range.mpr (t.hash_lt s.key))
  have hat : (pairs ((t.putSeq s).table (t.hash s.key))).Perm (s :: pairs (t.table (t.hash s.key))) := by
    have hplace := pairs_placeSlot (t.table (t.hash s.key)) s.key s.val
    have hsingle : pairs [s] = [s] := filter_cons_of_pos (by simpa using hs)
    change (pairs (Function.update t.table (t.hash s.key) _ (t.hash s.key))).Perm _
    rw [Function.update_self]
    exact hplace.trans (.of_eq (congrArg (· ++ _) hsingle))
  have hne : ((List.range t.numBuckets).erase (t.hash s.key)).flatMap (fun b => pairs ((t.putSeq s).table b)) =
      ((List.range t.numBuckets).erase (t.hash s.key)).flatMap fun b => pairs (t.table b) := by
    refine flatMap_congr fun b hb => congrArg pairs ?_
    have hb : b ≠ t.hash s.key := fun h => nodup_range.not_mem_erase (h ▸ hb)
    exact Function.update_of_ne hb _ _
  have hold := hbin.flatMap_right fun b => pairs (t.table b)
  rw [flatMap_cons] at hold
  rw [entries_eq, entries_eq]
  refine (hbin.flatMap_right _).trans ?_
  rw [flatMap_cons, hne]
  exact (hat.append_right _).trans (hold.symm.cons s)

/-- A new table has no pairs. -/
theorem entries_create (n : ℕ) : (create n : Table α).entries = [] := by
  rw [entries_eq, flatMap_eq_nil_iff]
  intro b _
  rfl

/-- Pairs are added to those of a table, one after the other. -/
theorem entries_foldl (es : List (Slot α)) (hes : ∀ s ∈ es, s.key ≠ 0) (t : Table α) :
    (es.foldl Table.putSeq t).entries.Perm (es ++ t.entries) := by
  induction es generalizing t with
  | nil => exact .refl _
  | cons s es ih =>
    have hrest := ih (fun x hx => hes x (mem_cons_of_mem _ hx)) (t.putSeq s)
    have hs := (t.entries_putSeq (hes s mem_cons_self)).append_left es
    exact (hrest.trans hs).trans perm_middle

/-- Pairs do not change the number of buckets. -/
theorem logBuckets_foldl (es : List (Slot α)) (t : Table α) : (es.foldl Table.putSeq t).logBuckets = t.logBuckets := by
  induction es generalizing t with
  | nil => rfl
  | cons s es ih => exact (ih _).trans rfl

/-- A pair adds at most one expansion. -/
theorem numExpands_foldl (es : List (Slot α)) (t : Table α) :
    (es.foldl Table.putSeq t).numExpands ≤ t.numExpands + es.length := by
  induction es generalizing t with
  | nil => exact le_rfl
  | cons s es ih =>
    have hrest := ih (t.putSeq s)
    have hone : (t.putSeq s).numExpands ≤ t.numExpands + 1 := by
      simp only [putSeq]
      split_ifs <;> omega
    rw [foldl_cons, length_cons]
    omega

/-- A resized table has the same number of pairs, and no more expansions than pairs. -/
theorem length_entries_resize (t : Table α) (n : ℕ) :
    (t.resize n).entries.length = t.entries.length ∧ (t.resize n).numExpands ≤ t.entries.length := by
  have h0 : ∀ s ∈ t.entries, s.key ≠ 0 := fun s hs => by simpa using (mem_filter.mp hs).2
  refine ⟨?_, (numExpands_foldl t.entries (create n)).trans_eq (Nat.zero_add _)⟩
  have hperm := entries_foldl t.entries h0 (create n)
  rw [entries_create, append_nil] at hperm
  exact hperm.length_eq

/-- A table that is not sparse doubles. -/
theorem two_mul_numBuckets_le (t : Table α) (hmany : ¬ (0 < t.entries.length ∧ 100 * t.entries.length < 5 * (3 * t.numBuckets))) :
    2 * t.numBuckets ≤ (t.resize t.statusSize).numBuckets := by
  rw [numBuckets, numBuckets, resize, logBuckets_foldl, ← pow_succ']
  simp only [statusSize, if_neg hmany]
  exact Nat.pow_le_pow_right (by decide) (Nat.add_le_add_left (le_max_left _ _) _)

/-- `ht_status` ends for a table that is not sparse when its buckets could double so often that there were more of them than
pairs. -/
theorem statusEnds_of_lt (fuel : ℕ) (t : Table α)
    (hmany : ¬ (0 < t.entries.length ∧ 100 * t.entries.length < 5 * (3 * t.numBuckets)))
    (h : t.entries.length < t.numBuckets * 2 ^ (fuel + 1)) : StatusEnds (fuel + 1) t := by
  induction fuel generalizing t with
  | zero =>
    intro hagain
    have hdouble := t.two_mul_numBuckets_le hmany
    have hpairs := (t.length_entries_resize t.statusSize).2
    omega
  | succ fuel ih =>
    intro hagain
    have hdouble := t.two_mul_numBuckets_le hmany
    obtain ⟨hsize, hpairs⟩ := t.length_entries_resize t.statusSize
    refine ih _ (by omega) ?_
    calc (t.resize t.statusSize).entries.length = t.entries.length := hsize
      _ < 2 * t.numBuckets * 2 ^ (fuel + 1) := by rwa [pow_succ', ← Nat.mul_assoc, Nat.mul_comm _ 2] at h
      _ ≤ (t.resize t.statusSize).numBuckets * 2 ^ (fuel + 1) := Nat.mul_le_mul_right _ hdouble

end Table

end Dinomo
