import Mathlib.Algebra.Order.Floor.Ring
import Mathlib.Data.Int.Log
import Mathlib.Data.Rat.Floor
import Mathlib.Tactic.FieldSimp
import Mathlib.Tactic.Linarith
import Mathlib.Tactic.Positivity

/-!
# Rounding to a number of significant bits

A binary floating-point operation returns the multiple of the unit in the last place that is nearest to
the exact result, the even one of two.  Whole numbers of at most that many bits are kept, and the
ceiling of a quotient of two of them is the ceiling of the exact quotient.
-/

namespace Rounding

open Int

/-- The nearest integer, the even one of two. -/
def nearest (x : ℚ) : ℤ :=
  let k := ⌊x⌋
  if 2 * (x - k) < 1 ∨ 2 * (x - k) = 1 ∧ k % 2 = 0 then k else k + 1

/-- The unit in the last place of a number of `p` significant bits. -/
def ulp (p : ℕ) (x : ℚ) : ℚ := 2 ^ (Int.log 2 x - (p - 1))

/-- The nearest number of `p` significant bits. -/
def round (p : ℕ) (x : ℚ) : ℚ := nearest (x / ulp p x) * ulp p x

/-- An integer is its own nearest. -/
@[simp] theorem nearest_intCast (k : ℤ) : nearest k = k := by simp [nearest]

/-- The nearest integer is at most half a unit below. -/
theorem le_nearest_add_half (x : ℚ) : x ≤ nearest x + 1 / 2 := by
  have hlt := lt_floor_add_one x
  simp only [nearest]
  split_ifs with h
  · rcases h with h | h <;> linarith [h]
  · push_cast
    linarith

/-- The nearest integer is not above an integer that the number is not above. -/
theorem nearest_le {x : ℚ} {k : ℤ} (h : x ≤ k) : nearest x ≤ k := by
  have hfloor := floor_le x
  simp only [nearest]
  split_ifs with hnear
  · exact_mod_cast hfloor.trans h
  · -- the fraction is not zero here, so the next integer is the ceiling
    have hlt : (⌊x⌋ : ℚ) < x := by
      rcases hfloor.eq_or_lt with heq | hlt
      · exact absurd (.inl (by rw [heq]; norm_num)) hnear
      · exact hlt
    exact add_one_le_iff.mpr (by exact_mod_cast hlt.trans_le h)

/-- The nearest integer is above an integer that lies more than half a unit below the number. -/
theorem lt_nearest {x : ℚ} {k : ℤ} (h : k + 1 / 2 < x) : k < nearest x := by
  have := le_nearest_add_half x
  exact_mod_cast (by linarith : (k : ℚ) < nearest x)

/-- The unit in the last place is a relative error of at most `2 ^ (1 - p)`. -/
theorem ulp_mul_le {p : ℕ} {x : ℚ} (hx : 0 < x) : ulp p x * 2 ^ p ≤ 2 * x := by
  have hlog : (2 : ℚ) ^ log 2 x ≤ x := by exact_mod_cast zpow_log_le_self (by norm_num) hx
  have hulp : ulp p x * 2 ^ p = 2 * 2 ^ log 2 x := by
    rw [ulp, ← zpow_natCast, ← zpow_add₀ (by norm_num), ← zpow_one_add₀ (by norm_num)]
    congr 1
    ring
  linarith

/-- Below `2 ^ p` the unit in the last place divides one. -/
theorem ulp_eq_inv {p n : ℕ} {x : ℚ} (hx : 0 < x) (hn : x ≤ n) (hp : n < 2 ^ p) :
    ∃ m : ℕ, ulp p x = (2 ^ m)⁻¹ := by
  have hnpos : 0 < n := by exact_mod_cast hx.trans_le hn
  have hlog : log 2 x ≤ Nat.log 2 n := by
    rw [← log_natCast (R := ℚ)]
    exact log_mono_right hx hn
  have hlt : Nat.log 2 n < p := Nat.log_lt_of_lt_pow hnpos.ne' hp
  obtain ⟨m, hm⟩ := eq_ofNat_of_zero_le (show 0 ≤ (p - 1 : ℤ) - log 2 x by omega)
  refine ⟨m, ?_⟩
  rw [ulp, ← zpow_natCast, ← zpow_neg]
  congr 1
  omega

/-- A whole number of at most `p` bits is kept. -/
theorem round_natCast {p n : ℕ} (hn : n < 2 ^ p) : round p n = n := by
  rcases Nat.eq_zero_or_pos n with rfl | hpos
  · simp [round, nearest]
  obtain ⟨m, hm⟩ := ulp_eq_inv (x := (n : ℚ)) (by exact_mod_cast hpos) le_rfl hn
  have hint : (n : ℚ) / ulp p n = ((n * 2 ^ m : ℤ) : ℚ) := by
    rw [hm]
    push_cast
    field_simp
  have hpow : (2 : ℚ) ^ m ≠ 0 := by positivity
  rw [round, hint, nearest_intCast, hm]
  push_cast
  field_simp

/-- The rounded quotient of whole numbers of at most `p` bits has the ceiling of the exact one. -/
theorem ceil_round_div {p a b : ℕ} (hb : 0 < b) (ha : a < 2 ^ p) :
    ⌈round p (a / b)⌉ = ⌈(a / b : ℚ)⌉ := by
  rcases Nat.eq_zero_or_pos a with rfl | hapos
  · simp [round, nearest]
  have hbq : (0 : ℚ) < b := by exact_mod_cast hb
  have hx : (0 : ℚ) < a / b := by positivity
  have hle : (a / b : ℚ) ≤ a := div_le_self (by positivity) (by exact_mod_cast hb)
  obtain ⟨m, hm⟩ := ulp_eq_inv hx hle ha
  have hrel := ulp_mul_le (p := p) hx
  have hpow : (0 : ℚ) < 2 ^ m := by positivity
  set x : ℚ := a / b with hxdef
  set c := ⌈x⌉ with hcdef
  have hc : x ≤ c := le_ceil x
  have hc' : (c : ℚ) - 1 < x := by linarith [ceil_lt_add_one x]
  have hround : round p x = nearest (x * 2 ^ m) / 2 ^ m := by
    rw [round, hm, div_inv_eq_mul, div_eq_mul_inv]
  have hupper : nearest (x * 2 ^ m) ≤ c * 2 ^ m := by
    apply nearest_le
    push_cast
    gcongr
  -- the numerators of the quotient and of the integer below differ by at least one
  have hgap : 1 / (b : ℚ) ≤ x - (c - 1) := by
    have hxb : x * b = a := by rw [hxdef]; field_simp
    have hlt : (c - 1) * b < (a : ℤ) := by
      have : ((c : ℚ) - 1) * b < x * b := by gcongr
      rw [hxb] at this
      exact_mod_cast this
    have hone : ((c : ℚ) - 1) * b + 1 ≤ a := by exact_mod_cast hlt
    rw [div_le_iff₀ hbq]
    linarith
  have hhalf : ulp p x / 2 < 1 / b := by
    have hlt : x * b < 2 ^ p := by
      rw [hxdef, div_mul_cancel₀ _ hbq.ne']
      exact_mod_cast ha
    rw [lt_div_iff₀ hbq]
    have hppow : (0 : ℚ) < 2 ^ p := by positivity
    have hmul : ulp p x / 2 * b * 2 ^ p < 1 * 2 ^ p := by nlinarith
    exact lt_of_mul_lt_mul_right hmul hppow.le
  have hlower : (c - 1) * 2 ^ m < nearest (x * 2 ^ m) := by
    apply lt_nearest
    have hstep : (2 ^ m : ℚ)⁻¹ / 2 < x - (c - 1) := hm ▸ hhalf.trans_le hgap
    have hscaled : (2 ^ m : ℚ)⁻¹ / 2 * 2 ^ m < (x - (c - 1)) * 2 ^ m := by gcongr
    have hcancel : (2 ^ m : ℚ)⁻¹ / 2 * 2 ^ m = 1 / 2 := by field_simp
    push_cast
    linarith
  rw [ceil_eq_iff, hround]
  constructor
  · rw [lt_div_iff₀ hpow]
    exact_mod_cast hlower
  · rw [div_le_iff₀ hpow]
    exact_mod_cast hupper

end Rounding
