import Mathlib.Analysis.Complex.Exponential
import Mathlib.Analysis.SpecialFunctions.Trigonometric.Basic
import Mathlib.NumberTheory.Zsqrtd.GaussianInt

/-!
# Tables of sines

Some standards take their constants from the sines of whole numbers.  A computed table is compared
with them without rounding: the partial sums of the exponential series at the imaginary unit are
Gaussian rationals, and so are their powers, while the powers of the exponential itself lie on the
unit circle at whole numbers.

## Main results

* `norm_pow_sub_le`: how far powers drift from a point of the unit circle.
* `abs_sin_sub_le`: the sine of a whole number from a power of a partial sum.
* `floor_sin_eq`: comparing whole numbers tells the digits of a sine.
-/

namespace Gbase.Lib.Sines

/-- A power of the imaginary unit, real and imaginary part. -/
def turns (n : Nat) : Int × Int :=
  if n % 4 = 0 then (1, 0) else if n % 4 = 1 then (0, 1) else if n % 4 = 2 then (-1, 0)
  else (0, -1)

/-- The exponential series at the imaginary unit up to its term `n`, times `n` factorial. -/
def series : Nat → Int × Int
  | 0 => (1, 0)
  | n + 1 => ((n + 1) * (series n).1 + (turns (n + 1)).1, (n + 1) * (series n).2 + (turns (n + 1)).2)

/-- A power of a complex number, by its parts. -/
def power (z : Int × Int) : Nat → Int × Int
  | 0 => (1, 0)
  | k + 1 => ((power z k).1 * z.1 - (power z k).2 * z.2, (power z k).1 * z.2 + (power z k).2 * z.1)

/-- The complex number with these parts. -/
def toComplex (z : Int × Int) : ℂ := z.1 + z.2 * Complex.I

private theorem toComplex_turns (n : Nat) : toComplex (turns n) = Complex.I ^ n := by
  rw [Complex.I_pow_eq_pow_mod, turns]
  have hCases : n % 4 = 0 ∨ n % 4 = 1 ∨ n % 4 = 2 ∨ n % 4 = 3 := by omega
  rcases hCases with h | h | h | h
  · simp [h, toComplex]
  · simp [h, toComplex]
  · simp [h, toComplex]
  · simp [h, toComplex, Complex.I_pow_three]

theorem toComplex_power (z : Int × Int) (k : Nat) : toComplex (power z k) = toComplex z ^ k := by
  induction k with
  | zero => simp [power, toComplex]
  | succ k ih =>
      rw [pow_succ, ← ih]
      simp only [power, toComplex]
      push_cast
      linear_combination (-(power z k).2 * z.2 : ℂ) * Complex.I_sq

private theorem toComplex_series (n : Nat) :
    toComplex (series n) =
      n.factorial * ∑ m ∈ Finset.range (n + 1), Complex.I ^ m / m.factorial := by
  induction n with
  | zero => simp [series, toComplex]
  | succ n ih =>
      have hFactorial : ((n + 1).factorial : ℂ) ≠ 0 := by exact_mod_cast Nat.factorial_ne_zero _
      have hNext : toComplex (series (n + 1)) =
          (n + 1 : ℕ) * toComplex (series n) + toComplex (turns (n + 1)) := by
        simp only [series, toComplex]
        push_cast
        ring
      rw [Finset.sum_range_succ, mul_add, mul_div_cancel₀ _ hFactorial, hNext, ih, toComplex_turns,
        Nat.factorial_succ, Nat.cast_mul, mul_assoc]

/-! ## Powers near the unit circle -/

/-- Powers of a point of the unit circle and of a number near it drift apart, at most twice as far
with each factor. -/
theorem norm_pow_sub_le {z q : ℂ} {ε : ℝ} (hz : ‖z‖ = 1) (hq : ‖z - q‖ ≤ ε) (hε : ε ≤ 1) (k : Nat) :
    ‖z ^ k - q ^ k‖ ≤ (2 ^ k - 1) * ε := by
  have hPos : 0 ≤ ε := (norm_nonneg _).trans hq
  induction k with
  | zero => simp
  | succ k ih =>
      have hNear : ‖q ^ k‖ ≤ 1 + (2 ^ k - 1) * ε := by
        calc ‖q ^ k‖ = ‖z ^ k - (z ^ k - q ^ k)‖ := by rw [sub_sub_cancel]
          _ ≤ ‖z ^ k‖ + ‖z ^ k - q ^ k‖ := norm_sub_le _ _
          _ ≤ 1 + (2 ^ k - 1) * ε := by
              rw [norm_pow, hz, one_pow]
              exact add_le_add_right ih 1
      have hGrow : (0 : ℝ) ≤ 2 ^ k - 1 := sub_nonneg.mpr (one_le_pow₀ one_le_two)
      calc ‖z ^ (k + 1) - q ^ (k + 1)‖ = ‖z * (z ^ k - q ^ k) + (z - q) * q ^ k‖ := by ring_nf
        _ ≤ ‖z * (z ^ k - q ^ k)‖ + ‖(z - q) * q ^ k‖ := norm_add_le _ _
        _ ≤ (2 ^ k - 1) * ε + ε * (1 + (2 ^ k - 1) * ε) := by
            rw [norm_mul, norm_mul, hz, one_mul]
            gcongr
        _ ≤ (2 ^ k - 1) * ε + ε * (1 + (2 ^ k - 1) * 1) := by gcongr
        _ = (2 ^ (k + 1) - 1) * ε := by ring

/-- The partial sum up to term `n` is near the exponential. -/
theorem norm_exp_sub_le (n : Nat) :
    ‖Complex.exp Complex.I - toComplex (series n) / n.factorial‖ ≤ 2 / (n + 1).factorial := by
  have hFactorial : (n.factorial : ℂ) ≠ 0 := by exact_mod_cast Nat.factorial_ne_zero _
  have hBound := Complex.exp_bound (x := Complex.I) (by simp) (Nat.succ_pos n)
  rw [toComplex_series, mul_div_cancel_left₀ _ hFactorial]
  refine hBound.trans ?_
  have hPos : (0 : ℝ) < (n + 1).factorial := by exact_mod_cast Nat.factorial_pos _
  rw [Complex.norm_I, one_pow, one_mul, mul_inv, mul_comm, mul_assoc, div_eq_inv_mul]
  refine mul_le_mul_of_nonneg_left ?_ (inv_nonneg.mpr hPos.le)
  rw [inv_mul_le_iff₀ (by positivity)]
  push_cast
  linarith

/-- The sine of a whole number, from a power of a partial sum. -/
theorem abs_sin_sub_le {n : Nat} (hn : 1 ≤ n) (k : Nat) :
    |Real.sin k - (power (series n) k).2 / (n.factorial : ℝ) ^ k| ≤
      2 ^ k * (2 / (n + 1).factorial) := by
  have hSmall : 2 / ((n + 1).factorial : ℝ) ≤ 1 := by
    have hTwo : 2 ≤ (n + 1).factorial := Nat.factorial_le (Nat.succ_le_succ hn)
    rw [div_le_one (by positivity)]
    exact_mod_cast hTwo
  have hUnit : ‖Complex.exp Complex.I‖ = 1 := by
    have h := Complex.norm_exp_ofReal_mul_I 1
    rwa [Complex.ofReal_one, one_mul] at h
  have hNear := norm_pow_sub_le hUnit (norm_exp_sub_le n) hSmall k
  have hSin : (Complex.exp Complex.I ^ k).im = Real.sin k := by
    rw [← Complex.exp_nat_mul, ← Complex.ofReal_natCast, Complex.exp_ofReal_mul_I_im]
  have hPower : ((toComplex (series n) / (n.factorial : ℂ)) ^ k).im =
      (power (series n) k).2 / (n.factorial : ℝ) ^ k := by
    rw [div_pow, ← toComplex_power, ← Complex.ofReal_natCast, ← Complex.ofReal_pow,
      Complex.div_ofReal_im]
    simp [toComplex]
  rw [← hSin, ← hPower, ← Complex.sub_im]
  refine (Complex.abs_im_le_norm _).trans (hNear.trans ?_)
  have hPos : (0 : ℝ) ≤ 2 / (n + 1).factorial := by positivity
  exact mul_le_mul_of_nonneg_right (sub_le_self _ zero_le_one) hPos

/-- A comparison of whole numbers tells the scaled sine of a whole number, rounded down. -/
theorem floor_sin_eq {n k s v : Nat} (hn : 1 ≤ n)
    (hLow : (v * (n + 1).factorial + s * 2 ^ k * 2) * n.factorial ^ k ≤
      s * (power (series n) k).2.natAbs * (n + 1).factorial)
    (hHigh : s * (power (series n) k).2.natAbs * (n + 1).factorial +
      s * 2 ^ k * 2 * n.factorial ^ k < (v + 1) * (n + 1).factorial * n.factorial ^ k) :
    ⌊(s : ℝ) * |Real.sin k|⌋₊ = v := by
  have hNear := (abs_abs_sub_abs_le _ _).trans (abs_sin_sub_le hn k)
  rw [abs_div, abs_pow, Nat.abs_cast, ← Int.cast_abs, Int.abs_eq_natAbs, Int.cast_natCast] at hNear
  generalize (power (series n) k).2.natAbs = b at *
  have hd : (0 : ℝ) < (n.factorial : ℝ) ^ k := by positivity
  have hF : (0 : ℝ) < (n + 1).factorial := by positivity
  have hs : (0 : ℝ) ≤ s := Nat.cast_nonneg s
  obtain ⟨hAbove, hBelow⟩ := abs_le.mp hNear
  have hLow' : (v : ℝ) + s * (2 ^ k * (2 / (n + 1).factorial)) ≤ s * (b / (n.factorial : ℝ) ^ k) := by
    have hCast : (((v * (n + 1).factorial + s * 2 ^ k * 2) * n.factorial ^ k : ℕ) : ℝ) ≤
        ((s * b * (n + 1).factorial : ℕ) : ℝ) := by exact_mod_cast hLow
    push_cast at hCast
    rw [← mul_le_mul_iff_of_pos_right hd, ← mul_le_mul_iff_of_pos_right hF]
    calc (v + s * (2 ^ k * (2 / ((n + 1).factorial : ℝ)))) * (n.factorial : ℝ) ^ k *
          (n + 1).factorial = (v * (n + 1).factorial + s * 2 ^ k * 2) * (n.factorial : ℝ) ^ k := by
            field_simp
      _ ≤ s * b * (n + 1).factorial := hCast
      _ = s * (b / (n.factorial : ℝ) ^ k) * (n.factorial : ℝ) ^ k * (n + 1).factorial := by
            field_simp
  have hHigh' : s * (b / (n.factorial : ℝ) ^ k) + s * (2 ^ k * (2 / (n + 1).factorial)) <
      (v : ℝ) + 1 := by
    have hCast : ((s * b * (n + 1).factorial + s * 2 ^ k * 2 * n.factorial ^ k : ℕ) : ℝ) <
        (((v + 1) * (n + 1).factorial * n.factorial ^ k : ℕ) : ℝ) := by exact_mod_cast hHigh
    push_cast at hCast
    rw [← mul_lt_mul_iff_of_pos_right hF, ← mul_lt_mul_iff_of_pos_right hd]
    calc (s * (b / (n.factorial : ℝ) ^ k) + s * (2 ^ k * (2 / ((n + 1).factorial : ℝ)))) *
          (n + 1).factorial * (n.factorial : ℝ) ^ k =
          s * b * (n + 1).factorial + s * 2 ^ k * 2 * (n.factorial : ℝ) ^ k := by
            field_simp
      _ < (v + 1) * (n + 1).factorial * (n.factorial : ℝ) ^ k := hCast
  refine (Nat.floor_eq_iff (mul_nonneg hs (abs_nonneg _))).mpr ⟨?_, ?_⟩
  · have := mul_le_mul_of_nonneg_left hAbove hs
    linarith
  · have := mul_le_mul_of_nonneg_left hBelow hs
    linarith

end Gbase.Lib.Sines
