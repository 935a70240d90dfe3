import Mathlib.Algebra.Group.Int.Defs
import Mathlib.Algebra.Group.Nat.Defs
import Mathlib.Data.Nat.Log
import Mathlib.Data.Int.DivMod

/-!
# Rounding to powers of two (`core/os_def.h`)

The macros `ILOG2` and `ROUNDUP`, and the conversions between `int` and `size_t` around
them.  `size_t` has 64 bits and `int` 32; conversions are modulo these, and the shift of an
`int` takes its count modulo 32, as on x86.

## Main results

* `ilog2_eq`: `ILOG2` is the position of the highest bit.
* `roundup_spec`: up to `2 ^ 30`, `ROUNDUP` is the least power of two that is not smaller.
-/

namespace Gbase.Core.OsDef

/-- The byte order that a build is for: `OS_LITTLE_ENDIAN` or `OS_BIG_ENDIAN`. -/
inductive OsEndian where
  | little
  | big
  deriving DecidableEq, Repr

/-- `(int)n` -/
def toInt (n : Int) : Int := n.bmod (2 ^ 32)

/-- `(size_t)n` -/
def toSize (n : Int) : Nat := (n % 2 ^ 64).toNat

/-- `(uint32_t)n` -/
def toUint32 (n : Int) : Nat := (n % 2 ^ 32).toNat

/-- The tests of `ILOG2` from some bit down. -/
def ilog2From : Nat → Nat → Nat
  | 0, _ => 0
  | bit + 1, n => if n.testBit bit then bit else ilog2From bit n

/-- `ILOG2` -/
def ilog2 (n : Nat) : Nat := ilog2From 64 n

/-- `1 << count` -/
def oneShl (count : Nat) : Int := toInt (2 ^ (count % 32))

/-- `ROUNDUP` of a `size_t`. -/
def roundup (n : Nat) : Int := if n = 1 then 1 else oneShl (ilog2 (toSize (n - 1)) + 1)

/-- `ROUNDDOWN` -/
def rounddown (n : Nat) : Int := oneShl (ilog2 n)

/-- `ROUNDUP2` of a `size_t` by an `int`, where `~(y - 1)` is `-y`. -/
def roundup2 (x : Nat) (y : Int) : Nat := toSize (x + (y - 1)) &&& toSize (-y)

theorem toInt_eq {n : Nat} (h : n < 2 ^ 31) : toInt n = n := by
  rw [toInt, Int.bmod_eq_of_le] <;> omega

theorem toSize_eq {n : Nat} (h : n < 2 ^ 64) : toSize n = n := by
  rw [toSize]
  omega

/-- The distance of two numbers that count modulo `2 ^ 32`. -/
theorem toUint32_sub {a n : Nat} (h : n < 2 ^ 32) :
    toUint32 (((a + n) % 2 ^ 32 : Nat) - (a : Int)) = n := by
  rw [toUint32]
  omega

/-- `ILOG2` finds the highest bit. -/
theorem ilog2_eq {n k : Nat} (hLow : 2 ^ k ≤ n) (hHigh : n < 2 ^ (k + 1)) (hk : k < 64) :
    ilog2 n = k := by
  have hFrom : ∀ bits, k < bits → ilog2From bits n = k := by
    intro bits
    induction bits with
    | zero =>
        intro h
        omega
    | succ bit ih =>
        intro h
        rw [ilog2From]
        rcases Nat.lt_succ_iff_lt_or_eq.mp h with hLess | rfl
        · have hPow : 2 ^ (k + 1) ≤ 2 ^ bit := Nat.pow_le_pow_right (by decide) hLess
          rw [Nat.testBit_lt_two_pow (by omega : n < 2 ^ bit)]
          exact ih hLess
        · have hDiv : n / 2 ^ k = 1 := by
            apply Nat.div_eq_of_lt_le
            · omega
            · rw [Nat.pow_succ] at hHigh
              omega
          rw [Nat.testBit_eq_decide_div_mod_eq, hDiv]
          rfl
  exact hFrom 64 hk

theorem oneShl_eq {k : Nat} (hk : k < 31) : oneShl k = 2 ^ k := by
  have hPow : 2 ^ k < 2 ^ 31 := Nat.pow_lt_pow_right (by decide) hk
  rw [oneShl, Nat.mod_eq_of_lt (by omega : k < 32)]
  exact_mod_cast toInt_eq hPow

/-- `ROUNDUP` of a number of moderate size. -/
theorem roundup_spec {n : Nat} (hPos : 1 ≤ n) (hn : n ≤ 2 ^ 30) :
    ∃ k, k ≤ 30 ∧ roundup n = 2 ^ k ∧ n ≤ 2 ^ k ∧ 2 ^ k < 2 * n := by
  by_cases hOne : n = 1
  · exact ⟨0, by decide, by simp [roundup, hOne], by omega, by omega⟩
  · have hNe : n - 1 ≠ 0 := by omega
    have hLow : 2 ^ Nat.log 2 (n - 1) ≤ n - 1 := Nat.pow_log_le_self 2 hNe
    have hHigh : n - 1 < 2 ^ (Nat.log 2 (n - 1) + 1) := Nat.lt_pow_succ_log_self (by decide) _
    have hLog : Nat.log 2 (n - 1) < 30 := Nat.log_lt_of_lt_pow hNe (by omega)
    have hSize : toSize ((n : Int) - 1) = n - 1 := by
      rw [toSize]
      omega
    refine ⟨Nat.log 2 (n - 1) + 1, by omega, ?_, by omega, ?_⟩
    · rw [roundup, if_neg hOne, hSize, ilog2_eq hLow hHigh (by omega), oneShl_eq (by omega)]
    · rw [Nat.pow_succ]
      omega

/-- Whatever the argument, a positive `ROUNDUP` is a power of two. -/
theorem roundup_pow (n : Nat) : roundup n = -2 ^ 31 ∨ ∃ k, k ≤ 30 ∧ roundup n = 2 ^ k := by
  by_cases hOne : n = 1
  · exact Or.inr ⟨0, by decide, by simp [roundup, hOne]⟩
  · rw [roundup, if_neg hOne]
    generalize ilog2 (toSize (n - 1)) + 1 = count
    have hCount : count % 32 < 32 := Nat.mod_lt _ (by decide)
    by_cases hTop : count % 32 = 31
    · refine Or.inl ?_
      rw [oneShl, hTop]
      decide
    · refine Or.inr ⟨count % 32, by omega, ?_⟩
      have hShl := @oneShl_eq (count % 32) (by omega)
      rwa [oneShl, Nat.mod_mod] at hShl

end Gbase.Core.OsDef
