import Mathlib.Data.Nat.Init
import Mathlib.Logic.Function.Basic

/-!
# Words mixed with their own shifts

Each bit of the result is a bit of the word and one that stands on one side of it, so the word can
be read off from that side.

Such steps are how a generator of random numbers spreads the bits of its state over the output.
They are linear over exclusive or, and a mask on the shifted word does not matter to the argument;
that they lose nothing means that the output tells the state.

## Main results

* `mixRight_injective`, `mixLeft_injective`: mixing a word with its shift loses nothing.
-/

namespace Gbase.Lib.XorShift

variable {w : Nat}

/-- Words that agree from the highest bit down. -/
theorem eq_of_downward {x y : BitVec w}
    (h : ∀ i, i < w → (∀ j, i < j → x.getLsbD j = y.getLsbD j) → x.getLsbD i = y.getLsbD i) :
    x = y := by
  have hAll : ∀ n i, w ≤ i + n → x.getLsbD i = y.getLsbD i := by
    intro n
    induction n with
    | zero =>
        intro i hi
        rw [BitVec.getLsbD_of_ge x i hi, BitVec.getLsbD_of_ge y i hi]
    | succ n ih =>
        intro i hi
        by_cases hLow : i < w
        · exact h i hLow fun j hj => ih j (by omega)
        · rw [BitVec.getLsbD_of_ge x i (by omega), BitVec.getLsbD_of_ge y i (by omega)]
  exact BitVec.eq_of_getLsbD_eq fun i _ => hAll w i (by omega)

/-- Words that agree from the lowest bit up. -/
theorem eq_of_upward {x y : BitVec w}
    (h : ∀ i, i < w → (∀ j, j < i → x.getLsbD j = y.getLsbD j) → x.getLsbD i = y.getLsbD i) :
    x = y := by
  refine BitVec.eq_of_getLsbD_eq fun i hi => ?_
  induction i using Nat.strong_induction_on with
  | _ i ih => exact h i hi fun j hj => ih j hj (by omega)

/-- A word mixed with its shift to the right. -/
def mixRight (k : Nat) (x : BitVec w) : BitVec w := x ^^^ x >>> k

/-- A word mixed with some bits of its shift to the left. -/
def mixLeft (k : Nat) (mask x : BitVec w) : BitVec w := x ^^^ x <<< k &&& mask

/-- Mixing a word with its shift to the right loses nothing. -/
theorem mixRight_injective {k : Nat} (hk : 0 < k) :
    Function.Injective (mixRight k : BitVec w → BitVec w) := by
  intro x y h
  apply eq_of_downward
  intro i _ hAbove
  have hBit := congrArg (fun z => BitVec.getLsbD z i) h
  simp only [mixRight, BitVec.getLsbD_xor, BitVec.getLsbD_ushiftRight] at hBit
  rw [hAbove (k + i) (by omega)] at hBit
  exact Bool.xor_left_inj.mp hBit

/-- Mixing a word with some bits of its shift to the left loses nothing. -/
theorem mixLeft_injective {k : Nat} (hk : 0 < k) (mask : BitVec w) :
    Function.Injective (mixLeft k mask) := by
  intro x y h
  apply eq_of_upward
  intro i hi hBelow
  have hBit := congrArg (fun z => BitVec.getLsbD z i) h
  simp only [mixLeft, BitVec.getLsbD_xor, BitVec.getLsbD_and, BitVec.getLsbD_shiftLeft] at hBit
  by_cases hLow : i < k
  · simpa [hLow] using hBit
  · rw [hBelow (i - k) (by omega)] at hBit
    exact Bool.xor_left_inj.mp hBit

end Gbase.Lib.XorShift
