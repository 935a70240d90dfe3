import Mathlib.Data.Nat.Bitwise

/-!
# Words bit by bit

Digests mix words of 32 bits with functions that standards give bit by bit, and programs compute
with operations on whole words.  Here a word is given by its bits, so that a function of words is a
truth table or a way to move bits, and a lemma for each says which operations compute it.

## Main results

* `eq_ofBits`: a word is what its bits say.
* `rotate_eq`: two shifts and an or rotate a word.
* `choice_eq`, `majority_eq`: the same of the functions that choose and that vote.
-/

namespace Gbase.Lib.WordBits

/-- Bit `i` of a word, the lowest at place 0. -/
def bit (x : UInt32) (i : Nat) : Bool := x.toBitVec.getLsbD i

/-- The word with the given bits. -/
def ofBits (f : Nat → Bool) : UInt32 := UInt32.ofNat (Nat.ofBits fun i : Fin 32 => f i)

section

variable {f : Nat → Bool} {w x y z : UInt32}

@[simp] theorem bit_ofBits {i : Nat} (hi : i < 32) : bit (ofBits f) i = f i := by
  have hLt : (Nat.ofBits fun i : Fin 32 => f i) < 2 ^ 32 := Nat.ofBits_lt_two_pow _
  show (UInt32.ofNat _).toNat.testBit i = f i
  rw [UInt32.toNat_ofNat', Nat.mod_eq_of_lt hLt, Nat.testBit_ofBits_lt _ i hi]

/-- A word is known by its bits. -/
theorem eq_ofBits (h : ∀ i, i < 32 → bit w i = f i) : w = ofBits f := by
  apply UInt32.eq_of_toBitVec_eq
  refine BitVec.eq_of_getLsbD_eq fun i hi => ?_
  exact (h i hi).trans (bit_ofBits hi).symm

theorem bit_and (i : Nat) : bit (x &&& y) i = (bit x i && bit y i) := by
  rw [bit, UInt32.toBitVec_and, BitVec.getLsbD_and]
  rfl

theorem bit_or (i : Nat) : bit (x ||| y) i = (bit x i || bit y i) := by
  rw [bit, UInt32.toBitVec_or, BitVec.getLsbD_or]
  rfl

theorem bit_xor (i : Nat) : bit (x ^^^ y) i = (bit x i ^^ bit y i) := by
  rw [bit, UInt32.toBitVec_xor, BitVec.getLsbD_xor]
  rfl

theorem bit_not {i : Nat} (hi : i < 32) : bit (~~~x) i = !bit x i := by
  rw [bit, UInt32.toBitVec_not, BitVec.getLsbD_not, decide_eq_true hi, Bool.true_and]
  rfl

private theorem bit_shiftLeft (k : UInt32) (i : Nat) :
    bit (x <<< k) i =
      (decide (i < 32) && !decide (i < k.toNat % 32) && bit x (i - k.toNat % 32)) := by
  have hCount : (k.toBitVec % 32).toNat = k.toNat % 32 := rfl
  rw [bit, UInt32.toBitVec_shiftLeft, BitVec.shiftLeft_eq', hCount, BitVec.getLsbD_shiftLeft]
  rfl

theorem bit_shiftRight (k : UInt32) (i : Nat) : bit (x >>> k) i = bit x (k.toNat % 32 + i) := by
  have hCount : (k.toBitVec % 32).toNat = k.toNat % 32 := rfl
  rw [bit, UInt32.toBitVec_shiftRight, BitVec.ushiftRight_eq', hCount, BitVec.getLsbD_ushiftRight]
  rfl

/-! ## Rotations -/

/-- Every bit moves up by `k` places, and those at the top come in again at the bottom. -/
def rotate (k : Nat) (x : UInt32) : UInt32 := ofBits fun i => bit x ((i + 32 - k) % 32)

/-- The shift to the left moves the bits up, and the shift to the right brings in the others. -/
theorem rotate_eq {k : Nat} (hk : 0 < k ∧ k < 32) :
    x <<< UInt32.ofNat k ||| x >>> (32 - UInt32.ofNat k) = rotate k x := by
  have hLeft : (UInt32.ofNat k).toNat = k := by
    rw [UInt32.toNat_ofNat', Nat.mod_eq_of_lt (by omega)]
  have hRight : (32 - UInt32.ofNat k).toNat = 32 - k := by
    rw [UInt32.toNat_sub_of_le _ _ (UInt32.le_iff_toNat_le.mpr (by rw [hLeft]; exact hk.2.le)),
      hLeft]
    rfl
  refine eq_ofBits fun i hi => ?_
  rw [bit_or, bit_shiftLeft, bit_shiftRight, hLeft, hRight, Nat.mod_eq_of_lt hk.2,
    Nat.mod_eq_of_lt (show 32 - k < 32 by omega)]
  by_cases hLow : i < k
  · rw [show (i + 32 - k) % 32 = 32 - k + i by omega]
    simp [hLow]
  · have hOut : bit x (32 - k + i) = false := BitVec.getLsbD_of_ge _ _ (by omega)
    rw [show (i + 32 - k) % 32 = i - k by omega, hOut]
    simp [hLow, hi]

/-! ## Truth tables -/

/-- A bit of `y` where `x` has a one, and a bit of `z` where it has a zero. -/
def choice (x y z : UInt32) : UInt32 := ofBits fun i => if bit x i then bit y i else bit z i

/-- A one where at least two words have one. -/
def majority (x y z : UInt32) : UInt32 :=
  ofBits fun i => decide (2 ≤ (bit x i).toNat + (bit y i).toNat + (bit z i).toNat)

/-- A one where one or three words have one. -/
def parity (x y z : UInt32) : UInt32 :=
  ofBits fun i => decide (((bit x i).toNat + (bit y i).toNat + (bit z i).toNat) % 2 = 1)

theorem choice_eq_xor : x &&& y ^^^ ~~~x &&& z = choice x y z := by
  refine eq_ofBits fun i hi => ?_
  rw [bit_xor, bit_and, bit_and, bit_not hi]
  cases bit x i <;> cases bit y i <;> cases bit z i <;> rfl

theorem choice_eq_or : x &&& y ||| ~~~x &&& z = choice x y z := by
  refine eq_ofBits fun i hi => ?_
  rw [bit_or, bit_and, bit_and, bit_not hi]
  cases bit x i <;> cases bit y i <;> cases bit z i <;> rfl

theorem majority_eq : x &&& y ^^^ x &&& z ^^^ y &&& z = majority x y z := by
  refine eq_ofBits fun i _ => ?_
  rw [bit_xor, bit_xor, bit_and, bit_and, bit_and]
  cases bit x i <;> cases bit y i <;> cases bit z i <;> rfl

theorem parity_eq : x ^^^ y ^^^ z = parity x y z := by
  refine eq_ofBits fun i _ => ?_
  rw [bit_xor, bit_xor]
  cases bit x i <;> cases bit y i <;> cases bit z i <;> rfl

end

end Gbase.Lib.WordBits
