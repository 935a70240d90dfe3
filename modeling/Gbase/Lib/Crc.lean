import Mathlib.Algebra.Group.Nat.Defs

/-!
# Reflected cyclic redundancy checks

The register of a reflected check is shifted out towards its lowest bit, and the polynomial is added
whenever a one leaves it.  The operations are linear over exclusive or, which is why a table can
replace eight single shifts.

A table has one entry for each value of the lowest bits, and the entry is what shifting these alone
amounts to.  With linearity, a step by the table is a step bit by bit, for any width of the table
and any polynomial.

## Main results

* `shiftOuts_xor`: shifting out is linear.
* `shiftOuts_split`: several shifts at once, by what the lowest bits alone amount to.
* `parity_xor`: the parity of some bits is linear.
-/

namespace Gbase.Lib.Crc

variable {w : Nat}

/-- A word if the bit is set, and zero otherwise. -/
def gate (b : Bool) (x : BitVec w) : BitVec w := if b then x else 0

@[simp] theorem gate_false (x : BitVec w) : gate false x = 0 := rfl

@[simp] theorem gate_true (x : BitVec w) : gate true x = x := rfl

theorem gate_xor (a b : Bool) (x : BitVec w) : gate (a ^^ b) x = gate a x ^^^ gate b x := by
  cases a <;> cases b <;> simp

/-! ## Shifting out -/

/-- One bit leaves the register. -/
def shiftOut (poly c : BitVec w) : BitVec w := (c >>> 1) ^^^ gate (c.getLsbD 0) poly

/-- So many bits leave the register. -/
def shiftOuts (poly : BitVec w) : Nat → BitVec w → BitVec w
  | 0, c => c
  | n + 1, c => shiftOuts poly n (shiftOut poly c)

/-- A byte enters the register, bit by bit from its lowest one. -/
def enter (poly c : BitVec w) (b : UInt8) : BitVec w :=
  shiftOuts poly 8 (c ^^^ b.toBitVec.setWidth w)

/-- The register behind some bytes. -/
def register (poly init : BitVec w) (bytes : List UInt8) : BitVec w :=
  bytes.foldl (enter poly) init

section

variable {poly : BitVec w}

private theorem shiftOut_xor (c d : BitVec w) :
    shiftOut poly (c ^^^ d) = shiftOut poly c ^^^ shiftOut poly d := by
  simp only [shiftOut, BitVec.ushiftRight_xor_distrib, BitVec.getLsbD_xor, gate_xor]
  ac_rfl

theorem shiftOuts_xor (n : Nat) (c d : BitVec w) :
    shiftOuts poly n (c ^^^ d) = shiftOuts poly n c ^^^ shiftOuts poly n d := by
  induction n generalizing c d with
  | zero => rfl
  | succ n ih => rw [shiftOuts, shiftOut_xor, ih, shiftOuts, shiftOuts]

/-- Bits that are zero leave without a trace. -/
theorem shiftOuts_clear {n : Nat} {c : BitVec w} (hClear : ∀ i, i < n → c.getLsbD i = false) :
    shiftOuts poly n c = c >>> n := by
  induction n generalizing c with
  | zero => rw [shiftOuts, BitVec.ushiftRight_zero]
  | succ n ih =>
      have hOne : shiftOut poly c = c >>> 1 := by
        rw [shiftOut, hClear 0 (Nat.succ_pos n), gate_false]
        exact BitVec.xor_zero
      have hRest := @ih (c >>> 1) fun i hi => by
        rw [BitVec.getLsbD_ushiftRight]
        exact hClear (1 + i) (by omega)
      rw [shiftOuts, hOne, hRest, ← BitVec.shiftRight_add, Nat.add_comm]

/-- The lowest bits alone decide what shifting them out adds to the others. -/
theorem shiftOuts_split (n : Nat) (c : BitVec w) :
    shiftOuts poly n c = (c >>> n) ^^^ shiftOuts poly n (c &&& BitVec.ofNat w (2 ^ n - 1)) := by
  have hMask : ∀ i, (BitVec.ofNat w (2 ^ n - 1)).getLsbD i = (decide (i < w) && decide (i < n)) :=
    fun i => by rw [BitVec.getLsbD_ofNat, Nat.testBit_two_pow_sub_one]
  have hParts : c =
      (c &&& ~~~ BitVec.ofNat w (2 ^ n - 1)) ^^^ (c &&& BitVec.ofNat w (2 ^ n - 1)) := by
    apply BitVec.eq_of_getLsbD_eq
    intro i hi
    simp only [BitVec.getLsbD_xor, BitVec.getLsbD_and, BitVec.getLsbD_not, hMask, hi]
    cases c.getLsbD i <;> cases decide (i < n) <;> rfl
  have hHigh : (c &&& ~~~ BitVec.ofNat w (2 ^ n - 1)) >>> n = c >>> n := by
    apply BitVec.eq_of_getLsbD_eq
    intro i hi
    simp only [BitVec.getLsbD_ushiftRight, BitVec.getLsbD_and, BitVec.getLsbD_not, hMask]
    by_cases hIn : n + i < w
    · simp [hIn]
    · simp [BitVec.getLsbD_of_ge c (n + i) (by omega)]
  have hClear : ∀ i, i < n → (c &&& ~~~ BitVec.ofNat w (2 ^ n - 1)).getLsbD i = false := by
    intro i hi
    simp only [BitVec.getLsbD_and, BitVec.getLsbD_not, hMask, hi]
    cases decide (i < w) <;> simp
  calc shiftOuts poly n c
      = shiftOuts poly n ((c &&& ~~~ BitVec.ofNat w (2 ^ n - 1)) ^^^
          (c &&& BitVec.ofNat w (2 ^ n - 1))) := by rw [← hParts]
    _ = (c >>> n) ^^^ shiftOuts poly n (c &&& BitVec.ofNat w (2 ^ n - 1)) := by
        rw [shiftOuts_xor, shiftOuts_clear hClear, hHigh]

/-- A byte enters through a table of what the lowest byte alone amounts to. -/
theorem enter_table (c : BitVec w) (b : UInt8) :
    enter poly c b =
      (c >>> 8) ^^^ shiftOuts poly 8 ((c ^^^ b.toBitVec.setWidth w) &&& BitVec.ofNat w 0xff) := by
  have hByte : (b.toBitVec.setWidth w) >>> 8 = 0 := by
    apply BitVec.eq_of_getLsbD_eq
    intro i _
    rw [BitVec.getLsbD_ushiftRight, BitVec.getLsbD_setWidth, BitVec.getLsbD_of_ge _ _ (by omega)]
    simp
  have hSplit := @shiftOuts_split w poly 8 (c ^^^ b.toBitVec.setWidth w)
  rw [BitVec.ushiftRight_xor_distrib, hByte] at hSplit
  rw [enter, hSplit]
  congr 1
  exact BitVec.xor_zero

theorem enter_xor (c d : BitVec w) (b : UInt8) :
    enter poly (c ^^^ d) b = enter poly c b ^^^ shiftOuts poly 8 d := by
  rw [enter, enter, ← shiftOuts_xor]
  congr 1
  ac_rfl

end

/-! ## Parity -/

/-- Whether an odd number of the masked bits are set. -/
def parity (mask x : BitVec w) : Bool :=
  (List.range w).foldr (fun i p => (mask &&& x).getLsbD i ^^ p) false

theorem parity_xor (mask x y : BitVec w) :
    parity mask (x ^^^ y) = (parity mask x ^^ parity mask y) := by
  unfold parity
  induction List.range w with
  | nil => rfl
  | cons i is ih =>
      have hBit : (mask &&& (x ^^^ y)).getLsbD i =
          ((mask &&& x).getLsbD i ^^ (mask &&& y).getLsbD i) := by
        simp only [BitVec.getLsbD_and, BitVec.getLsbD_xor]
        cases mask.getLsbD i <;> rfl
      rw [List.foldr_cons, List.foldr_cons, List.foldr_cons, ih, hBit]
      simp only [Bool.xor_assoc, Bool.xor_left_comm]

theorem parity_gate (mask x : BitVec w) (b : Bool) :
    parity mask (gate b x) = (b && parity mask x) := by
  cases b with
  | true => simp
  | false =>
      have hZero := parity_xor mask (0 : BitVec w) 0
      rw [BitVec.xor_self] at hZero
      rw [gate_false, Bool.false_and]
      revert hZero
      cases parity mask (0 : BitVec w) <;> simp

end Gbase.Lib.Crc
