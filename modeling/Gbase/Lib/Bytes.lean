import Mathlib.Data.Nat.Init
import Mathlib.Tactic.Ring

/-!
# Numbers as bytes

A number of several bytes lies in memory with its lowest byte first (little-endian) and goes
over the network with its highest byte first (big-endian).

Both orders are lists of digits to the base 256, so one fact about digits serves all widths.  The
machine's order matters only where memory is copied without regard to it.

## Main results

* `leValue_leBytes`: a number that fits is read back.
* `leBytes_add`: the bytes of a number can be copied in two parts.
* `shiftLeft_or_byte`: putting the bytes of a number together by shifts.
-/

namespace Gbase.Lib.Bytes

/-- The lowest `count` bytes of a number, the lowest first. -/
def leBytes : Nat → Nat → List UInt8
  | 0, _ => []
  | count + 1, value => UInt8.ofNat value :: leBytes count (value / 256)

/-- The number that some bytes are, the lowest first. -/
def leValue : List UInt8 → Nat
  | [] => 0
  | byte :: bytes => byte.toNat + 256 * leValue bytes

@[simp] theorem length_leBytes (count value : Nat) : (leBytes count value).length = count := by
  induction count generalizing value with
  | zero => rfl
  | succ count ih => rw [leBytes, List.length_cons, ih]

/-- A number that fits is read back. -/
theorem leValue_leBytes {count value : Nat} (hFits : value < 256 ^ count) :
    leValue (leBytes count value) = value := by
  induction count generalizing value with
  | zero =>
      rw [pow_zero] at hFits
      show 0 = value
      omega
  | succ count ih =>
      have hDiv : value / 256 < 256 ^ count := by
        rw [pow_succ] at hFits
        omega
      rw [leBytes, leValue, ih hDiv, UInt8.toNat_ofNat']
      omega

/-- The bytes of a number can be copied in two parts. -/
theorem leBytes_add (a b value : Nat) :
    leBytes (a + b) value = leBytes a value ++ leBytes b (value / 256 ^ a) := by
  induction a generalizing value with
  | zero => simp [leBytes]
  | succ a ih =>
      rw [Nat.succ_add, leBytes, leBytes, ih, Nat.div_div_eq_div_mul, ← pow_succ', List.cons_append]

/-- The first bytes of a number. -/
theorem take_leBytes {a count : Nat} (h : a ≤ count) (value : Nat) :
    (leBytes count value).take a = leBytes a value := by
  obtain ⟨b, rfl⟩ := Nat.exists_eq_add_of_le h
  rw [leBytes_add, List.take_left' (length_leBytes a value)]

/-- The lowest `count` bytes of a number, the highest first. -/
def beBytes (count value : Nat) : List UInt8 := (leBytes count value).reverse

/-- The number that some bytes are, the highest first. -/
def beValue (bytes : List UInt8) : Nat := leValue bytes.reverse

@[simp] theorem length_beBytes (count value : Nat) : (beBytes count value).length = count := by
  rw [beBytes, List.length_reverse, length_leBytes]

theorem beValue_beBytes {count value : Nat} (hFits : value < 256 ^ count) :
    beValue (beBytes count value) = value := by
  rw [beValue, beBytes, List.reverse_reverse, leValue_leBytes hFits]

private theorem leValue_lt (bytes : List UInt8) : leValue bytes < 256 ^ bytes.length := by
  induction bytes with
  | nil => exact Nat.one_pos
  | cons byte bytes ih =>
      have hByte := byte.toNat_lt
      rw [leValue, List.length_cons, pow_succ]
      omega

theorem beValue_lt (bytes : List UInt8) : beValue bytes < 256 ^ bytes.length := by
  rw [beValue, ← List.length_reverse]
  exact leValue_lt _

/-- One more byte below the others. -/
theorem shiftLeft_or_byte (value i : Nat) (byte : UInt8) :
    value <<< (i + 8) ||| byte.toNat <<< i = (byte.toNat + 256 * value) <<< i := by
  have hSum := Nat.shiftLeft_add_eq_or_of_lt byte.toNat_lt value
  rw [Nat.add_comm i 8, Nat.shiftLeft_add, ← Nat.shiftLeft_or_distrib, ← hSum,
    Nat.shiftLeft_eq value, Nat.mul_comm value, Nat.add_comm]

/-- Two bytes put together. -/
theorem or_two (b1 b2 : UInt8) : b1.toNat <<< 8 ||| b2.toNat = beValue [b1, b2] := by
  have hLast := shiftLeft_or_byte b1.toNat 0 b2
  rw [Nat.zero_add, Nat.shiftLeft_zero, Nat.shiftLeft_zero] at hLast
  exact hLast

/-- Four bytes put together. -/
theorem or_four (b1 b2 b3 b4 : UInt8) :
    b1.toNat <<< 24 ||| b2.toNat <<< 16 ||| b3.toNat <<< 8 ||| b4.toNat =
      beValue [b1, b2, b3, b4] := by
  have hLast := fun value => shiftLeft_or_byte value 0 b4
  simp only [Nat.zero_add, Nat.shiftLeft_zero] at hLast
  rw [shiftLeft_or_byte _ 16, shiftLeft_or_byte _ 8, hLast]
  rfl

/-- Eight bytes put together. -/
theorem or_eight (b1 b2 b3 b4 b5 b6 b7 b8 : UInt8) :
    b1.toNat <<< 56 ||| b2.toNat <<< 48 ||| b3.toNat <<< 40 ||| b4.toNat <<< 32 |||
        b5.toNat <<< 24 ||| b6.toNat <<< 16 ||| b7.toNat <<< 8 ||| b8.toNat =
      beValue [b1, b2, b3, b4, b5, b6, b7, b8] := by
  have hLast := fun value => shiftLeft_or_byte value 0 b8
  simp only [Nat.zero_add, Nat.shiftLeft_zero] at hLast
  rw [shiftLeft_or_byte _ 48, shiftLeft_or_byte _ 40, shiftLeft_or_byte _ 32,
    shiftLeft_or_byte _ 24, shiftLeft_or_byte _ 16, shiftLeft_or_byte _ 8, hLast]
  rfl

/-- Bytes that are given are those of their number. -/
theorem leBytes_leValue (bytes : List UInt8) : leBytes bytes.length (leValue bytes) = bytes := by
  induction bytes with
  | nil => rfl
  | cons byte bytes ih =>
      have hByte := byte.toNat_lt
      have hLow : UInt8.ofNat (byte.toNat + 256 * leValue bytes) = byte := by
        apply UInt8.toNat.inj
        rw [UInt8.toNat_ofNat']
        omega
      have hRest : (byte.toNat + 256 * leValue bytes) / 256 = leValue bytes := by omega
      rw [List.length_cons, leValue, leBytes, hLow, hRest, ih]

end Gbase.Lib.Bytes
