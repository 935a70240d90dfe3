import Mathlib.Algebra.Group.Nat.Defs
import Mathlib.Data.Nat.Init
import Mathlib.Tactic.Ring

/-!
# Bytes as digits of six bits

The bits of some bytes, the highest first, are cut into groups of six, where the last group is
filled with zeros.  Each group is written as one symbol, and symbols of padding follow until their
number is a multiple of four.

The groups are cut from the bits of all bytes, and not from three bytes at a time, so that the
grouping of an implementation is something to be proved.  The number of padding symbols tells how
many bytes the last group stands for.

## Main results

* `encoding_cons`: three bytes are four symbols.
* `length_encoding`, `encoding_length`: how many symbols some bytes take, and back.
-/

namespace Gbase.Lib.Sextets

/-- The number that some bits are, the highest first. -/
def value (bits : List Bool) : Nat := bits.foldl (fun n bit => 2 * n + bit.toNat) 0

/-- The bits of a byte, the highest first. -/
def byteBits (byte : UInt8) : List Bool := [7, 6, 5, 4, 3, 2, 1, 0].map byte.toNat.testBit

/-- The bits of some bytes. -/
def bits (bytes : List UInt8) : List Bool := bytes.flatMap byteBits

/-- The groups of six bits. -/
def sextets : List Bool → List Nat
  | b0 :: b1 :: b2 :: b3 :: b4 :: b5 :: rest => value [b0, b1, b2, b3, b4, b5] :: sextets rest
  | [] => []
  | rest => [value (rest ++ List.replicate (6 - rest.length) false)]

/-- The symbols of some bytes, with the padding behind them. -/
def encoding (symbol : Nat → UInt8) (pad : UInt8) (bytes : List UInt8) : List UInt8 :=
  let symbols := (sextets (bits bytes)).map symbol
  symbols ++ List.replicate ((4 - symbols.length % 4) % 4) pad

/-! ## Numbers -/

theorem foldl_value (bits : List Bool) (n : Nat) :
    bits.foldl (fun n bit => 2 * n + bit.toNat) n = n * 2 ^ bits.length + value bits := by
  induction bits generalizing n with
  | nil => simp [value]
  | cons bit bits ih =>
      rw [value, List.foldl_cons, List.foldl_cons, ih, ih (2 * 0 + bit.toNat), List.length_cons]
      ring

private theorem value_append (high low : List Bool) :
    value (high ++ low) = value high * 2 ^ low.length + value low := by
  rw [value, List.foldl_append, foldl_value, ← value]

private theorem value_cons (bit : Bool) (bits : List Bool) :
    value (bit :: bits) = bit.toNat * 2 ^ bits.length + value bits := by
  rw [← List.singleton_append, value_append]
  simp [value]

/-- Some bits of a number, from the one at `low` on. -/
theorem value_testBit (n low count : Nat) :
    value ((List.range count).reverse.map fun i => n.testBit (low + i)) =
      n / 2 ^ low % 2 ^ count := by
  induction count with
  | zero => simp [value, Nat.mod_one]
  | succ count ih =>
      rw [List.range_succ, List.reverse_append, List.reverse_singleton, List.singleton_append,
        List.map_cons, value_cons, ih, Nat.mod_pow_succ, Nat.toNat_testBit, Nat.pow_add,
        Nat.div_div_eq_div_mul]
      simp only [List.length_map, List.length_reverse, List.length_range]
      ring

/-- All the bits of a byte from the one at `low` on. -/
theorem value_high (byte : UInt8) {low : Nat} (hLow : low ≤ 8) :
    value ((List.range (8 - low)).reverse.map fun i => byte.toNat.testBit (low + i)) =
      byte.toNat / 2 ^ low := by
  have hByte := byte.toNat_lt
  rw [value_testBit, Nat.mod_eq_of_lt]
  rw [Nat.div_lt_iff_lt_mul (Nat.two_pow_pos low), ← Nat.pow_add, Nat.sub_add_cancel hLow]
  exact hByte

/-- The last bits of a byte. -/
theorem value_low (byte : UInt8) (count : Nat) :
    value ((List.range count).reverse.map byte.toNat.testBit) = byte.toNat % 2 ^ count := by
  have hBits := value_testBit byte.toNat 0 count
  simpa only [Nat.zero_add, pow_zero, Nat.div_one] using hBits

/-- The last bits of a byte and the first ones of another. -/
theorem value_join (high low : UInt8) (count : Nat) {first : Nat} (hFirst : first ≤ 8) :
    value ((List.range count).reverse.map high.toNat.testBit ++
        (List.range (8 - first)).reverse.map fun i => low.toNat.testBit (first + i)) =
      high.toNat % 2 ^ count * 2 ^ (8 - first) + low.toNat / 2 ^ first := by
  rw [value_append, value_low, value_high low hFirst]
  simp only [List.length_map, List.length_reverse, List.length_range]

/-! ## Three bytes at a time -/

section

variable (b0 b1 b2 : UInt8)

/-- The four digits of three bytes. -/
def digits : List Nat :=
  [b0.toNat / 4, b0.toNat % 4 * 16 + b1.toNat / 16, b1.toNat % 16 * 4 + b2.toNat / 64,
    b2.toNat % 64]

theorem value_digits :
    [value ((List.range (8 - 2)).reverse.map fun i => b0.toNat.testBit (2 + i)),
      value ((List.range 2).reverse.map b0.toNat.testBit ++
        (List.range (8 - 4)).reverse.map fun i => b1.toNat.testBit (4 + i)),
      value ((List.range 4).reverse.map b1.toNat.testBit ++
        (List.range (8 - 6)).reverse.map fun i => b2.toNat.testBit (6 + i)),
      value ((List.range 6).reverse.map b2.toNat.testBit)] = digits b0 b1 b2 := by
  rw [value_high b0 (by decide), value_join b0 b1 2 (by decide), value_join b1 b2 4 (by decide),
    value_low b2 6]
  rfl

private theorem sextets_cons (rest : List UInt8) :
    sextets (bits (b0 :: b1 :: b2 :: rest)) = digits b0 b1 b2 ++ sextets (bits rest) := by
  rw [← value_digits]
  rfl

/-- The bits that are missing are those of a byte of zero. -/
theorem sextets_two : sextets (bits [b0, b1]) = (digits b0 b1 0).take 3 := by
  rw [← value_digits]
  rfl

private theorem sextets_one : sextets (bits [b0]) = (digits b0 0 0).take 2 := by
  rw [← value_digits]
  rfl

variable (symbol : Nat → UInt8) (pad : UInt8)

/-- Three bytes are four symbols. -/
theorem encoding_cons (rest : List UInt8) :
    encoding symbol pad (b0 :: b1 :: b2 :: rest) =
      (digits b0 b1 b2).map symbol ++ encoding symbol pad rest := by
  have hLength : ∀ n, (4 - (4 + n) % 4) % 4 = (4 - n % 4) % 4 := by
    intro n
    omega
  rw [encoding, encoding, sextets_cons, List.map_append, List.length_append, List.append_assoc]
  show _ ++ (_ ++ List.replicate ((4 - (4 + _) % 4) % 4) pad) = _
  rw [hLength]

theorem encoding_two :
    encoding symbol pad [b0, b1] = ((digits b0 b1 0).take 3).map symbol ++ [pad] := by
  rw [encoding, sextets_two]
  rfl

theorem encoding_one :
    encoding symbol pad [b0] = ((digits b0 0 0).take 2).map symbol ++ [pad, pad] := by
  rw [encoding, sextets_one]
  rfl

/-- Three bytes are four groups; one or two bytes more are two or three. -/
theorem length_sextets : ∀ bytes : List UInt8,
    (sextets (bits bytes)).length = (4 * bytes.length + 2) / 3
  | [] => by simp [bits, sextets]
  | [b0] => by simp [sextets_one, digits]
  | [b0, b1] => by simp [sextets_two, digits]
  | b0 :: b1 :: b2 :: rest => by
      have hFour : (digits b0 b1 b2).length = 4 := rfl
      have hRest := length_sextets rest
      rw [sextets_cons, List.length_append, hFour, hRest]
      simp only [List.length_cons]
      omega

/-- Every three bytes that are begun take four symbols. -/
theorem length_encoding (bytes : List UInt8) :
    (encoding symbol pad bytes).length = 4 * ((bytes.length + 2) / 3) := by
  rw [encoding, List.length_append, List.length_replicate, List.length_map, length_sextets]
  omega

variable {symbol pad}

/-- The padding tells how many bytes there are. -/
theorem encoding_length {xs ys : List UInt8} (hPad : ∀ digit, symbol digit ≠ pad)
    (h : encoding symbol pad xs = encoding symbol pad ys) : xs.length = ys.length := by
  have hCount : ∀ bytes, (encoding symbol pad bytes).count pad =
      (4 - (sextets (bits bytes)).length % 4) % 4 := by
    intro bytes
    have hNone : ((sextets (bits bytes)).map symbol).count pad = 0 := by
      rw [List.count_eq_zero]
      intro hIn
      obtain ⟨digit, -, hEq⟩ := List.mem_map.mp hIn
      exact hPad digit hEq
    rw [encoding, List.count_append, hNone, List.count_replicate_self, Nat.zero_add,
      List.length_map]
  have hLength : ∀ bytes, (encoding symbol pad bytes).length =
      (sextets (bits bytes)).length + (encoding symbol pad bytes).count pad := by
    intro bytes
    rw [hCount, encoding, List.length_append, List.length_replicate, List.length_map]
  have hGroups : (sextets (bits xs)).length = (sextets (bits ys)).length := by
    have hX := hLength xs
    rw [h, hLength ys] at hX
    omega
  rw [length_sextets, length_sextets] at hGroups
  omega

end

end Gbase.Lib.Sextets
