import Gbase.Lib.Bytes
import Mathlib.Algebra.BigOperators.Group.List.Basic
import Mathlib.Algebra.Group.Action.Defs
import Mathlib.Data.List.Basic
import Mathlib.Data.List.GetD
import Mathlib.Data.Nat.Bits

/-!
# Iterated digests

A digest of this kind appends to a message a one, zeros and a field with its length, which gives
whole blocks of 64 bytes, and puts block after block into a state.  Messages are strings of bits, so
that their lengths need not be multiples of eight.  A program keeps the bytes behind the last whole
block, sets the bit behind the message and closes with one block or with two.

## Main results

* `padded_eq`: the padded message is the whole blocks and the closing of the rest.
* `digest_eq`, `digest_append`: a digest from its whole blocks and its closing.
* `wholeBlocks_eq`, `nextBlocks_eq`: what loops over whole blocks leave.
-/

namespace Gbase.Lib.Digest

open Gbase.Lib.Bytes

/-- The bits of a byte, the highest first. -/
def byteBits (byte : UInt8) : List Bool :=
  (List.range 8).map fun i => byte.toNat.testBit (7 - i)

/-- The bits of some bytes. -/
def bits : List UInt8 → List Bool
  | [] => []
  | byte :: bytes => byteBits byte ++ bits bytes

/-- The number that some bits are, the highest first. -/
def bitsValue (bs : List Bool) : Nat := bs.foldl (fun value b => 2 * value + b.toNat) 0

/-- The bytes that some bits are. -/
def pack : List Bool → List UInt8
  | b7 :: b6 :: b5 :: b4 :: b3 :: b2 :: b1 :: b0 :: rest =>
      UInt8.ofNat (bitsValue [b7, b6, b5, b4, b3, b2, b1, b0]) :: pack rest
  | _ => []

/-- Bytes are the bytes of their bits. -/
theorem pack_bits (bytes : List UInt8) : pack (bits bytes) = bytes := by
  induction bytes with
  | nil => rfl
  | cons byte bytes ih =>
      have hAll : ∀ n, n < 256 → bitsValue (byteBits (UInt8.ofNat n)) = n := by decide +kernel
      have hByte : UInt8.ofNat (bitsValue (byteBits byte)) = byte := by
        have h := hAll byte.toNat byte.toNat_lt
        rw [UInt8.ofNat_toNat] at h
        rw [h, UInt8.ofNat_toNat]
      show UInt8.ofNat (bitsValue (byteBits byte)) :: pack (bits bytes) = byte :: bytes
      rw [hByte, ih]

@[simp] theorem length_byteBits (byte : UInt8) : (byteBits byte).length = 8 := by
  rw [byteBits, List.length_map, List.length_range]

@[simp] theorem length_bits (bytes : List UInt8) : (bits bytes).length = 8 * bytes.length := by
  induction bytes with
  | nil => rfl
  | cons byte bytes ih =>
      rw [bits, List.length_append, length_byteBits, ih, List.length_cons]
      omega

theorem bits_append (bytes bytes' : List UInt8) :
    bits (bytes ++ bytes') = bits bytes ++ bits bytes' := by
  induction bytes with
  | nil => rfl
  | cons byte bytes ih => rw [List.cons_append, bits, bits, ih, List.append_assoc]

theorem bits_take (bytes : List UInt8) (n : Nat) :
    bits (bytes.take n) = (bits bytes).take (8 * n) := by
  induction bytes generalizing n with
  | nil => simp [bits]
  | cons byte bytes ih =>
      cases n with
      | zero => simp [bits]
      | succ n =>
          rw [List.take_succ_cons, bits, bits, ih, Nat.mul_succ, Nat.add_comm (8 * n) 8,
            List.take_append, length_byteBits, Nat.add_sub_cancel_left,
            List.take_of_length_le (l := byteBits byte) (by rw [length_byteBits]; omega)]

theorem bits_drop (bytes : List UInt8) (n : Nat) :
    bits (bytes.drop n) = (bits bytes).drop (8 * n) := by
  induction bytes generalizing n with
  | nil => simp [bits]
  | cons byte bytes ih =>
      cases n with
      | zero => simp [bits]
      | succ n =>
          rw [List.drop_succ_cons, bits, ih, Nat.mul_succ, Nat.add_comm (8 * n) 8,
            List.drop_append, length_byteBits, Nat.add_sub_cancel_left,
            List.drop_of_length_le (l := byteBits byte) (by rw [length_byteBits]; omega),
            List.nil_append]

theorem bits_zeros (n : Nat) : bits (List.replicate n 0) = List.replicate (8 * n) false := by
  induction n with
  | zero => rfl
  | succ n ih =>
      rw [List.replicate_succ, bits, ih, Nat.mul_succ, Nat.add_comm (8 * n) 8, List.replicate_add]
      rfl

/-! ## The padding -/

/-- The number of zeros behind the one: the least that leaves 64 bits of a block. -/
def zeros (length : Nat) : Nat := (447 + 512 - length % 512) % 512

/-- An iterated digest: the state it starts in, what a block does to a state, and the field that
the length of a message is written to. -/
structure Iterated (σ : Type*) where
  start : σ
  compress : σ → List UInt8 → σ
  field : Nat → List UInt8
  length_field : ∀ length, (field length).length = 8

/-- The first blocks of some bytes. -/
def blocks : Nat → List UInt8 → List (List UInt8)
  | 0, _ => []
  | n + 1, bytes => bytes.take 64 :: blocks n (bytes.drop 64)

section
variable {σ : Type*} (d : Iterated σ)

/-- The padded message. -/
def Iterated.padded (message : List Bool) : List UInt8 :=
  pack (message ++ true :: List.replicate (zeros message.length) false ++
    bits (d.field message.length))

/-- The state after the first blocks of some bytes. -/
def Iterated.absorb (s : σ) (n : Nat) (bytes : List UInt8) : σ :=
  (blocks n bytes).foldl d.compress s

/-- The state after a whole padded message. -/
def Iterated.digest (message : List Bool) : σ :=
  d.absorb d.start ((d.padded message).length / 64) (d.padded message)

theorem Iterated.absorb_one (s : σ) (bytes : List UInt8) :
    d.absorb s 1 bytes = d.compress s (bytes.take 64) := rfl

theorem Iterated.absorb_add (s : σ) (m n : Nat) (bytes : List UInt8) :
    d.absorb s (m + n) bytes = d.absorb (d.absorb s m bytes) n (bytes.drop (64 * m)) := by
  induction m generalizing s bytes with
  | zero => rw [Nat.zero_add]; rfl
  | succ m ih =>
      have hDrop : bytes.drop (64 * (m + 1)) = (bytes.drop 64).drop (64 * m) := by
        rw [List.drop_drop, Nat.mul_succ, Nat.add_comm]
      rw [Nat.succ_add, hDrop]
      exact ih (d.compress s (bytes.take 64)) (bytes.drop 64)

/-- Only the bytes of the blocks count. -/
theorem Iterated.absorb_take (s : σ) (n : Nat) (bytes rest : List UInt8)
    (hLength : 64 * n ≤ bytes.length) : d.absorb s n (bytes ++ rest) = d.absorb s n bytes := by
  induction n generalizing s bytes with
  | zero => rfl
  | succ n ih =>
      show d.absorb (d.compress s ((bytes ++ rest).take 64)) n ((bytes ++ rest).drop 64) =
        d.absorb (d.compress s (bytes.take 64)) n (bytes.drop 64)
      rw [List.take_append_of_le_length (by omega), List.drop_append_of_le_length (by omega)]
      exact ih _ _ (by rw [List.length_drop]; omega)

/-! ## What a program does -/

/-- A word of a block, its lowest byte first. -/
def leWord (block : List UInt8) (t : Nat) : UInt32 :=
  UInt32.ofNat (leValue ((block.drop (4 * t)).take 4))

/-- A word of a block, its highest byte first. -/
def beWord (block : List UInt8) (t : Nat) : UInt32 :=
  UInt32.ofNat (beValue ((block.drop (4 * t)).take 4))

/-- Reading a word from an array on a little-endian machine. -/
def loadWord (block : List UInt8) (t : Nat) : Option UInt32 :=
  if 4 * t + 4 ≤ block.length then some (leWord block t) else none

/-- Some bits of a number, where they are. -/
theorem land_mask (n k s : Nat) : n &&& (2 ^ k - 1) <<< s = (n >>> s % 2 ^ k) <<< s := by
  apply Nat.eq_of_testBit_eq
  intro i
  rw [Nat.testBit_and, Nat.testBit_shiftLeft, Nat.testBit_shiftLeft, Nat.testBit_mod_two_pow,
    Nat.testBit_two_pow_sub_one, Nat.testBit_shiftRight]
  by_cases hi : s ≤ i
  · simp [hi, Bool.and_comm]
  · simp [hi]

/-- Only the bytes of the block count. -/
theorem leWord_take (block : List UInt8) {t n : Nat} (ht : 4 * t + 4 ≤ n) :
    leWord (block.take n) t = leWord block t := by
  rw [leWord, leWord, List.drop_take, List.take_take, Nat.min_eq_left (by omega)]

theorem beWord_take (block : List UInt8) {t n : Nat} (ht : 4 * t + 4 ≤ n) :
    beWord (block.take n) t = beWord block t := by
  rw [beWord, beWord, List.drop_take, List.take_take, Nat.min_eq_left (by omega)]

/-- The byte that holds the end of a message of `r` bits, with the bit behind the message set. -/
def lastByte (tail : List UInt8) (r : Nat) : UInt8 :=
  (if r % 8 = 0 then 0 else tail.getD (r / 8) 0) ||| 0x80 >>> UInt8.ofNat (r % 8)

/-- The last `r` bits of a message with the bit behind them, in a block of zeros. -/
def marked (tail : List UInt8) (r : Nat) : List UInt8 :=
  tail.take (r / 8) ++ lastByte tail r :: List.replicate (63 - r / 8) 0

/-- The last blocks: one, or two where the length has no room in the first. -/
def Iterated.closing (tail : List UInt8) (r length : Nat) : List UInt8 :=
  if r ≤ 447 then (marked tail r).take 56 ++ d.field length
  else marked tail r ++ (List.replicate 56 0 ++ d.field length)

/-- The bits of the byte in which a message ends are zeros behind the message. -/
def Clean (bytes : List UInt8) (length : Nat) : Prop :=
  ∀ i, length ≤ i → i < (length + 7) / 8 * 8 → (bits bytes)[i]? = some false

theorem Clean.drop {bytes : List UInt8} {length n : Nat} (hClean : Clean bytes length)
    (hLength : 8 * n ≤ length) : Clean (bytes.drop n) (length - 8 * n) := by
  intro i hLow hHigh
  have h := hClean (8 * n + i) (by omega) (by omega)
  rw [bits_drop, List.getElem?_drop]
  exact h

/-- Whole bytes have nothing behind the message. -/
theorem clean_bytes (bytes : List UInt8) (n : Nat) : Clean bytes (8 * n) := by
  intro i hLow hHigh
  omega

/-- Setting the bit behind the message, in one byte. -/
theorem byteBits_mark (byte : UInt8) (r : Nat) (hr : r < 8)
    (hZeros : ∀ i, r ≤ i → i < 8 → (byteBits byte)[i]? = some false) :
    byteBits (byte ||| 0x80 >>> UInt8.ofNat r) =
      (byteBits byte).take r ++ true :: List.replicate (7 - r) false := by
  have hAll : ∀ r, r < 8 → ∀ n, n < 256 →
      (∀ i, i < 8 → r ≤ i → (byteBits (UInt8.ofNat n))[i]? = some false) →
      byteBits (UInt8.ofNat n ||| 0x80 >>> UInt8.ofNat r) =
        (byteBits (UInt8.ofNat n)).take r ++ true :: List.replicate (7 - r) false := by
    decide +kernel
  have h := hAll r hr byte.toNat byte.toNat_lt
  rw [UInt8.ofNat_toNat] at h
  exact h fun i hHigh hLow => hZeros i hLow hHigh

private theorem bits_lastByte {tail : List UInt8} {r : Nat} (hLength : r ≤ 8 * tail.length)
    (hClean : Clean tail r) : bits [lastByte tail r] =
      ((bits tail).drop (8 * (r / 8))).take (r % 8) ++
        true :: List.replicate (7 - r % 8) false := by
  by_cases hWhole : r % 8 = 0
  · rw [lastByte, if_pos hWhole, hWhole]
    rfl
  · have hIn : r / 8 < tail.length := by omega
    have hTail : tail.drop (r / 8) = tail[r / 8] :: tail.drop (r / 8 + 1) :=
      List.drop_eq_getElem_cons hIn
    have hBits : (bits tail).drop (8 * (r / 8)) =
        byteBits tail[r / 8] ++ bits (tail.drop (r / 8 + 1)) := by
      rw [← bits_drop, hTail, bits]
    have hZeros : ∀ i, r % 8 ≤ i → i < 8 → (byteBits tail[r / 8])[i]? = some false := by
      intro i hLow hHigh
      have h := hClean (8 * (r / 8) + i) (by omega) (by omega)
      rw [← List.getElem?_drop, hBits, List.getElem?_append_left (by simpa using hHigh)] at h
      exact h
    rw [lastByte, if_neg hWhole, List.getD_eq_getElem _ _ hIn, bits, bits, List.append_nil,
      byteBits_mark _ _ (Nat.mod_lt _ (by omega)) hZeros, hBits,
      List.take_append_of_le_length (by rw [length_byteBits]; omega)]

/-- The marked block holds the message, a one and zeros. -/
theorem bits_marked {tail : List UInt8} {r : Nat} (hLength : r ≤ 8 * tail.length) (hr : r < 512)
    (hClean : Clean tail r) :
    bits (marked tail r) = (bits tail).take r ++ true :: List.replicate (511 - r) false := by
  have hTake : (bits tail).take r =
      (bits tail).take (8 * (r / 8)) ++ ((bits tail).drop (8 * (r / 8))).take (r % 8) := by
    rw [← List.take_add, Nat.div_add_mod]
  have hFill : List.replicate (511 - r) false =
      List.replicate (7 - r % 8) false ++ List.replicate (8 * (63 - r / 8)) false := by
    rw [← List.replicate_add]
    congr 1
    omega
  have hCons : lastByte tail r :: List.replicate (63 - r / 8) 0 =
      [lastByte tail r] ++ List.replicate (63 - r / 8) 0 := rfl
  rw [marked, bits_append, bits_take, hCons, bits_append, bits_lastByte hLength hClean, bits_zeros,
    hTake, hFill]
  simp only [List.append_assoc, List.cons_append]

theorem length_marked {tail : List UInt8} {r : Nat} (hLength : r ≤ 8 * tail.length) (hr : r < 512) :
    (marked tail r).length = 64 := by
  rw [marked, List.length_append, List.length_take, List.length_cons, List.length_replicate]
  omega

private theorem length_closing {tail : List UInt8} {r : Nat} (length : Nat)
    (hLength : r ≤ 8 * tail.length) (hr : r < 512) :
    (d.closing tail r length).length = if r ≤ 447 then 64 else 128 := by
  have hMarked := length_marked hLength hr
  have hField := d.length_field length
  rw [Iterated.closing]
  split <;> simp [hMarked, hField]

/-- What the last blocks do to a state. -/
theorem Iterated.absorb_closing (s : σ) {tail : List UInt8} {r : Nat} (length : Nat)
    (hLength : r ≤ 8 * tail.length) (hr : r < 512) :
    d.absorb s (if r ≤ 447 then 1 else 2) (d.closing tail r length) =
      if r ≤ 447 then d.compress s ((marked tail r).take 56 ++ d.field length)
      else d.compress (d.compress s (marked tail r)) (List.replicate 56 0 ++ d.field length) := by
  have hMarked := length_marked hLength hr
  have hField := d.length_field length
  rw [Iterated.closing]
  split
  · rw [Iterated.absorb_one, List.take_of_length_le]
    rw [List.length_append, List.length_take, hMarked, hField]
    decide
  · rw [d.absorb_add s 1 1, Iterated.absorb_one, Iterated.absorb_one, List.take_left' hMarked,
      List.drop_left' hMarked, List.take_of_length_le]
    rw [List.length_append, List.length_replicate, hField]

/-- The bits of the closing are the rest of the message and its padding. -/
theorem bits_closing {tail : List UInt8} {r length : Nat} (hLength : r ≤ 8 * tail.length)
    (hr : r = length % 512) (hClean : Clean tail r) :
    bits (d.closing tail r length) =
      (bits tail).take r ++ true :: List.replicate (zeros length) false ++
        bits (d.field length) := by
  have hLow : r < 512 := by omega
  have hMarked := bits_marked hLength hLow hClean
  rw [Iterated.closing]
  split
  case isTrue hOne =>
    have hZeros : zeros length = 447 - r := by
      rw [zeros]
      omega
    have hFill : List.replicate (511 - r) false =
        List.replicate (447 - r) false ++ List.replicate 64 false := by
      rw [← List.replicate_add]
      congr 1
      omega
    have hSize : ((bits tail).take r ++ true :: List.replicate (447 - r) false).length = 448 := by
      simp only [List.length_append, List.length_take, length_bits, List.length_cons,
        List.length_replicate]
      omega
    rw [bits_append, bits_take, hMarked, hFill, hZeros, ← List.cons_append, ← List.append_assoc]
    show List.take 448 _ ++ _ = _
    rw [List.take_left' hSize]
  case isFalse hTwo =>
    have hZeros : List.replicate (zeros length) false =
        List.replicate (511 - r) false ++ List.replicate 448 false := by
      rw [← List.replicate_add]
      congr 1
      rw [zeros]
      omega
    rw [bits_append, bits_append, bits_zeros, hMarked, hZeros]
    simp only [List.append_assoc, List.cons_append]

/-- The padded message is the whole blocks and the closing of the rest. -/
theorem padded_eq {bytes : List UInt8} {length : Nat} (hLength : length ≤ 8 * bytes.length)
    (hClean : Clean bytes length) :
    d.padded ((bits bytes).take length) =
      bytes.take (64 * (length / 512)) ++
        d.closing (bytes.drop (64 * (length / 512))) (length % 512) length := by
  have hRest : length - 8 * (64 * (length / 512)) = length % 512 := by omega
  have hTail := hClean.drop (n := 64 * (length / 512)) (by omega)
  rw [hRest] at hTail
  have hClosing := bits_closing d (by rw [List.length_drop]; omega) rfl hTail
  have hSplit : (bits bytes).take length =
      bits (bytes.take (64 * (length / 512))) ++
        (bits (bytes.drop (64 * (length / 512)))).take (length % 512) := by
    rw [bits_take, bits_drop, ← List.take_add]
    congr 1
    omega
  have hSize : ((bits bytes).take length).length = length := by
    rw [List.length_take, length_bits]
    omega
  rw [Iterated.padded, hSize, hSplit, List.append_assoc, List.append_assoc,
    ← List.append_assoc (List.take _ _), ← hClosing, ← bits_append, pack_bits]

/-- A digest from its whole blocks and its closing. -/
theorem digest_eq {bytes : List UInt8} {length : Nat} (hLength : length ≤ 8 * bytes.length)
    (hClean : Clean bytes length) :
    d.digest ((bits bytes).take length) =
      d.absorb (d.absorb d.start (length / 512) bytes) (if length % 512 ≤ 447 then 1 else 2)
        (d.closing (bytes.drop (64 * (length / 512))) (length % 512) length) := by
  have hTake : (bytes.take (64 * (length / 512))).length = 64 * (length / 512) := by
    rw [List.length_take]
    omega
  have hRest : length % 512 ≤ 8 * (bytes.drop (64 * (length / 512))).length := by
    rw [List.length_drop]
    omega
  have hClosing := length_closing d length hRest (Nat.mod_lt length (by omega))
  have hCount : (d.padded ((bits bytes).take length)).length / 64 =
      length / 512 + if length % 512 ≤ 447 then 1 else 2 := by
    rw [padded_eq d hLength hClean, List.length_append, hTake, hClosing]
    split <;> omega
  have hWhole : d.absorb d.start (length / 512) bytes =
      d.absorb d.start (length / 512) (bytes.take (64 * (length / 512))) := by
    have h := d.absorb_take d.start (length / 512) (bytes.take (64 * (length / 512)))
      (bytes.drop (64 * (length / 512))) (by omega)
    rwa [List.take_append_drop] at h
  rw [Iterated.digest, hCount, padded_eq d hLength hClean, d.absorb_add,
    d.absorb_take _ _ _ _ (by omega), hWhole, List.drop_left' hTake]

/-- A digest of whole blocks and what follows them. -/
theorem digest_append {whole tail : List UInt8} {k length : Nat} (hWhole : whole.length = 64 * k)
    (hLength : length ≤ 8 * tail.length) (hClean : Clean tail length) :
    d.digest (bits whole ++ (bits tail).take length) =
      d.absorb (d.absorb (d.absorb d.start k whole) (length / 512) tail)
        (if length % 512 ≤ 447 then 1 else 2)
        (d.closing (tail.drop (64 * (length / 512))) (length % 512) (512 * k + length)) := by
  have hAll : Clean (whole ++ tail) (512 * k + length) := by
    intro i hLow hHigh
    rw [bits_append, List.getElem?_append_right (by rw [length_bits]; omega), length_bits]
    exact hClean _ (by omega) (by omega)
  have hBits : (bits (whole ++ tail)).take (512 * k + length) =
      bits whole ++ (bits tail).take length := by
    rw [bits_append, List.take_append, length_bits,
      List.take_of_length_le (by rw [length_bits]; omega)]
    congr 2
    omega
  have hCount : (512 * k + length) / 512 = k + length / 512 := by omega
  have hFirst := d.absorb_take d.start k whole tail (by omega)
  have hDrop : (whole ++ tail).drop (64 * k) = tail := List.drop_left' hWhole
  have hRest : (whole ++ tail).drop (64 * (k + length / 512)) =
      tail.drop (64 * (length / 512)) := by
    rw [Nat.mul_add, ← List.drop_drop, hDrop]
  rw [← hBits, digest_eq d (by rw [List.length_append]; omega) hAll, hCount, d.absorb_add, hFirst,
    hDrop, hRest, show (512 * k + length) % 512 = length % 512 by omega]

end

/-! ## Loops over whole blocks -/

section
variable {γ : Type*} (next : γ → List UInt8 → Option γ)

/-- A loop that takes whole blocks from some bits as long as there are any. -/
def wholeBlocks (s : γ) (block : List UInt8) (length : Nat) : Option (γ × List UInt8 × Nat) :=
  if 512 ≤ length then do
    let s ← next s block
    wholeBlocks s (block.drop 64) (length - 512)
  else some (s, block, length)
termination_by length
decreasing_by omega

/-- Calls for one block after another. -/
def nextBlocks : γ → List (List UInt8) → Option γ
  | s, [] => some s
  | s, block :: blocks => do nextBlocks (← next s block) blocks

/-- `after s n bytes` is the state after the first blocks of some bytes. -/
structure Steps (after : γ → Nat → List UInt8 → γ) : Prop where
  zero : ∀ s bytes, after s 0 bytes = s
  succ : ∀ s n bytes, after s (n + 1) bytes = after (after s 1 bytes) n (bytes.drop 64)
  next : ∀ s bytes, 64 ≤ bytes.length → next s bytes = some (after s 1 bytes)
  take : ∀ s bytes, after s 1 (bytes.take 64) = after s 1 bytes

variable {next} {after : γ → Nat → List UInt8 → γ} (hSteps : Steps next after)

theorem drop_succ_blocks (bytes : List UInt8) (n : Nat) :
    bytes.drop (64 * (n + 1)) = (bytes.drop 64).drop (64 * n) := by
  rw [List.drop_drop, Nat.mul_succ, Nat.add_comm]

include hSteps in
theorem wholeBlocks_eq (s : γ) (block : List UInt8) (length : Nat)
    (hLength : length ≤ 8 * block.length) :
    wholeBlocks next s block length =
      some (after s (length / 512) block, block.drop (64 * (length / 512)), length % 512) := by
  induction hq : length / 512 generalizing s block length with
  | zero =>
      rw [wholeBlocks, if_neg (by omega), hSteps.zero, Nat.mod_eq_of_lt (by omega)]
      rfl
  | succ n ih =>
      have hRest := ih (after s 1 block) (block.drop 64) (length - 512)
        (by rw [List.length_drop]; omega) (by omega)
      rw [wholeBlocks, if_pos (by omega), hSteps.next s block (by omega),
        hSteps.succ s n, drop_succ_blocks]
      simp only [Option.bind_eq_bind, Option.bind_some, hRest]
      rw [show (length - 512) % 512 = length % 512 by omega]

include hSteps in
theorem nextBlocks_eq (s : γ) {blocks : List (List UInt8)}
    (hBlocks : ∀ block ∈ blocks, block.length = 64) :
    nextBlocks next s blocks = some (after s blocks.length blocks.flatten) := by
  induction blocks generalizing s with
  | nil => rw [nextBlocks, List.length_nil, hSteps.zero]
  | cons block blocks ih =>
      have hBlock := hBlocks block (List.mem_cons_self ..)
      have hFirst : after s 1 (block ++ blocks.flatten) = after s 1 block := by
        rw [← hSteps.take, List.take_left' hBlock]
      rw [nextBlocks, hSteps.next s block (by omega), List.length_cons, List.flatten_cons,
        hSteps.succ s blocks.length, List.drop_left' hBlock, hFirst]
      exact ih _ fun b hb => hBlocks b (List.mem_cons_of_mem _ hb)

theorem length_flatten_blocks {blocks : List (List UInt8)}
    (hBlocks : ∀ block ∈ blocks, block.length = 64) :
    blocks.flatten.length = 64 * blocks.length := by
  rw [List.length_flatten, List.map_congr_left hBlocks, List.map_const', List.sum_replicate,
    smul_eq_mul, Nat.mul_comm]

end

end Gbase.Lib.Digest
