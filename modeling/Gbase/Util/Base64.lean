import Gbase.Lib.Sextets
import Mathlib.Data.List.Basic

/-!
# Base 64 (`util/base64.c`)

The encoder takes three bytes at a time and stops at a byte of zero.

Texts stay below `2 ^ 31` bytes: the index of the source is an `int`, and a natural number here.

## Main results

* `encodeBytes_eq`: the symbols are the digits of six bits that the bytes have.
* `encodeLoop_spec`: what the loop leaves, byte by byte.
* `base64_encode_spec`: what `base64_encode` writes.
-/

namespace Gbase.Util.Base64

open Gbase.Lib.Sextets

/-- `_base64_table` -/
def base64Table : List UInt8 :=
  "ABCDEFGHIJKLMNOPQRSTUVWXYZabcdefghijklmnopqrstuvwxyz0123456789+/".toList.map
    fun c => UInt8.ofNat c.toNat

/-- `_BASE64_ENCODE`, with the symbols looked up. -/
def encodeBlock (b0 b1 b2 : UInt8) : List UInt8 :=
  [(b0 &&& 0xfc) >>> 2, ((b0 &&& 0x03) <<< 4) ||| ((b1 &&& 0xf0) >>> 4),
    ((b1 &&& 0x0f) <<< 2) ||| ((b2 &&& 0xc0) >>> 6), b2 &&& 0x3f].map
      fun a => base64Table.getD a.toNat 0

/-- The loop of `base64_encode` and the padding behind it, on the bytes up to the one of zero. -/
def encodeBytes : List UInt8 → List UInt8
  | b0 :: b1 :: b2 :: rest => encodeBlock b0 b1 b2 ++ encodeBytes rest
  | [b0, b1] => (encodeBlock b0 b1 0).take 3 ++ [0x3d]
  | [b0] => (encodeBlock b0 0 0).take 2 ++ [0x3d, 0x3d]
  | [] => []

/-- `base64_encode` of the first bytes of `src`, with what it writes before the final zero, if it
writes anything. -/
def base64Encode (src : List UInt8) (sz : Nat) : Int × Option (List UInt8) :=
  if sz = 0 then (-1, none) else (0, some (encodeBytes ((src.take sz).takeWhile (· ≠ 0))))

/-! ## The symbols -/

/-- The symbol of six bits. -/
def symbol (digit : Nat) : UInt8 := base64Table.getD digit 0

/-- The byte behind the last symbols. -/
def pad : UInt8 := 0x3d

theorem and_high (byte : UInt8) :
    ((byte &&& 0xfc) >>> 2).toNat = byte.toNat / 4 ∧
      ((byte &&& 0xf0) >>> 4).toNat = byte.toNat / 16 ∧
      ((byte &&& 0xc0) >>> 6).toNat = byte.toNat / 64 := by
  obtain ⟨byte⟩ := byte
  revert byte
  decide +kernel

theorem and_low (byte : UInt8) :
    ((byte &&& 0x03) <<< 4).toNat = byte.toNat % 4 * 16 ∧
      ((byte &&& 0x0f) <<< 2).toNat = byte.toNat % 16 * 4 ∧
      (byte &&& 0x3f).toNat = byte.toNat % 64 := by
  obtain ⟨byte⟩ := byte
  revert byte
  decide +kernel

private theorem or_toNat {high low : UInt8} {n k : Nat} (hHigh : high.toNat = n * 2 ^ k)
    (hLow : low.toNat < 2 ^ k) : (high ||| low).toNat = high.toNat + low.toNat := by
  rw [UInt8.toNat_or, hHigh, ← Nat.shiftLeft_eq, Nat.shiftLeft_add_eq_or_of_lt hLow]

/-- `_BASE64_ENCODE` cuts three bytes into digits of six bits. -/
theorem encodeBlock_eq (b0 b1 b2 : UInt8) :
    encodeBlock b0 b1 b2 = (digits b0 b1 b2).map symbol := by
  obtain ⟨hFirst, -, -⟩ := and_high b0
  obtain ⟨-, hMiddle, -⟩ := and_high b1
  obtain ⟨-, -, hLast⟩ := and_high b2
  obtain ⟨hZero, -, -⟩ := and_low b0
  obtain ⟨-, hOne, -⟩ := and_low b1
  obtain ⟨-, -, hTwo⟩ := and_low b2
  have h1 := b1.toNat_lt
  have h2 := b2.toNat_lt
  have hSecond := @or_toNat _ ((b1 &&& 0xf0) >>> 4) _ 4 hZero (by omega)
  have hThird := @or_toNat _ ((b2 &&& 0xc0) >>> 6) _ 2 hOne (by omega)
  simp only [encodeBlock, digits, List.map_cons, List.map_nil, hFirst, hSecond, hThird, hTwo, hZero,
    hOne, hMiddle, hLast]
  rfl

/-- What `base64_encode` writes before the final zero. -/
theorem encodeBytes_eq : ∀ bytes, encodeBytes bytes = encoding symbol pad bytes
  | [] => rfl
  | [b0] => by
      rw [encodeBytes, encoding_one, encodeBlock_eq, List.map_take]
      rfl
  | [b0, b1] => by
      rw [encodeBytes, encoding_two, encodeBlock_eq, List.map_take]
      rfl
  | b0 :: b1 :: b2 :: rest => by
      rw [encodeBytes, encoding_cons, encodeBlock_eq, encodeBytes_eq rest]

/-! ## Byte by byte -/

/-- The loop of `base64_encode`: so many bytes are left, the next one is at `idx`, those in `b` wait
for a third one, and `dst` is written.  Reading behind the end of `src` is undefined. -/
def encodeLoop (src : List UInt8) :
    Nat → Nat → List UInt8 → List UInt8 → Option (List UInt8 × List UInt8)
  | 0, _, b, dst => some (b, dst)
  | sz + 1, idx, b, dst =>
      match src[idx]? with
      | none => none
      | some byte =>
          if byte = 0 then some (b, dst)
          else
            let b := b ++ [byte]
            if b.length = 3 then
              encodeLoop src sz (idx + 1) []
                (dst ++ encodeBlock (b.getD 0 0) (b.getD 1 0) (b.getD 2 0))
            else encodeLoop src sz (idx + 1) b dst

/-- The bytes that are left behind the loop, if there are any. -/
def encodeTail (b : List UInt8) : List UInt8 :=
  if 0 < b.length then
    (encodeBlock (b.getD 0 0) (b.getD 1 0) (b.getD 2 0)).take (b.length + 1) ++
      List.replicate (3 - b.length) 0x3d
  else []

/-- `base64_encode` with all that it writes, the final zero too. -/
def base64EncodeDst (src : List UInt8) (sz : Nat) : Option (Int × List UInt8) :=
  if sz = 0 then some (-1, [])
  else do
    let (b, dst) ← encodeLoop src sz 0 [] []
    return (0, dst ++ encodeTail b ++ [0])

theorem encodeTail_eq : ∀ {b : List UInt8}, b.length < 3 → encodeTail b = encodeBytes b
  | [], _ => rfl
  | [_], _ => rfl
  | [_, _], _ => rfl
  | _ :: _ :: _ :: _, h => absurd h (by simp)

/-- The bytes that wait are encoded with those that the loop still reads. -/
theorem encodeLoop_spec (rest : List UInt8) : ∀ (read b dst : List UInt8), b.length < 3 →
    ∃ b' dst', encodeLoop (read ++ rest) rest.length read.length b dst = some (b', dst') ∧
      b'.length < 3 ∧
      dst' ++ encodeBytes b' = dst ++ encodeBytes (b ++ rest.takeWhile (· ≠ 0)) := by
  induction rest with
  | nil =>
      intro read b dst hb
      exact ⟨b, dst, rfl, hb, by simp⟩
  | cons byte rest ih =>
      intro read b dst hb
      have hAt : (read ++ byte :: rest)[read.length]? = some byte := by simp
      have hNext := ih (read ++ [byte])
      simp only [List.append_assoc, List.singleton_append, List.length_append,
        List.length_singleton] at hNext
      simp only [List.length_cons, encodeLoop, hAt]
      by_cases hZero : byte = 0
      · exact ⟨b, dst, by rw [if_pos hZero], hb, by simp [hZero]⟩
      · rw [if_neg hZero, List.takeWhile_cons_of_pos (by simpa using hZero)]
        by_cases hFull : b.length + 1 = 3
        · obtain ⟨b0, b1, rfl⟩ : ∃ b0 b1, b = [b0, b1] := List.length_eq_two.mp (by omega)
          obtain ⟨b', dst', hLoop, hLess, hEq⟩ :=
            hNext [] (dst ++ encodeBlock b0 b1 byte) (by decide)
          exact ⟨b', dst', hLoop, hLess, by simpa [encodeBytes] using hEq⟩
        · obtain ⟨b', dst', hLoop, hLess, hEq⟩ :=
            hNext (b ++ [byte]) dst (by rw [List.length_append, List.length_singleton]; omega)
          refine ⟨b', dst', ?_, hLess, by simpa using hEq⟩
          rw [if_neg (by simpa using hFull), hLoop]

/-- The two forms of `base64_encode` write the same. -/
theorem base64EncodeDst_eq {src : List UInt8} (hNe : src ≠ []) :
    ∃ text, base64Encode src src.length = (0, some text) ∧
      base64EncodeDst src src.length = some (0, text ++ [0]) ∧
      text = encoding symbol pad (src.takeWhile (· ≠ 0)) := by
  obtain ⟨b, dst, hLoop, hLess, hEq⟩ := encodeLoop_spec src [] [] [] (by decide)
  have hSize : src.length ≠ 0 := by simpa using hNe
  simp only [List.nil_append, List.length_nil] at hLoop hEq
  refine ⟨encodeBytes (src.takeWhile (· ≠ 0)), ?_, ?_, encodeBytes_eq _⟩
  · rw [base64Encode, if_neg hSize, List.take_length]
  · rw [base64EncodeDst, if_neg hSize, hLoop, ← hEq, ← encodeTail_eq hLess]
    rfl

/-- `base64_encode` writes the padded code of the bytes before the first one of zero, and a byte of
zero behind it. -/
theorem base64_encode_spec {src : List UInt8} (hNe : src ≠ []) :
    let bytes := src.takeWhile (· ≠ 0)
    base64EncodeDst src src.length = some (0, encoding symbol pad bytes ++ [0]) ∧
      (encoding symbol pad bytes).length = 4 * ((bytes.length + 2) / 3) := by
  obtain ⟨text, -, hDst, rfl⟩ := base64EncodeDst_eq hNe
  exact ⟨hDst, length_encoding symbol pad _⟩

theorem base64_encode_man :
    base64EncodeDst [0x4d, 0x61, 0x6e, 0x4d] 4 =
      some (0, encoding symbol pad [0x4d, 0x61, 0x6e, 0x4d] ++ [0]) :=
  (@base64_encode_spec [0x4d, 0x61, 0x6e, 0x4d] (by decide)).1

/-- A byte of zero ends the string. -/
theorem base64_encode_zero :
    base64EncodeDst [0x4d, 0x00, 0x6e] 3 ≠
      some (0, encoding symbol pad [0x4d, 0x00, 0x6e] ++ [0]) := by
  decide

end Gbase.Util.Base64
