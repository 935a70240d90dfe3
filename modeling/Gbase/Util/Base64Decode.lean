import Gbase.Util.Base64

/-!
# Base 64, read back (`util/base64.c`)

The decoder takes four symbols at a time and stops at a symbol of padding.  Behind the last symbols
it puts bytes of zero, which it looks up in the table as well; the table does not end with one, and
what `strchr` gives there is a parameter.

The parameter is what the difference of the two pointers is there, as a byte; the result holds for
any.  The index is a natural number, as in the encoder.

## Main results

* `decodeLoop_spec`: what the loop leaves of a code, symbol by symbol.
* `base64_round_trip`: what was encoded is read back.
-/

namespace Gbase.Util.Base64

open Gbase.Lib.Sextets

/-- `isalnum` -/
def isalnum (c : UInt8) : Bool :=
  0x30 ≤ c ∧ c ≤ 0x39 ∨ 0x41 ≤ c ∧ c ≤ 0x5a ∨ 0x61 ≤ c ∧ c ≤ 0x7a

/-- `_BASE64_C` -/
def base64C (c : UInt8) : Bool := isalnum c ∨ c = 0x2b ∨ c = 0x2f

/-- Where `strchr` finds a byte in `_base64_table`, as a byte, or what it gives behind the table. -/
def lookup (past c : UInt8) : UInt8 :=
  match base64Table.idxOf? c with
  | none => past
  | some i => UInt8.ofNat i

/-- `_BASE64_DECODE` -/
def decodeBlock (b0 b1 b2 b3 : UInt8) : List UInt8 :=
  [(b0 <<< 2) + ((b1 &&& 0x30) >>> 4), ((b1 &&& 0x0f) <<< 4) + ((b2 &&& 0x3c) >>> 2),
    ((b2 &&& 0x03) <<< 6) + b3]

/-- The four bytes of `b` are looked up and decoded. -/
def decodeFour (past : Nat → UInt8) (b : List UInt8) : List UInt8 :=
  decodeBlock (lookup (past 0) (b.getD 0 0)) (lookup (past 1) (b.getD 1 0))
    (lookup (past 2) (b.getD 2 0)) (lookup (past 3) (b.getD 3 0))

/-- The loop of `base64_decode`: so many bytes are left, the next one is at `idx`, those in `b` wait
for a fourth one, and `dst` is written.  Reading behind the end of `src` is undefined. -/
def decodeLoop (past : Nat → UInt8) (src : List UInt8) :
    Nat → Nat → List UInt8 → List UInt8 → Option (Int × List UInt8 × List UInt8)
  | 0, _, b, dst => some (0, b, dst)
  | sz + 1, idx, b, dst =>
      match src[idx]? with
      | none => none
      | some c =>
          if c = 0x3d then some (0, b, dst)
          else if ¬ base64C c then some (-1, b, dst)
          else
            let b := b ++ [c]
            if b.length = 4 then decodeLoop past src sz (idx + 1) [] (dst ++ decodeFour past b)
            else decodeLoop past src sz (idx + 1) b dst

/-- The symbols that are left behind the loop, if there are any. -/
def decodeTail (past : Nat → UInt8) (b : List UInt8) : List UInt8 :=
  if 0 < b.length then
    (decodeFour past (b ++ List.replicate (4 - b.length) 0)).take (b.length - 1)
  else []

/-- `base64_decode` with all that it writes. -/
def base64Decode (past : Nat → UInt8) (src : List UInt8) (sz : Nat) : Option (Int × List UInt8) :=
  if sz = 0 then some (-1, [])
  else do
    let (ret, b, dst) ← decodeLoop past src sz 0 [] []
    if ret < 0 then return (-1, dst) else return (0, dst ++ decodeTail past b ++ [0])

/-! ## One block -/

section

variable {past : Nat → UInt8} {n : Nat}

/-- A symbol is one of the code, is not padding, and is found in the table. -/
theorem symbol_spec (p : UInt8) (hn : n < 64) :
    base64C (symbol n) = true ∧ symbol n ≠ 0x3d ∧ symbol n ≠ 0 ∧
      lookup p (symbol n) = UInt8.ofNat n := by
  have hAll : ∀ n : Fin 64, base64C (symbol n) = true ∧ symbol n ≠ 0x3d ∧ symbol n ≠ 0 ∧
      base64Table.idxOf? (symbol n) = some n.val := by decide +kernel
  obtain ⟨hCode, hPad, hZero, hIndex⟩ := hAll ⟨n, hn⟩
  refine ⟨hCode, hPad, hZero, ?_⟩
  rw [lookup, hIndex]

/-- What `_BASE64_DECODE` takes of a symbol. -/
theorem decode_masks (d : UInt8) :
    ((d &&& 0x30) >>> 4).toNat = d.toNat / 16 % 4 ∧ ((d &&& 0x0f) <<< 4).toNat = d.toNat % 16 * 16 ∧
      ((d &&& 0x3c) >>> 2).toNat = d.toNat / 4 % 16 ∧
      ((d &&& 0x03) <<< 6).toNat = d.toNat % 4 * 64 ∧ (d <<< 2).toNat = d.toNat * 4 % 256 := by
  obtain ⟨d⟩ := d
  revert d
  decide +kernel

/-- `_BASE64_DECODE` puts the digits together again.  The first byte needs two of them, the second
one three. -/
theorem decodeBlock_digits (b0 b1 b2 d2 d3 : UInt8) :
    (decodeBlock (UInt8.ofNat (b0.toNat / 4)) (UInt8.ofNat (b0.toNat % 4 * 16 + b1.toNat / 16)) d2
        d3).take 1 = [b0] ∧
    (decodeBlock (UInt8.ofNat (b0.toNat / 4)) (UInt8.ofNat (b0.toNat % 4 * 16 + b1.toNat / 16))
        (UInt8.ofNat (b1.toNat % 16 * 4 + b2.toNat / 64)) d3).take 2 = [b0, b1] ∧
    decodeBlock (UInt8.ofNat (b0.toNat / 4)) (UInt8.ofNat (b0.toNat % 4 * 16 + b1.toNat / 16))
        (UInt8.ofNat (b1.toNat % 16 * 4 + b2.toNat / 64)) (UInt8.ofNat (b2.toNat % 64)) =
      [b0, b1, b2] := by
  have h0 := b0.toNat_lt
  have h1 := b1.toNat_lt
  have h2 := b2.toNat_lt
  have hFirst : (UInt8.ofNat (b0.toNat / 4) <<< 2) +
      ((UInt8.ofNat (b0.toNat % 4 * 16 + b1.toNat / 16) &&& 0x30) >>> 4) = b0 := by
    apply UInt8.toNat_inj.mp
    rw [UInt8.toNat_add, (decode_masks _).1, (decode_masks _).2.2.2.2, UInt8.toNat_ofNat',
      UInt8.toNat_ofNat']
    omega
  have hSecond : ((UInt8.ofNat (b0.toNat % 4 * 16 + b1.toNat / 16) &&& 0x0f) <<< 4) +
      ((UInt8.ofNat (b1.toNat % 16 * 4 + b2.toNat / 64) &&& 0x3c) >>> 2) = b1 := by
    apply UInt8.toNat_inj.mp
    rw [UInt8.toNat_add, (decode_masks _).2.1, (decode_masks _).2.2.1, UInt8.toNat_ofNat',
      UInt8.toNat_ofNat']
    omega
  have hThird : ((UInt8.ofNat (b1.toNat % 16 * 4 + b2.toNat / 64) &&& 0x03) <<< 6) +
      UInt8.ofNat (b2.toNat % 64) = b2 := by
    apply UInt8.toNat_inj.mp
    rw [UInt8.toNat_add, (decode_masks _).2.2.2.1, UInt8.toNat_ofNat', UInt8.toNat_ofNat']
    omega
  simp only [decodeBlock, hFirst, hSecond, hThird, List.take_succ_cons, List.take_zero, and_self]

/-! ## Symbol by symbol -/

section

variable {src b dst : List UInt8} {sz idx : Nat}

/-- A symbol that has to wait. -/
theorem decodeLoop_wait (hn : n < 64) (hAt : src[idx]? = some (symbol n)) (hLess : b.length < 3) :
    decodeLoop past src (sz + 1) idx b dst =
      decodeLoop past src sz (idx + 1) (b ++ [symbol n]) dst := by
  obtain ⟨hCode, hPad, -, -⟩ := @symbol_spec n 0 hn
  have hNot : ¬ (b ++ [symbol n]).length = 4 := by
    rw [List.length_append, List.length_singleton]
    omega
  rw [decodeLoop, hAt]
  simp only [if_neg hPad, if_neg (not_not_intro hCode), if_neg hNot]

/-- The fourth symbol of a block. -/
theorem decodeLoop_fourth (hn : n < 64) (hAt : src[idx]? = some (symbol n))
    (hThree : b.length = 3) :
    decodeLoop past src (sz + 1) idx b dst =
      decodeLoop past src sz (idx + 1) [] (dst ++ decodeFour past (b ++ [symbol n])) := by
  obtain ⟨hCode, hPad, -, -⟩ := @symbol_spec n 0 hn
  have hFour : (b ++ [symbol n]).length = 4 := by
    rw [List.length_append, List.length_singleton, hThree]
  rw [decodeLoop, hAt]
  simp only [if_neg hPad, if_neg (not_not_intro hCode), if_pos hFour]

/-- Padding ends the loop. -/
theorem decodeLoop_pad (hAt : src[idx]? = some pad) :
    decodeLoop past src (sz + 1) idx b dst = some (0, b, dst) := by
  rw [decodeLoop, hAt]
  exact if_pos rfl

end

/-- Symbols are looked up. -/
theorem decodeFour_symbols {d0 d1 d2 d3 : Nat} (h0 : d0 < 64) (h1 : d1 < 64) (h2 : d2 < 64)
    (h3 : d3 < 64) : decodeFour past [symbol d0, symbol d1, symbol d2, symbol d3] =
      decodeBlock (UInt8.ofNat d0) (UInt8.ofNat d1) (UInt8.ofNat d2) (UInt8.ofNat d3) := by
  unfold decodeFour
  show decodeBlock (lookup (past 0) (symbol d0)) (lookup (past 1) (symbol d1))
    (lookup (past 2) (symbol d2)) (lookup (past 3) (symbol d3)) = _
  rw [(symbol_spec (past 0) h0).2.2.2, (symbol_spec (past 1) h1).2.2.2,
    (symbol_spec (past 2) h2).2.2.2, (symbol_spec (past 3) h3).2.2.2]

/-- Two symbols are enough for the first byte, whatever stands behind them. -/
theorem decodeTail_one (b0 : UInt8) :
    decodeTail past [symbol (b0.toNat / 4), symbol (b0.toNat % 4 * 16)] = [b0] := by
  have hByte := b0.toNat_lt
  have h0 := (@symbol_spec (b0.toNat / 4) (past 0) (by omega)).2.2.2
  have h1 := (@symbol_spec (b0.toNat % 4 * 16) (past 1) (by omega)).2.2.2
  have hBlock := (decodeBlock_digits b0 0 0 (lookup (past 2) 0) (lookup (past 3) 0)).1
  unfold decodeTail decodeFour
  show (decodeBlock (lookup (past 0) (symbol (b0.toNat / 4)))
    (lookup (past 1) (symbol (b0.toNat % 4 * 16))) (lookup (past 2) 0) (lookup (past 3) 0)).take 1 =
      [b0]
  rw [h0, h1]
  exact hBlock

/-- Three symbols are enough for the first two bytes. -/
theorem decodeTail_two (b0 b1 : UInt8) :
    decodeTail past [symbol (b0.toNat / 4), symbol (b0.toNat % 4 * 16 + b1.toNat / 16),
      symbol (b1.toNat % 16 * 4)] = [b0, b1] := by
  have hFirst := b0.toNat_lt
  have hSecond := b1.toNat_lt
  have h0 := (@symbol_spec (b0.toNat / 4) (past 0) (by omega)).2.2.2
  have h1 := (@symbol_spec (b0.toNat % 4 * 16 + b1.toNat / 16) (past 1) (by omega)).2.2.2
  have h2 := (@symbol_spec (b1.toNat % 16 * 4) (past 2) (by omega)).2.2.2
  have hBlock := (decodeBlock_digits b0 b1 0 0 (lookup (past 3) 0)).2.1
  unfold decodeTail decodeFour
  show (decodeBlock (lookup (past 0) (symbol (b0.toNat / 4)))
    (lookup (past 1) (symbol (b0.toNat % 4 * 16 + b1.toNat / 16)))
    (lookup (past 2) (symbol (b1.toNat % 16 * 4))) (lookup (past 3) 0)).take 2 = [b0, b1]
  rw [h0, h1, h2]
  exact hBlock

/-- What stands at a place behind others. -/
theorem at_behind (read rest : List UInt8) (c : UInt8) :
    (read ++ c :: rest)[read.length]? = some c := by
  rw [List.getElem?_append_right (Nat.le_refl _), Nat.sub_self, List.getElem?_cons_zero]

/-- A symbol that has to wait, where it stands. -/
theorem decodeLoop_next (read rest : List UInt8) {b dst : List UInt8} {sz : Nat} (hn : n < 64)
    (hLess : b.length < 3) :
    decodeLoop past (read ++ symbol n :: rest) (sz + 1) read.length b dst =
      decodeLoop past ((read ++ [symbol n]) ++ rest) sz (read ++ [symbol n]).length
        (b ++ [symbol n]) dst := by
  rw [decodeLoop_wait hn (at_behind read rest (symbol n)) hLess, List.append_assoc,
    List.singleton_append, List.length_append, List.length_singleton]

/-- The fourth symbol of a block, where it stands. -/
theorem decodeLoop_block (read rest : List UInt8) {b dst : List UInt8} {sz : Nat} (hn : n < 64)
    (hThree : b.length = 3) :
    decodeLoop past (read ++ symbol n :: rest) (sz + 1) read.length b dst =
      decodeLoop past ((read ++ [symbol n]) ++ rest) sz (read ++ [symbol n]).length []
        (dst ++ decodeFour past (b ++ [symbol n])) := by
  rw [decodeLoop_fourth hn (at_behind read rest (symbol n)) hThree, List.append_assoc,
    List.singleton_append, List.length_append, List.length_singleton]

/-- The loop reads a code, and what is left behind it are the bytes that the code stands for. -/
theorem decodeLoop_spec : ∀ (bytes read rest dst : List UInt8), ∃ b' dst',
    decodeLoop past (read ++ (encoding symbol pad bytes ++ rest))
        (encoding symbol pad bytes).length read.length [] dst = some (0, b', dst') ∧
      dst' ++ decodeTail past b' = dst ++ bytes
  | [], _, _, dst => ⟨[], dst, rfl, rfl⟩
  | [b0], read, rest, dst => by
      have hByte := b0.toNat_lt
      have hCode : encoding symbol pad [b0] =
          [symbol (b0.toNat / 4), symbol (b0.toNat % 4 * 16), pad, pad] := by
        rw [encoding_one]
        rfl
      refine ⟨[symbol (b0.toNat / 4), symbol (b0.toNat % 4 * 16)], dst, ?_, ?_⟩
      · rw [hCode]
        show decodeLoop past (read ++ symbol (b0.toNat / 4) :: symbol (b0.toNat % 4 * 16) ::
          pad :: pad :: rest) 4 read.length [] dst = _
        rw [decodeLoop_next read _ (by omega) (by decide), decodeLoop_next _ _ (by omega) (by simp),
          decodeLoop_pad (at_behind _ _ _)]
        rfl
      · rw [decodeTail_one]
  | [b0, b1], read, rest, dst => by
      have hFirst := b0.toNat_lt
      have hSecond := b1.toNat_lt
      have hCode : encoding symbol pad [b0, b1] =
          [symbol (b0.toNat / 4), symbol (b0.toNat % 4 * 16 + b1.toNat / 16),
            symbol (b1.toNat % 16 * 4), pad] := by
        rw [encoding_two]
        rfl
      refine ⟨[symbol (b0.toNat / 4), symbol (b0.toNat % 4 * 16 + b1.toNat / 16),
        symbol (b1.toNat % 16 * 4)], dst, ?_, ?_⟩
      · rw [hCode]
        show decodeLoop past (read ++ symbol (b0.toNat / 4) ::
          symbol (b0.toNat % 4 * 16 + b1.toNat / 16) :: symbol (b1.toNat % 16 * 4) :: pad :: rest)
          4 read.length [] dst = _
        rw [decodeLoop_next read _ (by omega) (by decide), decodeLoop_next _ _ (by omega) (by simp),
          decodeLoop_next _ _ (by omega) (by simp), decodeLoop_pad (at_behind _ _ _)]
        rfl
      · rw [decodeTail_two]
  | b0 :: b1 :: b2 :: bytes, read, rest, dst => by
      have h0 := b0.toNat_lt
      have h1 := b1.toNat_lt
      have h2 := b2.toNat_lt
      obtain ⟨d0, hd0⟩ : ∃ d, d = b0.toNat / 4 := ⟨_, rfl⟩
      obtain ⟨d1, hd1⟩ : ∃ d, d = b0.toNat % 4 * 16 + b1.toNat / 16 := ⟨_, rfl⟩
      obtain ⟨d2, hd2⟩ : ∃ d, d = b1.toNat % 16 * 4 + b2.toNat / 64 := ⟨_, rfl⟩
      obtain ⟨d3, hd3⟩ : ∃ d, d = b2.toNat % 64 := ⟨_, rfl⟩
      have hFour : decodeFour past [symbol d0, symbol d1, symbol d2, symbol d3] = [b0, b1, b2] := by
        rw [decodeFour_symbols (by omega) (by omega) (by omega) (by omega), hd0, hd1, hd2, hd3]
        exact (decodeBlock_digits b0 b1 b2 0 0).2.2
      have hCode : encoding symbol pad (b0 :: b1 :: b2 :: bytes) =
          symbol d0 :: symbol d1 :: symbol d2 :: symbol d3 :: encoding symbol pad bytes := by
        rw [encoding_cons, digits, ← hd0, ← hd1, ← hd2, ← hd3]
        rfl
      obtain ⟨b', dst', hLoop, hEq⟩ := decodeLoop_spec bytes
        (read ++ [symbol d0] ++ [symbol d1] ++ [symbol d2] ++ [symbol d3]) rest
        (dst ++ [b0, b1, b2])
      refine ⟨b', dst', ?_, by rw [hEq, List.append_assoc]; rfl⟩
      rw [hCode, ← hLoop, ← hFour]
      show decodeLoop past (read ++ symbol d0 :: symbol d1 :: symbol d2 :: symbol d3 ::
        (encoding symbol pad bytes ++ rest)) ((encoding symbol pad bytes).length + 4) read.length []
        dst = _
      rw [decodeLoop_next read _ (by omega) (by decide), decodeLoop_next _ _ (by omega) (by simp),
        decodeLoop_next _ _ (by omega) (by simp), decodeLoop_block _ _ (by omega) rfl]
      rfl

end

private theorem digits_lt (b0 b1 b2 : UInt8) : ∀ d, d ∈ digits b0 b1 b2 → d < 64 := by
  have h0 := b0.toNat_lt
  have h1 := b1.toNat_lt
  have h2 := b2.toNat_lt
  simp only [digits, List.forall_mem_cons]
  refine ⟨by omega, by omega, by omega, by omega, ?_⟩
  intro d hd
  cases hd

theorem symbols_text (b0 b1 b2 : UInt8) (count : Nat) :
    0 ∉ ((digits b0 b1 b2).take count).map symbol := by
  intro hIn
  obtain ⟨d, hd, hZero⟩ := List.mem_map.mp hIn
  have hLess := digits_lt b0 b1 b2 d (List.mem_of_mem_take hd)
  exact (symbol_spec 0 hLess).2.2.1 hZero

/-- No byte of a code is zero, so that its length is that of the string. -/
theorem encoding_text : ∀ bytes, 0 ∉ encoding symbol pad bytes
  | [] => by decide
  | [b0] => by
      rw [encoding_one, List.mem_append]
      exact not_or.mpr ⟨symbols_text b0 0 0 2, by decide⟩
  | [b0, b1] => by
      rw [encoding_two, List.mem_append]
      exact not_or.mpr ⟨symbols_text b0 b1 0 3, by decide⟩
  | b0 :: b1 :: b2 :: rest => by
      rw [encoding_cons, List.mem_append]
      exact not_or.mpr ⟨symbols_text b0 b1 b2 4, encoding_text rest⟩

/-- What was encoded is read back, with a byte of zero behind it.  The code is given to the decoder
as a string, and what the lookups of zeros give makes no difference. -/
theorem base64_round_trip {s : List UInt8} (hNe : s ≠ []) (hText : 0 ∉ s) (past : Nat → UInt8) :
    ∃ code, base64EncodeDst s s.length = some (0, code) ∧
      base64Decode past code (code.takeWhile (· ≠ 0)).length = some (0, s ++ [0]) := by
  have hSelf : ∀ {t : List UInt8} (rest : List UInt8), 0 ∉ t →
      (t ++ rest).takeWhile (· ≠ 0) = t ++ rest.takeWhile (· ≠ 0) := by
    intro t rest hNot
    exact List.takeWhile_append_of_pos fun c hc => decide_eq_true fun hZero => hNot (hZero ▸ hc)
  obtain ⟨code, hCode⟩ : ∃ code, code = encoding symbol pad s := ⟨_, rfl⟩
  have hDst := (base64_encode_spec hNe).1
  have hLength := (base64_encode_spec hNe).2
  have hWhole := hSelf [] hText
  rw [List.takeWhile_nil, List.append_nil] at hWhole
  rw [hWhole, ← hCode] at hDst hLength
  have hNone : 0 ∉ code := hCode ▸ encoding_text s
  have hString : (code ++ [0]).takeWhile (· ≠ 0) = code := by
    rw [hSelf [0] hNone]
    exact List.append_nil code
  refine ⟨code ++ [0], hDst, ?_⟩
  obtain ⟨b, dst, hLoop, hEq⟩ := @decodeLoop_spec past s [] [0] []
  rw [← hCode, List.nil_append, List.length_nil] at hLoop
  rw [List.nil_append] at hEq
  have hSize : code.length ≠ 0 := by
    have hPos := List.length_pos_iff.mpr hNe
    omega
  rw [hString, base64Decode, if_neg hSize, hLoop, ← hEq]
  rfl

theorem base64_round_trip_hi :
    ∃ code, base64EncodeDst [0x48, 0x69] 2 = some (0, code) ∧
      base64Decode (fun _ => 0x40) code (code.takeWhile (· ≠ 0)).length =
        some (0, [0x48, 0x69, 0]) :=
  @base64_round_trip [0x48, 0x69] (by decide) (by decide) fun _ => 0x40

end Gbase.Util.Base64
