import Gbase.Util.Cjson
import Mathlib.Data.Nat.Bitwise

/-!
# Strings in JSON (`parse_string` of `util/cjson.c`)

What a string of JSON means is what `parse_string` leaves, and neither of its loops leaves the text
or the buffer that the first one asks for.

`parse_string` goes through the text twice: it first counts the bytes up to the closing quote, to
ask for a buffer, and then writes.  The two loops treat escapes differently, and it has to be proved
that the second one stops where the first one did and stays inside of what was counted.

## Main results

* `transcode_eq`: the bytes of a code point are its UTF-8.
* `parseString_spec`: a string between its quotes.
-/

namespace Gbase.Util.Cjson

open Gbase.Lib
open Gbase.Lib.CString
open Gbase.Lib.Json

/-! ## Digits -/

section

variable {a b c d : UInt8} {u : Nat}

/-- A hexadecimal digit ends no string and starts no escape. -/
theorem hexDigit_spec {digit : Nat} (h : hexDigit c = some digit) :
    digit < 16 ∧ c ≠ 0 ∧ c ≠ 0x22 ∧ c ≠ 0x5c := by
  have hOther : ∀ x : UInt8, hexDigit x = none → c ≠ x := by
    intro x hx hEq
    rw [hEq, hx] at h
    cases h
  refine ⟨?_, hOther 0 rfl, hOther 0x22 rfl, hOther 0x5c rfl⟩
  unfold hexDigit at h
  simp only [UInt8.le_iff_toNat_le] at h
  split at h
  case isTrue hIn =>
    cases h
    have hTop : c.toNat ≤ 57 := hIn.2
    omega
  case isFalse hOut =>
    split at h
    case isTrue hIn =>
      cases h
      have hTop : c.toNat ≤ 70 := hIn.2
      omega
    case isFalse hNot =>
      split at h
      case isTrue hIn =>
        cases h
        have hTop : c.toNat ≤ 102 := hIn.2
        omega
      case isFalse => cases h

/-- The four digits of a unit. -/
theorem hexUnit_digits (h : hexUnit a b c d = some u) :
    ∃ h1 h2 h3 h4, hexDigit a = some h1 ∧ hexDigit b = some h2 ∧ hexDigit c = some h3 ∧
      hexDigit d = some h4 ∧ u = ((h1 * 16 + h2) * 16 + h3) * 16 + h4 := by
  unfold hexUnit at h
  cases hA : hexDigit a with
  | none => simp [hA] at h
  | some h1 =>
      cases hB : hexDigit b with
      | none => simp [hA, hB] at h
      | some h2 =>
          cases hC : hexDigit c with
          | none => simp [hA, hB, hC] at h
          | some h3 =>
              cases hD : hexDigit d with
              | none => simp [hA, hB, hC, hD] at h
              | some h4 =>
                  simp only [hA, hB, hC, hD, Option.bind_eq_bind, Option.bind_some,
                    Option.pure_def, Option.some.injEq] at h
                  exact ⟨h1, h2, h3, h4, rfl, rfl, rfl, rfl, h.symm⟩

/-- A unit has sixteen bits. -/
theorem hexUnit_lt (h : hexUnit a b c d = some u) : u < 0x10000 := by
  obtain ⟨h1, h2, h3, h4, hA, hB, hC, hD, rfl⟩ := hexUnit_digits h
  have hLt1 := (hexDigit_spec hA).1
  have hLt2 := (hexDigit_spec hB).1
  have hLt3 := (hexDigit_spec hC).1
  have hLt4 := (hexDigit_spec hD).1
  omega

/-- `parse_hex4` on four digits. -/
theorem parseHex4_eq (h : hexUnit a b c d = some u) (rest : List UInt8) :
    parseHex4 (a :: b :: c :: d :: rest) = some u := by
  obtain ⟨h1, h2, h3, h4, hA, hB, hC, hD, rfl⟩ := hexUnit_digits h
  simp only [parseHex4, hexLoop, hA, hB, hC, hD, Nat.shiftLeft_eq, Nat.zero_mul, Nat.zero_add,
    Nat.reducePow]

end

/-! ## UTF-8 -/

section

variable {uc : Nat}

/-- A byte behind the lead byte. -/
theorem trail_eq (uc : Nat) :
    UInt8.ofNat ((uc ||| 0x80) &&& 0xbf) = UInt8.ofNat (0x80 + uc % 64) := by
  have hMask : ∀ x : Nat, x &&& 0xbf = x % 2 ^ 8 &&& 0xbf := by
    intro x
    calc x &&& 0xbf = x &&& (255 &&& 0xbf) := rfl
      _ = x % 2 ^ 8 &&& 0xbf := by rw [← Nat.and_assoc, Nat.and_two_pow_sub_one_eq_mod x 8]
  have hBits : (uc ||| 0x80) &&& 0xbf = (uc % 256 ||| 0x80) &&& 0xbf := by
    rw [hMask, Nat.or_mod_two_pow]
  have hSmall : ∀ x < 256, (x ||| 0x80) &&& 0xbf = 0x80 + x % 64 := by decide +kernel
  rw [hBits, hSmall _ (Nat.mod_lt _ (by decide)), Nat.mod_mod_of_dvd uc (by decide)]

/-- What `parse_string` writes for a code point is its UTF-8. -/
theorem transcode_eq (h : uc < 0x110000) : transcode uc = Utf8.encode uc := by
  have hShift : ∀ x : Nat, x >>> 6 = x / 64 := fun x => Nat.shiftRight_eq_div_pow x 6
  by_cases h1 : uc < 0x80
  · simp only [transcode, Utf8.encode, if_pos h1, fillLoop, firstByteMark, Nat.or_zero]
  by_cases h2 : uc < 0x800
  · have hLead : uc / 64 ||| 0xc0 = 0xc0 + uc / 64 := by
      have hAll : ∀ x < 32, x ||| 0xc0 = 0xc0 + x := by decide +kernel
      exact hAll _ (by omega)
    simp only [transcode, Utf8.encode, if_neg h1, if_pos h2, fillLoop, firstByteMark, Utf8.tail,
      hShift, trail_eq, hLead]
    simp
  by_cases h3 : uc < 0x10000
  · have hLead : uc / 64 / 64 ||| 0xe0 = 0xe0 + uc / 64 / 64 := by
      have hAll : ∀ x < 16, x ||| 0xe0 = 0xe0 + x := by decide +kernel
      exact hAll _ (by omega)
    simp only [transcode, Utf8.encode, if_neg h1, if_neg h2, if_pos h3, fillLoop, firstByteMark,
      Utf8.tail, hShift, trail_eq, hLead]
    simp [Nat.div_div_eq_div_mul]
  · have hLead : uc / 64 / 64 / 64 ||| 0xf0 = 0xf0 + uc / 64 / 64 / 64 := by
      have hAll : ∀ x < 8, x ||| 0xf0 = 0xf0 + x := by decide +kernel
      exact hAll _ (by omega)
    have h4 : uc < 0x200000 := by omega
    simp only [transcode, Utf8.encode, if_neg h1, if_neg h2, if_neg h3, if_pos h4, fillLoop,
      firstByteMark, Utf8.tail, hShift, trail_eq, hLead]
    simp [Nat.div_div_eq_div_mul]

/-- The code point of a pair, in the bits of its halves. -/
theorem paired_eq {high low : Nat} (h1 : 0xd800 ≤ high) (h2 : high < 0xdc00) (h3 : 0xdc00 ≤ low)
    (h4 : low < 0xe000) :
    0x10000 + ((high &&& 0x3ff) <<< 10 ||| low &&& 0x3ff) = paired high low := by
  have hHigh : high &&& 0x3ff = high - 0xd800 := by
    have hMod : high &&& 0x3ff = high % 1024 := Nat.and_two_pow_sub_one_eq_mod high 10
    omega
  have hLow : low &&& 0x3ff = low - 0xdc00 := by
    have hMod : low &&& 0x3ff = low % 1024 := Nat.and_two_pow_sub_one_eq_mod low 10
    omega
  have hLt : low - 0xdc00 < 2 ^ 10 := by omega
  have hOr : (high - 0xd800) <<< 10 ||| (low - 0xdc00) =
      (high - 0xd800) * 1024 + (low - 0xdc00) := by
    rw [← Nat.shiftLeft_add_eq_or_of_lt hLt (high - 0xd800), Nat.shiftLeft_eq]
  rw [hHigh, hLow, hOr]
  exact (Nat.add_assoc _ _ _).symm

theorem paired_lt {high low : Nat} (h2 : high < 0xdc00) (h4 : low < 0xe000) :
    paired high low < 0x110000 := by
  unfold paired
  omega

/-- No byte of a code point but the first is zero. -/
theorem encode_ne_zero (hPos : 0 < uc) (hLt : uc < 2 ^ 31) : ∀ c ∈ Utf8.encode uc, c ≠ 0 := by
  obtain ⟨n, lead, hEq, hLeads⟩ := Utf8.encode_spec hLt
  have hTail : ∀ k, ∀ c ∈ Utf8.tail k uc, c ≠ 0 := by
    intro k
    induction k with
    | zero =>
        intro c hc
        cases hc
    | succ k ih =>
        intro c hc
        rcases List.mem_cons.mp hc with rfl | hRest
        · intro hZero
          have hNat := congrArg UInt8.toNat hZero
          rw [UInt8.toNat_ofNat', UInt8.toNat_zero] at hNat
          omega
        · exact ih c hRest
  rw [hEq]
  intro c hc
  rcases List.mem_cons.mp hc with rfl | hRest
  · exact hLeads.pos hPos
  · exact hTail n c hRest

/-- A code point is at most as long as its escapes. -/
theorem length_encode_le (hLt : uc < 0x110000) :
    (Utf8.encode uc).length ≤ 4 ∧ (uc < 0x10000 → (Utf8.encode uc).length ≤ 3) := by
  unfold Utf8.encode
  constructor
  · split_ifs <;> simp only [List.length_cons, List.length_nil, Utf8.length_tail] <;> omega
  · intro hBasic
    split_ifs <;> simp only [List.length_cons, List.length_nil, Utf8.length_tail] <;> omega

end

/-! ## Loops -/

section

variable {bytes text rest : List UInt8}

/-- No byte of a string is zero. -/
theorem Chars_ne_zero (h : Chars bytes text) : ∀ c ∈ bytes, c ≠ 0 := by
  induction h with
  | nil => simp
  | plain hZero _ _ _ ih =>
      intro c hc
      rcases List.mem_cons.mp hc with rfl | hRest
      · exact hZero
      · exact ih c hRest
  | short hShort _ ih =>
      intro c hc
      rcases List.mem_cons.mp hc with rfl | hRest
      · rintro rfl
        unfold Json.short at hShort
        split_ifs at hShort with h1 <;> cases hShort
        revert h1
        decide
      · exact ih c hRest
  | unit hUnit hPos _ _ ih =>
      intro c hc
      rcases List.mem_append.mp hc with hHead | hRest
      · exact encode_ne_zero hPos (by have := hexUnit_lt hUnit; omega) c hHead
      · exact ih c hRest
  | pair _ _ _ h2 _ h4 _ ih =>
      intro c hc
      rcases List.mem_append.mp hc with hHead | hRest
      · refine encode_ne_zero ?_ (by have := paired_lt h2 h4; omega) c hHead
        unfold paired
        omega
      · exact ih c hRest

/-- A byte that ends no string and starts no escape counts once. -/
theorem lengthLoop_plain {c : UInt8} {len : Nat} (hZero : c ≠ 0) (hQuote : c ≠ 0x22)
    (hSlash : c ≠ 0x5c) : lengthLoop (c :: text) len = lengthLoop text (len + 1) := by
  rw [lengthLoop.eq_def]
  simp [hZero, hQuote, hSlash]

/-- So do four such bytes behind `\u`, together with it five times. -/
theorem lengthLoop_four {a b c d : UInt8} {len : Nat}
    (hPlain : ∀ x ∈ [a, b, c, d], x ≠ 0 ∧ x ≠ 0x22 ∧ x ≠ 0x5c) :
    lengthLoop (0x5c :: 0x75 :: a :: b :: c :: d :: text) len = lengthLoop text (len + 5) := by
  have hStart : lengthLoop (0x5c :: 0x75 :: a :: b :: c :: d :: text) len =
      lengthLoop (a :: b :: c :: d :: text) (len + 1) := by
    simp [lengthLoop]
  obtain ⟨hA, hB, hC, hD⟩ : (a ≠ 0 ∧ a ≠ 0x22 ∧ a ≠ 0x5c) ∧ (b ≠ 0 ∧ b ≠ 0x22 ∧ b ≠ 0x5c) ∧
      (c ≠ 0 ∧ c ≠ 0x22 ∧ c ≠ 0x5c) ∧ (d ≠ 0 ∧ d ≠ 0x22 ∧ d ≠ 0x5c) := by
    simpa using hPlain
  rw [hStart, lengthLoop_plain hA.1 hA.2.1 hA.2.2, lengthLoop_plain hB.1 hB.2.1 hB.2.2,
    lengthLoop_plain hC.1 hC.2.1 hC.2.2, lengthLoop_plain hD.1 hD.2.1 hD.2.2]

/-- Digits are such bytes. -/
theorem lengthLoop_unit {a b c d : UInt8} {u len : Nat} (h : hexUnit a b c d = some u) :
    lengthLoop (0x5c :: 0x75 :: a :: b :: c :: d :: text) len = lengthLoop text (len + 5) := by
  obtain ⟨h1, h2, h3, h4, hA, hB, hC, hD, -⟩ := hexUnit_digits h
  refine lengthLoop_four ?_
  simp [(hexDigit_spec hA).2, (hexDigit_spec hB).2, (hexDigit_spec hC).2, (hexDigit_spec hD).2]

/-- The first loop asks for enough, and for no more than the text has. -/
theorem lengthLoop_spec (h : Chars bytes text) (len : Nat) :
    ∃ n, lengthLoop (text ++ 0x22 :: rest) len = some (len + n) ∧ bytes.length ≤ n ∧
      n ≤ text.length := by
  induction h generalizing len with
  | nil =>
      refine ⟨0, ?_, le_rfl, le_rfl⟩
      rw [List.nil_append, lengthLoop.eq_def]
      simp
  | plain hZero hQuote hSlash _ ih =>
      obtain ⟨n, hLoop, hLow, hHigh⟩ := ih (len + 1)
      refine ⟨n + 1, ?_, ?_, ?_⟩
      · rw [List.cons_append, lengthLoop_plain hZero hQuote hSlash, hLoop]
        congr 1
        omega
      · rw [List.length_cons]
        omega
      · rw [List.length_cons]
        omega
  | short hShort _ ih =>
      obtain ⟨n, hLoop, hLow, hHigh⟩ := ih (len + 1)
      refine ⟨n + 1, ?_, ?_, ?_⟩
      · simp only [List.cons_append, lengthLoop]
        rw [if_neg (by decide), if_pos trivial, hLoop]
        congr 1
        omega
      · rw [List.length_cons]
        omega
      · simp only [List.length_cons]
        omega
  | unit hUnit _ _ _ ih =>
      obtain ⟨n, hLoop, hLow, hHigh⟩ := ih (len + 5)
      have hLt := hexUnit_lt hUnit
      have hThree := (length_encode_le (by omega)).2 hLt
      refine ⟨n + 5, ?_, ?_, ?_⟩
      · simp only [List.cons_append]
        rw [lengthLoop_unit hUnit, hLoop]
        congr 1
        omega
      · rw [List.length_append]
        omega
      · simp only [List.length_cons]
        omega
  | pair hHighUnit hLowUnit _ h2 _ h4 _ ih =>
      obtain ⟨n, hLoop, hLow, hHigh⟩ := ih (len + 5 + 5)
      have hFour := (length_encode_le (paired_lt h2 h4)).1
      refine ⟨n + 10, ?_, ?_, ?_⟩
      · simp only [List.cons_append]
        rw [lengthLoop_unit hHighUnit, lengthLoop_unit hLowUnit, hLoop]
        congr 1
        omega
      · rw [List.length_append]
        omega
      · simp only [List.length_cons]
        omega

/-- The escapes of one letter. -/
theorem escape_short {letter c : UInt8} (h : Json.short letter = some c) :
    escape (letter :: rest) = some ([c], rest) := by
  unfold Json.short at h
  split_ifs at h with h0 h1 h2 h3 h4 h5 <;> cases h
  · rcases h0 with rfl | rfl | rfl <;> rfl
  · rw [h1]; rfl
  · rw [h2]; rfl
  · rw [h3]; rfl
  · rw [h4]; rfl
  · rw [h5]; rfl

/-- `\u` with a unit that is a code point. -/
theorem escape_unit {a b c d : UInt8} {u : Nat} (h : hexUnit a b c d = some u) (hPos : 0 < u)
    (hBasic : u < 0xd800 ∨ 0xe000 ≤ u) :
    escape (0x75 :: a :: b :: c :: d :: rest) = some (Utf8.encode u, rest) := by
  have hLt := hexUnit_lt h
  have hEscape : escape (0x75 :: a :: b :: c :: d :: rest) = unicode (a :: b :: c :: d :: rest) :=
    rfl
  rw [hEscape, unicode, parseHex4_eq h]
  simp only [Option.bind_eq_bind, Option.bind_some, advance, List.length_cons, List.drop_succ_cons,
    List.drop_zero]
  rw [if_pos (by omega), Option.bind_some, if_neg (by omega), if_neg (by omega),
    transcode_eq (by omega)]
  rfl

/-- `\u` with the halves of a pair. -/
theorem escape_pair {a b c d a' b' c' d' : UInt8} {high low : Nat}
    (hHigh : hexUnit a b c d = some high) (hLow : hexUnit a' b' c' d' = some low)
    (h1 : 0xd800 ≤ high) (h2 : high < 0xdc00) (h3 : 0xdc00 ≤ low) (h4 : low < 0xe000) :
    escape (0x75 :: a :: b :: c :: d :: 0x5c :: 0x75 :: a' :: b' :: c' :: d' :: rest) =
      some (Utf8.encode (paired high low), rest) := by
  have hEscape : escape (0x75 :: a :: b :: c :: d :: 0x5c :: 0x75 :: a' :: b' :: c' :: d' :: rest) =
      unicode (a :: b :: c :: d :: 0x5c :: 0x75 :: a' :: b' :: c' :: d' :: rest) := rfl
  rw [hEscape, unicode, parseHex4_eq hHigh]
  simp only [Option.bind_eq_bind, Option.bind_some, advance, List.length_cons, List.drop_succ_cons,
    List.drop_zero]
  rw [if_pos (by omega), Option.bind_some, if_neg (by omega), if_pos (by omega)]
  simp only [List.getElem?_cons_zero, List.getElem?_cons_succ, Option.bind_some, ne_eq,
    not_true_eq_false, if_false, List.drop_succ_cons, List.drop_zero, parseHex4_eq hLow]
  rw [if_pos (by simp only [List.length_cons]; omega), Option.bind_some, if_neg (by omega),
    paired_eq h1 h2 h3 h4, transcode_eq (paired_lt h2 h4)]
  rfl

/-- One turn of the second loop at a plain byte. -/
theorem stringLoop_plain {room fuel : Nat} {c : UInt8} {out : List UInt8} (hZero : c ≠ 0)
    (hQuote : c ≠ 0x22) (hSlash : c ≠ 0x5c) (hRoom : out.length + 1 ≤ room) :
    stringLoop room (fuel + 1) (c :: text) out = stringLoop room fuel text (out ++ [c]) := by
  simp [stringLoop, hZero, hQuote, hSlash, put, hRoom]

/-- One turn of it at an escape. -/
theorem stringLoop_escape {room fuel : Nat} {new out : List UInt8}
    (hEscape : escape text = some (new, rest)) (hRoom : out.length + new.length ≤ room) :
    stringLoop room (fuel + 1) (0x5c :: text) out = stringLoop room fuel rest (out ++ new) := by
  simp [stringLoop, hEscape, put, hRoom]

/-- The second loop writes the string. -/
theorem stringLoop_spec (h : Chars bytes text) {room fuel : Nat} (out : List UInt8)
    (hRoom : out.length + bytes.length ≤ room) (hFuel : text.length < fuel) :
    stringLoop room fuel (text ++ 0x22 :: rest) out = some (out ++ bytes, 0x22 :: rest) := by
  induction h generalizing out fuel with
  | nil =>
      cases fuel with
      | zero => cases hFuel
      | succ fuel => simp [stringLoop]
  | plain hZero hQuote hSlash _ ih =>
      rw [List.length_cons] at hRoom hFuel
      cases fuel with
      | zero => omega
      | succ fuel =>
          rw [List.cons_append, stringLoop_plain hZero hQuote hSlash (by omega),
            ih _ (by rw [List.length_append, List.length_singleton]; omega) (by omega),
            List.append_assoc]
          rfl
  | short hShort _ ih =>
      simp only [List.length_cons] at hRoom hFuel
      cases fuel with
      | zero => omega
      | succ fuel =>
          rw [List.cons_append, List.cons_append,
            stringLoop_escape (escape_short hShort) (by rw [List.length_singleton]; omega),
            ih _ (by rw [List.length_append, List.length_singleton]; omega) (by omega),
            List.append_assoc]
          rfl
  | unit hUnit hPos hBasic _ ih =>
      rw [List.length_append] at hRoom
      simp only [List.length_cons] at hFuel
      cases fuel with
      | zero => omega
      | succ fuel =>
          simp only [List.cons_append]
          rw [stringLoop_escape (escape_unit hUnit hPos hBasic) (by omega),
            ih _ (by rw [List.length_append]; omega) (by omega), List.append_assoc]
  | pair hHigh hLow h1 h2 h3 h4 _ ih =>
      rw [List.length_append] at hRoom
      simp only [List.length_cons] at hFuel
      cases fuel with
      | zero => omega
      | succ fuel =>
          simp only [List.cons_append]
          rw [stringLoop_escape (escape_pair hHigh hLow h1 h2 h3 h4) (by omega),
            ih _ (by rw [List.length_append]; omega) (by omega), List.append_assoc]

theorem malloc_eq {size : Nat} (h : (size : Int) ≤ intMax) : malloc size = some size := if_pos h

/-- A string without a zero, in its buffer. -/
theorem Str_of_eq (h : ∀ c ∈ bytes, c ≠ 0) : Str.of (bytes ++ 0 :: rest) = ⟨bytes, h⟩ := by
  apply Subtype.ext
  exact takeWhile_stop (fun c hc => decide_eq_true (h c hc)) (fun c hc => by cases hc; rfl)

/-- `parse_string` leaves what a string means and goes on behind it. -/
theorem parseString_spec {D : Type} (item : Item D) (h : Chars bytes text)
    (hSize : ((quoted text).length : Int) ≤ intMax) :
    parseString item (quoted text ++ rest) =
      .done ({ item with valuestring := some ⟨bytes, Chars_ne_zero h⟩, type := .string },
        rest) := by
  obtain ⟨n, hLength, hLow, hHigh⟩ := @lengthLoop_spec bytes text rest h 0
  have hTextLen : (quoted text).length = text.length + 2 := by
    simp [quoted]
  have hText : quoted text ++ rest = 0x22 :: (text ++ 0x22 :: rest) := by
    simp [quoted]
  have hMalloc : malloc (0 + n + 1) = some (0 + n + 1) :=
    malloc_eq (by omega)
  have hLoop := @stringLoop_spec bytes text rest h (0 + n + 1) ((text ++ 0x22 :: rest).length + 1)
    [] (by rw [List.length_nil]; omega) (by rw [List.length_append]; omega)
  have hPut : put (0 + n + 1) ([] ++ bytes) [0] = some (bytes ++ [0]) := by
    rw [put, List.nil_append, List.length_singleton, if_pos (by omega)]
  have hAccept : accept 0x22 (0x22 :: rest) = some (true, rest) := rfl
  rw [hText, parseString, if_neg (fun hNe => hNe rfl)]
  simp only [hLength, hMalloc, hLoop, hPut, hAccept, Outcome.liftM_some, Outcome.done_bind,
    Outcome.pure_eq, Str_of_eq (Chars_ne_zero h)]

end

end Gbase.Util.Cjson
