import Gbase.Net.WsParse

/-!
# The two keys of a request (`net/wsconn.c`, `util/util_str.c`)

The parser prints the values of two headers into arrays of 32 bytes, which are zero before, and
`util_str2int` gets these arrays.

An array without a byte of zero is no string, and the search for digits runs over its end.  One that
holds no blank makes the function divide by zero, and too many digits do not fit the local array.
The conditions are on the array as a whole, whoever filled it.

## Main results

* `wsconnParseRequest_keys`: what the parser leaves in the arrays.
* `util_str2int_safe_iff`: the arrays that `util_str2int` is safe on.
-/

namespace Gbase.Net.Wsconn

open Gbase.Lib.CString
open Gbase.Util.UtilStr

/-- The array of a key: its last byte is zero. -/
structure KeyArray (key : List UInt8) : Prop where
  length : key.length = 32
  ends : key[31]? = some 0

/-- `util_str2int` neither leaves its arrays nor divides by zero, and with a blank in the key it
gives the number of the digits by that of the blanks. -/
def Str2intSafe (key : List UInt8) : Prop :=
  ∃ n, utilStr2int key = some n ∧
    ∀ text, cString key 0 = some text → 0 < text.count 0x20 →
      n = decimal (text.filter isDigit) % 2 ^ 32 / text.count 0x20

section

variable {key name value text line : List UInt8} {request request' : RequestT} {ret : Int}

/-! ## What the parser stores -/

theorem KeyArray.start : KeyArray (List.replicate 32 0) := ⟨rfl, rfl⟩

/-- A value that is printed into the array is cut before its last byte. -/
theorem KeyArray.printed (h : KeyArray key) (value : List UInt8) :
    KeyArray (snprintf key value) := by
  have hLength := @length_snprintf value key (by rw [h.length]; decide)
  refine ⟨hLength.trans h.length, ?_⟩
  have hCut : (value.take 31).length ≤ 31 := List.length_take_le 31 value
  rw [snprintf, h.length, List.getElem?_append_right hCut]
  by_cases hFull : (value.take 31).length = 31
  · rw [hFull]
    rfl
  · obtain ⟨k, hk⟩ := Nat.exists_eq_succ_of_ne_zero (Nat.sub_ne_zero_of_lt
      (Nat.lt_of_le_of_ne hCut hFull))
    rw [hk, List.getElem?_cons_succ, List.getElem?_drop]
    have hLast : (value.take 31).length + 1 + k = 31 := by omega
    rw [hLast]
    exact h.ends

/-- The arrays of both keys. -/
def KeyArrays (request : RequestT) : Prop := KeyArray request.key1 ∧ KeyArray request.key2

theorem KeyArrays.setField (h : KeyArrays request) (name value text : List UInt8) :
    KeyArrays (Wsconn.setField request name value text).2 := by
  constructor
  · simp only [Wsconn.setField, apply_ite Prod.snd, apply_ite RequestT.key1, apply_ite KeyArray,
      h.1, h.1.printed value, ite_self]
  · simp only [Wsconn.setField, apply_ite Prod.snd, apply_ite RequestT.key2, apply_ite KeyArray,
      h.2, h.2.printed value, ite_self]

theorem KeyArrays.parseField {mem : List UInt8} {p q : Nat} (h : KeyArrays request)
    (hParse : Wsconn.parseField request mem p q = some (ret, request')) : KeyArrays request' := by
  simp only [Wsconn.parseField, Option.bind_eq_bind, Option.bind_eq_some_iff] at hParse
  obtain ⟨name, -, text, -, start, -, value, -, hSet⟩ := hParse
  have hRequest : (Wsconn.setField request name value text).2 = request' :=
    congrArg Prod.snd (Option.some.inj hSet)
  rw [← hRequest]
  exact h.setField name value text

theorem KeyArrays.parseFields {fuel next : Nat} {mem : List UInt8} (h : KeyArrays request)
    (hParse : Wsconn.parseFields fuel request mem next = some (ret, request')) :
    KeyArrays request' := by
  induction fuel generalizing request mem next with
  | zero => cases hParse
  | succ fuel ih =>
      simp only [Wsconn.parseFields, Option.bind_eq_bind, Option.bind_eq_some_iff] at hParse
      obtain ⟨token, -, hLine⟩ := hParse
      cases token with
      | none =>
          have hEnd : request = request' := congrArg Prod.snd (Option.some.inj hLine)
          rwa [← hEnd]
      | some token =>
          obtain ⟨p, mem, next⟩ := token
          rw [Option.bind_eq_some_iff] at hLine
          obtain ⟨colon, -, hField⟩ := hLine
          cases colon with
          | none =>
              dsimp only at hField
              split at hField
              · cases hField
              · exact ih h hField
          | some q =>
              rw [Option.bind_eq_some_iff] at hField
              obtain ⟨⟨ret, between⟩, hThis, hRest⟩ := hField
              have hBetween := h.parseField hThis
              dsimp only at hRest
              split at hRest
              · have hEnd : between = request' := congrArg Prod.snd (Option.some.inj hRest)
                rwa [← hEnd]
              · exact ih hBetween hRest

/-- What the parser leaves in the arrays of the keys, if it does not refuse the request. -/
theorem wsconnParseRequest_keys {stack data : List UInt8} (hRet : 0 ≤ ret)
    (hParse : wsconnParseRequest request stack data = some (ret, request')) :
    KeyArrays request' := by
  have hEmpty : KeyArrays emptyRequest := ⟨KeyArray.start, KeyArray.start⟩
  have hRefused : ∀ {r : RequestT}, some ((-1 : Int), r) ≠ some (ret, request') := by
    intro r hEq
    rw [Option.some.injEq, Prod.mk.injEq] at hEq
    omega
  simp only [wsconnParseRequest] at hParse
  split at hParse
  · cases hParse
  split at hParse
  · exact absurd hParse hRefused
  simp only [Option.bind_eq_bind, Option.bind_eq_some_iff] at hParse
  obtain ⟨token, -, hParse⟩ := hParse
  cases token with
  | none => exact absurd hParse hRefused
  | some token =>
      obtain ⟨p, mem, next⟩ := token
      rw [Option.bind_eq_some_iff] at hParse
      obtain ⟨blank, -, hParse⟩ := hParse
      cases blank with
      | none => exact absurd hParse hRefused
      | some q =>
          rw [Option.bind_eq_some_iff] at hParse
          obtain ⟨copied, -, hParse⟩ := hParse
          have hStart : KeyArrays
              { emptyRequest with location := locationField emptyRequest.location copied } := hEmpty
          exact hStart.parseFields hParse

/-! ## What `util_str2int` does with it -/

/-- The array of a key ends behind its first byte. -/
theorem KeyArray.tail (h : KeyArray key) : 0 ∈ key.tail := by
  obtain ⟨hLength, hEnds⟩ := h
  cases key with
  | nil => cases hLength
  | cons c rest =>
      rw [List.getElem?_cons_succ] at hEnds
      exact List.mem_of_getElem? hEnds

/-- A string of one byte or more is what is looked at. -/
theorem scanned_cString (hText : cString key 0 = some text) (hSome : text ≠ []) :
    scanned key = text := by
  simp only [cString, List.drop_zero] at hText
  split at hText
  · rw [Option.some.injEq] at hText
    cases key with
    | nil => exact absurd hText.symm hSome
    | cons c rest =>
        by_cases hZero : c = 0
        · simp [hZero] at hText
          exact absurd hText hSome
        · simpa [scanned, hZero] using hText
  · cases hText

/-- `util_str2int` is safe on a key exactly if the bytes it looks at hold at most fourteen digits
and a blank. -/
theorem util_str2int_safe_iff (key : List UInt8) (hKey : KeyArray key) :
    Str2intSafe key ↔ (scanned key).countP isDigit ≤ 14 ∧ 0x20 ∈ scanned key := by
  have hSpec := utilStr2int_spec hKey.tail (by rw [hKey.length]; decide)
  rw [← List.countP_eq_length_filter] at hSpec
  constructor
  · rintro ⟨n, hSome, -⟩
    rw [hSpec] at hSome
    split at hSome
    · cases hSome
    · next hNot =>
        rw [not_or] at hNot
        exact ⟨Nat.le_of_not_lt hNot.1, List.count_pos_iff.mp (Nat.pos_of_ne_zero hNot.2)⟩
  · rintro ⟨hDigits, hBlank⟩
    have hCount := List.count_pos_iff.mpr hBlank
    have hNot : ¬ (14 < (scanned key).countP isDigit ∨ (scanned key).count 0x20 = 0) := by omega
    rw [if_neg hNot] at hSpec
    refine ⟨_, hSpec, ?_⟩
    intro text hText hPos
    have hSome : text ≠ [] := fun hNil => by
      rw [hNil] at hPos
      cases hPos
    rw [scanned_cString hText hSome]

/-- The array that a key is printed into. -/
def printedKey (value : List UInt8) : List UInt8 := snprintf (List.replicate 32 0) value

theorem util_str2int_safe_two : Str2intSafe (printedKey (ascii "1 4 6")) ↔
    (scanned (printedKey (ascii "1 4 6"))).countP isDigit ≤ 14 ∧
      0x20 ∈ scanned (printedKey (ascii "1 4 6")) :=
  util_str2int_safe_iff (printedKey (ascii "1 4 6")) ⟨by decide, by decide⟩

/-- Without a blank the number is divided by zero, and fifteen digits do not fit. -/
theorem util_str2int_not_safe :
    ¬ Str2intSafe (printedKey (ascii "12")) ∧
      ¬ Str2intSafe (printedKey (ascii "1 23456789012345")) := by
  have hBlank : utilStr2int (printedKey (ascii "12")) = none := by decide
  have hDigits : utilStr2int (printedKey (ascii "1 23456789012345")) = none := by decide
  constructor
  · rintro ⟨n, hSome, -⟩
    exact Option.some_ne_none _ (hSome.symm.trans hBlank)
  · rintro ⟨n, hSome, -⟩
    exact Option.some_ne_none _ (hSome.symm.trans hDigits)

end

end Gbase.Net.Wsconn
