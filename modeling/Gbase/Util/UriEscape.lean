import Gbase.Lib.CString
import Mathlib.Algebra.Order.Ring.Int
import Mathlib.Data.List.Count
import Mathlib.Data.List.GetD
import Mathlib.Tactic.IntervalCases

/-!
# Escapes in URIs (`util/util_str.c`)

A plain `char` is signed, so that a byte from 0x80 on is a negative index into a table.  Reading
outside an array is undefined, which is the outer `Option`.  The tables are those of the source,
and beside them stand the codes that bytes are to be written as, which is what the loops are
compared with.

## Main results

* `uri_sizes_iff`: the pass without a `dst` counts what the pass with one writes, for no bytes only.
* `escape_total_iff`: which bytes `util_uri_escape` and `util_hex_dump` are right on.
* `uri_round_trip`: what is written is read back up to the first question mark.
-/

namespace Gbase.Util.UriEscape

open Gbase.Lib.CString

/-- The number that a plain `char` is. -/
def char (c : UInt8) : Int := (c.toNat : Int).bmod 256

/-- An element of an array. -/
def entry {α : Type} (table : List α) (i : Int) : Option α :=
  if 0 ≤ i then table[i.toNat]? else none

/-- Blank, #, %, ?, %00-%1F, %7F-%FF. -/
def uri : List UInt32 :=
  [0xffffffff, 0x80000029, 0x00000000, 0x80000000, 0xffffffff, 0xffffffff, 0xffffffff, 0xffffffff]

/-- Blank, #, %, &, +, ?, %00-%1F, %7F-%FF. -/
def args : List UInt32 :=
  [0xffffffff, 0x88000869, 0x00000000, 0x80000000, 0xffffffff, 0xffffffff, 0xffffffff, 0xffffffff]

/-- Not alpha, digit, "-" "." "_" "~". -/
def component : List UInt32 :=
  [0xffffffff, 0xfc009fff, 0x78000001, 0xb8000001, 0xffffffff, 0xffffffff, 0xffffffff, 0xffffffff]

/-- Blank, #, ", %, ', %00-%1F, %7F-%FF. -/
def url : List UInt32 :=
  [0xffffffff, 0x000000ad, 0x00000000, 0x80000000, 0xffffffff, 0xffffffff, 0xffffffff, 0xffffffff]

/-- Blank, %, %00-%1F. -/
def mail : List UInt32 :=
  [0xffffffff, 0x00000021, 0x00000000, 0x00000000, 0x00000000, 0x00000000, 0x00000000, 0x00000000]

/-- `map` -/
def map : List (List UInt32) := [uri, args, component, url, mail]

def utilEscapeUri : Int := 0
def utilEscapeArgs : Int := 1
def utilEscapeUriComponent : Int := 2
def utilEscapeUrl : Int := 3
def utilEscapeMail : Int := 4
def utilEscapeMax : Int := 5

/-- `hex` of `util_uri_escape`, with the zero at its end. -/
def hex : List UInt8 := ascii "0123456789abcdef" ++ [0]

/-- The bit of a byte in its word of a map. -/
def hasBit (word : UInt32) (c : UInt8) : Bool := word &&& (1 <<< (c &&& 0x1f).toUInt32) ≠ 0

/-- The test whether a byte is escaped. -/
def isMarked (escape : List UInt32) (c : UInt8) : Option Bool :=
  (entry escape (char c >>> (5 : Nat))).map fun word => hasBit word c

/-- The loop of `util_uri_escape` without a `dst`: so many bytes of `src` are left. -/
def sizeLoop (escape : List UInt32) : List UInt8 → Nat → Nat → Option Nat
  | _, 0, n => some n
  | [], _ + 1, _ => none
  | c :: src, size + 1, n => do
      let marked ← isMarked escape c
      sizeLoop escape src size (if marked then (n + 1) % 2 ^ 64 else n)

/-- The loop of `util_uri_escape` that writes to `dst`. -/
def escapeLoop (escape : List UInt32) :
    List UInt8 → Nat → List UInt8 → Nat → Option (List UInt8 × Nat)
  | _, 0, dst, n => some (dst, n)
  | [], _ + 1, _, _ => none
  | c :: src, size + 1, dst, n => do
      let marked ← isMarked escape c
      if marked then
        let high ← entry hex (char c >>> (4 : Nat))
        let low ← entry hex (c &&& 0xf).toNat
        escapeLoop escape src size (dst ++ [0x25, high, low]) ((n + 3) % 2 ^ 64)
      else escapeLoop escape src size (dst ++ [c]) ((n + 1) % 2 ^ 64)

/-- `util_uri_escape`: what is written to `dst`, if it is not null, and the size returned. -/
def utilUriEscape (dst : Bool) (src : List UInt8) (size : Nat) (type : Int) :
    Option (List UInt8 × Nat) :=
  if type < 0 ∨ utilEscapeMax ≤ type then some ([], 0)
  else do
    let escape ← entry map type
    if dst then escapeLoop escape src size [] 0
    else
      let n ← sizeLoop escape src size 0
      return ([], n)

/-- The states of `util_uri_unescape`. -/
inductive Sw where
  | usual
  | quoted
  | quotedSecond

/-- The loop of `util_uri_unescape`: so many bytes are left, the first digit of a byte is in
`decoded`, and `d` is written; with what is behind the last byte read. -/
def unescapeLoop :
    List UInt8 → Nat → Sw → UInt8 → List UInt8 → Option (List UInt8 × List UInt8)
  | src, 0, _, _, d => some (d, src)
  | [], _ + 1, _, _, _ => none
  | ch :: src, size + 1, .usual, decoded, d =>
      if ch = 0x3f then some (d ++ [ch], src)
      else if ch = 0x25 then unescapeLoop src size .quoted decoded d
      else unescapeLoop src size .usual decoded (d ++ [ch])
  | ch :: src, size + 1, .quoted, decoded, d =>
      if 0x30 ≤ ch ∧ ch ≤ 0x39 then unescapeLoop src size .quotedSecond (ch - 0x30) d
      else
        let c := ch ||| 0x20
        if 0x61 ≤ c ∧ c ≤ 0x66 then unescapeLoop src size .quotedSecond (c - 0x61 + 10) d
        else unescapeLoop src size .usual decoded (d ++ [ch])
  | ch :: src, size + 1, .quotedSecond, decoded, d =>
      if 0x30 ≤ ch ∧ ch ≤ 0x39 then
        unescapeLoop src size .usual decoded (d ++ [(decoded <<< 4) + ch - 0x30])
      else
        let c := ch ||| 0x20
        if 0x61 ≤ c ∧ c ≤ 0x66 then
          let ch := (decoded <<< 4) + c - 0x61 + 10
          -- a mark ends the URI also when it was escaped
          if ch = 0x3f then some (d ++ [ch], src)
          else unescapeLoop src size .usual decoded (d ++ [ch])
        else unescapeLoop src size .usual decoded d

/-- `util_uri_unescape`: what is written to `dst`, and where `src` points afterwards. -/
def utilUriUnescape (src : List UInt8) (size : Nat) : Option (List UInt8 × List UInt8) :=
  unescapeLoop src size .usual 0 []

/-- `hex` of `util_hex_dump`, with the zero at its end. -/
def hexUpper : List UInt8 := ascii "0123456789ABCDEF" ++ [0]

/-- The loop of `util_hex_dump`, in which `src` stays where it is. -/
def dumpLoop (src : List UInt8) : Nat → List UInt8 → Option (List UInt8)
  | 0, dst => some dst
  | s + 1, dst => do
      let c ← src.head?
      let high ← entry hexUpper (char c >>> (4 : Nat))
      let low ← entry hexUpper (c &&& 0xf).toNat
      dumpLoop src s (dst ++ [high, low])

/-- `util_hex_dump` -/
def utilHexDump (src : List UInt8) (s : Nat) : Option (List UInt8) := dumpLoop src s []

/-! ## The tables -/

/-- The map of a type. -/
def mapOf (type : Int) : List UInt32 := map.getD type.toNat []

/-- Whether a map has the bit of a byte. -/
def marks (escape : List UInt32) (c : UInt8) : Bool := hasBit (escape.getD (c.toNat / 32) 0) c

/-- A hexadecimal digit, with its letters from `ten` on. -/
def digit (ten : UInt8) (n : Nat) : UInt8 :=
  if n < 10 then 0x30 + UInt8.ofNat n else ten + UInt8.ofNat (n - 10)

/-- The two digits of a byte. -/
def digits (ten c : UInt8) : List UInt8 := [digit ten (c.toNat / 16), digit ten (c.toNat % 16)]

/-- What a byte is written as. -/
def code (escape : List UInt32) (c : UInt8) : List UInt8 :=
  if marks escape c then 0x25 :: digits 0x61 c else [c]

/-- What bytes are written as. -/
def escaped (escape : List UInt32) (text : List UInt8) : List UInt8 := text.flatMap (code escape)

section

variable {α : Type} {table : List α} {escape : List UInt32} {c : UInt8} {src text : List UInt8}
  {size n : Nat} {dst : List UInt8} {type : Int}

/-- A byte below 0x80 is its own index. -/
theorem char_of_lt (hLow : c < 0x80) : char c = c.toNat := by
  have hNat : c.toNat < 128 := UInt8.lt_iff_toNat_lt.mp hLow
  unfold char
  generalize c.toNat = n at *
  rw [Int.bmod_eq_of_le] <;> omega

private theorem char_neg (hHigh : ¬ c < 0x80) : char c < 0 := by
  have hNat : 128 ≤ c.toNat := UInt8.le_iff_toNat_le.mp (UInt8.not_lt.mp hHigh)
  have hByte := c.toNat_lt
  unfold char
  generalize c.toNat = n at *
  rw [Int.bmod_def]
  omega

theorem entry_of_lt (hLow : c < 0x80) (k : Nat) :
    entry table (char c >>> k) = table[c.toNat / 2 ^ k]? := by
  have hShift : char c >>> k = ((c.toNat / 2 ^ k : Nat) : Int) := by
    rw [char_of_lt hLow, Int.shiftRight_eq_div_pow]
    norm_cast
  rw [entry, hShift, if_pos (Int.natCast_nonneg _), Int.toNat_natCast]

/-- From 0x80 on an index is before the array. -/
theorem entry_none (hHigh : ¬ c < 0x80) (k : Nat) : entry table (char c >>> k) = none := by
  have hPow : (0 : Int) < ((2 ^ k : Nat) : Int) := by exact_mod_cast Nat.two_pow_pos k
  have hNeg : char c >>> k < 0 := by
    rw [Int.shiftRight_eq_div_pow]
    exact Int.ediv_neg_of_neg_of_pos (char_neg hHigh) hPow
  exact if_neg (Int.not_le.mpr hNeg)

/-- Every map has a word for each byte. -/
theorem mapOf_length (hType : 0 ≤ type ∧ type < utilEscapeMax) :
    entry map type = some (mapOf type) ∧ (mapOf type).length = 8 := by
  obtain ⟨hZero, hMax⟩ := hType
  obtain ⟨n, rfl⟩ := Int.eq_ofNat_of_zero_le hZero
  have hFive : n < 5 := by
    rw [utilEscapeMax] at hMax
    omega
  interval_cases n <;> exact ⟨rfl, rfl⟩

private theorem isMarked_of_lt (hLow : c < 0x80) (hLength : escape.length = 8) :
    isMarked escape c = some (marks escape c) := by
  have hNat : c.toNat < 128 := UInt8.lt_iff_toNat_lt.mp hLow
  have hWord : c.toNat / 2 ^ 5 < escape.length := by omega
  rw [isMarked, entry_of_lt hLow, List.getElem?_eq_getElem hWord, marks,
    List.getD_eq_getElem _ _ (by omega)]
  rfl

private theorem isMarked_none (hHigh : ¬ c < 0x80) : isMarked escape c = none := by
  rw [isMarked, entry_none hHigh]
  rfl

theorem hex_eq (hDigit : n < 16) :
    hex[n]? = some (digit 0x61 n) ∧ hexUpper[n]? = some (digit 0x41 n) := by
  interval_cases n <;> decide

/-- The low digit of a byte. -/
theorem entry_low (c : UInt8) : entry table (c &&& 0xf).toNat = table[c.toNat % 16]? := by
  have hLow : (c &&& 0xf).toNat = c.toNat % 16 := by
    rw [UInt8.toNat_and]
    exact Nat.and_two_pow_sub_one_eq_mod c.toNat 4
  rw [entry, if_pos (Int.natCast_nonneg _), Int.toNat_natCast, hLow]

/-- The two digits that a table has for a byte. -/
theorem entry_digits (hLow : c < 0x80) :
    entry hex (char c >>> (4 : Nat)) = some (digit 0x61 (c.toNat / 16)) ∧
      entry hexUpper (char c >>> (4 : Nat)) = some (digit 0x41 (c.toNat / 16)) ∧
      entry hex (c &&& 0xf).toNat = some (digit 0x61 (c.toNat % 16)) ∧
      entry hexUpper (c &&& 0xf).toNat = some (digit 0x41 (c.toNat % 16)) := by
  have hByte := c.toNat_lt
  have hFirst : c.toNat / 2 ^ 4 < 16 := by omega
  have hSecond : c.toNat % 16 < 16 := by omega
  rw [entry_of_lt hLow, entry_of_lt hLow, entry_low, entry_low]
  exact ⟨(hex_eq hFirst).1, (hex_eq hFirst).2, (hex_eq hSecond).1, (hex_eq hSecond).2⟩

/-! ## Escaping -/

/-- How many bytes are written. -/
theorem escaped_length (escape : List UInt32) (text : List UInt8) :
    (escaped escape text).length = text.length + 2 * text.countP (marks escape) := by
  induction text with
  | nil => rfl
  | cons c text ih =>
      rw [escaped, List.flatMap_cons, List.length_append, ← escaped, ih, code]
      cases hMark : marks escape c with
      | true =>
          rw [List.countP_cons_of_pos hMark]
          simp [digits]
          omega
      | false =>
          rw [List.countP_cons_of_neg (by rw [hMark]; decide)]
          simp
          omega

/-- Without a `dst`, the bytes that are escaped are counted. -/
theorem sizeLoop_spec (hLength : escape.length = 8) (hSize : size ≤ src.length)
    (hLow : ∀ c, c ∈ src.take size → c < 0x80) (hCount : n < 2 ^ 64) :
    sizeLoop escape src size n =
      some ((n + (src.take size).countP (marks escape)) % 2 ^ 64) := by
  induction size generalizing src n with
  | zero =>
      rw [sizeLoop, List.take_zero, List.countP_nil, Nat.add_zero, Nat.mod_eq_of_lt hCount]
  | succ size ih =>
      cases src with
      | nil => cases hSize
      | cons c src =>
          rw [List.take_succ_cons] at hLow ⊢
          have hRest := fun n => @ih src n (Nat.le_of_succ_le_succ hSize)
            (fun x hx => hLow x (List.mem_cons_of_mem c hx))
          rw [sizeLoop, isMarked_of_lt (hLow c List.mem_cons_self) hLength, Option.bind_eq_bind,
            Option.bind_some]
          cases hMark : marks escape c with
          | true =>
              rw [if_pos rfl, hRest _ (Nat.mod_lt _ (by decide)), List.countP_cons_of_pos hMark,
                Nat.mod_add_mod, Nat.add_right_comm, Nat.add_assoc]
          | false =>
              rw [if_neg (by decide), hRest _ hCount,
                List.countP_cons_of_neg (by rw [hMark]; decide)]

/-- With a `dst`, every byte is written as its code. -/
theorem escapeLoop_spec (hLength : escape.length = 8) (hSize : size ≤ src.length)
    (hLow : ∀ c, c ∈ src.take size → c < 0x80) (hCount : n < 2 ^ 64) :
    escapeLoop escape src size dst n =
      some (dst ++ escaped escape (src.take size),
        (n + (escaped escape (src.take size)).length) % 2 ^ 64) := by
  induction size generalizing src n dst with
  | zero =>
      rw [escapeLoop, List.take_zero, escaped, List.flatMap_nil, List.append_nil, List.length_nil,
        Nat.add_zero, Nat.mod_eq_of_lt hCount]
  | succ size ih =>
      cases src with
      | nil => cases hSize
      | cons c src =>
          rw [List.take_succ_cons] at hLow ⊢
          have hFirst := hLow c List.mem_cons_self
          obtain ⟨hHigh, -, hDigit, -⟩ := entry_digits hFirst
          have hRest := fun n dst => @ih src n dst (Nat.le_of_succ_le_succ hSize)
            (fun x hx => hLow x (List.mem_cons_of_mem c hx))
          rw [escapeLoop, isMarked_of_lt hFirst hLength, escaped, List.flatMap_cons, ← escaped,
            code]
          cases hMark : marks escape c with
          | true =>
              simp only [hHigh, hDigit, Option.bind_eq_bind, Option.bind_some, if_true]
              rw [hRest _ _ (Nat.mod_lt _ (by decide)), List.append_assoc, List.length_append,
                Nat.mod_add_mod, Nat.add_assoc]
              rfl
          | false =>
              simp only [Option.bind_eq_bind, Option.bind_some, Bool.false_eq_true, if_false]
              rw [hRest _ _ (Nat.mod_lt _ (by decide)), List.append_assoc, List.length_append,
                Nat.mod_add_mod, Nat.add_assoc]
              rfl

/-- A byte from 0x80 on is looked up outside of the map. -/
theorem loops_none (hSize : size ≤ src.length) (hHigh : ∃ c, c ∈ src.take size ∧ ¬ c < 0x80) :
    sizeLoop escape src size n = none ∧ escapeLoop escape src size dst n = none := by
  induction size generalizing src n dst with
  | zero => simp at hHigh
  | succ size ih =>
      cases src with
      | nil => cases hSize
      | cons c src =>
          rw [List.take_succ_cons] at hHigh
          rw [sizeLoop, escapeLoop]
          by_cases hFirst : c < 0x80
          · have hRest : ∃ c, c ∈ src.take size ∧ ¬ c < 0x80 := by
              obtain ⟨x, hx, hNot⟩ := hHigh
              cases List.mem_cons.mp hx with
              | inl hEq => exact absurd (hEq ▸ hFirst) hNot
              | inr hIn => exact ⟨x, hIn, hNot⟩
            have hNone := fun n dst => @ih src n dst (Nat.le_of_succ_le_succ hSize) hRest
            have hSizes := fun n => (hNone n []).1
            have hTexts := fun n dst => (hNone n dst).2
            obtain ⟨hUp, -, hDown, -⟩ := entry_digits hFirst
            cases isMarked escape c <;>
              simp only [hUp, hDown, hSizes, hTexts, ite_self, Option.bind_eq_bind,
                Option.bind_some, Option.bind_none, and_self]
          · simp only [isMarked_none hFirst, Option.bind_eq_bind, Option.bind_none, and_self]

/-! ## Dumping -/

/-- Every turn of the dump writes the digits of the first byte. -/
theorem dumpLoop_spec (hLow : c < 0x80) :
    dumpLoop (c :: src) size dst = some (dst ++ (List.replicate size c).flatMap (digits 0x41)) := by
  obtain ⟨-, hHigh, -, hDigit⟩ := entry_digits hLow
  induction size generalizing dst with
  | zero => rw [dumpLoop, List.replicate_zero, List.flatMap_nil, List.append_nil]
  | succ size ih =>
      rw [dumpLoop, List.replicate_succ, List.flatMap_cons]
      simp only [List.head?_cons, hHigh, hDigit, ih, Option.bind_eq_bind, Option.bind_some]
      rw [List.append_assoc]
      rfl

/-- A first byte from 0x80 on is looked up before the table. -/
theorem dumpLoop_none (hHigh : ¬ c < 0x80) : dumpLoop (c :: src) (size + 1) dst = none := by
  simp only [dumpLoop, List.head?_cons, entry_none hHigh, Option.bind_eq_bind, Option.bind_some,
    Option.bind_none]

private theorem digit_inj : ∀ n < 16, ∀ m < 16, digit 0x41 n = digit 0x41 m → n = m := by decide

/-- A byte is known from its two digits, and so bytes are from theirs. -/
theorem flatMap_digits_inj {text text' : List UInt8}
    (hSame : text.flatMap (digits 0x41) = text'.flatMap (digits 0x41)) : text = text' := by
  induction text generalizing text' with
  | nil =>
      cases text' with
      | nil => rfl
      | cons c text' => cases hSame
  | cons c text ih =>
      cases text' with
      | nil => cases hSame
      | cons c' text' =>
          rw [List.flatMap_cons, List.flatMap_cons, digits, digits] at hSame
          obtain ⟨hHigh, hSame⟩ := List.cons.inj hSame
          obtain ⟨hLow, hRest⟩ := List.cons.inj hSame
          have hByte := c.toNat_lt
          have hByte' := c'.toNat_lt
          have hDiv := digit_inj _ (by omega) _ (by omega) hHigh
          have hMod := digit_inj _ (by omega) _ (by omega) hLow
          have hEq : c = c' := UInt8.toNat_inj.mp (by omega)
          rw [hEq, ih hRest]

/-- What `util_uri_escape` does with bytes below 0x80. -/
theorem utilUriEscape_spec (hType : 0 ≤ type ∧ type < utilEscapeMax) (hSize : size ≤ src.length)
    (hLow : ∀ c, c ∈ src.take size → c < 0x80) :
    utilUriEscape false src size type =
        some ([], (src.take size).countP (marks (mapOf type)) % 2 ^ 64) ∧
      utilUriEscape true src size type =
        some (escaped (mapOf type) (src.take size),
          (escaped (mapOf type) (src.take size)).length % 2 ^ 64) := by
  have hNot : ¬ (type < 0 ∨ utilEscapeMax ≤ type) := by omega
  obtain ⟨hMap, hLength⟩ := mapOf_length hType
  have hCount := @sizeLoop_spec _ _ _ 0 hLength hSize hLow (by decide)
  have hText := @escapeLoop_spec _ _ _ 0 [] hLength hSize hLow (by decide)
  rw [Nat.zero_add] at hCount hText
  simp only [utilUriEscape, if_neg hNot, hMap, hCount, hText, Option.bind_eq_bind,
    Option.bind_some, Bool.false_eq_true, if_false, if_true, List.nil_append, Option.pure_def,
    and_self]

/-- A byte from 0x80 on makes both calls of `util_uri_escape` undefined. -/
theorem utilUriEscape_none (hType : 0 ≤ type ∧ type < utilEscapeMax) (hSize : size ≤ src.length)
    (hHigh : ∃ c, c ∈ src.take size ∧ ¬ c < 0x80) (written : Bool) :
    utilUriEscape written src size type = none := by
  have hNot : ¬ (type < 0 ∨ utilEscapeMax ≤ type) := by omega
  obtain ⟨hMap, -⟩ := mapOf_length hType
  obtain ⟨hCount, hText⟩ := @loops_none (mapOf type) src size 0 [] hSize hHigh
  cases written <;>
    simp only [utilUriEscape, if_neg hNot, hMap, hCount, hText, Option.bind_eq_bind,
      Option.bind_some, Option.bind_none, Bool.false_eq_true, if_false, if_true]

/-! ## The two passes -/

/-- The size without a `dst` is the one returned with it and the number of bytes written. -/
def SizesAgree (src : List UInt8) (size : Nat) (type : Int) : Prop :=
  ∃ n out, utilUriEscape false src size type = some ([], n) ∧
    utilUriEscape true src size type = some (out, n) ∧ out.length = n

/-- The call without a `dst` counts the bytes that are escaped only: the two passes agree on no
bytes at all. -/
theorem uri_sizes_iff (src : List UInt8) (size : Nat) (type : Int)
    (hType : 0 ≤ type ∧ type < utilEscapeMax) (hSize : size ≤ src.length)
    (hLow : ∀ c, c ∈ src.take size → c < 0x80) : SizesAgree src size type ↔ size = 0 := by
  obtain ⟨hCount, hText⟩ := utilUriEscape_spec hType hSize hLow
  constructor
  · rintro ⟨n, out, hFirst, hSecond, hLength⟩
    rw [hCount, Option.some.injEq, Prod.mk.injEq] at hFirst
    rw [hText, Option.some.injEq, Prod.mk.injEq] at hSecond
    have hWritten := escaped_length (mapOf type) (src.take size)
    have hMod := Nat.mod_le ((src.take size).countP (marks (mapOf type))) (2 ^ 64)
    rw [hSecond.1, hLength, ← hFirst.2, List.length_take_of_le hSize] at hWritten
    omega
  · rintro rfl
    exact ⟨0, [], hCount, hText, rfl⟩

/-- No bytes at all, and a letter between two blanks. -/
theorem uri_sizes_nothing :
    SizesAgree [0x61] 0 utilEscapeUri ∧ ¬ SizesAgree [0x20, 0x61, 0x20] 3 utilEscapeUri :=
  ⟨(uri_sizes_iff [0x61] 0 utilEscapeUri (by decide) (by decide) (by simp)).mpr rfl,
    fun hSizes => absurd ((uri_sizes_iff [0x20, 0x61, 0x20] 3 utilEscapeUri (by decide) (by decide)
      (by simp)).mp hSizes) (by decide)⟩

/-- One letter is counted as nothing, and one byte is written. -/
theorem uri_sizes_letter : ¬ SizesAgree [0x61] 1 utilEscapeUri := by
  rintro ⟨n, out, hFirst, hSecond, -⟩
  have hZero : utilUriEscape false [0x61] 1 utilEscapeUri = some ([], 0) := by decide
  have hOne : utilUriEscape true [0x61] 1 utilEscapeUri = some ([0x61], 1) := by decide
  rw [hZero, Option.some.injEq, Prod.mk.injEq] at hFirst
  rw [hOne, Option.some.injEq, Prod.mk.injEq] at hSecond
  exact absurd (hFirst.2.trans hSecond.2.symm) (by decide)

/-! ## All bytes -/

/-- Both calls of `util_uri_escape` stay in their tables, and every marked byte is written as its
two digits. -/
def Escapes (src : List UInt8) (size : Nat) (type : Int) : Prop :=
  ∃ n m, utilUriEscape false src size type = some ([], n) ∧
    utilUriEscape true src size type = some (escaped (mapOf type) (src.take size), m)

/-- `util_hex_dump` stays in its table and writes the two digits of every byte. -/
def Dumps (src : List UInt8) (s : Nat) : Prop :=
  utilHexDump src s = some ((src.take s).flatMap (digits 0x41))

/-- The dump is right exactly on one byte below 0x80, or on the same byte again and again. -/
theorem dumps_iff (hSize : size ≤ src.length) :
    Dumps src size ↔ ∀ c, c ∈ src.take size → c < 0x80 ∧ src.head? = some c := by
  cases size with
  | zero => simp [Dumps, utilHexDump, dumpLoop]
  | succ size =>
      cases src with
      | nil => cases hSize
      | cons c src =>
          unfold Dumps utilHexDump
          by_cases hLow : c < 0x80
          · rw [dumpLoop_spec hLow, List.nil_append, Option.some.injEq]
            constructor
            · intro hSame x hx
              rw [← flatMap_digits_inj hSame, List.mem_replicate] at hx
              rw [hx.2]
              exact ⟨hLow, rfl⟩
            · intro hAll
              have hEq : List.take (size + 1) (c :: src) = List.replicate (size + 1) c := by
                rw [List.eq_replicate_iff]
                refine ⟨List.length_take_of_le hSize, ?_⟩
                intro x hx
                exact (Option.some.inj (hAll x hx).2).symm
              rw [hEq]
          · rw [dumpLoop_none hLow]
            refine iff_of_false (fun h => by cases h) ?_
            intro hAll
            exact hLow (hAll c List.mem_cons_self).1

/-- `util_uri_escape` does as it should exactly on bytes below 0x80, and `util_hex_dump` if all
bytes are the same besides: its loop writes the digits of the first byte again and again. -/
theorem escape_total_iff (src : List UInt8) (size : Nat) (type : Int)
    (hType : 0 ≤ type ∧ type < utilEscapeMax) (hSize : size ≤ src.length) :
    (Escapes src size type ↔ ∀ c, c ∈ src.take size → c < 0x80) ∧
      (Dumps src size ↔ ∀ c, c ∈ src.take size → c < 0x80 ∧ src.head? = some c) := by
  refine ⟨?_, dumps_iff hSize⟩
  by_cases hLow : ∀ c, c ∈ src.take size → c < 0x80
  · obtain ⟨hCount, hText⟩ := utilUriEscape_spec hType hSize hLow
    exact iff_of_true ⟨_, _, hCount, hText⟩ hLow
  · have hHigh : ∃ c, c ∈ src.take size ∧ ¬ c < 0x80 := by simpa using hLow
    have hNone := utilUriEscape_none hType hSize hHigh true
    refine iff_of_false ?_ hLow
    rintro ⟨n, m, -, hText⟩
    exact Option.some_ne_none _ (hText.symm.trans hNone)

/-- Both of them on two percent signs. -/
theorem escape_total_percent :
    Escapes [0x25, 0x25] 2 utilEscapeUri ∧ Dumps [0x25, 0x25] 2 := by
  have hBoth := escape_total_iff [0x25, 0x25] 2 utilEscapeUri (by decide) (by decide)
  exact ⟨hBoth.1.mpr (by simp), hBoth.2.mpr (by simp)⟩

/-- A byte of 0xff is looked up before the tables, and two bytes are dumped as the first one
twice. -/
theorem escape_not_total :
    ¬ Escapes [0xff] 1 utilEscapeUri ∧ ¬ Dumps [0xff] 1 ∧
      utilHexDump [0x1f, 0x7e] 2 = some (ascii "1F1F") ∧ ¬ Dumps [0x1f, 0x7e] 2 := by
  have hText : utilUriEscape true [0xff] 1 utilEscapeUri = none := by decide
  have hDump : utilHexDump [0xff] 1 = none := by decide
  have hTwice : utilHexDump [0x1f, 0x7e] 2 = some (ascii "1F1F") := by decide
  refine ⟨?_, ?_, hTwice, ?_⟩
  · rintro ⟨n, m, -, hSome⟩
    exact Option.some_ne_none _ (hSome.symm.trans hText)
  · intro hSome
    exact Option.some_ne_none _ (Eq.trans (Eq.symm hSome) hDump)
  · intro hSome
    have hSame := Option.some.inj (Eq.trans (Eq.symm hTwice) hSome)
    exact absurd hSame (by decide)

/-! ## Unescaping -/

theorem digit_range (hDigit : n < 16) :
    if n < 10 then
      (0x30 ≤ digit 0x61 n ∧ digit 0x61 n ≤ 0x39) ∧ digit 0x61 n - 0x30 = UInt8.ofNat n
    else
      ¬ (0x30 ≤ digit 0x61 n ∧ digit 0x61 n ≤ 0x39) ∧
        (0x61 ≤ digit 0x61 n ||| 0x20 ∧ digit 0x61 n ||| 0x20 ≤ 0x66) ∧
        (digit 0x61 n ||| 0x20) - 0x61 + 10 = UInt8.ofNat n := by
  interval_cases n <;> decide

/-- A byte from its two digits. -/
theorem byte_of_digits (c : UInt8) :
    if c.toNat % 16 < 10 then
      c ≠ 0x3f ∧ (UInt8.ofNat (c.toNat / 16) <<< 4) + digit 0x61 (c.toNat % 16) - 0x30 = c
    else
      (UInt8.ofNat (c.toNat / 16) <<< 4) + (digit 0x61 (c.toNat % 16) ||| 0x20) - 0x61 + 10 =
        c := by
  obtain ⟨c⟩ := c
  revert c
  decide +kernel

/-- The first digit of a byte is kept. -/
theorem quoted_digit (hDigit : n < 16) (decoded : UInt8) :
    unescapeLoop (digit 0x61 n :: src) (size + 1) .quoted decoded dst =
      unescapeLoop src size .quotedSecond (UInt8.ofNat n) dst := by
  have hRange := digit_range hDigit
  by_cases hTen : n < 10
  · rw [if_pos hTen] at hRange
    rw [unescapeLoop, if_pos hRange.1, hRange.2]
  · rw [if_neg hTen] at hRange
    obtain ⟨hNot, hLetter, hValue⟩ := hRange
    rw [unescapeLoop, if_neg hNot]
    simp only [if_pos hLetter, hValue]

/-- The digits of a byte give it back; behind a mark, the loop stops. -/
theorem quoted_digits (c decoded : UInt8) :
    unescapeLoop (digits 0x61 c ++ src) (size + 2) .quoted decoded dst =
      if c = 0x3f then some (dst ++ [c], src)
      else unescapeLoop src size .usual (UInt8.ofNat (c.toNat / 16)) (dst ++ [c]) := by
  have hByte := c.toNat_lt
  have hRange := @digit_range (c.toNat % 16) (by omega)
  have hValue := byte_of_digits c
  rw [digits, List.cons_append, List.cons_append, List.nil_append, quoted_digit (by omega),
    unescapeLoop]
  by_cases hTen : c.toNat % 16 < 10
  · rw [if_pos hTen] at hRange hValue
    rw [if_pos hRange.1, hValue.2, if_neg hValue.1]
  · rw [if_neg hTen] at hRange hValue
    rw [if_neg hRange.1]
    simp only [if_pos hRange.2.1, hValue]

/-- What comes before the first mark and the mark. -/
def kept : List UInt8 → List UInt8
  | [] => []
  | c :: text => if c = 0x3f then [c] else c :: kept text

theorem kept_append (text : List UInt8) : kept text ++ text.drop (kept text).length = text := by
  induction text with
  | nil => rfl
  | cons c text ih =>
      rw [kept]
      split
      · rfl
      · rw [List.length_cons, List.drop_succ_cons, List.cons_append, ih]

/-- A map that marks the mark and the percent is read back up to the first mark. -/
theorem unescapeLoop_escaped (hMark : marks escape 0x3f = true)
    (hPercent : marks escape 0x25 = true) (more : List UInt8) (decoded : UInt8) :
    unescapeLoop (escaped escape text ++ more) (escaped escape text).length .usual decoded dst =
      some (dst ++ kept text, escaped escape (text.drop (kept text).length) ++ more) := by
  induction text generalizing decoded dst with
  | nil =>
      rw [escaped, List.flatMap_nil, List.length_nil, unescapeLoop, kept, List.append_nil]
      rfl
  | cons c text ih =>
      have hCode : escaped escape (c :: text) = code escape c ++ escaped escape text :=
        List.flatMap_cons
      rw [hCode, List.length_append, code, kept]
      cases hThis : marks escape c with
      | true =>
          have hSize : (0x25 :: digits 0x61 c).length + (escaped escape text).length =
              (escaped escape text).length + 2 + 1 := Nat.add_comm _ _
          rw [if_pos rfl, hSize, List.cons_append, List.cons_append, unescapeLoop,
            if_neg (by decide), if_pos rfl, List.append_assoc, quoted_digits]
          by_cases hStop : c = 0x3f
          · rw [if_pos hStop, if_pos hStop]
            rfl
          · rw [if_neg hStop, if_neg hStop, ih, List.append_assoc]
            rfl
      | false =>
          have hNotMark : c ≠ 0x3f := fun hEq => by rw [hEq, hMark] at hThis; cases hThis
          have hNotPercent : c ≠ 0x25 := fun hEq => by rw [hEq, hPercent] at hThis; cases hThis
          rw [if_neg (by decide), List.length_singleton, Nat.add_comm, List.singleton_append,
            List.cons_append, unescapeLoop, if_neg hNotMark, if_neg hNotPercent, if_neg hNotMark,
            ih, List.append_assoc]
          rfl

/-- The three types that escape the mark. -/
theorem marks_mark (hType : 0 ≤ type ∧ type ≤ utilEscapeUriComponent) :
    marks (mapOf type) 0x3f = true ∧ marks (mapOf type) 0x25 = true := by
  obtain ⟨hZero, hMax⟩ := hType
  obtain ⟨n, rfl⟩ := Int.eq_ofNat_of_zero_le hZero
  have hTwo : n < 3 := by
    rw [utilEscapeUriComponent] at hMax
    omega
  interval_cases n <;> decide

/-- `util_uri_unescape` reads all that `util_uri_escape` writes and gives the bytes back. -/
def RoundTrip (src : List UInt8) (size : Nat) (type : Int) : Prop :=
  ∃ out n, utilUriEscape true src size type = some (out, n) ∧
    utilUriUnescape out out.length = some (src.take size, [])

/-- What `util_uri_escape` writes is read back up to the first mark: exactly the part of the output
that stands for these bytes is read, which is all of it if no byte is behind the mark. -/
theorem uri_round_trip (src : List UInt8) (size : Nat) (type : Int) (more : List UInt8)
    (hType : 0 ≤ type ∧ type ≤ utilEscapeUriComponent) (hSize : size ≤ src.length)
    (hLow : ∀ c, c ∈ src.take size → c < 0x80) :
    ∃ first rest n m, utilUriEscape true src size type = some (first ++ rest, n) ∧
      utilUriEscape true (kept (src.take size)) (kept (src.take size)).length type =
        some (first, m) ∧
      utilUriUnescape (first ++ rest ++ more) (first ++ rest).length =
        some (kept (src.take size), rest ++ more) ∧
      (rest = [] ↔ kept (src.take size) = src.take size) := by
  have hMax : 0 ≤ type ∧ type < utilEscapeMax :=
    ⟨hType.1, lt_of_le_of_lt hType.2 (by decide)⟩
  obtain ⟨hMark, hPercent⟩ := marks_mark hType
  obtain ⟨-, hText⟩ := utilUriEscape_spec hMax hSize hLow
  have hParts := kept_append (src.take size)
  have hKeptLow : ∀ c, c ∈ (kept (src.take size)).take (kept (src.take size)).length →
      c < 0x80 := by
    intro c hc
    rw [List.take_length] at hc
    apply hLow c
    rw [← hParts]
    exact List.mem_append_left _ hc
  obtain ⟨-, hFirst⟩ := utilUriEscape_spec hMax (Nat.le_refl _) hKeptLow
  have hOut := @unescapeLoop_escaped (mapOf type) (src.take size) [] hMark hPercent more 0
  generalize src.take size = text at *
  have hAll : escaped (mapOf type) text =
      escaped (mapOf type) (kept text) ++ escaped (mapOf type) (text.drop (kept text).length) := by
    rw [escaped, escaped, escaped, ← List.flatMap_append, hParts]
  rw [List.take_length] at hFirst
  rw [hAll] at hText hOut
  refine ⟨_, _, _, _, hText, hFirst, hOut, ?_⟩
  have hWritten := escaped_length (mapOf type) (text.drop (kept text).length)
  constructor
  · intro hNil
    rw [hNil, List.length_nil] at hWritten
    have hDrop : text.drop (kept text).length = [] := List.length_eq_zero_iff.mp (by omega)
    rwa [hDrop, List.append_nil] at hParts
  · intro hEq
    rw [hEq, List.drop_length]
    rfl

theorem uri_round_trip_query :
    ∃ first rest n m, utilUriEscape true [0x61, 0x3f, 0x62] 3 utilEscapeUri =
        some (first ++ rest, n) ∧
      utilUriEscape true (kept [0x61, 0x3f, 0x62]) 2 utilEscapeUri = some (first, m) ∧
      utilUriUnescape (first ++ rest ++ [0x63]) (first ++ rest).length =
        some (kept [0x61, 0x3f, 0x62], rest ++ [0x63]) ∧
      (rest = [] ↔ kept [0x61, 0x3f, 0x62] = [0x61, 0x3f, 0x62]) :=
  uri_round_trip [0x61, 0x3f, 0x62] 3 utilEscapeUri [0x63] (by decide) (by decide) (by simp)

/-- What is behind a mark is not read. -/
theorem uri_round_trip_stops : ¬ RoundTrip [0x3f, 0x61] 2 utilEscapeUri := by
  rintro ⟨out, n, hText, hBack⟩
  have hOut : utilUriEscape true [0x3f, 0x61] 2 utilEscapeUri =
      some ([0x25, 0x33, 0x66, 0x61], 4) := by decide
  have hStop : utilUriUnescape [0x25, 0x33, 0x66, 0x61] 4 = some ([0x3f], [0x61]) := by decide
  rw [hOut, Option.some.injEq, Prod.mk.injEq] at hText
  rw [← hText.1] at hBack
  exact absurd (hStop.symm.trans hBack) (by decide)

end

end Gbase.Util.UriEscape
