import Gbase.Lib.Run
import Gbase.Lib.Utf8
import Mathlib.Tactic.Ring

/-!
# Decoding UTF-8 (`util/encode.c`)

A pointer is an index into an array of bytes, and reading outside the array is undefined, `none`.
No pointer is `NULL`.  The code points stay below 2 ^ 31 (`utf8Unicode_lt`), so an `int` holds them
and no shift leaves it.

## Main results

* `utf8Unicode_spec`: what a call does at any byte.
* `utf8_unicode_inverts_encode`: the calls give back the code points that were encoded.
* `utf8_unicode_stays_iff`: the calls stay in the string exactly if no sequence is cut short.
-/

namespace Gbase.Util.Encode

open Gbase.Lib.Run
open Gbase.Lib.Utf8

/-- The loop of `_get_unicode`, with so many turns left. -/
def unicodeLoop (mem : List UInt8) (str : Nat) : Nat → Nat → Nat → Option Nat
  | 0, _, unicode => some unicode
  | turns + 1, i, unicode => do
      let c ← mem[str + i]?
      unicodeLoop mem str turns (i + 1) (unicode <<< 6 ||| (c.toNat &&& 0x3f))

/-- `_get_unicode`; the mask only keeps bits that a signed `char` has as well. -/
def getUnicode (mem : List UInt8) (str n : Nat) : Option Nat := do
  let c ← mem[str]?
  unicodeLoop mem str (n - 1) 1 (c.toNat &&& ((1 <<< (8 - n)) - 1))

/-- A case of `utf8_unicode`: a sequence of `n` bytes. -/
def sequence (mem : List UInt8) (utf8 n : Nat) : Option (Int × Option Nat × Nat) := do
  let unicode ← getUnicode mem utf8 n
  return (0, some unicode, utf8 + n)

/-- `utf8_unicode`: the result, what is stored in `*unicode` if anything is, and the pointer. -/
def utf8Unicode (mem : List UInt8) (utf8 : Nat) : Option (Int × Option Nat × Nat) := do
  let c ← mem[utf8]?
  if c = 0 then return (-1, none, utf8)
  else if c &&& 0x80 = 0 then sequence mem utf8 1
  else if c &&& 0xe0 = 0xc0 then sequence mem utf8 2
  else if c &&& 0xf0 = 0xe0 then sequence mem utf8 3
  else if c &&& 0xf8 = 0xf0 then sequence mem utf8 4
  else if c &&& 0xfc = 0xf8 then sequence mem utf8 5
  else if c &&& 0xfe = 0xfc then sequence mem utf8 6
  else return (-1, none, utf8)

/-- A call on the pointer that the last call left. -/
def utf8Step (mem : List UInt8) : Step Nat Unit (Int × Option Nat × Nat) :=
  fun utf8 _ => (utf8Unicode mem utf8).map fun r => (r, r.2.2)

/-! ## One call -/

section

variable {mem : List UInt8} {str utf8 n turns i unicode : Nat} {c : UInt8}

/-- What the masks tell about a byte. -/
theorem masks (c : UInt8) :
    (c &&& 0x80 = 0 ↔ c.toNat < 0x80) ∧
      (c &&& 0xe0 = 0xc0 ↔ 0xc0 ≤ c.toNat ∧ c.toNat < 0xe0) ∧
      (c &&& 0xf0 = 0xe0 ↔ 0xe0 ≤ c.toNat ∧ c.toNat < 0xf0) ∧
      (c &&& 0xf8 = 0xf0 ↔ 0xf0 ≤ c.toNat ∧ c.toNat < 0xf8) ∧
      (c &&& 0xfc = 0xf8 ↔ 0xf8 ≤ c.toNat ∧ c.toNat < 0xfc) ∧
      (c &&& 0xfe = 0xfc ↔ 0xfc ≤ c.toNat ∧ c.toNat < 0xfe) := by
  have hAll : ∀ k, k < 256 →
      ((UInt8.ofNat k &&& 0x80 = 0 ↔ k < 0x80) ∧
        (UInt8.ofNat k &&& 0xe0 = 0xc0 ↔ 0xc0 ≤ k ∧ k < 0xe0) ∧
        (UInt8.ofNat k &&& 0xf0 = 0xe0 ↔ 0xe0 ≤ k ∧ k < 0xf0) ∧
        (UInt8.ofNat k &&& 0xf8 = 0xf0 ↔ 0xf0 ≤ k ∧ k < 0xf8) ∧
        (UInt8.ofNat k &&& 0xfc = 0xf8 ↔ 0xf8 ≤ k ∧ k < 0xfc) ∧
        (UInt8.ofNat k &&& 0xfe = 0xfc ↔ 0xfc ≤ k ∧ k < 0xfe)) := by
    decide +kernel
  have hc := hAll c.toNat c.toNat_lt
  rwa [UInt8.ofNat_toNat] at hc

/-- A call reads the lead byte, which alone decides how far it goes. -/
theorem utf8Unicode_spec (hc : mem[utf8]? = some c) :
    utf8Unicode mem utf8 =
      if c = 0 ∨ units c = 0 then some (-1, none, utf8) else sequence mem utf8 (units c) := by
  obtain ⟨h1, h2, h3, h4, h5, h6⟩ := masks c
  simp only [utf8Unicode, hc, Option.bind_eq_bind, Option.bind_some, h1, h2, h3, h4, h5, h6]
  by_cases hZero : c = 0
  · rw [if_pos hZero, if_pos (Or.inl hZero)]
    rfl
  · rw [if_neg hZero]
    simp only [hZero, false_or]
    -- one kind of lead byte after the other; the other branches contradict its bounds
    rcases units_cases c with ⟨hUnits, hKind⟩ | ⟨hUnits, hKind⟩ | ⟨hUnits, hKind⟩ |
        ⟨hUnits, hKind⟩ | ⟨hUnits, hKind⟩ | ⟨hUnits, hKind⟩ | ⟨hUnits, hKind⟩
    all_goals
      rw [hUnits]
      generalize c.toNat = k at hKind ⊢
      split_ifs <;> first | rfl | (exfalso; omega)

/-- Each turn appends the low six bits of a byte. -/
theorem shift_or (unicode : Nat) (c : UInt8) :
    unicode <<< 6 ||| (c.toNat &&& 0x3f) = unicode * 64 + c.toNat % 64 := by
  have hLow : c.toNat &&& 0x3f = c.toNat % 2 ^ 6 := Nat.and_two_pow_sub_one_eq_mod _ 6
  rw [hLow, ← Nat.shiftLeft_add_eq_or_of_lt (Nat.mod_lt _ (by decide)), Nat.shiftLeft_eq]

private theorem unicodeLoop_isSome :
    (unicodeLoop mem str turns i unicode).isSome ↔ turns = 0 ∨ str + i + turns ≤ mem.length := by
  induction turns generalizing i unicode with
  | zero => simp [unicodeLoop]
  | succ turns ih =>
      cases hc : mem[str + i]? with
      | none =>
          rw [List.getElem?_eq_none_iff] at hc
          simp only [unicodeLoop, List.getElem?_eq_none hc, Option.bind_eq_bind, Option.bind_none]
          simp
          omega
      | some c =>
          obtain ⟨hLt, -⟩ := List.getElem?_eq_some_iff.mp hc
          simp only [unicodeLoop, hc, Option.bind_eq_bind, Option.bind_some, ih]
          omega

/-- The bytes of a sequence have to lie in memory. -/
theorem getUnicode_isSome (hn : 0 < n) :
    (getUnicode mem str n).isSome ↔ str + n ≤ mem.length := by
  cases hc : mem[str]? with
  | none =>
      rw [List.getElem?_eq_none_iff] at hc
      simp only [getUnicode, List.getElem?_eq_none hc, Option.bind_eq_bind, Option.bind_none]
      simp
      omega
  | some c =>
      obtain ⟨hLt, -⟩ := List.getElem?_eq_some_iff.mp hc
      simp only [getUnicode, hc, Option.bind_eq_bind, Option.bind_some, unicodeLoop_isSome]
      omega

/-- Each turn adds six bits. -/
theorem unicodeLoop_lt {k cp : Nat} (hLt : unicode < 2 ^ k)
    (hLoop : unicodeLoop mem str turns i unicode = some cp) : cp < 2 ^ (k + 6 * turns) := by
  induction turns generalizing i unicode k with
  | zero =>
      cases hLoop
      exact hLt
  | succ turns ih =>
      cases hc : mem[str + i]? with
      | none => simp [unicodeLoop, hc] at hLoop
      | some c =>
          simp only [unicodeLoop, hc, Option.bind_eq_bind, Option.bind_some, shift_or] at hLoop
          have hSix : unicode * 64 + c.toNat % 64 < 2 ^ (k + 6) := by
            rw [Nat.pow_add]
            omega
          have hCp := ih hSix hLoop
          rwa [show k + 6 + 6 * turns = k + 6 * (turns + 1) by omega] at hCp

/-- A lead byte leaves a number below 2 ^ 31. -/
theorem lead_lt (hUnits : units c ≠ 0) :
    ∃ k, c.toNat &&& ((1 <<< (8 - units c)) - 1) < 2 ^ k ∧ k + 6 * (units c - 1) ≤ 31 := by
  simp only [Nat.one_shiftLeft, Nat.and_two_pow_sub_one_eq_mod]
  rcases units_cases c with ⟨hKind, hc⟩ | ⟨hKind, hc⟩ | ⟨hKind, hc⟩ | ⟨hKind, hc⟩ | ⟨hKind, hc⟩ |
      ⟨hKind, hc⟩ | ⟨hKind, hc⟩
  · exact ⟨7, by rw [hKind]; omega, by omega⟩
  · exact ⟨5, by rw [hKind]; omega, by omega⟩
  · exact ⟨4, by rw [hKind]; omega, by omega⟩
  · exact ⟨3, by rw [hKind]; omega, by omega⟩
  · exact ⟨2, by rw [hKind]; omega, by omega⟩
  · exact ⟨1, by rw [hKind]; omega, by omega⟩
  · exact absurd hKind hUnits

/-- A call that gives a code point gives one that fits an `int`. -/
theorem utf8Unicode_lt {r : Int} {p cp : Nat}
    (hCall : utf8Unicode mem utf8 = some (r, some cp, p)) : cp < 2 ^ 31 := by
  cases hc : mem[utf8]? with
  | none => simp [utf8Unicode, hc] at hCall
  | some c =>
      rw [utf8Unicode_spec hc] at hCall
      by_cases hStop : c = 0 ∨ units c = 0
      · simp [if_pos hStop] at hCall
      · rw [if_neg hStop] at hCall
        simp only [sequence, getUnicode, hc, Option.bind_eq_bind, Option.bind_some,
          Option.bind_eq_some_iff] at hCall
        obtain ⟨u, hLoop, hEq⟩ := hCall
        cases hEq
        obtain ⟨k, hLead, hk⟩ := lead_lt fun hZero => hStop (Or.inr hZero)
        exact Nat.lt_of_lt_of_le (unicodeLoop_lt hLead hLoop) (Nat.pow_le_pow_right (by decide) hk)

end

/-! ## What was encoded -/

section

variable {pre rest : List UInt8} {cp : Nat}

/-- The loop on the bytes behind a lead byte. -/
theorem unicodeLoop_tail {str i n unicode : Nat} (hPre : pre.length = str + i) :
    unicodeLoop (pre ++ tail n cp ++ rest) str n i unicode =
      some (unicode * 64 ^ n + cp % 64 ^ n) := by
  induction n generalizing pre i unicode with
  | zero => simp [unicodeLoop, Nat.mod_one]
  | succ n ih =>
      have hSix : (UInt8.ofNat (0x80 + cp / 64 ^ n % 64)).toNat % 64 = cp / 64 ^ n % 64 := by
        rw [UInt8.toNat_ofNat']
        omega
      have hAt : (pre ++ tail (n + 1) cp ++ rest)[str + i]? =
          some (UInt8.ofNat (0x80 + cp / 64 ^ n % 64)) := by
        rw [List.append_assoc, ← hPre, List.getElem?_append_right le_rfl, Nat.sub_self]
        rfl
      have hRest := @ih (pre ++ [UInt8.ofNat (0x80 + cp / 64 ^ n % 64)]) (i + 1)
        (unicode * 64 + cp / 64 ^ n % 64) (by rw [List.length_append, hPre]; rfl)
      rw [unicodeLoop, hAt]
      simp only [Option.bind_eq_bind, Option.bind_some, shift_or, hSix]
      rw [tail, List.append_cons, hRest, Nat.mod_pow_succ, Nat.pow_succ]
      congr 1
      ring

/-- A call at an encoded code point gives it, and goes on behind it. -/
theorem utf8Unicode_encode (hPos : 0 < cp) (hcp : cp < 2 ^ 31) :
    utf8Unicode (pre ++ encode cp ++ rest) pre.length =
      some (0, some cp, pre.length + (encode cp).length) := by
  obtain ⟨n, lead, hEncode, hLead⟩ := encode_spec hcp
  have hAt : (pre ++ encode cp ++ rest)[pre.length]? = some lead := by
    rw [hEncode, List.append_assoc, List.getElem?_append_right le_rfl, Nat.sub_self]
    rfl
  have hLoop := @unicodeLoop_tail (pre ++ [lead]) rest cp pre.length 1 n
    (lead.toNat % 2 ^ (8 - (n + 1))) (by rw [List.length_append]; rfl)
  rw [← List.append_cons, ← hEncode, hLead.bits, Nat.div_add_mod'] at hLoop
  have hStop : ¬ (lead = 0 ∨ units lead = 0) := by
    rintro (hZero | hUnits)
    · exact hLead.pos hPos hZero
    · rw [hLead.units] at hUnits
      exact Nat.succ_ne_zero n hUnits
  rw [utf8Unicode_spec hAt, if_neg hStop, hLead.units, sequence, getUnicode, hAt]
  simp only [Option.bind_eq_bind, Option.bind_some, Nat.one_shiftLeft,
    Nat.and_two_pow_sub_one_eq_mod, Nat.add_sub_cancel, hLead.bits, hLoop]
  rw [hEncode, List.length_cons, length_tail]
  rfl

/-- What the calls give for some code points whose encodings start at an index, one call for each
and one more at the end. -/
def decoded : Nat → List Nat → List (Int × Option Nat × Nat)
  | utf8, [] => [(-1, none, utf8)]
  | utf8, cp :: cps =>
      (0, some cp, utf8 + (encode cp).length) :: decoded (utf8 + (encode cp).length) cps

private theorem run_encoded {cps : List Nat} (hCps : ∀ cp, cp ∈ cps → 1 ≤ cp ∧ cp ≤ 2 ^ 31 - 1) :
    run (utf8Step (pre ++ cps.flatMap encode ++ 0 :: rest)) pre.length
        (List.replicate (cps.length + 1) ()) =
      some (decoded pre.length cps, pre.length + (cps.flatMap encode).length) := by
  induction cps generalizing pre with
  | nil =>
      have hAt : (pre ++ 0 :: rest)[pre.length]? = some 0 := by
        rw [List.getElem?_append_right le_rfl, Nat.sub_self]
        rfl
      have hStep : utf8Step (pre ++ 0 :: rest) pre.length () =
          some ((-1, none, pre.length), pre.length) := by
        rw [utf8Step, utf8Unicode_spec hAt, if_pos (Or.inl rfl)]
        rfl
      simpa [decoded] using run_cons hStep (run_nil pre.length)
  | cons cp cps ih =>
      obtain ⟨hPos, hcp⟩ := hCps cp List.mem_cons_self
      have hCall := @utf8Unicode_encode pre (cps.flatMap encode ++ 0 :: rest) cp hPos (by omega)
      have hRest := @ih (pre ++ encode cp) fun cp h => hCps cp (List.mem_cons_of_mem _ h)
      rw [List.length_append, List.append_assoc, List.append_assoc] at hRest
      have hStep : utf8Step (pre ++ encode cp ++ (cps.flatMap encode ++ 0 :: rest)) pre.length () =
          some ((0, some cp, pre.length + (encode cp).length),
            pre.length + (encode cp).length) := by
        rw [utf8Step, hCall]
        rfl
      rw [List.append_assoc] at hStep
      rw [List.flatMap_cons, List.length_append, ← Nat.add_assoc, List.append_assoc,
        List.append_assoc, List.length_cons, List.replicate_succ]
      exact run_cons hStep hRest

end

/-- Decoding inverts encoding: on the encodings of any code points from 1 to 2 ^ 31 - 1 and a zero
behind them, the calls give the code points in order, each going on by the length of its encoding,
and then -1 with the pointer at the zero.  What lies behind the zero does not matter. -/
theorem utf8_unicode_inverts_encode {cps : List Nat}
    (hCps : ∀ cp, cp ∈ cps → 1 ≤ cp ∧ cp ≤ 2 ^ 31 - 1) (behind : List UInt8) :
    run (utf8Step (cps.flatMap encode ++ 0 :: behind)) 0 (List.replicate (cps.length + 1) ()) =
      some (decoded 0 cps, (cps.flatMap encode).length) := by
  have hRun := @run_encoded [] behind cps hCps
  rwa [List.length_nil, Nat.zero_add, List.nil_append] at hRun

/-- The calls on the encodings of three code points, of one, three and six bytes. -/
theorem utf8_unicode_inverts_encode_three :
    run (utf8Step ([0x41, 0x8fd9, 0x7fffffff].flatMap encode ++ 0 :: [])) 0
        (List.replicate ([0x41, 0x8fd9, 0x7fffffff].length + 1) ()) =
      some ([(0, some 0x41, 1), (0, some 0x8fd9, 4), (0, some 0x7fffffff, 10), (-1, none, 10)],
        10) :=
  utf8_unicode_inverts_encode (by decide) []

/-! ## Staying in the string -/

/-- The pointers that calls leave, from the start of a string on, as long as they return 0. -/
inductive Reached (mem : List UInt8) : Nat → Prop where
  | start : Reached mem 0
  | call {p q : Nat} {unicode : Option Nat} (hBefore : Reached mem p)
      (hCall : utf8Unicode mem p = some (0, unicode, q)) : Reached mem q

/-- On an array that ends with the zero of the string: no call reads outside the array, and no call
moves the pointer behind the zero. -/
def Stays (s : List UInt8) : Prop :=
  ∀ p, Reached (s ++ [0]) p → p ≤ s.length ∧ (utf8Unicode (s ++ [0]) p).isSome

/-- No sequence is cut short by the end of the string, up to the first byte that leads none, when
so many bytes at its start still belong to the sequence before. -/
def whole : Nat → List UInt8 → Bool
  | 0, [] => true
  | _ + 1, [] => false
  | 0, c :: s =>
      match units c with
      | 0 => true
      | n + 1 => whole n s
  | skip + 1, _ :: s => whole skip s

section

variable {s : List UInt8} {p : Nat} {c : UInt8}

private theorem whole_iff (skip : Nat) (s : List UInt8) :
    whole skip s = true ↔ skip ≤ s.length ∧ whole 0 (s.drop skip) = true := by
  induction s generalizing skip with
  | nil => cases skip <;> simp [whole]
  | cons c s ih =>
      cases skip with
      | zero => simp
      | succ skip => simp [whole, ih skip]

/-- The sequence at the start of a string lies in it, and so do those behind. -/
theorem whole_cons (hUnits : units c ≠ 0) :
    whole 0 (c :: s) = true ↔
      units c ≤ (c :: s).length ∧ whole 0 ((c :: s).drop (units c)) = true := by
  obtain ⟨n, hn⟩ := Nat.exists_eq_succ_of_ne_zero hUnits
  rw [whole, hn]
  simp only [whole_iff n s, List.length_cons, List.drop_succ_cons, Nat.succ_le_succ_iff]

/-- What stands at an index of a string with its zero. -/
theorem at_end (hp : p ≤ s.length) :
    (s.drop p = [] ∧ p = s.length ∧ (s ++ [0])[p]? = some 0) ∨
      ∃ c, c ∈ s ∧ s.drop p = c :: s.drop (p + 1) ∧ p < s.length ∧
        (s ++ [0])[p]? = some c := by
  by_cases hLt : p < s.length
  · refine Or.inr ⟨s[p], List.getElem_mem hLt, List.drop_eq_getElem_cons hLt, hLt, ?_⟩
    rw [List.getElem?_append_left hLt, List.getElem?_eq_getElem hLt]
  · have hEq : p = s.length := by omega
    refine Or.inl ⟨List.drop_of_length_le (by omega), hEq, ?_⟩
    rw [List.getElem?_append_right (by omega), hEq, Nat.sub_self]
    rfl

/-- A call at a lead byte reads the sequence that the byte announces and goes on behind it. -/
theorem utf8Unicode_lead {mem : List UInt8} (hAt : mem[p]? = some c) (hZero : c ≠ 0)
    (hUnits : units c ≠ 0) :
    utf8Unicode mem p =
      (getUnicode mem p (units c)).map fun unicode => (0, some unicode, p + units c) := by
  rw [utf8Unicode_spec hAt, if_neg (by simp [hZero, hUnits]), sequence]
  cases getUnicode mem p (units c) <;> rfl

/-- From a whole rest of the string, a call is defined and leaves a whole rest. -/
theorem whole_call (hText : ∀ x, x ∈ s → x ≠ 0) (hp : p ≤ s.length)
    (hWhole : whole 0 (s.drop p) = true) :
    (utf8Unicode (s ++ [0]) p).isSome ∧
      ∀ unicode q, utf8Unicode (s ++ [0]) p = some (0, unicode, q) →
        q ≤ s.length ∧ whole 0 (s.drop q) = true := by
  rcases at_end hp with ⟨-, -, hAt⟩ | ⟨c, hIn, hDrop, hLt, hAt⟩
  · rw [utf8Unicode_spec hAt, if_pos (Or.inl rfl)]
    exact ⟨rfl, fun _ _ hCall => by cases hCall⟩
  · by_cases hUnits : units c = 0
    · rw [utf8Unicode_spec hAt, if_pos (Or.inr hUnits)]
      exact ⟨rfl, fun _ _ hCall => by cases hCall⟩
    · rw [hDrop, whole_cons hUnits, ← hDrop, List.length_drop, List.drop_drop] at hWhole
      obtain ⟨hLe, hRest⟩ := hWhole
      rw [utf8Unicode_lead hAt (hText c hIn) hUnits]
      constructor
      · rw [Option.isSome_map, getUnicode_isSome (by omega), List.length_append]
        omega
      · intro unicode q hCall
        obtain ⟨u, -, hEq⟩ := Option.map_eq_some_iff.mp hCall
        cases hEq
        exact ⟨by omega, hRest⟩

/-- Where the calls stay in the string, the rest behind each pointer is whole. -/
theorem whole_of_stays (hText : ∀ x, x ∈ s → x ≠ 0) (hStays : Stays s) {n : Nat}
    (hLen : s.length ≤ p + n) (hReached : Reached (s ++ [0]) p) :
    whole 0 (s.drop p) = true := by
  induction n generalizing p with
  | zero =>
      rw [List.drop_of_length_le (by omega)]
      rfl
  | succ n ih =>
      obtain ⟨hp, hSome⟩ := hStays p hReached
      rcases at_end hp with ⟨hNil, -, -⟩ | ⟨c, hIn, hDrop, -, hAt⟩
      · rw [hNil]
        rfl
      · by_cases hUnits : units c = 0
        · rw [hDrop, whole, hUnits]
        · have hCall := utf8Unicode_lead hAt (hText c hIn) hUnits
          rw [hCall, Option.isSome_map, Option.isSome_iff_exists] at hSome
          obtain ⟨u, hu⟩ := hSome
          rw [hu] at hCall
          have hNext := Reached.call hReached hCall
          have hLe := (hStays _ hNext).1
          rw [hDrop, whole_cons hUnits, ← hDrop, List.length_drop, List.drop_drop]
          exact ⟨by omega, ih (by omega) hNext⟩

/-- The calls stay in a string exactly if no sequence that they come to is cut short by its end. -/
theorem utf8_unicode_stays_iff (hText : ∀ x, x ∈ s → x ≠ 0) : Stays s ↔ whole 0 s = true := by
  constructor
  · intro hStays
    exact whole_of_stays hText hStays (Nat.le_add_left s.length 0) Reached.start
  · intro hWhole p hReached
    have hInv : p ≤ s.length ∧ whole 0 (s.drop p) = true := by
      induction hReached with
      | start => exact ⟨Nat.zero_le _, hWhole⟩
      | call hBefore hCall ih => exact (whole_call hText ih.1 ih.2).2 _ _ hCall
    exact ⟨hInv.1, (whole_call hText hInv.1 hInv.2).1⟩

end

/-- One character of three bytes. -/
theorem utf8_unicode_stays_whole : Stays [0xe8, 0xbf, 0x99] :=
  (utf8_unicode_stays_iff (by simp)).mpr rfl

/-- Of its first byte alone, the call reads the zero and the byte behind it. -/
theorem utf8_unicode_leaves :
    (∀ x, x ∈ ([0xe8] : List UInt8) → x ≠ 0) ∧ ¬ Stays [0xe8] := by
  refine ⟨by simp, ?_⟩
  intro hStays
  have hSome := (hStays 0 Reached.start).2
  exact absurd hSome (by decide)

end Gbase.Util.Encode
