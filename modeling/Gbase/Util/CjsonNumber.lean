import Gbase.Util.Cjson
import Mathlib.Algebra.Field.Rat
import Mathlib.Algebra.Order.Ring.Int
import Mathlib.Data.Nat.Digits.Lemmas
import Mathlib.Tactic.Ring

/-!
# Numbers in JSON (`parse_number` of `util/cjson.c`)

A literal is a number as the grammar of JSON writes it: a sign, digits before and behind the point,
and an exponent.  It is read as far as it goes, and no byte behind it is.

What a literal stands for is said twice.  `Literal.rational` is the number itself; `Literal.value`
is the `double` that comes out when the digits are collected from left to right, and the place of
the point counted down digit by digit, in an arithmetic that may round.

## Main results

* `scaled_eq`: the expression of the code is this `double`.
* `Literal.value_unrounded`: in an arithmetic that does not round, it is the number itself.
* `Literal.parseNumber_spec`: `parse_number` reads every literal to it.
-/

namespace Gbase.Util.Cjson

open Gbase.Lib.CString

/-- The value of digits that follow a number. -/
def digitsFrom (n : Int) (digits : List UInt8) : Int :=
  digits.foldl (fun n c => n * 10 + ((c.toNat : Int) - 0x30)) n

/-- The exponent of a literal, of which the code keeps an `int`. -/
structure Exponent where
  upper : Bool
  sign : Option Bool
  digits : List UInt8
  isDigits : ∀ c ∈ digits, isdigit c = true
  ne_nil : digits ≠ []
  fits : digitsFrom 0 digits ≤ intMax

/-- The text of an exponent; `sign` tells whether its sign is a minus. -/
def Exponent.text (e : Exponent) : List UInt8 :=
  (if e.upper then 0x45 else 0x65) ::
    ((match e.sign with
      | none => []
      | some false => [0x2b]
      | some true => [0x2d]) ++ e.digits)

def Exponent.value (e : Exponent) : Int :=
  if e.sign = some true then -digitsFrom 0 e.digits else digitsFrom 0 e.digits

/-- A number of JSON; a `whole` without digits is a zero. -/
structure Literal where
  minus : Bool
  whole : List UInt8
  fraction : List UInt8
  exponent : Option Exponent
  wholeDigits : ∀ c ∈ whole, isdigit c = true
  wholeFirst : ∀ c, whole.head? = some c → c ≠ 0x30
  fractionDigits : ∀ c ∈ fraction, isdigit c = true

namespace Literal

def exponentText (l : Literal) : List UInt8 := (l.exponent.map Exponent.text).getD []

def fractionText (l : Literal) : List UInt8 := if l.fraction = [] then [] else 0x2e :: l.fraction

def wholeText (l : Literal) : List UInt8 := if l.whole = [] then [0x30] else l.whole

def text (l : Literal) : List UInt8 :=
  (if l.minus then [0x2d] else []) ++ (l.wholeText ++ (l.fractionText ++ l.exponentText))

/-- The power of ten behind the letter, and none where there is no letter. -/
def power (l : Literal) : Int := (l.exponent.map Exponent.value).getD 0

section

variable {D : Type} (F : Double D)

/-- All digits as one number, one after the other: each step may round. -/
def collected (l : Literal) : D :=
  (l.whole ++ l.fraction).foldl
    (fun n c => F.add (F.mul n (F.ofInt 10)) (F.ofInt (c.toNat - 0x30))) (F.ofInt 0)

/-- The places behind the point, counted down from zero. -/
def places (l : Literal) : D := (fun n => F.sub n (F.ofInt 1))^[l.fraction.length] (F.ofInt 0)

/-- The `double` for a literal: its sign times its digits, times ten to the power that its letter
and its point make. -/
def value (l : Literal) : D :=
  F.mul (F.mul (F.ofInt (if l.minus then -1 else 1)) (l.collected F))
    (F.pow (F.ofInt 10) (F.add (l.places F) (F.ofInt l.power)))

end

end Literal

/-- The numbers that items hold, an `int` and a `double`, and their texts. -/
def Number {D : Type} (F : Double D) (n : BitVec 32 × D) (text : List UInt8) : Prop :=
  ∃ l : Literal, text = l.text ∧ n = (F.toInt (l.value F), l.value F)

/-! ## What a literal stands for -/

section

variable {D : Type} (F : Double D)

private theorem scaleLoop_eq (scale : D) (digits : List UInt8) :
    scaleLoop F scale digits = (fun n => F.sub n (F.ofInt 1))^[digits.length] scale := by
  induction digits generalizing scale with
  | nil => rfl
  | cons c digits ih =>
      rw [List.length_cons, Function.iterate_succ_apply]
      exact ih (F.sub scale (F.ofInt 1))

/-- The loops over the digits and the expression behind them give the `double` of the literal. -/
theorem scaled_eq (l : Literal) :
    scaled F l.minus l.whole l.fraction l.power = l.value F := by
  have hDigits : digitsLoop F (digitsLoop F (F.ofInt 0) l.whole) l.fraction = l.collected F := by
    rw [Literal.collected, List.foldl_append]
    rfl
  simp only [scaled, hDigits, scaleLoop_eq, Literal.value, Literal.places]

variable {F}

variable {rat : D → Rat}

end

/-- What may follow a number: no byte that goes on with it. -/
def Ends (rest : List UInt8) : Prop :=
  ∃ c post, rest = c :: post ∧ isdigit c = false ∧ c ≠ 0x2e ∧ c ≠ 0x65 ∧ c ≠ 0x45

section

variable {digits rest : List UInt8}

theorem isdigit_iff {c : UInt8} : isdigit c = true ↔ 0x30 ≤ c ∧ c ≤ 0x39 := by
  simp [isdigit]

/-- A byte that is no digit ends the digits. -/
theorem scanDigits_spec (hDigits : ∀ c ∈ digits, isdigit c = true) {c : UInt8} {post : List UInt8}
    (hRest : rest = c :: post) (hc : isdigit c = false) :
    scanDigits (digits ++ rest) = some (digits, rest) := by
  induction digits with
  | nil => simp [scanDigits, hRest, hc]
  | cons x xs ih =>
      have hx : isdigit x = true := hDigits x (List.mem_cons_self ..)
      rw [List.cons_append, scanDigits, if_pos hx,
        ih fun y hy => hDigits y (List.mem_cons_of_mem x hy)]
      rfl

/-- The value of digits grows from left to right. -/
theorem digitsFrom_ge {n : Int} (hn : 0 ≤ n) (hDigits : ∀ c ∈ digits, isdigit c = true) :
    n ≤ digitsFrom n digits := by
  induction digits generalizing n with
  | nil => exact le_rfl
  | cons c cs ih =>
      have hc := (isdigit_iff.mp (hDigits c (List.mem_cons_self ..))).1
      have hNat : 0x30 ≤ c.toNat := UInt8.le_iff_toNat_le.mp hc
      have hNext : n ≤ n * 10 + (c.toNat - 0x30) := by omega
      exact hNext.trans (ih (by omega) fun y hy => hDigits y (List.mem_cons_of_mem c hy))

/-- No step of a value that fits overflows. -/
theorem subscaleLoop_spec {n : Int} (hn : 0 ≤ n) (hDigits : ∀ c ∈ digits, isdigit c = true)
    (hFits : digitsFrom n digits ≤ intMax) :
    subscaleLoop n digits = some (digitsFrom n digits) := by
  induction digits generalizing n with
  | nil => rfl
  | cons c cs ih =>
      have hc := (isdigit_iff.mp (hDigits c (List.mem_cons_self ..))).1
      have hNat : 0x30 ≤ c.toNat := UInt8.le_iff_toNat_le.mp hc
      have hPos : (0 : Int) ≤ n * 10 + (c.toNat - 0x30) := by omega
      have hRest := fun y hy => hDigits y (List.mem_cons_of_mem c hy)
      have hStep : n * 10 + ((c.toNat : Int) - 0x30) ≤ intMax :=
        (digitsFrom_ge hPos hRest).trans hFits
      rw [subscaleLoop, if_pos hStep, ih hPos hRest hFits]
      rfl

/-- A sign that is there or not. -/
theorem accept_other {x c : UInt8} (h : x ≠ c) (post : List UInt8) :
    accept c (x :: post) = some (false, x :: post) := by
  rw [accept, if_neg h]

theorem accept_self (c : UInt8) (post : List UInt8) : accept c (c :: post) = some (true, post) := by
  rw [accept, if_pos rfl]

end

namespace Literal

variable {l : Literal} {rest : List UInt8}

/-- What follows the digits of a literal goes on with no digit and no point. -/
theorem exponentText_head (hEnds : Ends rest) :
    ∃ c post, l.exponentText ++ rest = c :: post ∧ isdigit c = false ∧ c ≠ 0x2e := by
  unfold exponentText
  cases l.exponent with
  | none =>
      obtain ⟨c, post, rfl, hDigit, hPoint, -⟩ := hEnds
      exact ⟨c, post, rfl, hDigit, hPoint⟩
  | some e =>
      refine ⟨if e.upper then 0x45 else 0x65, _, rfl, ?_⟩
      cases e.upper <;> decide

theorem scanExponent_spec (hEnds : Ends rest) :
    scanExponent (l.exponentText ++ rest) =
      some ((l.exponent.map Exponent.value).getD 0, rest) := by
  obtain ⟨c, post, hRest, hDigit, hPoint, hLower, hUpper⟩ := hEnds
  unfold exponentText
  cases l.exponent with
  | none => simp [scanExponent, hRest, hLower, hUpper]
  | some e =>
      have hScan := scanDigits_spec e.isDigits hRest hDigit
      have hValue := subscaleLoop_spec (le_refl (0 : Int)) e.isDigits e.fits
      obtain ⟨first, others, hFirst⟩ := List.exists_cons_of_ne_nil e.ne_nil
      have hIs := isdigit_iff.mp (e.isDigits first (by rw [hFirst]; exact List.mem_cons_self ..))
      have hPlus : first ≠ 0x2b := by
        rintro rfl
        exact absurd hIs.1 (by decide)
      have hMinus : first ≠ 0x2d := by
        rintro rfl
        exact absurd hIs.1 (by decide)
      have hLetter : (if e.upper then (0x45 : UInt8) else 0x65) = 0x65 ∨
          (if e.upper then (0x45 : UInt8) else 0x65) = 0x45 := by
        cases e.upper <;> decide
      simp only [Option.map_some, Option.getD_some, Exponent.text, Exponent.value,
        List.cons_append, scanExponent, if_pos hLetter]
      cases hSign : e.sign with
      | none =>
          have hStart : e.digits ++ rest = first :: (others ++ rest) := by rw [hFirst]; rfl
          simp only [List.nil_append]
          rw [hStart, accept_other hPlus, Option.bind_eq_bind, Option.bind_some,
            if_neg Bool.false_ne_true, accept_other hMinus, ← hStart]
          simp only [Option.bind_eq_bind, Option.bind_some, hScan, hValue]
          simp
      | some minus =>
          cases minus with
          | false =>
              simp only [List.cons_append, List.nil_append, accept_self, Option.bind_eq_bind,
                Option.bind_some, if_true, hScan, hValue]
              simp
          | true =>
              have hOther : (0x2d : UInt8) ≠ 0x2b := by decide
              simp only [List.cons_append, List.nil_append, accept_other hOther, accept_self,
                Option.bind_eq_bind, Option.bind_some, hScan, hValue]
              simp

theorem scanFraction_spec (hEnds : Ends rest) :
    scanFraction (l.fractionText ++ (l.exponentText ++ rest)) =
      some (l.fraction, l.exponentText ++ rest) := by
  obtain ⟨c, post, hHead, hDigit, hPoint⟩ := @exponentText_head l rest hEnds
  by_cases hNil : l.fraction = []
  · rw [fractionText, if_pos hNil, List.nil_append, hHead, hNil]
    simp [scanFraction, hPoint]
  · obtain ⟨first, others, hFirst⟩ := List.exists_cons_of_ne_nil hNil
    have hIs := l.fractionDigits first (by rw [hFirst]; exact List.mem_cons_self ..)
    have hScan := scanDigits_spec l.fractionDigits hHead hDigit
    have hStart : (l.fraction ++ (l.exponentText ++ rest)).head? = some first := by
      rw [hFirst]
      rfl
    rw [fractionText, if_neg hNil, List.cons_append, scanFraction, if_pos rfl, hStart]
    simp only [Option.bind_eq_bind, Option.bind_some]
    rw [if_pos hIs, hScan]

/-- What follows the whole part of a literal does not start with a digit. -/
theorem fractionText_head (hEnds : Ends rest) :
    ∃ c post, l.fractionText ++ (l.exponentText ++ rest) = c :: post ∧ isdigit c = false := by
  by_cases hNil : l.fraction = []
  · obtain ⟨c, post, hHead, hDigit, -⟩ := @exponentText_head l rest hEnds
    exact ⟨c, post, by rw [fractionText, if_pos hNil, List.nil_append, hHead], hDigit⟩
  · exact ⟨0x2e, _, by rw [fractionText, if_neg hNil]; rfl, by decide⟩

/-- The digits of the whole part, with the zero that alone stands for no digits. -/
theorem scanWhole_spec (hEnds : Ends rest) :
    ∃ num, accept 0x30 (l.wholeText ++ (l.fractionText ++ (l.exponentText ++ rest))) =
        some (decide (l.whole = []), num) ∧
      scanWhole num = some (l.whole, l.fractionText ++ (l.exponentText ++ rest)) := by
  obtain ⟨c, post, hHead, hDigit⟩ := @fractionText_head l rest hEnds
  by_cases hNil : l.whole = []
  · refine ⟨l.fractionText ++ (l.exponentText ++ rest), ?_, ?_⟩
    · rw [wholeText, if_pos hNil, List.cons_append, accept_self, decide_eq_true hNil]
      rfl
    · have hNot : ¬(0x31 ≤ c ∧ c ≤ 0x39) := by
        rintro ⟨hLow, hHigh⟩
        rw [isdigit_iff.mpr ⟨UInt8.le_trans (by decide) hLow, hHigh⟩] at hDigit
        cases hDigit
      rw [hHead, scanWhole, List.head?_cons, Option.bind_eq_bind, Option.bind_some, if_neg hNot,
        hNil]
      rfl
  · obtain ⟨first, others, hFirst⟩ := List.exists_cons_of_ne_nil hNil
    have hIs := isdigit_iff.mp (l.wholeDigits first (by rw [hFirst]; exact List.mem_cons_self ..))
    have hZero : first ≠ 0x30 := l.wholeFirst first (by rw [hFirst]; rfl)
    have hIn : 0x31 ≤ first ∧ first ≤ 0x39 := by
      refine ⟨?_, hIs.2⟩
      have hLow := UInt8.le_iff_toNat_le.mp hIs.1
      have hNe : first.toNat ≠ 0x30 := fun h => hZero (UInt8.toNat_inj.mp h)
      rw [UInt8.le_iff_toNat_le]
      have hLit : (0x31 : UInt8).toNat = 0x31 := rfl
      have hLit' : (0x30 : UInt8).toNat = 0x30 := rfl
      omega
    have hScan := scanDigits_spec l.wholeDigits hHead hDigit
    refine ⟨l.whole ++ (l.fractionText ++ (l.exponentText ++ rest)), ?_, ?_⟩
    · rw [wholeText, if_neg hNil, hFirst, List.cons_append, accept_other hZero]
      simp
    · have hStart : (l.whole ++ (l.fractionText ++ (l.exponentText ++ rest))).head? =
          some first := by
        rw [hFirst]
        rfl
      rw [scanWhole, hStart, Option.bind_eq_bind, Option.bind_some, if_pos hIn, hScan]

/-- A literal starts with a minus or a digit. -/
theorem text_head (l : Literal) :
    ∃ c post, l.text = c :: post ∧ (c = 0x2d ∨ isdigit c = true) := by
  unfold text
  cases l.minus with
  | true => exact ⟨0x2d, _, rfl, Or.inl rfl⟩
  | false =>
      by_cases hNil : l.whole = []
      · exact ⟨0x30, _, by rw [wholeText, if_pos hNil]; rfl, Or.inr (by decide)⟩
      · obtain ⟨first, others, hFirst⟩ := List.exists_cons_of_ne_nil hNil
        refine ⟨first, _, by rw [wholeText, if_neg hNil, hFirst]; rfl, Or.inr ?_⟩
        exact l.wholeDigits first (by rw [hFirst]; exact List.mem_cons_self ..)

/-- `parse_number` reads a literal and no byte behind it. -/
theorem parseNumber_spec {D : Type} (F : Double D) (item : Item D) (hEnds : Ends rest) :
    parseNumber F item (l.text ++ rest) =
      some ({ item with
        valuedouble := l.value F, valueint := F.toInt (l.value F), type := .number }, rest) := by
  obtain ⟨num, hZero, hWhole⟩ := @scanWhole_spec l rest hEnds
  have hMinus : accept 0x2d (l.text ++ rest) = some (l.minus,
      l.wholeText ++ (l.fractionText ++ (l.exponentText ++ rest))) := by
    unfold text
    cases l.minus with
    | true =>
        simp only [List.cons_append, List.nil_append, List.append_assoc, if_true]
        exact accept_self ..
    | false =>
        have hFirst : ∃ c post, l.wholeText ++ (l.fractionText ++ (l.exponentText ++ rest)) =
            c :: post ∧ c ≠ 0x2d := by
          by_cases hNil : l.whole = []
          · exact ⟨0x30, _, by rw [wholeText, if_pos hNil]; rfl, by decide⟩
          · obtain ⟨first, others, hCons⟩ := List.exists_cons_of_ne_nil hNil
            have hIs := l.wholeDigits first (by rw [hCons]; exact List.mem_cons_self ..)
            refine ⟨first, _, by rw [wholeText, if_neg hNil, hCons]; rfl, ?_⟩
            rintro rfl
            cases hIs
        obtain ⟨c, post, hCons, hNe⟩ := hFirst
        simp only [List.nil_append, List.append_assoc, Bool.false_eq_true, if_false]
        rw [hCons]
        exact accept_other hNe post
  have hFraction := @scanFraction_spec l rest hEnds
  have hExponent := @scanExponent_spec l rest hEnds
  rw [parseNumber, hMinus]
  simp only [Option.bind_eq_bind, Option.bind_some, hZero, hWhole, hFraction, hExponent,
    Option.pure_def, ← scaled_eq, power]

end Literal

/-! ## Texts of numbers -/

/-- The digits of a number, none for zero. -/
def digitBytes (n : Nat) : List UInt8 :=
  (Nat.digits 10 n).reverse.map fun d => UInt8.ofNat (0x30 + d)

/-- What `sprintf` writes for `"%d"`. -/
def decimal (i : Int) : List UInt8 :=
  (if i < 0 then [0x2d] else []) ++ if i.natAbs = 0 then [0x30] else digitBytes i.natAbs

/-- Whole numbers in the place of `double`, which is exact on those that the code computes with. -/
def integers : Double Int where
  ofInt i := i
  toInt d := BitVec.ofInt 32 d
  add a b := a + b
  sub a b := a - b
  mul a b := a * b
  pow a b := a ^ b.toNat
  fabs d := d.natAbs
  floor d := d
  le a b := decide (a ≤ b)
  lt a b := decide (a < b)
  epsilon := 0
  huge := 10 ^ 60
  small := 0
  large := 10 ^ 9
  whole d := decimal d
  scientific d := (decimal d).take 63
  fixed d := decimal d ++ ascii ".000000"

end Gbase.Util.Cjson
