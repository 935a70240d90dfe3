import Gbase.Util.CjsonParse

/-!
# Parsing any text (`util/cjson.c`)

What the parser does on a text that may be no JSON at all: it ends, and where it ends or fails is in
the text.  Two slips of the source limit this, and `Sound` says where they do no harm.

* Both loops of `parse_string` step over the byte behind a backslash without looking at it, and over
  four bytes behind `\u`, so that an escape that is cut off leads one of them past the quote or past
  the zero.  `Whole` is asked of every string that a quote in the text starts.
* `parse_number` adds up an exponent in an `int`, so that too many digits of it overflow.

The bytes behind `\u` need not be digits: `parse_hex4` then gives zero, and nothing is written.

## Main results

* `Reads.bind`: calls one behind the other.
* `Copies.turn`, `loops_read`: the loop that counts the bytes of a string and the loop that writes
  them go through it in step.
* `parse_reads`: what each call of the parser leaves to read.
* `json_parse_safe`: every call of `cJSON_ParseWithOpts` returns.
-/

namespace Gbase.Util.Cjson

open Gbase.Lib.CString
open Gbase.Lib.Json

/-- What follows the sign of an exponent. -/
def unsigned : List UInt8 → List UInt8
  | [] => []
  | c :: num => if c = 0x2b ∨ c = 0x2d then num else c :: num

/-- A byte that neither ends a string nor starts an escape in it. -/
def Unquoted (c : UInt8) : Prop := c ≠ 0x22 ∧ c ≠ 0x5c

/-- No escape is cut off in the string that starts here, which its first quote ends, or the end of
the text. -/
inductive Whole : List UInt8 → Prop where
  | nil : Whole []
  | quote {text : List UInt8} : Whole (0x22 :: text)
  | plain {c : UInt8} {text : List UInt8} : Unquoted c → Whole text → Whole (c :: text)
  | letter {c : UInt8} {text : List UInt8} : c ≠ 0x75 → Whole text → Whole (0x5c :: c :: text)
  /-- The four bytes that are skipped behind `\u`, digits or not. -/
  | unit {a b c d : UInt8} {text : List UInt8} : (∀ x ∈ [a, b, c, d], Unquoted x) → Whole text →
      Whole (0x5c :: 0x75 :: a :: b :: c :: d :: text)

/-- A text without a zero, where no escape is cut off in a string, and what stands behind a digit or
a minus and the letter `e` is no number too large for an `int`. -/
structure Sound (text : List UInt8) : Prop where
  noZero : ∀ c ∈ text, c ≠ 0
  strings : ∀ post, 0x22 :: post <:+ text → Whole post
  exponent : ∀ d c post, d :: c :: post <:+ text → d = 0x2d ∨ isdigit d = true →
    c = 0x65 ∨ c = 0x45 → digitsFrom 0 ((unsigned post).takeWhile isdigit) ≤ intMax

/-- What is left of such a text is one. -/
theorem Sound.suffix {text t : List UInt8} (h : Sound text) (hSuffix : t <:+ text) : Sound t where
  noZero c hc := h.noZero c (hSuffix.subset hc)
  strings post hPost := h.strings post (hPost.trans hSuffix)
  exponent d c post hPost hd hc := h.exponent d c post (hPost.trans hSuffix) hd hc

/-- A call returns behind at least `k` bytes, or fails at some byte, of what there was to read. -/
def Reads {α : Type} (text post : List UInt8) (k : Nat) : Outcome (α × List UInt8) → Prop
  | .done (_, rest) => ∃ t, rest = t ++ 0 :: post ∧ t <:+ text ∧ t.length + k ≤ text.length
  | .failed ep => ∃ t, ep = t ++ 0 :: post ∧ t <:+ text
  | .undefined => False

section

variable {α β : Type} {text post : List UInt8} {k : Nat}

theorem Reads.mono {x : Outcome (α × List UInt8)} {k' : Nat} (h : Reads text post k x)
    (hk : k' ≤ k) : Reads text post k' x := by
  match x, h with
  | .done (_, _), ⟨t, hRest, hSuffix, hLength⟩ => exact ⟨t, hRest, hSuffix, by omega⟩
  | .failed _, h => exact h

/-- What follows a call reads what the call leaves. -/
theorem Reads.bind {x : Outcome (α × List UInt8)} {f : α × List UInt8 → Outcome (β × List UInt8)}
    {j : Nat} (h : Reads text post k x)
    (hf : ∀ a t, t <:+ text → t.length + k ≤ text.length →
      Reads t post j (f (a, t ++ 0 :: post))) : Reads text post (k + j) (x >>= f) := by
  match x, h with
  | .done (a, _), ⟨t, rfl, hSuffix, hLength⟩ =>
      have hNext := hf a t hSuffix hLength
      rw [Outcome.done_bind]
      match f (a, t ++ 0 :: post), hNext with
      | .done (_, _), ⟨t', hRest, hSuffix', hLength'⟩ =>
          exact ⟨t', hRest, hSuffix'.trans hSuffix, by omega⟩
      | .failed _, ⟨t', hEp, hSuffix'⟩ => exact ⟨t', hEp, hSuffix'.trans hSuffix⟩
  | .failed _, h => exact h

/-- A call on what is left reads the text. -/
theorem Reads.of_suffix {x : Outcome (α × List UInt8)} {t : List UInt8} (hSuffix : t <:+ text)
    {d : Nat} (hLength : t.length + d ≤ text.length) (h : Reads t post k x) :
    Reads text post (k + d) x := by
  match x, h with
  | .done (_, _), ⟨t', hRest, hSuffix', hLength'⟩ =>
      exact ⟨t', hRest, hSuffix'.trans hSuffix, by omega⟩
  | .failed _, ⟨t', hEp, hSuffix'⟩ => exact ⟨t', hEp, hSuffix'.trans hSuffix⟩

end

/-! ## Blanks and numbers -/

section

variable {text post : List UInt8} {c : UInt8}

/-- The zero stops `skip`. -/
theorem skip_reads (text post : List UInt8) :
    ∃ t, skip (text ++ 0 :: post) = some (t ++ 0 :: post) ∧ t <:+ text := by
  induction text with
  | nil => exact ⟨[], skip_solid fun h => h.1 rfl, List.suffix_refl []⟩
  | cons c text ih =>
      obtain ⟨t, hSkip, hSuffix⟩ := ih
      by_cases hc : Blank c
      · refine ⟨t, ?_, hSuffix.trans (List.suffix_cons c text)⟩
        rw [List.cons_append, skip, if_pos (show c ≠ 0 ∧ c ≤ 32 from hc), hSkip]
      · exact ⟨c :: text, skip_solid hc, List.suffix_refl _⟩

/-- So it does the loop over digits. -/
theorem scanDigits_reads (text post : List UInt8) :
    ∃ t, scanDigits (text ++ 0 :: post) = some (text.takeWhile isdigit, t ++ 0 :: post) ∧
      t <:+ text ∧ text = text.takeWhile isdigit ++ t := by
  refine ⟨text.dropWhile isdigit, ?_, List.dropWhile_suffix _,
    List.takeWhile_append_dropWhile.symm⟩
  have hSplit : text ++ 0 :: post =
      text.takeWhile isdigit ++ (text.dropWhile isdigit ++ 0 :: post) := by
    rw [← List.append_assoc, List.takeWhile_append_dropWhile]
  have hAll : ∀ c ∈ text.takeWhile isdigit, isdigit c = true := fun c hc =>
    List.mem_takeWhile_imp hc
  rw [hSplit]
  cases hDrop : text.dropWhile isdigit with
  | nil => exact scanDigits_spec hAll rfl (by decide)
  | cons c more =>
      refine scanDigits_spec hAll rfl ?_
      have hHead := List.head?_dropWhile_not isdigit text
      rw [hDrop] at hHead
      simpa using hHead

/-- A byte that is accepted or not. -/
theorem accept_reads (hc : c ≠ 0) (text post : List UInt8) :
    ∃ b t, accept c (text ++ 0 :: post) = some (b, t ++ 0 :: post) ∧ t <:+ text ∧
      (b = true → text = c :: t) ∧ (b = false → t = text ∧ text.head? ≠ some c) := by
  cases text with
  | nil =>
      refine ⟨false, [], accept_other (Ne.symm hc) post, List.suffix_refl [], ?_, ?_⟩
      · intro h
        cases h
      · exact fun _ => ⟨rfl, fun h => by cases h⟩
  | cons x text =>
      by_cases hx : x = c
      · subst hx
        refine ⟨true, text, accept_self .., List.suffix_cons x text, fun _ => rfl, ?_⟩
        intro h
        cases h
      · refine ⟨false, x :: text, accept_other hx _, List.suffix_refl _, ?_, ?_⟩
        · intro h
          cases h
        · exact fun _ => ⟨rfl, fun h => hx (Option.some.inj h)⟩

/-- What is left of a text right behind a minus or a digit in it. -/
def Led (text t : List UInt8) : Prop := ∃ d, (d = 0x2d ∨ isdigit d = true) ∧ d :: t <:+ text

theorem Led.of_suffix {t t' : List UInt8} (h : Led t t') (hSuffix : t <:+ text) : Led text t' := by
  obtain ⟨d, hd, hFirst⟩ := h
  exact ⟨d, hd, hFirst.trans hSuffix⟩

theorem Led.suffix {t : List UInt8} (h : Led text t) : t <:+ text := by
  obtain ⟨d, -, hFirst⟩ := h
  exact (List.suffix_cons d t).trans hFirst

theorem Led.length_lt {t : List UInt8} (h : Led text t) : t.length < text.length := by
  obtain ⟨d, -, hFirst⟩ := h
  exact hFirst.length_le

/-- The digits of a number lead to what is behind them. -/
theorem led_digits {digits : List UInt8} (hDigits : ∀ c ∈ digits, isdigit c = true)
    (hNil : digits ≠ []) (t : List UInt8) : Led (digits ++ t) t := by
  refine ⟨digits.getLast hNil, Or.inr (hDigits _ (List.getLast_mem hNil)), digits.dropLast, ?_⟩
  rw [← List.singleton_append, ← List.append_assoc, List.dropLast_append_getLast hNil]

/-- A text that starts with a digit, behind its digits. -/
theorem led_takeWhile {x : UInt8} {more t : List UInt8} (hx : isdigit x = true)
    (hSplit : x :: more = (x :: more).takeWhile isdigit ++ t) : Led (x :: more) t := by
  have hNil : (x :: more).takeWhile isdigit ≠ [] := by
    rw [List.takeWhile_cons_of_pos hx]
    exact List.cons_ne_nil _ _
  have hLed := led_digits (fun c hc => List.mem_takeWhile_imp hc) hNil t
  rwa [← hSplit] at hLed

/-- The digits before the point are read where a first one is there. -/
theorem scanWhole_reads (text post : List UInt8) :
    ∃ digits t, scanWhole (text ++ 0 :: post) = some (digits, t ++ 0 :: post) ∧
      (t = text ∨ Led text t) ∧
      ∀ x more, text = x :: more → 0x31 ≤ x ∧ x ≤ 0x39 → Led text t := by
  cases text with
  | nil =>
      refine ⟨[], [], rfl, Or.inl rfl, ?_⟩
      rintro x more ⟨⟩
  | cons x more =>
      by_cases hx : 0x31 ≤ x ∧ x ≤ 0x39
      · obtain ⟨t, hScan, -, hSplit⟩ := scanDigits_reads (x :: more) post
        have hDigit : isdigit x = true := isdigit_iff.mpr ⟨UInt8.le_trans (by decide) hx.1, hx.2⟩
        have hLed := led_takeWhile hDigit hSplit
        refine ⟨(x :: more).takeWhile isdigit, t, ?_, Or.inr hLed, fun _ _ _ _ => hLed⟩
        rw [scanWhole, List.cons_append, List.head?_cons, Option.bind_eq_bind, Option.bind_some,
          if_pos hx, ← List.cons_append, hScan]
      · refine ⟨[], x :: more, ?_, Or.inl rfl, ?_⟩
        · rw [scanWhole, List.cons_append, List.head?_cons, Option.bind_eq_bind, Option.bind_some,
            if_neg hx]
          rfl
        · rintro _ _ ⟨⟩ hIn
          exact absurd hIn hx

private theorem scanFraction_reads (text post : List UInt8) :
    ∃ digits t, scanFraction (text ++ 0 :: post) = some (digits, t ++ 0 :: post) ∧
      (t = text ∨ Led text t) := by
  cases text with
  | nil => exact ⟨[], [], rfl, Or.inl rfl⟩
  | cons x more =>
      by_cases hPoint : x = 0x2e
      · obtain ⟨first, others, hFirst, hMore⟩ : ∃ first others,
            more ++ 0 :: post = first :: others ∧
              (isdigit first = true → ∃ others, more = first :: others) := by
          cases more with
          | nil => exact ⟨0, post, rfl, fun h => absurd h (by decide)⟩
          | cons y more => exact ⟨y, _, rfl, fun _ => ⟨more, rfl⟩⟩
        by_cases hDigit : isdigit first = true
        · obtain ⟨t, hScan, -, hSplit⟩ := scanDigits_reads more post
          obtain ⟨others', rfl⟩ := hMore hDigit
          refine ⟨(first :: others').takeWhile isdigit, t, ?_,
            Or.inr ((led_takeWhile hDigit hSplit).of_suffix (List.suffix_cons x _))⟩
          rw [List.cons_append, scanFraction, if_pos hPoint, hFirst, List.head?_cons,
            Option.bind_eq_bind, Option.bind_some, if_pos hDigit, ← hFirst, hScan]
        · refine ⟨[], x :: more, ?_, Or.inl rfl⟩
          rw [List.cons_append, scanFraction, if_pos hPoint, hFirst, List.head?_cons,
            Option.bind_eq_bind, Option.bind_some, if_neg hDigit]
          rfl
      · refine ⟨[], x :: more, ?_, Or.inl rfl⟩
        rw [List.cons_append, scanFraction, if_neg hPoint]

private theorem scanExponent_reads (post : List UInt8)
    (hExponent : ∀ c more, text = c :: more → c = 0x65 ∨ c = 0x45 →
      digitsFrom 0 ((unsigned more).takeWhile isdigit) ≤ intMax) :
    ∃ e t, scanExponent (text ++ 0 :: post) = some (e, t ++ 0 :: post) ∧ t <:+ text := by
  cases text with
  | nil => exact ⟨0, [], rfl, List.suffix_refl []⟩
  | cons x more =>
      by_cases hLetter : x = 0x65 ∨ x = 0x45
      · have hFits := hExponent x more rfl hLetter
        obtain ⟨plus, t1, hPlus, hSuffix1, hYes1, hNo1⟩ :=
          @accept_reads 0x2b (by decide) more post
        obtain ⟨minus, t2, hMinus, hSuffix2, hUnsigned⟩ : ∃ minus t2,
            (if plus then some (false, t1 ++ 0 :: post) else accept 0x2d (t1 ++ 0 :: post)) =
              some (minus, t2 ++ 0 :: post) ∧ t2 <:+ t1 ∧ t2 = unsigned more := by
          cases plus with
          | true =>
              rw [hYes1 rfl]
              exact ⟨false, t1, rfl, List.suffix_refl t1, rfl⟩
          | false =>
              obtain ⟨rfl, hHead1⟩ := hNo1 rfl
              obtain ⟨minus, t2, hMinus, hSuffix2, hYes2, hNo2⟩ :=
                @accept_reads 0x2d (by decide) t1 post
              refine ⟨minus, t2, hMinus, hSuffix2, ?_⟩
              cases minus with
              | true =>
                  rw [hYes2 rfl]
                  rfl
              | false =>
                  obtain ⟨rfl, hHead2⟩ := hNo2 rfl
                  cases t2 with
                  | nil => rfl
                  | cons y t2 =>
                      rw [List.head?_cons] at hHead1 hHead2
                      rw [unsigned, if_neg]
                      rintro (rfl | rfl)
                      · exact hHead1 rfl
                      · exact hHead2 rfl
        obtain ⟨t3, hScan, hSuffix3, -⟩ := scanDigits_reads t2 post
        rw [← hUnsigned] at hFits
        have hValue := subscaleLoop_spec (le_refl (0 : Int))
          (fun c hc => List.mem_takeWhile_imp (p := isdigit) hc) hFits
        refine ⟨if minus then -digitsFrom 0 (t2.takeWhile isdigit)
          else digitsFrom 0 (t2.takeWhile isdigit), t3, ?_,
          (hSuffix3.trans (hSuffix2.trans hSuffix1)).trans (List.suffix_cons x more)⟩
        rw [List.cons_append, scanExponent, if_pos hLetter]
        simp only [Option.bind_eq_bind, hPlus, Option.bind_some]
        cases plus with
        | true =>
            obtain ⟨rfl, hSame⟩ := Prod.mk.inj (Option.some.inj hMinus)
            rw [← hSame] at hScan
            simp [hScan, hValue]
        | false =>
            simp only [Bool.false_eq_true, if_false] at hMinus ⊢
            simp [hMinus, hScan, hValue]
      · refine ⟨0, x :: more, ?_, List.suffix_refl _⟩
        rw [List.cons_append, scanExponent, if_neg hLetter]

/-- `parse_number` reads at least the byte that it starts at. -/
theorem parseNumber_reads {D : Type} (F : Double D) (item : Item D) {more : List UInt8}
    (hSound : Sound (c :: more)) (hc : c = 0x2d ∨ isdigit c = true) (post : List UInt8) :
    Reads (c :: more) post 1 (liftM (parseNumber F item (c :: more ++ 0 :: post))) := by
  obtain ⟨minus, t1, hMinus, hSuffix1, hYes1, hNo1⟩ :=
    @accept_reads 0x2d (by decide) (c :: more) post
  obtain ⟨zero, t2, hZero, hSuffix2, hYes2, hNo2⟩ := @accept_reads 0x30 (by decide) t1 post
  obtain ⟨whole, t3, hWhole, hLeft3, hFirst⟩ := scanWhole_reads t2 post
  obtain ⟨fraction, t4, hFraction, hLeft4⟩ := scanFraction_reads t3 post
  -- a minus, a zero or another first digit was read, and nothing but digits and a point since
  have hLed3 : Led (c :: more) t3 := by
    have hBehind : Led (c :: more) t2 → Led (c :: more) t3 := by
      intro hLed
      rcases hLeft3 with rfl | hLed3
      · exact hLed
      · exact hLed3.of_suffix hLed.suffix
    cases minus with
    | true =>
        have hLed1 : Led (c :: more) t1 := ⟨0x2d, Or.inl rfl, by rw [hYes1 rfl]⟩
        cases zero with
        | true =>
            exact hBehind ⟨0x30, Or.inr (by decide), by rw [← hYes2 rfl]; exact hLed1.suffix⟩
        | false =>
            obtain ⟨rfl, -⟩ := hNo2 rfl
            exact hBehind hLed1
    | false =>
        obtain ⟨rfl, hHead⟩ := hNo1 rfl
        cases zero with
        | true => exact hBehind ⟨0x30, Or.inr (by decide), by rw [← hYes2 rfl]⟩
        | false =>
            obtain ⟨rfl, hHead2⟩ := hNo2 rfl
            rw [List.head?_cons] at hHead hHead2
            have hDigit := isdigit_iff.mp (hc.resolve_left fun hEq => hHead (congrArg some hEq))
            have hNe : c.toNat ≠ 0x30 := fun hEq => hHead2 (congrArg some (UInt8.toNat_inj.mp hEq))
            have hLow := UInt8.le_iff_toNat_le.mp hDigit.1
            have hLit : (0x30 : UInt8).toNat = 0x30 := rfl
            refine hFirst c more rfl ⟨?_, hDigit.2⟩
            rw [UInt8.le_iff_toNat_le]
            show 0x31 ≤ c.toNat
            omega
  have hLed4 : Led (c :: more) t4 := by
    rcases hLeft4 with rfl | hLed4
    · exact hLed3
    · exact hLed4.of_suffix hLed3.suffix
  have hLess := hLed4.length_lt
  obtain ⟨d, hd, hBefore⟩ := hLed4
  have hFits : ∀ x rest, t4 = x :: rest → x = 0x65 ∨ x = 0x45 →
      digitsFrom 0 ((unsigned rest).takeWhile isdigit) ≤ intMax := by
    rintro x rest rfl hLetter
    exact hSound.exponent d x rest hBefore hd hLetter
  obtain ⟨e, t5, hExponent, hSuffix5⟩ := scanExponent_reads post hFits
  have hLe5 := hSuffix5.length_le
  rw [parseNumber, hMinus]
  simp only [Option.bind_eq_bind, Option.bind_some, hZero, hWhole, hFraction, hExponent]
  exact ⟨t5, rfl, (hSuffix5.trans (List.suffix_cons d t4)).trans hBefore, by omega⟩

end

/-! ## Strings -/

section

variable {text post : List UInt8}

private theorem length_transcode_le {uc : Nat} (h : uc < 0x110000) : (transcode uc).length ≤ 4 := by
  rw [transcode_eq h]
  exact (length_encode_le h).1

/-- A text goes on with its zero at the latest. -/
theorem head_append (text post : List UInt8) :
    ∃ c more, text ++ 0 :: post = c :: more ∧ (c ≠ 0 → ∃ t, text = c :: t) := by
  cases text with
  | nil => exact ⟨0, post, rfl, fun h => absurd rfl h⟩
  | cons c text => exact ⟨c, text ++ 0 :: post, rfl, fun _ => ⟨text, rfl⟩⟩

/-- A string goes on behind a byte in it. -/
theorem Whole.tail {c : UInt8} (h : Whole (c :: text)) (hc : Unquoted c) : Whole text := by
  cases h with
  | quote => exact absurd rfl hc.1
  | plain _ h => exact h
  | letter _ _ => exact absurd rfl hc.2
  | unit _ _ => exact absurd rfl hc.2

/-- Behind a backslash there is a letter, and behind the letter `u` there are four bytes. -/
theorem Whole.escaped (h : Whole (0x5c :: text)) :
    (∃ letter t, text = letter :: t ∧ letter ≠ 0x75 ∧ Whole t) ∨
      ∃ a b c d t, text = 0x75 :: a :: b :: c :: d :: t ∧ (∀ x ∈ [a, b, c, d], Unquoted x) ∧
        Whole t := by
  cases h with
  | plain hc _ => exact absurd rfl hc.2
  | letter hc h => exact Or.inl ⟨_, _, rfl, hc, h⟩
  | unit hPlain h => exact Or.inr ⟨_, _, _, _, _, rfl, hPlain, h⟩

/-- The digits that `parse_hex4` finds make a number below the power of 16, or zero. -/
theorem hexLoop_lt (n : Nat) {str : List UInt8} (h : Nat) (hLength : n ≤ str.length) :
    ∃ u, hexLoop n str h = some u ∧ u < (h + 1) * 16 ^ n := by
  induction n generalizing str h with
  | zero => exact ⟨h, rfl, by omega⟩
  | succ n ih =>
      cases str with
      | nil => cases hLength
      | cons c str =>
          rw [hexLoop]
          cases hDigit : hexDigit c with
          | none => exact ⟨0, rfl, Nat.mul_pos (Nat.succ_pos h) (Nat.pow_pos (by decide))⟩
          | some digit =>
              have hLt := (hexDigit_spec hDigit).1
              obtain ⟨u, hLoop, hu⟩ := @ih str (h <<< 4 + digit)
                (by rw [List.length_cons] at hLength; omega)
              refine ⟨u, hLoop, hu.trans_le ?_⟩
              calc (h <<< 4 + digit + 1) * 16 ^ n ≤ (h + 1) * 16 * 16 ^ n := by
                    rw [Nat.shiftLeft_eq]
                    exact Nat.mul_le_mul_right _ (by omega)
                _ = (h + 1) * 16 ^ (n + 1) := by rw [Nat.mul_assoc, Nat.pow_succ, Nat.mul_comm 16]

/-- `parse_hex4` reads four bytes and gives a unit of UTF-16. -/
theorem parseHex4_four (a b c d : UInt8) (rest : List UInt8) :
    ∃ u, parseHex4 (a :: b :: c :: d :: rest) = some u ∧ u < 0x10000 :=
  hexLoop_lt 4 0 (by simp only [List.length_cons]; omega)

/-- Behind `\u` and its four bytes, or behind two of them, `escape` has written at most four
bytes. -/
theorem escape_unit_reads (a b c d : UInt8) (hWhole : Whole text) (post : List UInt8) :
    ∃ new, new.length ≤ 4 ∧
      (escape (0x75 :: a :: b :: c :: d :: (text ++ 0 :: post)) = some (new, text ++ 0 :: post) ∨
        ∃ a' b' c' d' t, text = 0x5c :: 0x75 :: a' :: b' :: c' :: d' :: t ∧
          (∀ x ∈ [a', b', c', d'], Unquoted x) ∧ Whole t ∧
          escape (0x75 :: a :: b :: c :: d :: (text ++ 0 :: post)) =
            some (new, t ++ 0 :: post)) := by
  have hEscape : escape (0x75 :: a :: b :: c :: d :: (text ++ 0 :: post)) =
      unicode (a :: b :: c :: d :: (text ++ 0 :: post)) := rfl
  have hAdvance : advance 4 (a :: b :: c :: d :: (text ++ 0 :: post)) =
      some (text ++ 0 :: post) := by
    rw [advance, if_pos (by simp only [List.length_cons]; omega)]
    rfl
  obtain ⟨u, hUnit, hLt⟩ := parseHex4_four a b c d (text ++ 0 :: post)
  rw [hEscape, unicode, hUnit]
  simp only [Option.bind_eq_bind, Option.bind_some, hAdvance]
  by_cases hNone : 0xdc00 ≤ u ∧ u ≤ 0xdfff ∨ u = 0
  · exact ⟨[], Nat.zero_le _, Or.inl (by rw [if_pos hNone]; rfl)⟩
  rw [if_neg hNone]
  by_cases hHigh : 0xd800 ≤ u ∧ u ≤ 0xdbff
  · rw [if_pos hHigh]
    obtain ⟨first, more, hFirst, hText⟩ := head_append text post
    rw [hFirst, List.getElem?_cons_zero, Option.bind_some]
    by_cases hSlash : first ≠ 0x5c
    · exact ⟨[], Nat.zero_le _, Or.inl (by rw [if_pos hSlash]; rfl)⟩
    rw [if_neg hSlash]
    rw [not_not] at hSlash
    subst hSlash
    obtain ⟨t, rfl⟩ := hText (by decide)
    obtain rfl : more = t ++ 0 :: post := (List.cons.inj hFirst).2.symm
    rcases hWhole.escaped with ⟨letter, t, rfl, hLetter, -⟩ |
      ⟨a', b', c', d', t, rfl, hPlain, hRest⟩
    · refine ⟨[], Nat.zero_le _, Or.inl ?_⟩
      rw [List.cons_append, List.getElem?_cons_succ, List.getElem?_cons_zero, Option.bind_some,
        if_pos hLetter]
      rfl
    obtain ⟨u', hUnit', hLt'⟩ := parseHex4_four a' b' c' d' (t ++ 0 :: post)
    have hAdvance' : advance 6
        (0x5c :: 0x75 :: a' :: b' :: c' :: d' :: (t ++ 0 :: post)) = some (t ++ 0 :: post) := by
      rw [advance, if_pos (by simp only [List.length_cons]; omega)]
      rfl
    simp only [List.cons_append, List.getElem?_cons_succ, List.getElem?_cons_zero,
      Option.bind_some, ne_eq, not_true_eq_false, if_false, List.drop_succ_cons, List.drop_zero,
      hUnit', hAdvance']
    by_cases hLow : u' < 0xdc00 ∨ 0xdfff < u'
    · exact ⟨[], Nat.zero_le _, Or.inr ⟨a', b', c', d', t, rfl, hPlain, hRest, by
        rw [if_pos hLow]; rfl⟩⟩
    · refine ⟨_, ?_, Or.inr ⟨a', b', c', d', t, rfl, hPlain, hRest, by rw [if_neg hLow]; rfl⟩⟩
      rw [paired_eq hHigh.1 (by omega) (by omega) (by omega)]
      exact length_transcode_le (paired_lt (by omega) (by omega))
  · have hCode : u < 0x110000 := by omega
    exact ⟨_, length_transcode_le hCode, Or.inl (by rw [if_neg hHigh]; rfl)⟩

/-- Another escape is one byte. -/
theorem escape_other {c : UInt8} (hc : c ≠ 0x75) (rest : List UInt8) :
    ∃ b, escape (c :: rest) = some ([b], rest) := by
  simp only [escape]
  split_ifs <;> exact ⟨_, rfl⟩

/-- What the first loop of `parse_string` counts is enough for the second one, and both end at the
same byte. -/
def Copies (post text : List UInt8) : Prop :=
  ∃ need bytes t, (∀ len, lengthLoop (text ++ 0 :: post) len = some (len + need)) ∧
    need ≤ text.length ∧ bytes.length ≤ need ∧ t <:+ text ∧
    ∀ room fuel out, out.length + bytes.length ≤ room → text.length < fuel →
      stringLoop room fuel (text ++ 0 :: post) out = some (out ++ bytes, t ++ 0 :: post)

/-- Both loops end at a quote, or at the zero. -/
theorem Copies.stop {c : UInt8} {more : List UInt8} (hFirst : text ++ 0 :: post = c :: more)
    (hc : c = 0x22 ∨ c = 0) : Copies post text := by
  refine ⟨0, [], text, ?_, Nat.zero_le _, le_rfl, List.suffix_refl _, ?_⟩
  · intro len
    rw [hFirst, lengthLoop.eq_def]
    simp [hc]
  · intro room fuel out _ hFuel
    obtain ⟨fuel, rfl⟩ : ∃ f, fuel = f + 1 := Nat.exists_eq_add_of_le' (Nat.zero_lt_of_lt hFuel)
    rw [hFirst]
    simp [stringLoop, hc]

/-- A turn of both loops: the first one counts at least what the second one writes. -/
theorem Copies.turn {rest : List UInt8} (new : List UInt8) (k : Nat) (h : Copies post rest)
    (hRest : rest <:+ text) (hk : 0 < k) (hSize : rest.length + k ≤ text.length)
    (hNew : new.length ≤ k)
    (hCount : ∀ len,
      lengthLoop (text ++ 0 :: post) len = lengthLoop (rest ++ 0 :: post) (len + k))
    (hWrite : ∀ room fuel out, out.length + new.length ≤ room →
      stringLoop room (fuel + 1) (text ++ 0 :: post) out =
        stringLoop room fuel (rest ++ 0 :: post) (out ++ new)) : Copies post text := by
  obtain ⟨need, bytes, t, hLength, hNeed, hBytes, hSuffix, hString⟩ := h
  refine ⟨need + k, new ++ bytes, t, ?_, by omega, ?_, hSuffix.trans hRest, ?_⟩
  · intro len
    rw [hCount, hLength]
    congr 1
    omega
  · rw [List.length_append]
    omega
  · intro room fuel out hRoom hFuel
    rw [List.length_append] at hRoom
    obtain ⟨fuel, rfl⟩ : ∃ f, fuel = f + 1 := Nat.exists_eq_add_of_le' (Nat.zero_lt_of_lt hFuel)
    rw [hWrite room fuel out (by omega),
      hString room fuel _ (by rw [List.length_append]; omega) (by omega), List.append_assoc]

/-- Four bytes behind `\u` count as five, whatever they are. -/
theorem lengthLoop_unquoted {a b c d : UInt8} {len : Nat} (hNoZero : ∀ x ∈ [a, b, c, d], x ≠ 0)
    (hPlain : ∀ x ∈ [a, b, c, d], Unquoted x) :
    lengthLoop (0x5c :: 0x75 :: a :: b :: c :: d :: text) len = lengthLoop text (len + 5) :=
  lengthLoop_four fun x hx => ⟨hNoZero x hx, hPlain x hx⟩

/-- They are in step in a whole string, by induction on its length: a pair of halves is two escapes
of the text. -/
theorem loops_read (n : Nat) : ∀ {text : List UInt8}, text.length ≤ n → (∀ c ∈ text, c ≠ 0) →
    Whole text → Copies post text := by
  induction n with
  | zero =>
      intro text hn _ _
      rw [List.length_eq_zero_iff.mp (Nat.le_zero.mp hn)]
      exact Copies.stop rfl (Or.inr rfl)
  | succ n ih =>
      intro text hn hNoZero hWhole
      cases text with
      | nil => exact ih (Nat.zero_le n) hNoZero hWhole
      | cons c text =>
          rw [List.length_cons] at hn
          have hZero : c ≠ 0 := hNoZero c (List.mem_cons_self ..)
          by_cases hQuote : c = 0x22
          · exact Copies.stop rfl (Or.inl hQuote)
          by_cases hSlash : c = 0x5c
          · subst hSlash
            rcases hWhole.escaped with ⟨letter, t, rfl, hLetter, hMore⟩ |
              ⟨a, b, c, d, t, rfl, hPlain, hMore⟩
            · have hRest : t <:+ 0x5c :: letter :: t := ⟨[0x5c, letter], rfl⟩
              obtain ⟨new, hEscape⟩ := escape_other hLetter (t ++ 0 :: post)
              rw [List.length_cons] at hn
              refine (ih (by omega) (fun x hx => hNoZero x (hRest.subset hx)) hMore).turn
                [new] 1 hRest (by decide) (by simp only [List.length_cons]; omega) le_rfl ?_ ?_
              · intro len
                simp [lengthLoop]
              · exact fun room fuel out hRoom => stringLoop_escape hEscape hRoom
            · have hRest : t <:+ 0x5c :: 0x75 :: a :: b :: c :: d :: t :=
                ⟨[0x5c, 0x75, a, b, c, d], rfl⟩
              have hDigits : ∀ x ∈ [a, b, c, d], x ≠ 0 := fun x hx =>
                hNoZero x (by simp only [List.mem_cons] at hx ⊢; tauto)
              simp only [List.length_cons] at hn
              obtain ⟨new, hNew, hOne | ⟨a', b', c', d', t', rfl, hPlain', hMore', hTwo⟩⟩ :=
                escape_unit_reads a b c d hMore post
              · refine (ih (by omega) (fun x hx => hNoZero x (hRest.subset hx)) hMore).turn
                  new 5 hRest (by decide) (by simp only [List.length_cons]; omega) (by omega) ?_ ?_
                · exact fun len => lengthLoop_unquoted hDigits hPlain
                · exact fun room fuel out hRoom => stringLoop_escape hOne hRoom
              · have hRest' : t' <:+ 0x5c :: 0x75 :: a' :: b' :: c' :: d' :: t' :=
                  ⟨[0x5c, 0x75, a', b', c', d'], rfl⟩
                have hDigits' : ∀ x ∈ [a', b', c', d'], x ≠ 0 := fun x hx =>
                  hNoZero x (hRest.subset (by simp only [List.mem_cons] at hx ⊢; tauto))
                simp only [List.length_cons] at hn
                -- the two halves of a pair are one turn of the second loop
                refine (ih (by omega)
                  (fun x hx => hNoZero x (hRest.subset (hRest'.subset hx))) hMore').turn
                  new 10 (hRest'.trans hRest) (by decide) (by simp only [List.length_cons]; omega)
                  (by omega) ?_ ?_
                · intro len
                  simp only [List.cons_append]
                  rw [lengthLoop_unquoted hDigits hPlain, lengthLoop_unquoted hDigits' hPlain']
                · exact fun room fuel out hRoom => stringLoop_escape hTwo hRoom
          · have hRest : text <:+ c :: text := List.suffix_cons c text
            refine (ih (by omega) (fun x hx => hNoZero x (hRest.subset hx))
              (hWhole.tail ⟨hQuote, hSlash⟩)).turn [c] 1 hRest (by decide) (by rw [List.length_cons])
              le_rfl ?_ ?_
            · exact fun len => lengthLoop_plain hZero hQuote hSlash
            · exact fun room fuel out hRoom => stringLoop_plain hZero hQuote hSlash hRoom

/-- `parse_string` fails at a byte that is no quote, and else reads at least the quote. -/
theorem parseString_reads {D : Type} (item : Item D) (hSound : Sound text)
    (hSize : (text.length : Int) < intMax) (post : List UInt8) :
    Reads text post 1 (parseString item (text ++ 0 :: post)) := by
  cases text with
  | nil => exact ⟨[], rfl, List.suffix_refl []⟩
  | cons c text =>
      by_cases hQuote : c ≠ 0x22
      · rw [List.cons_append, parseString, if_pos hQuote]
        exact ⟨c :: text, rfl, List.suffix_refl _⟩
      · rw [List.length_cons] at hSize
        obtain rfl : c = 0x22 := not_not.mp hQuote
        obtain ⟨need, bytes, t, hLength, hNeed, hBytes, hSuffix, hString⟩ :=
          @loops_read post text.length text le_rfl
            (fun x hx => hSound.noZero x (List.mem_cons_of_mem _ hx))
            (hSound.strings text (List.suffix_refl _))
        have hLoop := hString (0 + need + 1) ((text ++ 0 :: post).length + 1) []
          (by rw [List.length_nil]; omega) (by rw [List.length_append]; omega)
        have hPut : put (0 + need + 1) ([] ++ bytes) [0] = some (bytes ++ [0]) := by
          rw [put, List.nil_append, List.length_singleton, if_pos (by omega)]
        obtain ⟨b, t', hAccept, hSuffix', -⟩ := @accept_reads 0x22 (by decide) t post
        rw [List.cons_append, parseString, if_neg hQuote]
        simp only [hLength, malloc_eq (show ((0 + need + 1 : Nat) : Int) ≤ intMax by omega), hLoop,
          hPut, hAccept, Outcome.liftM_some, Outcome.done_bind, Outcome.pure_eq]
        have hLe := (hSuffix'.trans hSuffix).length_le
        exact ⟨t', rfl, (hSuffix'.trans hSuffix).trans (List.suffix_cons _ text), by
          rw [List.length_cons]; omega⟩

end

/-! ## Values -/

section

variable {D : Type} {F : Double D} {text post : List UInt8}

/-- A word without a zero is compared within the text. -/
theorem starts_reads {w : List UInt8} (hWord : ∀ c ∈ w, c ≠ 0) (text post : List UInt8) :
    ∃ b, starts w (text ++ 0 :: post) = some b ∧ (b = true → ∃ t, text = w ++ t) := by
  induction w generalizing text with
  | nil => exact ⟨true, rfl, fun _ => ⟨text, rfl⟩⟩
  | cons x w ih =>
      have hx := hWord x (List.mem_cons_self ..)
      obtain ⟨c, more, hFirst, hText⟩ := head_append text post
      by_cases hc : c = x
      · subst hc
        obtain ⟨t, rfl⟩ := hText hx
        obtain ⟨b, hStarts, hYes⟩ := ih (fun y hy => hWord y (List.mem_cons_of_mem c hy)) t
        refine ⟨b, ?_, ?_⟩
        · rw [List.cons_append, starts, if_pos rfl, hStarts]
        · intro hb
          obtain ⟨t', rfl⟩ := hYes hb
          exact ⟨t', rfl⟩
      · refine ⟨false, ?_, fun h => by cases h⟩
        rw [hFirst]
        exact starts_other hc

/-- A word that was found is read. -/
theorem word_reads {word : List UInt8} (hWord : word ≠ []) (item : Item D)
    (hText : ∃ t, text = word ++ t) :
    Reads text post 1 (.done (item, (text ++ 0 :: post).drop word.length)) := by
  obtain ⟨t, rfl⟩ := hText
  refine ⟨t, ?_, List.suffix_append word t, ?_⟩
  · rw [List.append_assoc, List.drop_left]
  · have hPos := List.length_pos_iff.mpr hWord
    rw [List.length_append]
    omega

/-- The byte that a text starts with, if it is asked for one. -/
theorem head_cases (c : UInt8) (hc : c ≠ 0) (text post : List UInt8) :
    ((text ++ 0 :: post).head? = some c ∧ ∃ t, text = c :: t) ∨
      (text ++ 0 :: post).head? ≠ some c := by
  obtain ⟨x, more, hFirst, hText⟩ := head_append text post
  rw [hFirst, List.head?_cons]
  by_cases hx : x = c
  · subst hx
    exact Or.inl ⟨rfl, hText hc⟩
  · exact Or.inr fun h => hx (Option.some.inj h)

/-- What the calls of the parser with some calls to spend read. -/
structure ParserReads (F : Double D) (post : List UInt8) (fuel : Nat) : Prop where
  value : ∀ text (item : Item D), Sound text → (text.length : Int) < intMax →
    2 * text.length + 2 ≤ fuel → Reads text post 1 (parseValue F fuel item (text ++ 0 :: post))
  array : ∀ c text (item : Item D), Sound (c :: text) → (text.length : Int) < intMax →
    2 * text.length + 3 ≤ fuel →
      Reads (c :: text) post 1 (parseArray F fuel item (c :: (text ++ 0 :: post)))
  arrayLoop : ∀ text (children : List (Item D)), Sound text → (text.length : Int) < intMax →
    2 * text.length + 1 ≤ fuel →
      Reads text post 0 (arrayLoop F fuel children (text ++ 0 :: post))
  member : ∀ text, Sound text → (text.length : Int) < intMax → 2 * text.length + 2 ≤ fuel →
    Reads text post 1 (parseMember F fuel (text ++ 0 :: post))
  object : ∀ c text (item : Item D), Sound (c :: text) → (text.length : Int) < intMax →
    2 * text.length + 3 ≤ fuel →
      Reads (c :: text) post 1 (parseObject F fuel item (c :: (text ++ 0 :: post)))
  objectLoop : ∀ text (children : List (Item D)), Sound text → (text.length : Int) < intMax →
    2 * text.length + 1 ≤ fuel →
      Reads text post 0 (objectLoop F fuel children (text ++ 0 :: post))

variable {fuel : Nat}

private theorem parseValue_reads (h : ParserReads F post fuel) (item : Item D) (hSound : Sound text)
    (hSize : (text.length : Int) < intMax) (hFuel : 2 * text.length + 2 ≤ fuel + 1) :
    Reads text post 1 (parseValue F (fuel + 1) item (text ++ 0 :: post)) := by
  obtain ⟨b1, hNull, hYes1⟩ := starts_reads (w := ascii "null") (by simp [ascii]) text post
  obtain ⟨b2, hFalse, hYes2⟩ := starts_reads (w := ascii "false") (by simp [ascii]) text post
  obtain ⟨b3, hTrue, hYes3⟩ := starts_reads (w := ascii "true") (by simp [ascii]) text post
  rw [parseValue, hNull]
  cases b1 with
  | true => exact word_reads (by decide) _ (hYes1 rfl)
  | false =>
      rw [hFalse]
      cases b2 with
      | true => exact word_reads (by decide) _ (hYes2 rfl)
      | false =>
          rw [hTrue]
          cases b3 with
          | true => exact word_reads (by decide) _ (hYes3 rfl)
          | false =>
              obtain ⟨c, more, hFirst, hText⟩ := head_append text post
              simp only [hFirst, Outcome.liftM_some, Outcome.done_bind, Bool.false_eq_true,
                if_false, List.head?_cons]
              by_cases hZero : c = 0
              · subst hZero
                exact ⟨text, hFirst.symm, List.suffix_refl text⟩
              obtain ⟨t, rfl⟩ := hText hZero
              obtain rfl : more = t ++ 0 :: post := (List.cons.inj hFirst).2.symm
              rw [List.length_cons] at hFuel hSize
              by_cases hQuote : c = 0x22
              · rw [if_pos hQuote]
                exact parseString_reads item hSound (by rw [List.length_cons]; omega) post
              rw [if_neg hQuote]
              by_cases hNumber : c = 0x2d ∨ isdigit c = true
              · rw [if_pos hNumber]
                exact parseNumber_reads F item hSound hNumber post
              rw [if_neg hNumber]
              by_cases hArray : c = 0x5b
              · rw [if_pos hArray]
                exact h.array c t item hSound (by omega) (by omega)
              rw [if_neg hArray]
              by_cases hObject : c = 0x7b
              · rw [if_pos hObject]
                exact h.object c t item hSound (by omega) (by omega)
              rw [if_neg hObject]
              exact ⟨c :: t, rfl, List.suffix_refl _⟩

private theorem arrayLoop_reads (h : ParserReads F post fuel) (children : List (Item D))
    (hSound : Sound text) (hSize : (text.length : Int) < intMax)
    (hFuel : 2 * text.length + 1 ≤ fuel + 1) :
    Reads text post 0 (arrayLoop F (fuel + 1) children (text ++ 0 :: post)) := by
  rw [arrayLoop]
  obtain ⟨hHead, t, rfl⟩ | hHead := head_cases 0x2c (by decide) text post
  · rw [List.length_cons] at hFuel hSize
    obtain ⟨t1, hSkip1, hSuffix1⟩ := skip_reads t post
    have hLe1 := hSuffix1.length_le
    have hAll1 := hSuffix1.trans (List.suffix_cons 0x2c t)
    rw [if_pos hHead, List.cons_append, List.tail_cons, hSkip1]
    simp only [Outcome.liftM_some, Outcome.done_bind]
    have hRead := h.value t1 (newItem F) (hSound.suffix hAll1) (by omega) (by omega)
    refine (Reads.of_suffix (d := 0) hAll1 (by rw [List.length_cons]; omega)
      (hRead.bind (j := 0) ?_)).mono (Nat.zero_le _)
    intro child t2 hSuffix2 hLength2
    obtain ⟨t3, hSkip3, hSuffix3⟩ := skip_reads t2 post
    have hLe3 := hSuffix3.length_le
    simp only [hSkip3, Outcome.liftM_some, Outcome.done_bind]
    exact Reads.of_suffix (d := 0) hSuffix3 (by omega) (h.arrayLoop t3 _
      (hSound.suffix (hSuffix3.trans (hSuffix2.trans hAll1))) (by omega) (by omega))
  · rw [if_neg hHead]
    exact ⟨text, rfl, List.suffix_refl text, by omega⟩

private theorem parseArray_reads (h : ParserReads F post fuel) (c : UInt8) (item : Item D)
    (hSound : Sound (c :: text)) (hSize : (text.length : Int) < intMax)
    (hFuel : 2 * text.length + 3 ≤ fuel + 1) :
    Reads (c :: text) post 1 (parseArray F (fuel + 1) item (c :: (text ++ 0 :: post))) := by
  obtain ⟨t1, hSkip1, hSuffix1⟩ := skip_reads text post
  have hLe1 := hSuffix1.length_le
  have hAll1 := hSuffix1.trans (List.suffix_cons c text)
  rw [parseArray, List.tail_cons, hSkip1]
  simp only [Outcome.liftM_some, Outcome.done_bind]
  obtain ⟨hHead, t, rfl⟩ | hHead := head_cases 0x5d (by decide) t1 post
  · rw [if_pos hHead]
    rw [List.length_cons] at hLe1
    exact ⟨t, rfl, (List.suffix_cons 0x5d t).trans hAll1, by rw [List.length_cons]; omega⟩
  · rw [if_neg hHead, skip_skip hSkip1]
    simp only [Outcome.liftM_some, Outcome.done_bind]
    have hRead := h.value t1 (newItem F) (hSound.suffix hAll1) (by omega) (by omega)
    refine (Reads.of_suffix (d := 0) hAll1 (by rw [List.length_cons]; omega)
      (hRead.bind (j := 0) ?_)).mono (by omega)
    intro child t2 hSuffix2 hLength2
    obtain ⟨t3, hSkip3, hSuffix3⟩ := skip_reads t2 post
    have hLe3 := hSuffix3.length_le
    have hAll3 := hSuffix3.trans (hSuffix2.trans hAll1)
    simp only [hSkip3, Outcome.liftM_some, Outcome.done_bind]
    refine Reads.of_suffix (d := 0) hSuffix3 (by omega)
      ((h.arrayLoop t3 _ (hSound.suffix hAll3) (by omega) (by omega)).bind (j := 0) ?_)
    intro children t4 hSuffix4 _
    obtain ⟨hClose, t, rfl⟩ | hClose := head_cases 0x5d (by decide) t4 post
    · rw [if_pos hClose]
      exact ⟨t, rfl, List.suffix_cons 0x5d t, by rw [List.length_cons]; omega⟩
    · rw [if_neg hClose]
      exact ⟨t4, rfl, List.suffix_refl t4⟩

private theorem parseMember_reads (h : ParserReads F post fuel) (hSound : Sound text)
    (hSize : (text.length : Int) < intMax) (hFuel : 2 * text.length + 2 ≤ fuel + 1) :
    Reads text post 1 (parseMember F (fuel + 1) (text ++ 0 :: post)) := by
  obtain ⟨t1, hSkip1, hSuffix1⟩ := skip_reads text post
  have hLe1 := hSuffix1.length_le
  rw [parseMember, hSkip1]
  simp only [Outcome.liftM_some, Outcome.done_bind]
  have hRead := parseString_reads (newItem F) (hSound.suffix hSuffix1) (by omega) post
  refine (Reads.of_suffix (d := 0) hSuffix1 (by omega) (hRead.bind (j := 0) ?_)).mono (by omega)
  intro child t2 hSuffix2 hLength2
  obtain ⟨t3, hSkip3, hSuffix3⟩ := skip_reads t2 post
  have hLe3 := hSuffix3.length_le
  have hAll3 := hSuffix3.trans (hSuffix2.trans hSuffix1)
  simp only [hSkip3, Outcome.liftM_some, Outcome.done_bind]
  obtain ⟨hHead, t4, rfl⟩ | hHead := head_cases 0x3a (by decide) t3 post
  · rw [List.length_cons] at hLe3
    obtain ⟨t5, hSkip5, hSuffix5⟩ := skip_reads t4 post
    have hLe5 := hSuffix5.length_le
    have hNear := (hSuffix5.trans (List.suffix_cons 0x3a t4)).trans hSuffix3
    rw [if_pos hHead, List.cons_append, List.tail_cons, hSkip5]
    simp only [Outcome.liftM_some, Outcome.done_bind]
    have hRead5 := h.value t5 { child with string := child.valuestring, valuestring := none }
      (hSound.suffix (hNear.trans (hSuffix2.trans hSuffix1))) (by omega) (by omega)
    refine (Reads.of_suffix (d := 0) hNear (by omega) (hRead5.bind (j := 0) ?_)).mono (by omega)
    intro out t6 hSuffix6 _
    obtain ⟨t7, hSkip7, hSuffix7⟩ := skip_reads t6 post
    simp only [hSkip7, Outcome.liftM_some, Outcome.done_bind]
    exact ⟨t7, rfl, hSuffix7, hSuffix7.length_le⟩
  · rw [if_neg hHead]
    exact ⟨t3, rfl, hSuffix3⟩

private theorem objectLoop_reads (h : ParserReads F post fuel) (children : List (Item D))
    (hSound : Sound text) (hSize : (text.length : Int) < intMax)
    (hFuel : 2 * text.length + 1 ≤ fuel + 1) :
    Reads text post 0 (objectLoop F (fuel + 1) children (text ++ 0 :: post)) := by
  rw [objectLoop]
  obtain ⟨hHead, t, rfl⟩ | hHead := head_cases 0x2c (by decide) text post
  · rw [List.length_cons] at hFuel hSize
    have hSuffix := List.suffix_cons 0x2c t
    rw [if_pos hHead, List.cons_append, List.tail_cons]
    have hRead := h.member t (hSound.suffix hSuffix) (by omega) (by omega)
    refine (Reads.of_suffix (d := 0) hSuffix (by rw [List.length_cons]; omega)
      (hRead.bind (j := 0) ?_)).mono (Nat.zero_le _)
    intro child t2 hSuffix2 hLength2
    exact h.objectLoop t2 _ (hSound.suffix (hSuffix2.trans hSuffix)) (by omega) (by omega)
  · rw [if_neg hHead]
    exact ⟨text, rfl, List.suffix_refl text, by omega⟩

private theorem parseObject_reads (h : ParserReads F post fuel) (c : UInt8) (item : Item D)
    (hSound : Sound (c :: text)) (hSize : (text.length : Int) < intMax)
    (hFuel : 2 * text.length + 3 ≤ fuel + 1) :
    Reads (c :: text) post 1 (parseObject F (fuel + 1) item (c :: (text ++ 0 :: post))) := by
  obtain ⟨t1, hSkip1, hSuffix1⟩ := skip_reads text post
  have hLe1 := hSuffix1.length_le
  have hAll1 := hSuffix1.trans (List.suffix_cons c text)
  rw [parseObject, List.tail_cons, hSkip1]
  simp only [Outcome.liftM_some, Outcome.done_bind]
  obtain ⟨hHead, t, rfl⟩ | hHead := head_cases 0x7d (by decide) t1 post
  · rw [if_pos hHead]
    rw [List.length_cons] at hLe1
    exact ⟨t, rfl, (List.suffix_cons 0x7d t).trans hAll1, by rw [List.length_cons]; omega⟩
  · rw [if_neg hHead]
    have hRead := h.member t1 (hSound.suffix hAll1) (by omega) (by omega)
    refine (Reads.of_suffix (d := 0) hAll1 (by rw [List.length_cons]; omega)
      (hRead.bind (j := 0) ?_)).mono (by omega)
    intro child t2 hSuffix2 hLength2
    refine (h.objectLoop t2 _ (hSound.suffix (hSuffix2.trans hAll1)) (by omega)
      (by omega)).bind (j := 0) ?_
    intro children t4 hSuffix4 _
    obtain ⟨hClose, t, rfl⟩ | hClose := head_cases 0x7d (by decide) t4 post
    · rw [if_pos hClose]
      exact ⟨t, rfl, List.suffix_cons 0x7d t, by rw [List.length_cons]; omega⟩
    · rw [if_neg hClose]
      exact ⟨t4, rfl, List.suffix_refl t4⟩

theorem parse_reads (F : Double D) (post : List UInt8) (fuel : Nat) : ParserReads F post fuel := by
  induction fuel with
  | zero =>
      constructor
      all_goals
        intros
        omega
  | succ fuel ih =>
      exact {
        value := fun _ item hSound hSize hFuel => parseValue_reads ih item hSound hSize hFuel
        array := fun c _ item hSound hSize hFuel => parseArray_reads ih c item hSound hSize hFuel
        arrayLoop := fun _ children hSound hSize hFuel =>
          arrayLoop_reads ih children hSound hSize hFuel
        member := fun _ hSound hSize hFuel => parseMember_reads ih hSound hSize hFuel
        object := fun c _ item hSound hSize hFuel => parseObject_reads ih c item hSound hSize hFuel
        objectLoop := fun _ children hSound hSize hFuel =>
          objectLoop_reads ih children hSound hSize hFuel }

end

/-- Every text with whole escapes, well formed or not, is parsed: the parser ends, and it either
returns an item and a position in the text or fails with `ep` in the text; if a zero is asked for,
it returns at the zero. -/
theorem json_parse_safe {D : Type} (F : Double D) {text : List UInt8} (hSound : Sound text)
    (hSize : (text.length : Int) < intMax) (post : List UInt8) (required : Bool) :
    (∃ item t, cJSONParseWithOpts F (text ++ 0 :: post) required =
        .done (item, t ++ 0 :: post) ∧ t <:+ text ∧ (required = true → t = [])) ∨
      ∃ t, cJSONParseWithOpts F (text ++ 0 :: post) required = .failed (t ++ 0 :: post) ∧
        t <:+ text := by
  obtain ⟨t1, hSkip1, hSuffix1⟩ := skip_reads text post
  have hLe1 := hSuffix1.length_le
  have hRead := (parse_reads F post (3 * (text ++ 0 :: post).length + 1)).value t1 (newItem F)
    (hSound.suffix hSuffix1) (by omega) (by rw [List.length_append, List.length_cons]; omega)
  rw [cJSONParseWithOpts, hSkip1]
  simp only [Outcome.liftM_some, Outcome.done_bind]
  revert hRead
  cases parseValue F (3 * (text ++ 0 :: post).length + 1) (newItem F) (t1 ++ 0 :: post) with
  | undefined => exact fun hRead => hRead.elim
  | failed _ =>
      rintro ⟨t2, rfl, hSuffix2⟩
      exact Or.inr ⟨t2, rfl, hSuffix2.trans hSuffix1⟩
  | done out =>
      rintro ⟨t2, hOut, hSuffix2, _⟩
      have hAll2 := hSuffix2.trans hSuffix1
      cases required with
      | false =>
          refine Or.inl ⟨out.1, t2, ?_, hAll2, fun h => by cases h⟩
          rw [← hOut]
          rfl
      | true =>
          obtain ⟨t3, hSkip3, hSuffix3⟩ := skip_reads t2 post
          obtain ⟨c, more, hFirst, hText⟩ := head_append t3 post
          simp only [Outcome.done_bind, if_true, hOut, hSkip3, Outcome.liftM_some]
          by_cases hZero : (t3 ++ 0 :: post).head? = some 0
          · rw [if_pos hZero]
            have hNil : t3 = [] := by
              cases t3 with
              | nil => rfl
              | cons x t3 =>
                  rw [List.cons_append, List.head?_cons] at hZero
                  exact absurd (Option.some.inj hZero)
                    (hSound.noZero x ((hSuffix3.trans hAll2).subset (List.mem_cons_self ..)))
            exact Or.inl ⟨out.1, t3, rfl, hSuffix3.trans hAll2, fun _ => hNil⟩
          · rw [if_neg hZero]
            exact Or.inr ⟨t3, rfl, hSuffix3.trans hAll2⟩

/-- `[-1e2,"\\u`, with an escaped backslash before the letter, and without its last quote and
bracket. -/
theorem json_parse_safe_cut :
    (∃ item t, cJSONParseWithOpts integers (ascii "[-1e2,\"\\\\u" ++ 0 :: []) true =
        .done (item, t ++ 0 :: []) ∧ t <:+ ascii "[-1e2,\"\\\\u" ∧ (true = true → t = [])) ∨
      ∃ t, cJSONParseWithOpts integers (ascii "[-1e2,\"\\\\u" ++ 0 :: []) true =
        .failed (t ++ 0 :: []) ∧ t <:+ ascii "[-1e2,\"\\\\u" := by
  have hText : ascii "[-1e2,\"\\\\u" =
      [0x5b, 0x2d, 0x31, 0x65, 0x32, 0x2c, 0x22, 0x5c, 0x5c, 0x75] := by decide
  rw [hText]
  refine json_parse_safe integers ⟨by simp, ?_, ?_⟩ (by decide) [] true
  · intro post hPost
    obtain rfl : post = [0x5c, 0x5c, 0x75] := by simpa [List.suffix_cons_iff] using hPost
    exact .letter (by decide) (.plain ⟨by decide, by decide⟩ .nil)
  · rintro d c post hPost - (rfl | rfl)
    · obtain ⟨-, rfl⟩ : d = 0x31 ∧ post = [0x32, 0x2c, 0x22, 0x5c, 0x5c, 0x75] := by
        simpa [List.suffix_cons_iff] using hPost
      decide
    · simp [List.suffix_cons_iff] at hPost

end Gbase.Util.Cjson
