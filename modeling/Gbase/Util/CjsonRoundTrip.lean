import Gbase.Util.CjsonPrint

/-!
# Printing and parsing (`util/cjson.c`)

What an item is printed to is a text of its value, formatted or not, at any depth.  Of the numbers
this is said for those that are an `int`, in whose range the arithmetic of `double` is exact.

The printer and the parser meet in the grammar: the first writes texts of it, and the second gives
the meaning of each.  Neither proof looks at the other function.

## Main results

* `render_text`: the text of an item means its value.
* `json_print_parse`: what is printed is parsed to the same value.
-/

namespace Gbase.Util.Cjson

open Gbase.Lib
open Gbase.Lib.CString
open Gbase.Lib.Json

/-! ## Strings -/

/-- The escape of a control character. -/
theorem hexUnit_control {c : UInt8} (h : ¬31 < c) :
    hexUnit 0x30 0x30 (hexLower (c.toNat / 16)) (hexLower (c.toNat % 16)) = some c.toNat := by
  have hLt : c.toNat < 32 := by
    rw [UInt8.lt_iff_toNat_lt] at h
    have hLit : (31 : UInt8).toNat = 31 := rfl
    omega
  have hAll : ∀ n < 32,
      hexUnit 0x30 0x30 (hexLower (n / 16)) (hexLower (n % 16)) = some n := by decide +kernel
  exact hAll _ hLt

/-- An escaped string is a text of it. -/
theorem chars_escaped {bytes : List UInt8} (h : ∀ c ∈ bytes, c ≠ 0) :
    Chars bytes (bytes.flatMap escaped) := by
  induction bytes with
  | nil => exact .nil
  | cons c bytes ih =>
      have hRest := ih fun x hx => h x (List.mem_cons_of_mem c hx)
      have hZero : c ≠ 0 := h c (List.mem_cons_self ..)
      rw [List.flatMap_cons, escaped]
      by_cases hPlain : 31 < c ∧ c ≠ 0x22 ∧ c ≠ 0x5c
      · rw [if_pos hPlain]
        exact .plain hZero hPlain.2.1 hPlain.2.2 hRest
      rw [if_neg hPlain]
      split_ifs with h5c h22 h08 h0c h0a h0d h09
      case neg =>
        have hLow : ¬31 < c := fun hHigh => hPlain ⟨hHigh, h22, h5c⟩
        have hLt : c.toNat < 32 := by
          rw [UInt8.lt_iff_toNat_lt] at hLow
          have hLit : (31 : UInt8).toNat = 31 := rfl
          omega
        have hPos : 0 < c.toNat := by
          rw [Nat.pos_iff_ne_zero]
          exact fun hEq => hZero (UInt8.toNat_inj.mp hEq)
        have hEncode : Utf8.encode c.toNat = [c] := by
          rw [Utf8.encode, if_pos (by omega), UInt8.ofNat_toNat]
        have hUnit := Chars.unit (hexUnit_control hLow) hPos (Or.inl (by omega)) hRest
        rw [hEncode] at hUnit
        exact hUnit
      all_goals
        subst c
        exact .short rfl hRest

/-! ## Numbers -/

/-- The arithmetic of `double` on whole numbers that it represents exactly. -/
structure Exact {D : Type} (F : Double D) : Prop where
  toInt : ∀ i : BitVec 32, F.toInt (F.ofInt i.toInt) = i
  add : ∀ a b, 0 ≤ a → 0 ≤ b → a + b ≤ 2 ^ 53 → F.add (F.ofInt a) (F.ofInt b) = F.ofInt (a + b)
  mul : ∀ a b, 0 ≤ a ∧ 0 ≤ b ∨ a * b ≠ 0 → -2 ^ 53 ≤ a * b → a * b ≤ 2 ^ 53 →
    F.mul (F.ofInt a) (F.ofInt b) = F.ofInt (a * b)
  pow : F.pow (F.ofInt 10) (F.ofInt 0) = F.ofInt 1
  near : ∀ i : BitVec 32,
    F.le (F.fabs (F.sub (F.ofInt i.toInt) (F.ofInt i.toInt))) F.epsilon = true
  le : ∀ a b, intMin ≤ a → a ≤ b → b ≤ intMax → F.le (F.ofInt a) (F.ofInt b) = true

/-- The digits of a number give it. -/
theorem digitsFrom_digitBytes (n : Nat) : digitsFrom 0 (digitBytes n) = n := by
  induction n using Nat.strong_induction_on with
  | _ n ih =>
      rcases Nat.eq_zero_or_pos n with rfl | hPos
      · simp [digitBytes, digitsFrom]
      · have hRest := ih (n / 10) (by omega)
        have hByte : ((UInt8.ofNat (0x30 + n % 10)).toNat : Int) = 0x30 + (n % 10 : Nat) := by
          rw [UInt8.toNat_ofNat', Nat.mod_eq_of_lt (by omega)]
          rfl
        rw [digitsFrom, digitBytes] at hRest ⊢
        rw [Nat.digits_def' (by decide) hPos, List.reverse_cons, List.map_append, List.foldl_append,
          hRest, List.map_singleton, List.foldl_cons, List.foldl_nil, hByte]
        omega

private theorem isdigit_digitBytes (n : Nat) : ∀ c ∈ digitBytes n, isdigit c = true := by
  intro c hc
  obtain ⟨d, hd, rfl⟩ := List.mem_map.mp hc
  have hLt : d < 10 := Nat.digits_lt_base (by decide) (List.mem_reverse.mp hd)
  have hAll : ∀ d < 10, isdigit (UInt8.ofNat (0x30 + d)) = true := by decide
  exact hAll d hLt

/-- The first digit of a number is no zero. -/
theorem digitBytes_head {n : Nat} {c : UInt8} (h : (digitBytes n).head? = some c) : c ≠ 0x30 := by
  rw [digitBytes, List.head?_map, List.head?_reverse] at h
  cases hLast : (Nat.digits 10 n).getLast? with
  | none =>
      rw [hLast] at h
      cases h
  | some d =>
      rw [hLast] at h
      cases h
      have hNe : Nat.digits 10 n ≠ [] := by
        intro hNil
        rw [hNil] at hLast
        cases hLast
      have hZero : n ≠ 0 := fun hn => hNe (Nat.digits_eq_nil_iff_eq_zero.mpr hn)
      have hGet : (Nat.digits 10 n).getLast hNe = d :=
        Option.some.inj ((List.getLast?_eq_some_getLast hNe).symm.trans hLast)
      have hd : d ≠ 0 := hGet ▸ Nat.getLast_digit_ne_zero 10 hZero
      have hLt : d < 10 := Nat.digits_lt_base (by decide) (hGet ▸ List.getLast_mem hNe)
      have hAll : ∀ d < 10, d ≠ 0 → UInt8.ofNat (0x30 + d) ≠ 0x30 := by decide
      exact hAll d hLt hd

private theorem digitBytes_eq_nil {n : Nat} : digitBytes n = [] ↔ n = 0 := by
  rw [digitBytes, List.map_eq_nil_iff, List.reverse_eq_nil_iff, Nat.digits_eq_nil_iff_eq_zero]

/-- The literal that an `int` is printed to. -/
def intLiteral (i : Int) : Literal where
  minus := decide (i < 0)
  whole := digitBytes i.natAbs
  fraction := []
  exponent := none
  wholeDigits := isdigit_digitBytes _
  wholeFirst := fun _ => digitBytes_head
  fractionDigits := fun _ h => by cases h

theorem intLiteral_text (i : Int) : (intLiteral i).text = decimal i := by
  simp only [Literal.text, Literal.wholeText, Literal.fractionText, Literal.exponentText,
    intLiteral, decimal, digitBytes_eq_nil, decide_eq_true_eq, if_true, Option.map_none,
    Option.getD_none, List.append_nil]

section

variable {D : Type} {F : Double D}

/-- Digits are added up exactly. -/
theorem digitsLoop_exact (hF : Exact F) {digits : List UInt8} {n : Int} (hn : 0 ≤ n)
    (hDigits : ∀ c ∈ digits, isdigit c = true) (hFits : digitsFrom n digits ≤ 2 ^ 53) :
    digitsLoop F (F.ofInt n) digits = F.ofInt (digitsFrom n digits) := by
  induction digits generalizing n with
  | nil => rfl
  | cons c cs ih =>
      have hc := (isdigit_iff.mp (hDigits c (List.mem_cons_self ..))).1
      have hNat : 0x30 ≤ c.toNat := UInt8.le_iff_toNat_le.mp hc
      have hRest := fun y hy => hDigits y (List.mem_cons_of_mem c hy)
      have hStep : n * 10 + ((c.toNat : Int) - 0x30) ≤ 2 ^ 53 :=
        (digitsFrom_ge (by omega) hRest).trans hFits
      have hMul := hF.mul n 10 (Or.inl ⟨hn, by decide⟩) (by omega) (by omega)
      have hAdd := hF.add (n * 10) ((c.toNat : Int) - 0x30) (by omega) (by omega) hStep
      have hLoop := ih (n := n * 10 + ((c.toNat : Int) - 0x30)) (by omega) hRest hFits
      rw [digitsLoop, List.foldl_cons, hMul, hAdd]
      exact hLoop

/-- The number of such a literal is the `int`. -/
theorem intLiteral_value (hF : Exact F) (i : BitVec 32) :
    (intLiteral i.toInt).value F = F.ofInt i.toInt := by
  have hLow := BitVec.le_toInt i
  have hHigh := BitVec.toInt_lt (x := i)
  have hValue := digitsFrom_digitBytes i.toInt.natAbs
  have hDigits : digitsLoop F (F.ofInt 0) (digitBytes i.toInt.natAbs) =
      F.ofInt i.toInt.natAbs := by
    rw [digitsLoop_exact hF le_rfl (isdigit_digitBytes _) (by omega), hValue]
  have hSign : F.mul (F.ofInt (if i.toInt < 0 then -1 else 1)) (F.ofInt i.toInt.natAbs) =
      F.ofInt i.toInt := by
    by_cases hNeg : i.toInt < 0
    · rw [if_pos hNeg, hF.mul _ _ (Or.inr (by omega)) (by omega) (by omega)]
      congr 1
      omega
    · rw [if_neg hNeg, hF.mul _ _ (Or.inl ⟨by decide, by omega⟩) (by omega) (by omega)]
      congr 1
      omega
  have hOne : F.mul (F.ofInt i.toInt) (F.ofInt 1) = F.ofInt i.toInt := by
    by_cases hZero : i.toInt = 0
    · rw [hF.mul _ _ (Or.inl ⟨by omega, by decide⟩) (by omega) (by omega)]
      congr 1
      omega
    · rw [hF.mul _ _ (Or.inr (by omega)) (by omega) (by omega)]
      congr 1
      omega
  rw [← scaled_eq]
  simp only [scaled, Literal.power, intLiteral, decide_eq_true_eq, hDigits, Option.map_none,
    Option.getD_none, scaleLoop, List.foldl_nil]
  rw [show digitsLoop F (F.ofInt i.toInt.natAbs) [] = F.ofInt i.toInt.natAbs from rfl, hSign,
    hF.add 0 0 le_rfl le_rfl (by decide), Int.add_zero, hF.pow, hOne]

/-! ## Items -/

mutual

/-- The numbers of an item and of those below it are whole. -/
def Item.Whole (F : Double D) : Item D → Prop
  | ⟨.number, _, valueint, valuedouble, _, _⟩ => valuedouble = F.ofInt valueint.toInt
  | ⟨.array, _, _, _, _, child⟩ => AllWhole F child
  | ⟨.object, _, _, _, _, child⟩ => AllWhole F child
  | _ => True

def AllWhole (F : Double D) : List (Item D) → Prop
  | [] => True
  | child :: next => child.Whole F ∧ AllWhole F next

end

private theorem number_whole (hF : Exact F) (i : BitVec 32) :
    Number F (i, F.ofInt i.toInt) (numberText F i (F.ofInt i.toInt)) := by
  have hLow := BitVec.le_toInt i
  have hHigh := BitVec.toInt_lt (x := i)
  have hInt : isInt F i (F.ofInt i.toInt) = true := by
    rw [isInt, hF.near i, hF.le _ _ (by unfold intMin; omega) (by unfold intMax; omega) le_rfl,
      hF.le _ _ le_rfl (by unfold intMin; omega) (by unfold intMax; omega)]
    rfl
  refine ⟨intLiteral i.toInt, ?_, ?_⟩
  · rw [numberText, if_pos hInt, intLiteral_text]
  · rw [intLiteral_value hF, hF.toInt]

theorem gap_append (w w' : List UInt8) (hw : (grammar F).gap w) (hw' : (grammar F).gap w') :
    (grammar F).gap (w ++ w') := by
  intro c hc
  rcases List.mem_append.mp hc with h | h
  · exact hw c h
  · exact hw' c h

theorem gap_nil : (grammar F).gap [] := fun _ h => by cases h

theorem gap_replicate {b : UInt8} (hb : Blank b) (n : Nat) :
    (grammar F).gap (List.replicate n b) := by
  intro c hc
  rw [List.eq_of_mem_replicate hc]
  exact hb

theorem gap_if {b : Bool} {w : List UInt8} (hw : (grammar F).gap w) :
    (grammar F).gap (if b then w else []) := by
  cases b
  · exact gap_nil
  · exact hw

theorem blank_tab : Blank 0x09 := ⟨by decide, by decide⟩

theorem blank_newline : Blank 0x0a := ⟨by decide, by decide⟩

private theorem blank_space : Blank 0x20 := ⟨by decide, by decide⟩

theorem gap_singleton {b : UInt8} (hb : Blank b) : (grammar F).gap [b] := gap_replicate hb 1

/-- A text alone is one with gaps around it. -/
theorem Padded_of_text {v : Value (BitVec 32 × D)} {t : List UInt8} (h : Text (grammar F) v t) :
    Padded (grammar F) v t := by
  have hPadded := Padded.mk gap_nil h gap_nil
  rwa [List.append_nil, List.nil_append] at hPadded

/-- The text of an array with elements or without. -/
theorem arrayText_text {vs : List (Value (BitVec 32 × D))} {entries : List (List UInt8)}
    (fmt : Bool) (h : List.Forall₂ (Text (grammar F)) vs entries) :
    Text (grammar F) (.array vs) (arrayText entries fmt) := by
  have hAll : vs ≠ [] → Elements (grammar F) vs (joined fmt entries) := by
    intro hNe
    induction h with
    | nil => exact absurd rfl hNe
    | @cons v entry vs entries hFirst hRest ih =>
        rw [joined]
        by_cases hNil : entries = []
        · subst hNil
          cases hRest
          rw [if_pos rfl, List.append_nil]
          exact .last (Padded_of_text hFirst)
        · have hVs : vs ≠ [] := by
            rintro rfl
            cases hRest
            exact hNil rfl
          rw [if_neg hNil, List.singleton_append]
          exact .cons (Padded_of_text hFirst)
            ((ih hVs).before gap_append (gap_if (gap_singleton blank_space)))
  by_cases hNe : vs = []
  · subst hNe
    cases h
    exact .empty gap_nil
  · exact .array (hAll hNe)

/-- A member as `print_object` lays it out. -/
theorem member_line (name : Str) {v : Value (BitVec 32 × D)} {entry : List UInt8} (fmt : Bool)
    (depth : Nat) (h : Text (grammar F) v entry) :
    Member (grammar F) (name.val, v)
      ((if fmt then List.replicate depth 0x09 else []) ++
        (stringText (some name) ++ (0x3a :: ((if fmt then [0x09] else []) ++ entry)))) := by
  have hValue := (Padded_of_text h).before gap_append
    (gap_if (b := fmt) (gap_singleton (F := F) blank_tab))
  have hMember := Member.mk (gap_if (b := fmt) (gap_replicate (F := F) blank_tab depth))
    (chars_escaped name.property) gap_nil hValue
  rwa [List.nil_append] at hMember

/-- The text of an object with members or without. -/
theorem objectText_text {ms : List (List UInt8 × Value (BitVec 32 × D))}
    {entries : List (List UInt8 × List UInt8)} (fmt : Bool) (depth : Nat)
    (h : List.Forall₂ (fun m line => ∃ name : Str, name.val = m.1 ∧
      line.1 = stringText (some name) ∧ Text (grammar F) m.2 line.2) ms entries) :
    Text (grammar F) (.object ms) (objectText entries depth fmt) := by
  have hAll : ms ≠ [] → Members (grammar F) ms (lines fmt (depth + 1) entries) := by
    intro hNe
    induction h with
    | nil => exact absurd rfl hNe
    | @cons m line ms entries hFirst hRest ih =>
        obtain ⟨name, hName, hText, hValue⟩ := hFirst
        have hLine := (member_line name fmt (depth + 1) hValue).behind gap_append
          (gap_if (b := fmt) (gap_singleton (F := F) blank_newline))
        rw [hName] at hLine
        obtain ⟨text, entry⟩ := line
        simp only at hText hValue hLine
        subst hText
        rw [lines]
        by_cases hNil : entries = []
        · subst hNil
          cases hRest
          refine .last ?_
          simpa only [List.append_assoc, List.cons_append, List.nil_append, ne_eq,
            not_true_eq_false, if_false, lines, List.append_nil] using hLine
        · have hMs : ms ≠ [] := by
            rintro rfl
            cases hRest
            exact hNil rfl
          have hNext := (ih hMs).before gap_append
            (gap_if (b := fmt) (gap_singleton (F := F) blank_newline))
          have hMember := member_line name fmt (depth + 1) hValue
          rw [hName] at hMember
          have hBoth := Members.cons hMember hNext
          rw [if_pos hNil]
          simpa only [List.append_assoc, List.cons_append, List.nil_append] using hBoth
  unfold objectText
  by_cases hNe : ms = []
  · subst hNe
    cases h
    rw [if_pos rfl]
    refine .blank (gap_if ?_)
    exact gap_append [0x0a] _ (gap_singleton blank_newline) (gap_replicate blank_tab _)
  · have hEntries : entries ≠ [] := by
      rintro rfl
      cases h
      exact hNe rfl
    have hBody := ((hAll hNe).behind gap_append
      (gap_if (b := fmt) (gap_replicate (F := F) blank_tab depth))).before gap_append
        (gap_if (b := fmt) (gap_singleton (F := F) blank_newline))
    rw [if_neg hEntries]
    have hObject := Text.object hBody
    simpa only [List.append_assoc] using hObject

mutual

/-- What an item is printed to means its value. -/
theorem render_text (hF : Exact F) : ∀ (item : Item D) (depth : Nat) (fmt : Bool)
    (v : Value (BitVec 32 × D)), item.meaning = some v → item.Whole F →
      Text (grammar F) v (render F item depth fmt)
  | ⟨.null, _, _, _, _, _⟩, _, _, _ => by
      rintro ⟨⟩ -
      exact .null rfl
  | ⟨.false, _, _, _, _, _⟩, _, _, _ => by
      rintro ⟨⟩ -
      exact .falsum rfl
  | ⟨.true, _, _, _, _, _⟩, _, _, _ => by
      rintro ⟨⟩ -
      exact .verum rfl
  | ⟨.number, _, valueint, valuedouble, _, _⟩, _, _, _ => by
      rintro ⟨⟩ hWhole
      rw [Item.Whole] at hWhole
      subst hWhole
      exact .number (number_whole hF valueint)
  | ⟨.string, valuestring, _, _, _, _⟩, _, _, v => by
      intro hMeaning _
      rw [Item.meaning] at hMeaning
      obtain ⟨s, rfl, rfl⟩ := Option.map_eq_some_iff.mp hMeaning
      exact .string (chars_escaped s.property)
  | ⟨.array, _, _, _, _, child⟩, depth, fmt, v => by
      intro hMeaning hWhole
      rw [Item.meaning] at hMeaning
      obtain ⟨vs, hVs, rfl⟩ := Option.map_eq_some_iff.mp hMeaning
      exact arrayText_text fmt (renderElements_text hF child (depth + 1) fmt vs hVs hWhole)
  | ⟨.object, _, _, _, _, child⟩, depth, fmt, v => by
      intro hMeaning hWhole
      rw [Item.meaning] at hMeaning
      obtain ⟨ms, hMs, rfl⟩ := Option.map_eq_some_iff.mp hMeaning
      exact objectText_text fmt depth (renderMembers_text hF child (depth + 1) fmt ms hMs hWhole)

theorem renderElements_text (hF : Exact F) : ∀ (child : List (Item D)) (depth : Nat) (fmt : Bool)
    (vs : List (Value (BitVec 32 × D))), elements child = some vs → AllWhole F child →
      List.Forall₂ (Text (grammar F)) vs (renderElements F child depth fmt)
  | [], _, _, _ => by
      rintro ⟨⟩ -
      exact .nil
  | child :: next, depth, fmt, vs => by
      intro hVs hWhole
      rw [elements] at hVs
      obtain ⟨v, hv, hVs⟩ := Option.bind_eq_some_iff.mp hVs
      obtain ⟨values, hValues, hVs⟩ := Option.bind_eq_some_iff.mp hVs
      cases hVs
      exact .cons (render_text hF child depth fmt v hv hWhole.1)
        (renderElements_text hF next depth fmt values hValues hWhole.2)

theorem renderMembers_text (hF : Exact F) : ∀ (child : List (Item D)) (depth : Nat) (fmt : Bool)
    (ms : List (List UInt8 × Value (BitVec 32 × D))), members child = some ms →
      AllWhole F child →
      List.Forall₂ (fun m line => ∃ name : Str, name.val = m.1 ∧
        line.1 = stringText (some name) ∧ Text (grammar F) m.2 line.2) ms
        (renderMembers F child depth fmt)
  | [], _, _, _ => by
      rintro ⟨⟩ -
      exact .nil
  | child :: next, depth, fmt, ms => by
      intro hMs hWhole
      rw [members] at hMs
      obtain ⟨name, hName, hMs⟩ := Option.bind_eq_some_iff.mp hMs
      obtain ⟨v, hv, hMs⟩ := Option.bind_eq_some_iff.mp hMs
      obtain ⟨rest, hRest, hMs⟩ := Option.bind_eq_some_iff.mp hMs
      cases hMs
      refine .cons ⟨name, rfl, ?_, render_text hF child depth fmt v hv hWhole.1⟩
        (renderMembers_text hF next depth fmt rest hRest hWhole.2)
      rw [hName]

end

end

/-- Every item is printed within the buffers that the printers ask for, formatted or not and at any
depth, and the text is the layout of its names and values alone. -/
theorem json_print_fits {D : Type} {F : Double D} (hF : Sprintf F) (item : Item D) (depth : Nat)
    (fmt : Bool) (hSize : 2 * ((render F item depth fmt).length : Int) + 64 ≤ intMax) :
    printValue F item depth fmt = some (render F item depth fmt) :=
  printValue_eq hF item depth fmt hSize

/-- Exact arithmetic of whole numbers. -/
theorem sprintf_integers : Sprintf integers where
  whole d h := by
    simp only [integers, decide_eq_true_eq] at h
    have hNat : d.natAbs < 10 ^ 60 := by omega
    have hDigits := length_digitBytes_le 60 hNat
    show (decimal d).length < 64
    rw [decimal, List.length_append]
    split_ifs <;> simp only [List.length_nil, List.length_singleton] <;> omega
  scientific d := by
    show ((decimal d).take 63).length < 64
    rw [List.length_take]
    omega
  fixed d h := by
    have hLe : ¬(10 ^ 9 < ((d.natAbs : Nat) : Int)) := of_decide_eq_false h
    have hDigits := @length_digitBytes_le d.natAbs 10 (by omega)
    show (decimal d ++ ascii ".000000").length < 64
    rw [decimal, List.length_append, List.length_append]
    have hTail : (ascii ".000000").length = 7 := rfl
    split_ifs <;> simp only [List.length_nil, List.length_singleton] <;> omega

private theorem exact_integers : Exact integers where
  toInt i := BitVec.ofInt_toInt
  add _ _ _ _ _ := rfl
  mul _ _ _ _ _ := rfl
  pow := rfl
  near i := by
    show decide (((i.toInt - i.toInt).natAbs : Int) ≤ 0) = true
    simp
  le a b _ h _ := decide_eq_true h

/-- `{"k": ["\n", {}, 0]}` as it is printed one level down. -/
theorem json_print_fits_object :
    printValue integers
        ⟨.object, none, 0, 0, none,
          [⟨.array, none, 0, 0, some (Str.of [0x6b]),
            [⟨.string, some (Str.of [0x0a]), 0, 0, none, []⟩, ⟨.object, none, 0, 0, none, []⟩,
              ⟨.number, none, 0, 0, none, []⟩]⟩]⟩ 1 true =
      some (render integers
        ⟨.object, none, 0, 0, none,
          [⟨.array, none, 0, 0, some (Str.of [0x6b]),
            [⟨.string, some (Str.of [0x0a]), 0, 0, none, []⟩, ⟨.object, none, 0, 0, none, []⟩,
              ⟨.number, none, 0, 0, none, []⟩]⟩]⟩ 1 true) :=
  json_print_fits sprintf_integers _ 1 true (by decide)

/-- What is printed, formatted or not, is parsed to an item of the same value, and no byte of the
text is left. -/
theorem json_print_parse {D : Type} {F : Double D} (hExact : Exact F) (hSprintf : Sprintf F)
    (item : Item D) (fmt : Bool) (post : List UInt8) {v : Value (BitVec 32 × D)}
    (hMeaning : item.meaning = some v) (hWhole : item.Whole F)
    (hSize : 2 * ((render F item 0 fmt).length : Int) + 64 ≤ intMax) :
    ∃ text out, printValue F item 0 fmt = some text ∧
      cJSONParseWithOpts F (text ++ 0 :: post) true = .done (out, 0 :: post) ∧
      out.meaning = some v := by
  have hText := render_text hExact item 0 fmt v hMeaning hWhole
  obtain ⟨first, others, hFirst, hLow, -⟩ := Text_head hText
  have hSkip : skip (render F item 0 fmt ++ 0 :: post) =
      some (render F item 0 fmt ++ 0 :: post) := by
    rw [hFirst]
    exact skip_solid (not_blank hLow)
  have hZero : skip (0 :: post) = some (0 :: post) := skip_solid fun h => h.1 rfl
  obtain ⟨out, hParse, hOut, -⟩ := parseValue_spec hText
    (3 * (render F item 0 fmt ++ 0 :: post).length + 1) (newItem F) (0 :: post)
    (by simp only [List.length_append]; omega) (by omega) ⟨0, post, rfl, by decide⟩ rfl
  refine ⟨render F item 0 fmt, out, printValue_eq hSprintf item 0 fmt hSize, ?_, hOut⟩
  rw [cJSONParseWithOpts, hSkip]
  simp only [Outcome.liftM_some, Outcome.done_bind, hParse, if_true, hZero, List.head?_cons]
  rfl

theorem json_print_parse_object :
    ∃ text out, printValue integers
        ⟨.object, none, 0, 0, none,
          [⟨.array, none, 0, 0, some (Str.of [0x6b]),
            [⟨.string, some (Str.of [0x0a]), 0, 0, none, []⟩, ⟨.object, none, 0, 0, none, []⟩,
              ⟨.number, none, 0, 0, none, []⟩]⟩]⟩ 0 true = some text ∧
      cJSONParseWithOpts integers (text ++ 0 :: []) true = .done (out, 0 :: []) ∧
      out.meaning =
        some (.object [([0x6b], .array [.string [0x0a], .object [], .number (0, 0)])]) :=
  json_print_parse exact_integers sprintf_integers _ true [] rfl
    ⟨⟨trivial, trivial, rfl, trivial⟩, trivial⟩ (by decide)

end Gbase.Util.Cjson
