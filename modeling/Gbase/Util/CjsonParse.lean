import Gbase.Util.CjsonNumber
import Gbase.Util.CjsonString

/-!
# What a text of JSON is parsed to (`util/cjson.c`)

The value of an item is what the callers of the library read from it.  A text is parsed as far as
its value goes, with any blanks between the tokens, and no call leaves the text.

Blanks are all bytes up to 32 but the end of the text, as in the source, and values may be nested to
any depth.  A number is given to the arithmetic of `double` as its digits are collected, so it
stands for what these operations make of them.

## Main results

* `parseValue_spec`, and the same for the arrays and objects: one case for each form of a text.
* `json_parse_complete`: what a text means is what `cJSON_ParseWithOpts` returns.
-/

namespace Gbase.Util.Cjson

open Gbase.Lib
open Gbase.Lib.CString
open Gbase.Lib.Json

/-! ## The value of an item -/

section

variable {D : Type}

mutual

/-- The value of an item, if its type and its strings are there. -/
def Item.meaning : Item D → Option (Value (BitVec 32 × D))
  | ⟨.null, _, _, _, _, _⟩ => some .null
  | ⟨.false, _, _, _, _, _⟩ => some (.bool false)
  | ⟨.true, _, _, _, _, _⟩ => some (.bool true)
  | ⟨.number, _, valueint, valuedouble, _, _⟩ => some (.number (valueint, valuedouble))
  | ⟨.string, valuestring, _, _, _, _⟩ => valuestring.map fun s => .string s.val
  | ⟨.array, _, _, _, _, child⟩ => (elements child).map .array
  | ⟨.object, _, _, _, _, child⟩ => (members child).map .object

/-- The values of the items in a chain. -/
def elements : List (Item D) → Option (List (Value (BitVec 32 × D)))
  | [] => some []
  | item :: next => do
      let v ← item.meaning
      let values ← elements next
      return v :: values

/-- Their values with their names. -/
def members : List (Item D) → Option (List (List UInt8 × Value (BitVec 32 × D)))
  | [] => some []
  | item :: next => do
      let name ← item.string
      let v ← item.meaning
      let ms ← members next
      return (name.val, v) :: ms

end

variable {item : Item D} {next : List (Item D)} {v : Value (BitVec 32 × D)}

theorem elements_cons {values : List (Value (BitVec 32 × D))} (hItem : item.meaning = some v)
    (hNext : elements next = some values) : elements (item :: next) = some (v :: values) := by
  simp [elements, hItem, hNext]

private theorem members_cons {name : Str} {ms : List (List UInt8 × Value (BitVec 32 × D))}
    (hName : item.string = some name) (hItem : item.meaning = some v)
    (hNext : members next = some ms) : members (item :: next) = some ((name.val, v) :: ms) := by
  simp [members, hName, hItem, hNext]

end

/-- A byte that `skip` goes over. -/
def Blank (c : UInt8) : Prop := c ≠ 0 ∧ c ≤ 32

/-- The texts that the parser reads: blanks between the tokens, and the literals of numbers. -/
def grammar {D : Type} (F : Double D) : Grammar (BitVec 32 × D) where
  gap w := ∀ c ∈ w, Blank c
  number := Number F

/-! ## Blanks -/

section

variable {w rest post : List UInt8} {c : UInt8}

theorem skip_gap (hw : ∀ c ∈ w, Blank c) : skip (w ++ rest) = skip rest := by
  induction w with
  | nil => rfl
  | cons c w ih =>
      have hc : Blank c := hw c (List.mem_cons_self ..)
      rw [List.cons_append, skip, if_pos (show c ≠ 0 ∧ c ≤ 32 from hc)]
      exact ih fun x hx => hw x (List.mem_cons_of_mem c hx)

theorem skip_solid (hc : ¬Blank c) : skip (c :: post) = some (c :: post) := by
  rw [skip, if_neg (show ¬(c ≠ 0 ∧ c ≤ 32) from hc)]

/-- A byte above the blank is none. -/
theorem not_blank (h : 32 < c) : ¬Blank c := fun hBlank => absurd hBlank.2 (UInt8.not_le.mpr h)

/-- What is skipped to is no blank. -/
theorem skip_skip {value a : List UInt8} (h : skip value = some a) : skip a = some a := by
  induction value with
  | nil => cases h
  | cons c value ih =>
      rw [skip] at h
      split at h
      · exact ih h
      · next hc =>
          cases h
          exact skip_solid hc

/-- The bytes behind a value in an array or an object. -/
def Closes (rest : List UInt8) : Prop :=
  ∃ c post, rest = c :: post ∧ (c = 0x2c ∨ c = 0x5d ∨ c = 0x7d)

theorem Closes.skip (h : Closes rest) : skip rest = some rest := by
  obtain ⟨c, post, rfl, rfl | rfl | rfl⟩ := h <;> exact skip_solid (not_blank (by decide))

theorem Closes.ends (h : Closes rest) : Ends rest := by
  obtain ⟨c, post, rfl, hc⟩ := h
  refine ⟨c, post, rfl, ?_⟩
  rcases hc with rfl | rfl | rfl <;> decide

/-- No blank goes on with a number. -/
theorem Ends.gap (hw : ∀ c ∈ w, Blank c) (h : Ends rest) : Ends (w ++ rest) := by
  cases w with
  | nil => exact h
  | cons c w =>
      have hLe := UInt8.le_iff_toNat_le.mp (hw c (List.mem_cons_self ..)).2
      have hNe : ∀ x : UInt8, 32 < x.toNat → c ≠ x := by
        rintro x hx rfl
        exact absurd hLe (Nat.not_le.mpr hx)
      refine ⟨c, w ++ rest, rfl, ?_, hNe _ (by decide), hNe _ (by decide), hNe _ (by decide)⟩
      rw [← Bool.not_eq_true, isdigit_iff]
      intro hDigit
      have hLow : 48 ≤ c.toNat := UInt8.le_iff_toNat_le.mp hDigit.1
      have hHigh : c.toNat ≤ 32 := hLe
      omega

end

/-! ## The first byte of a value -/

section

variable {D : Type} {F : Double D} {text value : List UInt8} {c : UInt8}

theorem starts_append (text rest : List UInt8) : starts text (text ++ rest) = some true := by
  induction text with
  | nil => rfl
  | cons t text ih => rw [List.cons_append, starts, if_pos rfl, ih]

theorem starts_other {t : UInt8} (h : c ≠ t) : starts (t :: text) (c :: value) = some false := by
  rw [starts, if_neg h]

/-- What a text does not start with: a blank, or the end of an array or an object. -/
theorem Text_head {v : Value (BitVec 32 × D)} (h : Text (grammar F) v text) :
    ∃ c post, text = c :: post ∧ 32 < c ∧ c ≠ 0x5d ∧ c ≠ 0x7d := by
  cases h with
  | null ht => exact ⟨0x6e, _, ht, by decide⟩
  | falsum ht => exact ⟨0x66, _, ht, by decide⟩
  | verum ht => exact ⟨0x74, _, ht, by decide⟩
  | number hn =>
      obtain ⟨l, rfl, -⟩ := hn
      obtain ⟨c, post, hText, hc⟩ := l.text_head
      refine ⟨c, post, hText, ?_⟩
      rcases hc with rfl | hDigit
      · decide
      · have hIs := isdigit_iff.mp hDigit
        refine ⟨UInt8.lt_of_lt_of_le (by decide) hIs.1, ?_, ?_⟩
        · rintro rfl
          exact absurd hIs.2 (by decide)
        · rintro rfl
          exact absurd hIs.2 (by decide)
  | string => exact ⟨0x22, _, rfl, by decide⟩
  | empty => exact ⟨0x5b, _, rfl, by decide⟩
  | array => exact ⟨0x5b, _, rfl, by decide⟩
  | blank => exact ⟨0x7b, _, rfl, by decide⟩
  | object => exact ⟨0x7b, _, rfl, by decide⟩

/-- The calls that a text needs at least. -/
theorem Text_fuel {v : Value (BitVec 32 × D)} (h : Text (grammar F) v text) {fuel : Nat}
    (hFuel : 2 * text.length ≤ fuel) : ∃ f, fuel = f + 2 := by
  obtain ⟨c, post, rfl, -⟩ := Text_head h
  rw [List.length_cons] at hFuel
  exact Nat.exists_eq_add_of_le' (by omega)

/-- `parse_value` where none of the three words starts. -/
theorem parseValue_other {fuel : Nat} {item : Item D} {post : List UInt8} (hn : c ≠ 0x6e)
    (hf : c ≠ 0x66) (ht : c ≠ 0x74) :
    parseValue F (fuel + 1) item (c :: post) =
      if c = 0x22 then parseString item (c :: post)
      else if c = 0x2d ∨ isdigit c then liftM (parseNumber F item (c :: post))
      else if c = 0x5b then parseArray F fuel item (c :: post)
      else if c = 0x7b then parseObject F fuel item (c :: post)
      else .failed (c :: post) := by
  have hNull : starts (ascii "null") (c :: post) = some false := starts_other hn
  have hFalse : starts (ascii "false") (c :: post) = some false := starts_other hf
  have hTrue : starts (ascii "true") (c :: post) = some false := starts_other ht
  rw [parseValue]
  simp only [hNull, hFalse, hTrue, Outcome.liftM_some, Outcome.done_bind, Bool.false_eq_true,
    if_false, List.head?_cons]

/-- A member is read from behind the blanks before it. -/
theorem parseMember_skip {fuel : Nat} {a : List UInt8} (h : skip value = some a) :
    parseMember F fuel value = parseMember F fuel a := by
  cases fuel with
  | zero => rfl
  | succ fuel => rw [parseMember, parseMember, h, skip_skip h]

end

/-! ## Values -/

section

variable {D : Type} {F : Double D}

mutual

/-- `parse_value` on a text and what ends it. -/
theorem parseValue_spec : ∀ {v : Value (BitVec 32 × D)} {t : List UInt8}, Text (grammar F) v t →
    ∀ (fuel : Nat) (item : Item D) (rest : List UInt8), 2 * t.length ≤ fuel →
      (t.length : Int) ≤ intMax → Ends rest → item.child = [] →
      ∃ out, parseValue F fuel item (t ++ rest) = .done (out, rest) ∧ out.meaning = some v ∧
        out.string = item.string
  | _, _, .null ht => by
      intro fuel item rest hFuel _ _ _
      obtain ⟨fuel, rfl⟩ := Text_fuel (F := F) (.null ht) hFuel
      subst ht
      refine ⟨{ item with type := .null }, ?_, rfl, rfl⟩
      rw [parseValue, starts_append]
      rfl
  | _, _, .falsum ht => by
      intro fuel item rest hFuel _ _ _
      obtain ⟨fuel, rfl⟩ := Text_fuel (F := F) (.falsum ht) hFuel
      subst ht
      refine ⟨{ item with type := .false }, ?_, rfl, rfl⟩
      have hNull : starts (ascii "null") (ascii "false" ++ rest) = some false :=
        starts_other (by decide)
      rw [parseValue, hNull, starts_append]
      rfl
  | _, _, .verum ht => by
      intro fuel item rest hFuel _ _ _
      obtain ⟨fuel, rfl⟩ := Text_fuel (F := F) (.verum ht) hFuel
      subst ht
      refine ⟨{ item with type := .true, valueint := 1 }, ?_, rfl, rfl⟩
      have hNull : starts (ascii "null") (ascii "true" ++ rest) = some false :=
        starts_other (by decide)
      have hFalse : starts (ascii "false") (ascii "true" ++ rest) = some false :=
        starts_other (by decide)
      rw [parseValue, hNull, hFalse, starts_append]
      rfl
  | _, _, .number hn => by
      intro fuel item rest hFuel _ hEnds _
      obtain ⟨fuel, rfl⟩ := Text_fuel (F := F) (.number hn) hFuel
      obtain ⟨l, rfl, hValue⟩ := hn
      obtain ⟨c, post, hText, hc⟩ := l.text_head
      have hRead := l.parseNumber_spec F item hEnds
      have hNot : c ≠ 0x6e ∧ c ≠ 0x66 ∧ c ≠ 0x74 ∧ c ≠ 0x22 := by
        rcases hc with rfl | hDigit
        · decide
        · have hHigh := (isdigit_iff.mp hDigit).2
          have hLow := (isdigit_iff.mp hDigit).1
          refine ⟨?_, ?_, ?_, ?_⟩ <;> rintro rfl <;> revert hHigh hLow <;> decide
      have hCons : l.text ++ rest = c :: (post ++ rest) := by rw [hText, List.cons_append]
      refine ⟨{ item with
        valuedouble := l.value F, valueint := F.toInt (l.value F), type := .number }, ?_, ?_, rfl⟩
      · rw [hCons, parseValue_other hNot.1 hNot.2.1 hNot.2.2.1, if_neg hNot.2.2.2, if_pos hc,
          ← hCons, hRead, Outcome.liftM_some]
      · rw [Item.meaning, hValue]
  | _, _, .string hc => by
      intro fuel item rest hFuel hSize _ _
      obtain ⟨fuel, rfl⟩ := Text_fuel (F := F) (.string hc) hFuel
      have hRead := @parseString_spec _ _ rest D item hc hSize
      refine ⟨{ item with valuestring := some ⟨_, Chars_ne_zero hc⟩, type := .string }, ?_, ?_, rfl⟩
      · rw [quoted, List.cons_append] at hRead ⊢
        rw [parseValue_other (by decide) (by decide) (by decide), if_pos rfl, hRead]
      · rw [Item.meaning]
        rfl
  | _, _, .empty (w := w) hw => by
      intro fuel item rest hFuel _ _ hChild
      obtain ⟨fuel, rfl⟩ := Text_fuel (F := F) (.empty hw) hFuel
      refine ⟨{ item with type := .array }, ?_, ?_, rfl⟩
      · have hSkip : skip (w ++ [0x5d] ++ rest) = some (0x5d :: rest) := by
          rw [List.append_assoc, skip_gap hw]
          exact skip_solid (not_blank (by decide))
        rw [List.cons_append, parseValue_other (by decide) (by decide) (by decide),
          if_neg (by decide), if_neg (by decide), if_pos rfl, parseArray, List.tail_cons, hSkip]
        rfl
      · rw [Item.meaning, hChild]
        rfl
  | _, _, .array he => by
      intro fuel item rest hFuel hSize _ _
      obtain ⟨fuel, rfl⟩ := Text_fuel (F := F) (.array he) hFuel
      rw [List.length_cons, List.length_append, List.length_singleton] at hFuel hSize
      obtain ⟨a, child, b, b', children, hSkip, hHead, hParse, hBehind, hLoop, hMeaning⟩ :=
        elementsSpec he fuel rest (by omega) (by omega)
      refine ⟨{ item with type := .array, child := child :: children }, ?_, ?_, rfl⟩
      · rw [List.cons_append, parseValue_other (by decide) (by decide) (by decide),
          if_neg (by decide), if_neg (by decide), if_pos rfl, parseArray, List.tail_cons,
          List.append_assoc, List.singleton_append, hSkip]
        simp only [Outcome.liftM_some, Outcome.done_bind, if_neg hHead, skip_skip hSkip, hParse,
          hBehind]
        have hAll := hLoop []
        rw [List.nil_append] at hAll
        simp [hAll]
      · rw [Item.meaning, hMeaning]
        rfl
  | _, _, .blank (w := w) hw => by
      intro fuel item rest hFuel _ _ hChild
      obtain ⟨fuel, rfl⟩ := Text_fuel (F := F) (.blank hw) hFuel
      refine ⟨{ item with type := .object }, ?_, ?_, rfl⟩
      · have hSkip : skip (w ++ [0x7d] ++ rest) = some (0x7d :: rest) := by
          rw [List.append_assoc, skip_gap hw]
          exact skip_solid (not_blank (by decide))
        rw [List.cons_append, parseValue_other (by decide) (by decide) (by decide),
          if_neg (by decide), if_neg (by decide), if_neg (by decide), if_pos rfl, parseObject,
          List.tail_cons, hSkip]
        rfl
      · rw [Item.meaning, hChild]
        rfl
  | _, _, .object hm => by
      intro fuel item rest hFuel hSize _ _
      obtain ⟨fuel, rfl⟩ := Text_fuel (F := F) (.object hm) hFuel
      rw [List.length_cons, List.length_append, List.length_singleton] at hFuel hSize
      obtain ⟨a, child, b, children, hSkip, hHead, hParse, hLoop, hMeaning⟩ :=
        membersSpec hm fuel rest (by omega) (by omega)
      refine ⟨{ item with type := .object, child := child :: children }, ?_, ?_, rfl⟩
      · rw [List.cons_append, parseValue_other (by decide) (by decide) (by decide),
          if_neg (by decide), if_neg (by decide), if_neg (by decide), if_pos rfl, parseObject,
          List.tail_cons, List.append_assoc, List.singleton_append, hSkip]
        simp only [Outcome.liftM_some, Outcome.done_bind, if_neg hHead, hParse]
        have hAll := hLoop []
        rw [List.nil_append] at hAll
        simp [hAll]
      · rw [Item.meaning, hMeaning]
        rfl

/-- A value with its blanks, up to the byte behind them. -/
theorem paddedSpec : ∀ {v : Value (BitVec 32 × D)} {t : List UInt8}, Padded (grammar F) v t →
    ∀ (fuel : Nat) (item : Item D) (rest : List UInt8), 2 * t.length ≤ fuel →
      (t.length : Int) ≤ intMax → Closes rest → item.child = [] →
      ∃ a b out, skip (t ++ rest) = some a ∧ a.head? ≠ some 0x5d ∧
        parseValue F fuel item a = .done (out, b) ∧ skip b = some rest ∧ out.meaning = some v ∧
        out.string = item.string
  | _, _, @Padded.mk _ _ _ w text w' hw ht hw' => by
      intro fuel item rest hFuel hSize hCloses hChild
      rw [List.length_append, List.length_append] at hFuel hSize
      obtain ⟨out, hParse, hMeaning, hString⟩ := parseValue_spec ht fuel item (w' ++ rest)
        (by omega) (by omega) (hCloses.ends.gap hw') hChild
      obtain ⟨c, post, hText, hLow, hNe, -⟩ := Text_head ht
      refine ⟨text ++ (w' ++ rest), w' ++ rest, out, ?_, ?_, hParse, ?_, hMeaning, hString⟩
      · rw [List.append_assoc, List.append_assoc, skip_gap hw, hText]
        exact skip_solid (not_blank hLow)
      · rw [hText, List.cons_append, List.head?_cons]
        exact fun hEq => hNe (Option.some.inj hEq)
      · rw [skip_gap hw', hCloses.skip]

/-- The elements of an array: the first one, and the loop over the others. -/
theorem elementsSpec : ∀ {vs : List (Value (BitVec 32 × D))} {t : List UInt8},
    Elements (grammar F) vs t → ∀ (fuel : Nat) (post : List UInt8), 2 * t.length + 1 ≤ fuel →
      (t.length : Int) ≤ intMax →
      ∃ a child b b' children, skip (t ++ 0x5d :: post) = some a ∧ a.head? ≠ some 0x5d ∧
        parseValue F fuel (newItem F) a = .done (child, b') ∧ skip b' = some b ∧
        (∀ acc, arrayLoop F fuel (acc ++ [child]) b =
          .done (acc ++ child :: children, 0x5d :: post)) ∧
        elements (child :: children) = some vs
  | _, _, .last hp => by
      intro fuel post hFuel hSize
      obtain ⟨fuel, rfl⟩ : ∃ f, fuel = f + 1 := Nat.exists_eq_add_of_le' (by omega)
      obtain ⟨a, b, out, hSkip, hHead, hParse, hBehind, hMeaning, -⟩ :=
        paddedSpec hp (fuel + 1) (newItem F) (0x5d :: post) (by omega) hSize
          ⟨0x5d, post, rfl, by decide⟩ rfl
      refine ⟨a, out, 0x5d :: post, b, [], hSkip, hHead, hParse, hBehind, ?_,
        elements_cons hMeaning rfl⟩
      intro acc
      rw [arrayLoop]
      rfl
  | _, _, @Elements.cons _ _ _ _ text texts hp he => by
      intro fuel post hFuel hSize
      rw [List.length_append, List.length_cons] at hFuel hSize
      obtain ⟨fuel, rfl⟩ : ∃ f, fuel = f + 1 := Nat.exists_eq_add_of_le' (by omega)
      obtain ⟨a, b, out, hSkip, hHead, hParse, hBehind, hMeaning, -⟩ :=
        paddedSpec hp (fuel + 1) (newItem F) (0x2c :: (texts ++ 0x5d :: post)) (by omega)
          (by omega) ⟨0x2c, _, rfl, by decide⟩ rfl
      obtain ⟨c, child, d, d', children, hSkip', -, hParse', hBehind', hLoop, hMeaning'⟩ :=
        elementsSpec he fuel post (by omega) (by omega)
      refine ⟨a, out, 0x2c :: (texts ++ 0x5d :: post), b, child :: children, ?_, hHead, hParse,
        hBehind, ?_, elements_cons hMeaning hMeaning'⟩
      · rw [List.append_assoc, List.cons_append]
        exact hSkip
      · intro acc
        have hNext := hLoop (acc ++ [out])
        rw [List.append_assoc acc [out] (child :: children), List.singleton_append] at hNext
        rw [arrayLoop, List.head?_cons, if_pos rfl, List.tail_cons, hSkip']
        simp only [Outcome.liftM_some, Outcome.done_bind, hParse', hBehind', hNext]

/-- A member of an object. -/
theorem memberSpec : ∀ {m : List UInt8 × Value (BitVec 32 × D)} {t : List UInt8},
    Member (grammar F) m t → ∀ (fuel : Nat) (rest : List UInt8), 2 * t.length ≤ fuel →
      (t.length : Int) ≤ intMax → Closes rest →
      ∃ a child name, skip (t ++ rest) = some a ∧ a.head? ≠ some 0x7d ∧
        parseMember F fuel a = .done (child, rest) ∧ child.string = some name ∧
        name.val = m.1 ∧ child.meaning = some m.2
  | _, _, @Member.mk _ _ name w chars w' text _ hw hc hw' hp => by
      intro fuel rest hFuel hSize hCloses
      have hLength : (w ++ (quoted chars ++ (w' ++ 0x3a :: text))).length =
          w.length + ((quoted chars).length + (w'.length + (text.length + 1))) := by
        simp only [List.length_append, List.length_cons]
      rw [hLength] at hFuel hSize
      obtain ⟨fuel, rfl⟩ : ∃ f, fuel = f + 1 := Nat.exists_eq_add_of_le' (by omega)
      have hString := @parseString_spec _ _ (w' ++ 0x3a :: (text ++ rest)) D (newItem F) hc
        (by omega)
      obtain ⟨a, b, out, hSkip, -, hParse, hBehind, hMeaning, hName⟩ :=
        paddedSpec hp fuel
          { newItem F with
            valuestring := none, type := .string, string := some ⟨name, Chars_ne_zero hc⟩ }
          rest (by omega) (by omega) hCloses rfl
      refine ⟨quoted chars ++ (w' ++ 0x3a :: (text ++ rest)), out, ⟨name, Chars_ne_zero hc⟩, ?_, ?_,
        ?_, hName, rfl, hMeaning⟩
      · rw [List.append_assoc, List.append_assoc, List.append_assoc, skip_gap hw, List.cons_append]
        exact skip_solid (not_blank (by decide))
      · rw [quoted, List.cons_append, List.head?_cons]
        decide
      · have hQuote : skip (quoted chars ++ (w' ++ 0x3a :: (text ++ rest))) =
            some (quoted chars ++ (w' ++ 0x3a :: (text ++ rest))) :=
          skip_solid (not_blank (by decide))
        have hColon : skip (w' ++ 0x3a :: (text ++ rest)) = some (0x3a :: (text ++ rest)) := by
          rw [skip_gap hw']
          exact skip_solid (not_blank (by decide))
        rw [parseMember, hQuote]
        simp only [Outcome.liftM_some, Outcome.done_bind, hString, hColon, List.head?_cons,
          if_true, List.tail_cons, hSkip, hParse, hBehind, Outcome.pure_eq]

/-- The members of an object: the first one, and the loop over the others. -/
theorem membersSpec : ∀ {ms : List (List UInt8 × Value (BitVec 32 × D))} {t : List UInt8},
    Members (grammar F) ms t → ∀ (fuel : Nat) (post : List UInt8), 2 * t.length + 1 ≤ fuel →
      (t.length : Int) ≤ intMax →
      ∃ a child b children, skip (t ++ 0x7d :: post) = some a ∧ a.head? ≠ some 0x7d ∧
        parseMember F fuel a = .done (child, b) ∧
        (∀ acc, objectLoop F fuel (acc ++ [child]) b =
          .done (acc ++ child :: children, 0x7d :: post)) ∧
        members (child :: children) = some ms
  | _, _, .last hm => by
      intro fuel post hFuel hSize
      obtain ⟨fuel, rfl⟩ : ∃ f, fuel = f + 1 := Nat.exists_eq_add_of_le' (by omega)
      obtain ⟨a, child, name, hSkip, hHead, hParse, hString, hName, hMeaning⟩ :=
        memberSpec hm (fuel + 1) (0x7d :: post) (by omega) hSize ⟨0x7d, post, rfl, by decide⟩
      have hAll := members_cons hString hMeaning (rfl : members ([] : List (Item D)) = some [])
      rw [hName] at hAll
      refine ⟨a, child, 0x7d :: post, [], hSkip, hHead, hParse, ?_, hAll⟩
      intro acc
      rw [objectLoop]
      rfl
  | _, _, @Members.cons _ _ _ _ text texts hm hms => by
      intro fuel post hFuel hSize
      rw [List.length_append, List.length_cons] at hFuel hSize
      obtain ⟨fuel, rfl⟩ : ∃ f, fuel = f + 1 := Nat.exists_eq_add_of_le' (by omega)
      obtain ⟨a, child, name, hSkip, hHead, hParse, hString, hName, hMeaning⟩ :=
        memberSpec hm (fuel + 1) (0x2c :: (texts ++ 0x7d :: post)) (by omega) (by omega)
          ⟨0x2c, _, rfl, by decide⟩
      obtain ⟨c, child', d, children, hSkip', -, hParse', hLoop, hMeaning'⟩ :=
        membersSpec hms fuel post (by omega) (by omega)
      have hAll := members_cons hString hMeaning hMeaning'
      rw [hName] at hAll
      refine ⟨a, child, 0x2c :: (texts ++ 0x7d :: post), child' :: children, ?_, hHead, hParse, ?_,
        hAll⟩
      · rw [List.append_assoc, List.cons_append]
        exact hSkip
      · intro acc
        have hNext := hLoop (acc ++ [child])
        rw [List.append_assoc acc [child] (child' :: children), List.singleton_append] at hNext
        rw [objectLoop, List.head?_cons, if_pos rfl, List.tail_cons, parseMember_skip hSkip',
          hParse']
        simp only [Outcome.done_bind, hNext]

end

end

end Gbase.Util.Cjson
