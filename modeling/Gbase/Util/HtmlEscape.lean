import Gbase.Lib.CString
import Gbase.Lib.Entities

/-!
# Escapes in HTML (`util/util_str.c`)

Reading outside of `src` is undefined, which is the outer `Option`; `dst` has room for what is
written.

Four characters are written as entities, both when the size is asked for and when the text is
written.  The decoder that the results speak of is the one of the library of entities, for the
source has none.
-/

namespace Gbase.Util.HtmlEscape

open Gbase.Lib.CString
open Gbase.Lib.Entities

/-- The loop of `util_html_escape` without a `dst`: so many bytes of `src` are left. -/
def lenLoop : List UInt8 → Nat → Nat → Option Nat
  | _, 0, len => some len
  | [], _ + 1, _ => none
  | c :: src, size + 1, len =>
      if c = 0x3c then lenLoop src size ((len + 4) % 2 ^ 64)
      else if c = 0x3e then lenLoop src size ((len + 4) % 2 ^ 64)
      else if c = 0x26 then lenLoop src size ((len + 5) % 2 ^ 64)
      else if c = 0x22 then lenLoop src size ((len + 6) % 2 ^ 64)
      else lenLoop src size ((len + 1) % 2 ^ 64)

/-- The loop of `util_html_escape` that writes to `dst`. -/
def escapeLoop : List UInt8 → Nat → List UInt8 → Nat → Option (List UInt8 × Nat)
  | _, 0, dst, len => some (dst, len)
  | [], _ + 1, _, _ => none
  | ch :: src, size + 1, dst, len =>
      if ch = 0x3c then escapeLoop src size (dst ++ ascii "&lt;") ((len + 4) % 2 ^ 64)
      else if ch = 0x3e then escapeLoop src size (dst ++ ascii "&gt;") ((len + 4) % 2 ^ 64)
      else if ch = 0x26 then escapeLoop src size (dst ++ ascii "&amp;") ((len + 5) % 2 ^ 64)
      else if ch = 0x22 then escapeLoop src size (dst ++ ascii "&quot;") ((len + 6) % 2 ^ 64)
      else escapeLoop src size (dst ++ [ch]) ((len + 1) % 2 ^ 64)

/-- `util_html_escape`: what is written to `dst`, if it is not null, and the size returned. -/
def utilHtmlEscape (dst : Bool) (src : List UInt8) (size : Nat) : Option (List UInt8 × Nat) :=
  if dst then escapeLoop src size [] 0 else (lenLoop src size 0).map fun len => ([], len)

/-! ## The four entities -/

/-- The entities and what they stand for. -/
def html : Words UInt8 where
  mark := 0x26
  entries :=
    [(ascii "&lt;", 0x3c), (ascii "&gt;", 0x3e), (ascii "&amp;", 0x26), (ascii "&quot;", 0x22)]
  starts := by decide
  single := by decide
  marked := by decide
  apart := by decide

section

variable {src : List UInt8} {size len : Nat} {dst : List UInt8}

/-- What the switch writes for a byte. -/
theorem html_encode (c : UInt8) :
    html.encode c =
      if c = 0x3c then ascii "&lt;"
      else if c = 0x3e then ascii "&gt;"
      else if c = 0x26 then ascii "&amp;"
      else if c = 0x22 then ascii "&quot;"
      else [c] := by
  simp only [Words.encode, html, List.find?_cons, List.find?_nil, @eq_comm _ _ c]
  split_ifs <;> simp [*]

theorem lenLoop_spec (hSize : size ≤ src.length) (hLen : len < 2 ^ 64) :
    lenLoop src size len = some ((len + (html.encoded (src.take size)).length) % 2 ^ 64) := by
  induction size generalizing src len with
  | zero =>
      rw [lenLoop, List.take_zero]
      exact congrArg some (Nat.mod_eq_of_lt hLen).symm
  | succ size ih =>
      cases src with
      | nil => cases hSize
      | cons c src =>
          have hRest := fun k => @ih src ((len + k) % 2 ^ 64) (Nat.le_of_succ_le_succ hSize)
            (Nat.mod_lt _ (by decide))
          rw [lenLoop, List.take_succ_cons, Words.encoded, List.flatMap_cons, ← Words.encoded,
            List.length_append, html_encode, hRest, hRest, hRest, hRest]
          simp only [Nat.mod_add_mod, Nat.add_assoc]
          split_ifs <;> rfl

theorem escapeLoop_spec (hSize : size ≤ src.length) (hLen : len < 2 ^ 64) :
    escapeLoop src size dst len =
      some (dst ++ html.encoded (src.take size),
        (len + (html.encoded (src.take size)).length) % 2 ^ 64) := by
  induction size generalizing src dst len with
  | zero =>
      rw [escapeLoop, List.take_zero]
      exact congrArg some (Prod.ext (List.append_nil dst).symm (Nat.mod_eq_of_lt hLen).symm)
  | succ size ih =>
      cases src with
      | nil => cases hSize
      | cons c src =>
          have hRest := fun dst k =>
            @ih src ((len + k) % 2 ^ 64) dst (Nat.le_of_succ_le_succ hSize)
              (Nat.mod_lt _ (by decide))
          rw [escapeLoop, List.take_succ_cons, Words.encoded, List.flatMap_cons, ← Words.encoded,
            List.length_append, html_encode, hRest, hRest, hRest, hRest, hRest]
          simp only [Nat.mod_add_mod, Nat.add_assoc, List.append_assoc]
          split_ifs <;> rfl

/-- Both calls of `util_html_escape` count what the second one writes. -/
theorem utilHtmlEscape_spec (hSize : size ≤ src.length) :
    utilHtmlEscape false src size =
        some ([], (html.encoded (src.take size)).length % 2 ^ 64) ∧
      utilHtmlEscape true src size =
        some (html.encoded (src.take size), (html.encoded (src.take size)).length % 2 ^ 64) := by
  have hLen := @lenLoop_spec src size 0 hSize (by decide)
  have hText := @escapeLoop_spec src size 0 [] hSize (by decide)
  rw [Nat.zero_add] at hLen hText
  constructor
  · rw [utilHtmlEscape, if_neg (by decide), hLen]
    rfl
  · rw [utilHtmlEscape, if_pos rfl, hText]
    rfl

end

/-- `util_html_escape` returns without a `dst` what it returns with one, which is the number of the
bytes written, as a `size_t`; these hold no bracket and no quote, every `&` starts an entity, and
the bytes escaped are read back, so that no others are written in the same way. -/
def Lossless (src : List UInt8) (size : Nat) : Prop :=
  ∃ out n, utilHtmlEscape false src size = some ([], n) ∧
    utilHtmlEscape true src size = some (out, n) ∧
    (n = out.length % 2 ^ 64 ∧ (out.length < 2 ^ 64 → n = out.length)) ∧
    (0x3c ∉ out ∧ 0x3e ∉ out ∧ 0x22 ∉ out) ∧
    (∀ pre post, out = pre ++ 0x26 :: post → ∃ e, e ∈ html.entries ∧ e.1 <+: 0x26 :: post) ∧
    html.replaced out = src.take size ∧
    ∀ src' size' n', size' ≤ src'.length → utilHtmlEscape true src' size' = some (out, n') →
      src'.take size' = src.take size

/-- The size that is asked for is the one that is written, no character with a meaning in HTML is
left but the mark of an entity, and decoding gives the text back. -/
theorem html_escape_lossless (src : List UInt8) (size : Nat) (hSize : size ≤ src.length) :
    Lossless src size := by
  obtain ⟨hLen, hText⟩ := utilHtmlEscape_spec hSize
  refine ⟨_, _, hLen, hText, ⟨rfl, Nat.mod_eq_of_lt⟩, ?_, ?_, Words.replaced_encoded _, ?_⟩
  · exact ⟨Words.not_mem_encoded (by decide) (by decide) _,
      Words.not_mem_encoded (by decide) (by decide) _,
      Words.not_mem_encoded (by decide) (by decide) _⟩
  · intro pre post hOut
    exact Words.mark_starts hOut
  · intro src' size' n' hSize' hSame
    rw [(utilHtmlEscape_spec hSize').2, Option.some.injEq, Prod.mk.injEq] at hSame
    exact Words.encoded_injective hSame.1

/-- A text that looks like an entity. -/
theorem html_escape_lossless_entity : Lossless (ascii "&lt;") 4 :=
  html_escape_lossless (ascii "&lt;") 4 (by decide)

end Gbase.Util.HtmlEscape
