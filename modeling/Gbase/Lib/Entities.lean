import Mathlib.Data.List.Basic
import Mathlib.Data.List.Infix

/-!
# Entities

Some elements of a text are written as words that start with a mark, and the mark itself is one of
them.  If no word is the start of another one, the text is read back by replacing words from left
to right.

The condition on the words is the one that makes a code instantaneous: what is read is decided as
soon as a word is complete.

## Main results

* `Words.replaced_encoded`: a text is read back.
* `Words.not_mem_encoded`: the elements that have a word and are in none are not written.
* `Words.mark_starts`: every mark that is written starts a word.
-/

namespace Gbase.Lib.Entities

universe u

/-- The words of some elements. -/
structure Words (α : Type u) where
  mark : α
  entries : List (List α × α)
  starts : ∀ e, e ∈ entries → e.1.head? = some mark
  single : ∀ e, e ∈ entries → mark ∉ e.1.tail
  marked : ∃ e, e ∈ entries ∧ e.2 = mark
  apart : ∀ e, e ∈ entries → ∀ f, f ∈ entries → e.1 <+: f.1 → e = f

namespace Words

variable {α : Type u} [DecidableEq α] (ws : Words α)

/-- What an element is written as. -/
def encode (c : α) : List α :=
  match ws.entries.find? fun e => e.2 = c with
  | some e => e.1
  | none => [c]

/-- What a text is written as. -/
def encoded (text : List α) : List α := text.flatMap ws.encode

/-- A text with its words replaced from left to right; so many elements belong to a word that is
replaced already. -/
def replacedFrom : List α → Nat → List α
  | [], _ => []
  | _ :: text, skip + 1 => replacedFrom text skip
  | c :: text, 0 =>
      match ws.entries.find? fun e => e.1.isPrefixOf (c :: text) with
      | some e => e.2 :: replacedFrom text (e.1.length - 1)
      | none => c :: replacedFrom text 0

/-- A text with its words replaced from left to right. -/
def replaced (text : List α) : List α := ws.replacedFrom text 0

variable {ws} {c : α} {text rest pre post : List α} {e : List α × α}

/-- An element is written as a word, or it has none, and then it is not the mark. -/
theorem encode_cases (c : α) :
    (∃ tail, (ws.mark :: tail, c) ∈ ws.entries ∧ ws.encode c = ws.mark :: tail ∧ ws.mark ∉ tail) ∨
      (∀ e, e ∈ ws.entries → e.2 ≠ c) ∧ ws.encode c = [c] ∧ c ≠ ws.mark := by
  unfold encode
  cases hFind : ws.entries.find? fun e => e.2 = c with
  | some e =>
      have hMem := List.mem_of_find?_eq_some hFind
      have hElement : e.2 = c := by simpa using List.find?_some hFind
      obtain ⟨word, element⟩ := e
      obtain ⟨tail, rfl⟩ := List.head?_eq_some_iff.mp (ws.starts _ hMem)
      cases hElement
      exact Or.inl ⟨tail, hMem, rfl, ws.single _ hMem⟩
  | none =>
      have hNone : ∀ e, e ∈ ws.entries → e.2 ≠ c := fun e he =>
        of_decide_eq_false (by simpa using List.find?_eq_none.mp hFind e he)
      obtain ⟨e, he, hMark⟩ := ws.marked
      exact Or.inr ⟨hNone, rfl, fun hEq => hNone e he (hMark.trans hEq.symm)⟩

private theorem replacedFrom_skip (word rest : List α) :
    ws.replacedFrom (word ++ rest) word.length = ws.replacedFrom rest 0 := by
  induction word with
  | nil => rfl
  | cons c word ih => exact ih

/-- A word in front is the one that is replaced. -/
theorem find_word (he : e ∈ ws.entries) :
    ws.entries.find? (fun f => f.1.isPrefixOf (e.1 ++ rest)) = some e := by
  cases hFind : ws.entries.find? fun f => f.1.isPrefixOf (e.1 ++ rest) with
  | none =>
      have hNot := List.find?_eq_none.mp hFind e he
      exact absurd (List.isPrefixOf_iff_prefix.mpr (List.prefix_append e.1 rest)) hNot
  | some f =>
      have hf := List.mem_of_find?_eq_some hFind
      have hStart : f.1 <+: e.1 ++ rest := by simpa using List.find?_some hFind
      -- of two words in front of one text, one is the start of the other
      cases List.prefix_or_prefix_of_prefix hStart (List.prefix_append e.1 rest) with
      | inl hBefore => rw [ws.apart f hf e he hBefore]
      | inr hBehind => rw [ws.apart e he f hf hBehind]

/-- No word is in front of an element that is not the mark. -/
theorem find_none (hNot : c ≠ ws.mark) :
    ws.entries.find? (fun f => f.1.isPrefixOf (c :: rest)) = none := by
  rw [List.find?_eq_none]
  intro f hf hStart
  obtain ⟨tail, hWord⟩ := List.head?_eq_some_iff.mp (ws.starts f hf)
  have hPrefix := List.isPrefixOf_iff_prefix.mp hStart
  rw [hWord] at hPrefix
  exact hNot (List.cons_prefix_cons.mp hPrefix).1.symm

/-- One element is read back. -/
theorem replaced_encode (c : α) (rest : List α) :
    ws.replaced (ws.encode c ++ rest) = c :: ws.replaced rest := by
  obtain ⟨tail, hMem, hCode, -⟩ | ⟨-, hCode, hNot⟩ := @encode_cases _ _ ws c
  · have hFind := @find_word _ _ ws rest _ hMem
    rw [List.cons_append] at hFind
    rw [hCode, replaced, List.cons_append, replacedFrom, hFind]
    exact congrArg (c :: ·) (replacedFrom_skip tail rest)
  · rw [hCode, replaced, List.singleton_append, replacedFrom, find_none hNot]
    rfl

/-- A text is read back. -/
theorem replaced_encoded (text : List α) : ws.replaced (ws.encoded text) = text := by
  induction text with
  | nil => rfl
  | cons c text ih => rw [encoded, List.flatMap_cons, replaced_encode, ← encoded, ih]

theorem encoded_injective : Function.Injective ws.encoded :=
  Function.LeftInverse.injective replaced_encoded

/-- An element that has a word and is in no word is not written. -/
theorem not_mem_encoded (hWord : ∃ e, e ∈ ws.entries ∧ e.2 = c)
    (hNot : ∀ e, e ∈ ws.entries → c ∉ e.1) (text : List α) : c ∉ ws.encoded text := by
  intro hIn
  obtain ⟨x, -, hx⟩ := List.mem_flatMap.mp hIn
  obtain ⟨tail, hMem, hCode, -⟩ | ⟨hNone, hCode, -⟩ := @encode_cases _ _ ws x
  · rw [hCode] at hx
    exact hNot _ hMem hx
  · rw [hCode, List.mem_singleton] at hx
    obtain ⟨e, he, hEq⟩ := hWord
    exact hNone e he (hEq.trans hx)

/-- Every mark that is written starts a word. -/
theorem mark_starts (hText : ws.encoded text = pre ++ ws.mark :: post) :
    ∃ e, e ∈ ws.entries ∧ e.1 <+: ws.mark :: post := by
  induction text generalizing pre with
  | nil => simp [encoded] at hText
  | cons c text ih =>
      rw [encoded, List.flatMap_cons, ← encoded] at hText
      obtain ⟨tail, hMem, hCode, hSingle⟩ | ⟨-, hCode, hNot⟩ := @encode_cases _ _ ws c
      · rw [hCode] at hText
        cases pre with
        | nil =>
            rw [List.nil_append, List.cons_append, List.cons.injEq] at hText
            rw [← hText.2, ← List.cons_append]
            exact ⟨_, hMem, List.prefix_append _ _⟩
        | cons x pre =>
            rw [List.cons_append, List.cons_append, List.cons.injEq] at hText
            -- the mark is not in the rest of the word, so that it is behind it
            obtain ⟨more, rfl, hMore⟩ | ⟨more, rfl, hMore⟩ := List.append_eq_append_iff.mp hText.2
            · exact ih hMore
            · cases more with
              | nil => exact @ih [] hMore.symm
              | cons y more =>
                  rw [List.cons_append, List.cons.injEq] at hMore
                  rw [← hMore.1] at hSingle
                  exact absurd (List.mem_append_right pre List.mem_cons_self) hSingle
      · rw [hCode, List.singleton_append] at hText
        cases pre with
        | nil =>
            rw [List.nil_append, List.cons.injEq] at hText
            exact absurd hText.1 hNot
        | cons x pre =>
            rw [List.cons_append, List.cons.injEq] at hText
            exact ih hText.2

end Words

end Gbase.Lib.Entities
