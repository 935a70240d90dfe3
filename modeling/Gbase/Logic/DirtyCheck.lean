import Gbase.Logic.DirtyFind
import Gbase.Logic.DirtyScan

/-!
# Checking a text for dirty words (`logic/dirty.c`)

`dirty_check` declares `step` again inside its loop.  The variable that the loop goes on by stays
zero, so the loop does not get beyond the first character of a text.

A text that does not start with something that is found is therefore passed or answered only in a
few cases, and otherwise never.  The model counts turns with fuel, and that the loop ends is stated
as the existence of enough of it.

## Main results

* `scanLoop_spec`, `checkTurn_spec`: one position of the text.
* `hit_of_starts`: a text that starts with a word of the table is found.
* `dirtyCheck_decides_iff`: when the check comes to the right result.
-/

namespace Gbase.Logic.Dirty

open Gbase.Lib.CString

/-- The loop of `dirty_check` over the lengths from `k` on, at a text: whether a word is found. -/
def scanLoop (ctx : DirtyCtxT) (text : List UInt8) : Nat → Nat → BitVec 32 → Option Bool
  | 0, _, _ => some false
  | more + 1, k, key =>
      if text.length < k then some false
      else if key &&& 1#32 <<< k = 0#32 then scanLoop ctx text more (k + 1) key
      else do
        let ret ← dirtyHashFind ctx text k
        if ret = 0 then return true
        else
          let key := key &&& ~~~ (1#32 <<< k)
          if key = 0#32 then return false
          else scanLoop ctx text more (k + 1) key

/-- One turn of the loop of `dirty_check`: what is returned, or the step that is set. -/
def checkTurn (ctx : DirtyCtxT) (lowcase : List UInt8) (i : Nat) : Option (Except Int Nat) := do
  let first ← lowcase[i]?
  match slot (lowcase.drop i) with
  | none => return .error (-2)
  | some (row, col) =>
      let step := if first < gbSpecChar then 1 else 2
      let key := ctx.index row col
      if key = 0#32 then return .ok step
      else
        let found ← scanLoop ctx (lowcase.drop i) (maxDirtyWordsLen - 1) 1 key
        if found then return .error (-1) else return .ok step

/-- The loop of `dirty_check`, undefined when it takes more than `fuel` turns. -/
def checkLoop (ctx : DirtyCtxT) (lowcase : List UInt8) : Nat → Nat → Nat → Option Int
  | 0, _, _ => none
  | fuel + 1, i, step =>
      if i < lowcase.length then
        match checkTurn ctx lowcase i with
        | none => none
        | some (.error ret) => some ret
        -- the step that was set is not the one of the loop
        | some (.ok _) => checkLoop ctx lowcase fuel (i + step) step
      else some 0

/-- `dirty_check` -/
def dirtyCheck (fuel : Nat) (ctx : DirtyCtxT) (src : List UInt8) : Option Int :=
  if maxSourceWordsLen < src.length then some (-3)
  else checkLoop ctx (src.map tolower) fuel 0 0

/-! ## What the check is for -/

/-- What is left of the text at each position, going by one byte or by two. -/
def visited : List UInt8 → List (List UInt8)
  | [] => []
  | [c] => [[c]]
  | c :: d :: rest =>
      (c :: d :: rest) :: if c < gbSpecChar then visited (d :: rest) else visited rest

/-- The text starts with a word of the table. -/
def Starts (words : List (List UInt8)) (text : List UInt8) : Prop :=
  ∃ w, w ∈ words ∧ w ≠ [] ∧ w <+: text

/-- A word of the table starts at some position. -/
def HasDirty (words : List (List UInt8)) (text : List UInt8) : Prop :=
  ∃ rest, rest ∈ visited text ∧ Starts words rest

/-- A lead byte is reached with nothing behind it. -/
def Broken (text : List UInt8) : Prop := ∃ rest, rest ∈ visited text ∧ slot rest = none

instance Starts.decidable (words : List (List UInt8)) (text : List UInt8) :
    Decidable (Starts words text) := inferInstanceAs (Decidable (∃ w, w ∈ words ∧ _))

instance HasDirty.decidable (words : List (List UInt8)) (text : List UInt8) :
    Decidable (HasDirty words text) := inferInstanceAs (Decidable (∃ rest, rest ∈ visited text ∧ _))

instance Broken.decidable (text : List UInt8) : Decidable (Broken text) :=
  inferInstanceAs (Decidable (∃ rest, rest ∈ visited text ∧ _))

/-- The result for a text in lower case. -/
def verdict (words : List (List UInt8)) (text : List UInt8) : Int :=
  if HasDirty words text then -1 else if Broken text then -2 else 0

/-- A length that a word with the same first bytes has is found at the start of the text. -/
def Hit (words : List (List UInt8)) (text : List UInt8) : Prop :=
  ∃ w, w ∈ words ∧ w ≠ [] ∧ slot w = slot text ∧ w.length ≤ text.length ∧ Found words text w.length

/-- The text is empty or a lone lead byte, or it is dirty and something is found at its start. -/
def Settled (words : List (List UInt8)) (text : List UInt8) : Prop :=
  text = [] ∨ (∃ c, gbSpecChar ≤ c ∧ text = [c]) ∨ (Hit words text ∧ HasDirty words text)

section

variable {words : List (List UInt8)} {ctx : DirtyCtxT} {text : List UInt8} {key : BitVec 32}
  {k more : Nat}

/-- The loops of the check and of the replacement look up the same lengths. -/
theorem scanLoop_eq : scanLoop ctx text more k key =
    (matchLoop ctx text more k key).map Option.isSome := by
  induction more generalizing k key with
  | zero => rfl
  | succ more ih =>
      rw [scanLoop, matchLoop]
      split
      · rfl
      split
      · exact ih
      cases dirtyHashFind ctx text k with
      | none => rfl
      | some ret =>
          simp only [Option.bind_eq_bind, Option.bind_some]
          split
          · rfl
          split
          · rfl
          · exact ih

/-- Whether a length is found. -/
theorem scanLoop_spec (h : Built words ctx) {row col : UInt8}
    (hSlot : slot text = some (row, col)) :
    scanLoop ctx text (maxDirtyWordsLen - 1) 1 (ctx.index row col) =
      some (hitLength words text).isSome := by
  rw [scanLoop_eq, matchLoop_index h hSlot, Option.map_some]

private theorem hit_iff (h : Built words ctx) : Hit words text ↔ hitLength words text ≠ none := by
  constructor
  · rintro ⟨w, hIn, hSome, hSame, hFits, hFound⟩
    exact hitLength_ne_none h (List.length_pos_iff.mpr hSome) ⟨hFits, ⟨w, hIn, hSame, rfl⟩, hFound⟩
  · intro hSome
    obtain ⟨k, hHit⟩ := Option.ne_none_iff_exists'.mp hSome
    obtain ⟨hPos, hFits, ⟨w, hIn, hSame, rfl⟩, hFound⟩ := hitLength_some hHit
    exact ⟨w, hIn, List.length_pos_iff.mp hPos, hSame, hFits, hFound⟩

/-- The turn at the start of a text. -/
theorem checkTurn_spec (h : Built words ctx) (hText : text ≠ []) :
    (slot text = none ∧ checkTurn ctx text 0 = some (.error (-2))) ∨
    (slot text ≠ none ∧ Hit words text ∧ checkTurn ctx text 0 = some (.error (-1))) ∨
    (slot text ≠ none ∧ ¬ Hit words text ∧ ∃ step, checkTurn ctx text 0 = some (.ok step)) := by
  obtain ⟨first, rest, rfl⟩ := List.exists_cons_of_ne_nil hText
  have hFirst : (first :: rest)[0]? = some first := rfl
  rw [checkTurn, hFirst, List.drop_zero, Option.bind_eq_bind, Option.bind_some]
  cases hSlot : slot (first :: rest) with
  | none => exact Or.inl ⟨rfl, rfl⟩
  | some entry =>
      obtain ⟨row, col⟩ := entry
      right
      rw [hit_iff h]
      by_cases hZero : ctx.index row col = 0#32
      · refine Or.inr ⟨Option.some_ne_none _, ?_, _, if_pos hZero⟩
        exact not_not.mpr (hitLength_none h hSlot hZero)
      · simp only [if_neg hZero, scanLoop_spec h hSlot]
        cases hHit : hitLength words (first :: rest) with
        | none => exact Or.inr ⟨Option.some_ne_none _, fun hSome => hSome rfl, _, rfl⟩
        | some k => exact Or.inl ⟨Option.some_ne_none _, Option.some_ne_none k, rfl⟩

/-- A text that starts with a word of the table is found. -/
theorem hit_of_starts (h : Built words ctx) (hStarts : Starts words text) : Hit words text := by
  obtain ⟨w, hIn, hSome, rest, rfl⟩ := hStarts
  have hText := (h.word w hIn).2
  have hTake : (w ++ rest).take w.length = w := List.take_left
  have hFits : w.length ≤ (w ++ rest).length := by
    rw [List.length_append]
    omega
  refine ⟨w, hIn, hSome, ?_, hFits, ?_⟩
  · -- the bytes that `slot` reads are in the word
    obtain ⟨c, more, rfl⟩ := List.exists_cons_of_ne_nil hSome
    have hSlot := h.slot _ hIn
    rw [List.cons_append]
    by_cases hLow : c < gbSpecChar
    · rw [slot_low hLow, slot_low hLow]
    · cases more with
      | nil => exact absurd (if_neg hLow) hSlot
      | cons d more => rfl
  · have hWhole : (w ++ rest).take w.length <+: w := hTake.symm ▸ List.prefix_refl w
    exact (found_iff hFits (hTake.symm ▸ hText)).mpr ⟨w, hIn, hWhole, by rw [hTake]⟩

/-- A lone lead byte is the whole text. -/
theorem slot_eq_none_iff (hText : text ≠ []) :
    slot text = none ↔ ∃ c, gbSpecChar ≤ c ∧ text = [c] := by
  obtain ⟨c, rest, rfl⟩ := List.exists_cons_of_ne_nil hText
  cases rest with
  | nil =>
      rw [slot_one]
      split
      · rename_i hc
        refine iff_of_false nofun ?_
        rintro ⟨c', hLead, hEq⟩
        cases hEq
        exact absurd hc (UInt8.not_lt.mpr hLead)
      · rename_i hc
        exact iff_of_true rfl ⟨c, UInt8.not_lt.mp hc, rfl⟩
  | cons d rest =>
      rw [slot_two]
      refine iff_of_false ?_ ?_
      · split <;> exact Option.some_ne_none _
      · rintro ⟨c', -, hEq⟩
        cases hEq

/-- A lone lead byte starts with no word. -/
theorem verdict_lead (h : Built words ctx) {c : UInt8} (hLead : gbSpecChar ≤ c) :
    verdict words [c] = -2 := by
  have hNone : slot [c] = none := (slot_eq_none_iff (List.cons_ne_nil c [])).mpr ⟨c, hLead, rfl⟩
  have hClean : ¬ HasDirty words [c] := by
    rintro ⟨rest, hRest, w, hIn, hSome, hOf⟩
    rw [visited, List.mem_singleton] at hRest
    rw [hRest] at hOf
    have hw : w = [c] := by
      cases List.prefix_cons_iff.mp hOf with
      | inl hNil => exact absurd hNil hSome
      | inr hCons =>
          obtain ⟨t, rfl, ht⟩ := hCons
          rw [List.prefix_nil.mp ht]
    exact h.slot w hIn (hw ▸ hNone)
  rw [verdict, if_neg hClean, if_pos ⟨[c], List.mem_singleton_self _, hNone⟩]

/-- A turn that goes on is taken again and again. -/
theorem checkLoop_stuck (hText : text ≠ []) {step : Nat}
    (hTurn : checkTurn ctx text 0 = some (.ok step)) (fuel : Nat) :
    checkLoop ctx text fuel 0 0 = none := by
  have hPos := List.length_pos_iff.mpr hText
  induction fuel with
  | zero => rfl
  | succ fuel ih => rw [checkLoop, if_pos hPos, hTurn, ih]

private theorem checkLoop_return (hText : text ≠ []) {ret : Int}
    (hTurn : checkTurn ctx text 0 = some (.error ret)) (fuel : Nat) :
    checkLoop ctx text (fuel + 1) 0 0 = some ret := by
  rw [checkLoop, if_pos (List.length_pos_iff.mpr hText), hTurn]

/-- What the loop comes to, if it ends. -/
theorem checkLoop_start (hText : text ≠ []) {ret : Int}
    (hTurn : checkTurn ctx text 0 = some (.error ret)) {value : Int} :
    (∃ fuel, checkLoop ctx text fuel 0 0 = some value) ↔ ret = value := by
  constructor
  · rintro ⟨fuel, hLoop⟩
    cases fuel with
    | zero => cases hLoop
    | succ fuel =>
        rw [checkLoop_return hText hTurn] at hLoop
        exact Option.some.inj hLoop
  · rintro rfl
    exact ⟨1, checkLoop_return hText hTurn 0⟩

end

/-- The check of a text comes to its result if and only if the text is empty or a lone lead byte, or
some position is dirty and something is found at the first one. -/
theorem dirtyCheck_decides_iff {file : List UInt8} {ctx : DirtyCtxT}
    (hCreate : dirtyCreate file = some ctx) {src : List UInt8}
    (hLen : src.length ≤ maxSourceWordsLen) :
    (∃ fuel, dirtyCheck fuel ctx src = some (verdict ctx.words (src.map tolower))) ↔
      Settled ctx.words (src.map tolower) := by
  have h := dirtyCreate_built hCreate
  simp only [dirtyCheck, if_neg (Nat.not_lt.mpr hLen)]
  generalize src.map tolower = text
  by_cases hText : text = []
  · subst hText
    refine iff_of_true ⟨1, ?_⟩ (Or.inl rfl)
    have hClean : ¬ HasDirty ctx.words [] := by
      rintro ⟨rest, hIn, -⟩
      cases hIn
    have hWhole : ¬ Broken [] := by
      rintro ⟨rest, hIn, -⟩
      cases hIn
    rw [verdict, if_neg hClean, if_neg hWhole]
    rfl
  rcases checkTurn_spec h hText with
    ⟨hNone, hTurn⟩ | ⟨hSlot, hHit, hTurn⟩ | ⟨hSlot, hHit, step, hTurn⟩
  · obtain ⟨c, hLead, rfl⟩ := (slot_eq_none_iff hText).mp hNone
    rw [checkLoop_start hText hTurn, verdict_lead h hLead]
    exact iff_of_true rfl (Or.inr (Or.inl ⟨c, hLead, rfl⟩))
  · rw [checkLoop_start hText hTurn, Settled, or_iff_right hText,
      or_iff_right (fun hLead => hSlot ((slot_eq_none_iff hText).mpr hLead)), and_iff_right hHit,
      verdict]
    split
    · rename_i hDirty
      exact iff_of_true rfl hDirty
    · rename_i hClean
      refine iff_of_false ?_ hClean
      split <;> decide
  · refine iff_of_false ?_ ?_
    · rintro ⟨fuel, hLoop⟩
      rw [checkLoop_stuck hText hTurn] at hLoop
      cases hLoop
    · rintro (hNil | hLead | hBoth)
      · exact hText hNil
      · exact hSlot ((slot_eq_none_iff hText).mpr hLead)
      · exact hHit hBoth.1

/-- The context of a file with one word. -/
def badCtx : DirtyCtxT := (dirtyCreate (ascii "bad\n")).get (by decide)

/-- A text that starts with the word. -/
theorem dirtyCheck_bad :
    ∃ fuel, dirtyCheck fuel badCtx (ascii "Bad text") =
      some (verdict badCtx.words ((ascii "Bad text").map tolower)) := by
  have hCreate : dirtyCreate (ascii "bad\n") = some badCtx := (Option.some_get _).symm
  have hStarts : Starts badCtx.words ((ascii "Bad text").map tolower) := by decide
  exact (dirtyCheck_decides_iff hCreate (by decide)).mpr
    (Or.inr (Or.inr ⟨hit_of_starts (dirtyCreate_built hCreate) hStarts, by decide⟩))

/-- A clean text of one character is checked for ever. -/
theorem dirtyCheck_clean : verdict badCtx.words ((ascii "x").map tolower) = 0 ∧
    (∀ fuel, dirtyCheck fuel badCtx (ascii "x") = none) ∧
    ¬ ∃ fuel, dirtyCheck fuel badCtx (ascii "x") =
      some (verdict badCtx.words ((ascii "x").map tolower)) := by
  have hTurn : checkTurn badCtx ((ascii "x").map tolower) 0 = some (.ok 1) := by rfl
  have hNever : ∀ fuel, dirtyCheck fuel badCtx (ascii "x") = none := by
    intro fuel
    rw [dirtyCheck, if_neg (by decide)]
    exact checkLoop_stuck (List.cons_ne_nil _ _) hTurn fuel
  refine ⟨by decide, hNever, ?_⟩
  rintro ⟨fuel, hCheck⟩
  rw [hNever] at hCheck
  cases hCheck

end Gbase.Logic.Dirty
