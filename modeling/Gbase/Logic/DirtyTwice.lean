import Gbase.Logic.DirtyFind
import Gbase.Logic.DirtyReplace

/-!
# Overwriting dirty words twice (`logic/dirty.c`)

The second run goes through the same positions as the first, and through the stars one by one.  What
it finds holds no star, so that the first run would have found it as well.

A byte that was overwritten is a star, and no word of the table holds one; this is a hypothesis.
Without it a second run could find words among the stars.

## Main results

* `starred_at`: a byte is left as it was, or it is a star in place of something that was found.
* `found_faded`: nothing new is found between the stars.
* `starred_twice`: the second run changes nothing.
-/

namespace Gbase.Logic.Dirty

open Gbase.Lib.CString

/-- A byte is among those that were found to start a word. -/
def Matched (words : List (List UInt8)) (src : List UInt8) (j : Nat) : Prop :=
  ∃ pre rest k w, src = pre ++ rest ∧ rest ∈ scanned words src ∧ found words rest = some k ∧
    w ∈ words ∧ (rest.map tolower).take k <+: w ∧ pre.length ≤ j ∧ j < pre.length + k

section

variable {words : List (List UInt8)} {ctx : DirtyCtxT} {src out : List UInt8} {k : Nat}

theorem tolower_ne_zero (hText : ∀ x, x ∈ src → x ≠ 0) (n : Nat) :
    ∀ x, x ∈ (src.map tolower).take n → x ≠ 0 := by
  intro x hx
  obtain ⟨c, hc, rfl⟩ := List.mem_map.mp (List.mem_of_mem_take hx)
  exact fun hZero => hText c hc (tolower_eq_zero hZero)

private theorem drop_ne_zero (hText : ∀ x, x ∈ src → x ≠ 0) (n : Nat) :
    ∀ x, x ∈ src.drop n → x ≠ 0 := fun x hx => hText x (List.mem_of_mem_drop hx)

/-- The bytes that are found start a word. -/
theorem found_starts (hText : ∀ x, x ∈ src → x ≠ 0) (hFound : found words src = some k) :
    ∃ w, w ∈ words ∧ (src.map tolower).take k <+: w := by
  obtain ⟨-, hFits, -, hAt⟩ := hitLength_some hFound
  obtain ⟨w, hIn, hOf, -⟩ := (found_iff hFits (tolower_ne_zero hText k)).mp hAt
  exact ⟨w, hIn, hOf⟩

theorem Matched.later (hSome : src ≠ []) {j : Nat} (hj : stride words src ≤ j)
    (h : Matched words (src.drop (stride words src)) (j - stride words src)) :
    Matched words src j := by
  obtain ⟨pre, rest, k, w, hEq, hIn, hFound, hWord, hOf, hLow, hHigh⟩ := h
  have hStride : stride words src ≤ src.length := by
    by_contra hLong
    rw [List.drop_eq_nil_of_le (by omega), scanned_nil] at hIn
    cases hIn
  have hLength : (src.take (stride words src) ++ pre).length = stride words src + pre.length := by
    rw [List.length_append, List.length_take_of_le hStride]
  have hRest : rest ∈ scanned words src := by
    rw [scanned_eq hSome]
    exact List.mem_cons_of_mem src hIn
  refine ⟨src.take (stride words src) ++ pre, rest, k, w, ?_, hRest, hFound, hWord, hOf, ?_, ?_⟩
  · rw [List.append_assoc, ← hEq, List.take_append_drop]
  · omega
  · omega

/-- A byte is left as it was, or it is a star in place of something that was found. -/
theorem starred_at (hText : ∀ x, x ∈ src → x ≠ 0) (j : Nat) :
    (starred words src)[j]? = src[j]? ∨
      ((starred words src)[j]? = some dirtyReplaceChar ∧ Matched words src j) := by
  induction src using scan_induction words generalizing j with
  | nil => exact Or.inl rfl
  | turn src hSome ih =>
      have hPiece := length_piece words src
      rw [starred_eq hSome]
      by_cases hHere : j < (piece words src).length
      · rw [List.getElem?_append_left hHere]
        have hj : j < stride words src := by
          rw [hPiece, List.length_take] at hHere
          omega
        cases hFound : found words src with
        | none =>
            left
            rw [piece, hFound, List.getElem?_take, if_pos (stride_none hFound ▸ hj)]
        | some k =>
            obtain ⟨w, hWord, hOf⟩ := found_starts hText hFound
            have hIn : src ∈ scanned words src := by
              rw [scanned_eq hSome]
              exact List.mem_cons_self
            rw [stride_some hFound] at hj
            right
            refine ⟨?_, [], src, k, w, rfl, hIn, hFound, hWord, hOf, Nat.zero_le j, ?_⟩
            · rw [piece, hFound, List.getElem?_replicate, if_pos hj]
            · rwa [List.length_nil, Nat.zero_add]
      · have hThere := Nat.not_lt.mp hHere
        rw [hPiece, List.length_take] at hThere
        rw [List.getElem?_append_right (by rw [hPiece, List.length_take]; exact hThere), hPiece,
          List.length_take]
        by_cases hStride : stride words src ≤ src.length
        · rw [Nat.min_eq_left hStride] at hThere ⊢
          have hAt : src[j]? = (src.drop (stride words src))[j - stride words src]? := by
            rw [List.getElem?_drop, Nat.add_sub_cancel' hThere]
          rw [hAt]
          refine (ih (drop_ne_zero hText _) (j - stride words src)).imp_right ?_
          exact fun hStar => ⟨hStar.1, hStar.2.later hSome hThere⟩
        · -- a lone lead byte is the last one
          have hEnd : src.length ≤ j := by omega
          left
          rw [List.drop_eq_nil_of_le (by omega), List.getElem?_eq_none hEnd]
          rfl

theorem length_starred (src : List UInt8) : (starred words src).length = src.length := by
  induction src using scan_induction words with
  | nil => rfl
  | turn src hSome ih =>
      rw [starred_eq hSome, List.length_append, length_piece, ih, ← List.length_append,
        List.take_append_drop]

/-- What is found in a text with stars is found in the text before. -/
theorem found_faded (h : Built words ctx) (hStar : ∀ w, w ∈ words → dirtyReplaceChar ∉ w)
    (hText : ∀ x, x ∈ src → x ≠ 0) (hLength : out.length = src.length)
    (hFaded : ∀ j : Nat, out[j]? = src[j]? ∨ out[j]? = some dirtyReplaceChar)
    (hSlot : slot (out.map tolower) = slot (src.map tolower))
    (hFound : found words out = some k) : found words src ≠ none := by
  obtain ⟨hPos, hFits, hBit, hAt⟩ := hitLength_some hFound
  have hOut : ∀ x, x ∈ out → x ≠ 0 := by
    intro x hx
    obtain ⟨j, hj⟩ := List.mem_iff_getElem?.mp hx
    cases hFaded j with
    | inl hSame => exact hText x (List.mem_of_getElem? (hSame ▸ hj))
    | inr hStarred =>
        rw [hj] at hStarred
        cases hStarred
        decide
  obtain ⟨w, hIn, hOf, hBucket⟩ := (found_iff hFits (tolower_ne_zero hOut k)).mp hAt
  -- the bytes that are found are none of the stars
  have hSame : out.take k = src.take k := by
    apply List.ext_getElem?
    intro j
    rw [List.getElem?_take, List.getElem?_take]
    split
    · rename_i hj
      refine (hFaded j).resolve_right fun hStarred => hStar w hIn (hOf.subset ?_)
      refine List.mem_of_getElem? (i := j) ?_
      rw [List.getElem?_take, if_pos hj, List.getElem?_map, hStarred]
      rfl
    · rfl
  have hLow : (out.map tolower).take k = (src.map tolower).take k := by
    rw [← List.map_take, ← List.map_take, hSame]
  have hFits' : k ≤ (src.map tolower).length := by
    rw [List.length_map] at hFits ⊢
    omega
  rw [hLow] at hOf hBucket
  refine hitLength_ne_none h hPos ⟨hFits', hSlot ▸ hBit, ?_⟩
  exact (found_iff hFits' (tolower_ne_zero hText k)).mpr ⟨w, hIn, hOf, hBucket⟩

/-! ## The second run -/

/-- The first row is for the single bytes. -/
theorem slot_zero {c d : UInt8} {rest : List UInt8} (hSlot : slot (c :: rest) = some (0, d)) :
    c = d := by
  by_cases hLow : c < gbSpecChar
  · rw [slot_low hLow] at hSlot
    cases hSlot
    rfl
  · cases rest with
    | nil =>
        rw [slot_one, if_neg hLow] at hSlot
        cases hSlot
    | cons e rest =>
        rw [slot_two, if_neg hLow] at hSlot
        cases hSlot
        exact absurd (by decide) hLow

/-- Nothing is found at a star. -/
theorem found_star (hStar : ∀ w, w ∈ words → dirtyReplaceChar ∉ w) (rest : List UInt8) :
    found words (dirtyReplaceChar :: rest) = none := by
  cases hFound : found words (dirtyReplaceChar :: rest) with
  | none => rfl
  | some k =>
      obtain ⟨hPos, -, ⟨w, hIn, hSlot, rfl⟩, -⟩ := hitLength_some hFound
      obtain ⟨c, more, rfl⟩ := List.exists_cons_of_length_pos hPos
      have hFirst : c = dirtyReplaceChar := slot_zero hSlot
      exact absurd (hFirst ▸ List.mem_cons_self) (hStar _ hIn)

/-- Stars are passed over one by one. -/
theorem starred_stars (hStar : ∀ w, w ∈ words → dirtyReplaceChar ∉ w) (k : Nat)
    (rest : List UInt8) :
    starred words (List.replicate k dirtyReplaceChar ++ rest) =
      List.replicate k dirtyReplaceChar ++ starred words rest ∧
    (LoneLead words (List.replicate k dirtyReplaceChar ++ rest) ↔ LoneLead words rest) := by
  induction k with
  | zero => exact ⟨rfl, Iff.rfl⟩
  | succ k ih =>
      have hFound := found_star hStar (List.replicate k dirtyReplaceChar ++ rest)
      have hSome := List.cons_ne_nil dirtyReplaceChar (List.replicate k dirtyReplaceChar ++ rest)
      have hStride := stride_none hFound
      have hWidth :
          width (dirtyReplaceChar :: (List.replicate k dirtyReplaceChar ++ rest)) = 1 := rfl
      rw [List.replicate_succ, List.cons_append, starred_eq hSome, loneLead_iff hSome, piece,
        hFound, hStride, hWidth, List.drop_one, List.tail_cons, ih.1, ih.2]
      refine ⟨rfl, or_iff_right ?_⟩
      exact Option.some_ne_none _

/-- The first character of a text that goes on otherwise. -/
theorem slot_take (hSome : src ≠ []) (hSlot : slot (src.map tolower) ≠ none) (rest : List UInt8) :
    slot ((src.take (width src) ++ rest).map tolower) = slot (src.map tolower) ∧
      width (src.take (width src) ++ rest) = width src := by
  obtain ⟨c, more, rfl⟩ := List.exists_cons_of_ne_nil hSome
  by_cases hLow : tolower c < gbSpecChar
  · have hWidth : ∀ rest, width (c :: rest) = 1 := fun _ => if_pos hLow
    rw [hWidth, List.take_succ_cons, List.take_zero, List.cons_append, List.map_cons,
      List.map_cons, slot_low hLow, slot_low hLow]
    exact ⟨rfl, hWidth _⟩
  · have hWidth : ∀ rest, width (c :: rest) = 2 := fun _ => if_neg hLow
    cases more with
    | nil => exact absurd (if_neg hLow) hSlot
    | cons d more =>
        rw [hWidth, List.take_succ_cons, List.take_succ_cons, List.take_zero]
        exact ⟨rfl, hWidth _⟩

/-- The second run changes nothing, and comes to the end of the text. -/
theorem starred_twice (h : Built words ctx) (hStar : ∀ w, w ∈ words → dirtyReplaceChar ∉ w)
    (hText : ∀ x, x ∈ src → x ≠ 0) (hLone : ¬ LoneLead words src) :
    starred words (starred words src) = starred words src ∧
      ¬ LoneLead words (starred words src) := by
  induction src using scan_induction words with
  | nil => exact ⟨rfl, hLone⟩
  | turn src hSome ih =>
      rw [loneLead_iff hSome, not_or] at hLone
      obtain ⟨hSlot, hLater⟩ := hLone
      obtain ⟨hRest, hEnds⟩ := ih (drop_ne_zero hText _) hLater
      have hStarred := @starred_eq words src hSome
      cases hFound : found words src with
      | some k =>
          rw [piece, hFound] at hStarred
          rw [hStarred]
          obtain ⟨hStars, hSame⟩ :=
            starred_stars hStar k (starred words (src.drop (stride words src)))
          exact ⟨by rw [hStars, hRest], fun hLead => hEnds (hSame.mp hLead)⟩
      | none =>
          -- the same character comes first, and nothing is found there either
          rw [piece, hFound] at hStarred
          obtain ⟨hSlot', hWidth⟩ :=
            slot_take hSome hSlot (starred words (src.drop (stride words src)))
          rw [← hStarred] at hSlot' hWidth
          have hNone : found words (starred words src) = none := by
            cases hHit : found words (starred words src) with
            | none => rfl
            | some k =>
                have hFaded : ∀ j : Nat, (starred words src)[j]? = src[j]? ∨
                    (starred words src)[j]? = some dirtyReplaceChar :=
                  fun j => (starred_at hText j).imp_right And.left
                exact absurd hFound
                  (found_faded h hStar hText (length_starred src) hFaded hSlot' hHit)
          have hMore : starred words src ≠ [] := by
            apply List.ne_nil_of_length_pos
            rw [length_starred]
            exact List.length_pos_iff.mpr hSome
          have hHead : (src.take (width src)).length = width src :=
            List.length_take_of_le (width_le hSome hSlot)
          have hTake : (starred words src).take (width src) = src.take (width src) := by
            rw [hStarred, List.take_left' hHead]
          have hDrop : (starred words src).drop (width src) =
              starred words (src.drop (stride words src)) := by
            rw [hStarred, List.drop_left' hHead]
          constructor
          · rw [starred_eq hMore, stride_none hNone, hWidth, piece, hNone, hWidth, hDrop, hTake,
              hRest, hStarred]
          · rw [loneLead_iff hMore, stride_none hNone, hWidth, hDrop, hSlot', or_iff_right hSlot]
            exact hEnds

end

/-- A second run leaves what the first has left.  The first has put stars in place of bytes that
were found, and changed nothing else. -/
theorem dirtyReplace_twice {file : List UInt8} {ctx : DirtyCtxT}
    (hCreate : dirtyCreate file = some ctx)
    (hStar : ∀ w, w ∈ ctx.words → dirtyReplaceChar ∉ w) {src : List UInt8}
    (hText : ∀ x, x ∈ src → x ≠ 0) {ret : Int} {out : List UInt8}
    (hFirst : dirtyReplace ctx src = some (ret, out)) (hRet : ret ≠ -1) :
    dirtyReplace ctx out = some (0, out) ∧ out.length = src.length ∧
      ∀ j : Nat, out[j]? ≠ src[j]? →
        out[j]? = some dirtyReplaceChar ∧ Matched ctx.words src j := by
  have h := dirtyCreate_built hCreate
  have hLen : src.length ≤ maxSourceWordsLen := by
    by_contra hLong
    rw [dirtyReplace, if_pos (Nat.not_le.mp hLong)] at hFirst
    cases hFirst
    exact hRet rfl
  rw [dirtyReplace_spec h hLen] at hFirst
  cases hFirst
  have hLone : ¬ LoneLead ctx.words src := fun hLead => hRet (if_pos hLead)
  obtain ⟨hTwice, hEnds⟩ := starred_twice h hStar hText hLone
  have hLength := @length_starred ctx.words src
  refine ⟨?_, hLength, fun j hDiffers => (starred_at hText j).resolve_left hDiffers⟩
  rw [dirtyReplace_spec h (hLength ▸ hLen), hTwice, if_neg hEnds]

/-- A text with the word in the middle. -/
theorem dirtyReplace_twice_bad :
    dirtyReplace badCtx (ascii "a *** b") = some (0, ascii "a *** b") ∧
      (ascii "a *** b").length = (ascii "a bad b").length ∧
      ∀ j : Nat, (ascii "a *** b")[j]? ≠ (ascii "a bad b")[j]? →
        (ascii "a *** b")[j]? = some dirtyReplaceChar ∧
          Matched badCtx.words (ascii "a bad b") j := by
  have hCreate : dirtyCreate (ascii "bad\n") = some badCtx := (Option.some_get _).symm
  have hFirst : dirtyReplace badCtx (ascii "a bad b") = some (0, ascii "a *** b") := by decide
  exact dirtyReplace_twice hCreate (by decide) (by simp [ascii]) hFirst (by decide)

end Gbase.Logic.Dirty
