import Gbase.Logic.DirtyCheck

/-!
# Overwriting dirty words (`logic/dirty.c`)

`dirty_replace` goes through a text once.  Where a length is found, as many bytes are overwritten
and passed over.  The loop ends with the text or at a lone lead byte; what was overwritten before
stays so, and no return value tells that something was overwritten.

## Main results

* `replaceTurn_spec`: one position of the text.
* `replaceLoop_spec`: the loop leaves the text with the words that are found overwritten.
* `dirtyReplace_spec`: the result of the whole function.
* `dirtyReplace_contract_iff`: when the return value tells what happened to the text.
-/

namespace Gbase.Logic.Dirty

open Gbase.Lib.CString

/-- `DIRTY_REPLACE_CHAR` -/
def dirtyReplaceChar : UInt8 := 0x2a

/-- The loop of `dirty_replace` that overwrites `k` bytes from `i` on. -/
def overwrite (src : List UInt8) (i k : Nat) : List UInt8 :=
  (List.range k).foldl (fun src j => src.set (i + j) dirtyReplaceChar) src

/-- One turn of the loop of `dirty_replace`: what is returned, or the text and the step. -/
def replaceTurn (ctx : DirtyCtxT) (lowcase src : List UInt8) (i : Nat) :
    Option (Except Int (List UInt8 × Nat)) := do
  let first ← lowcase[i]?
  match slot (lowcase.drop i) with
  | none => return .error (-1)
  | some (row, col) =>
      let step := if first < gbSpecChar then 1 else 2
      let key := ctx.index row col
      if key = 0#32 then return .ok (src, step)
      else
        let found ← matchLoop ctx (lowcase.drop i) (maxDirtyWordsLen - 1) 1 key
        match found with
        | none => return .ok (src, step)
        | some k => return .ok (overwrite src i k, k)

/-- The loop of `dirty_replace`, undefined when it takes more than `fuel` turns. -/
def replaceLoop (ctx : DirtyCtxT) (lowcase : List UInt8) :
    Nat → List UInt8 → Nat → Option (Int × List UInt8)
  | 0, _, _ => none
  | fuel + 1, src, i =>
      if i < lowcase.length then
        match replaceTurn ctx lowcase src i with
        | none => none
        | some (.error ret) => some (ret, src)
        | some (.ok (src, step)) => replaceLoop ctx lowcase fuel src (i + step)
      else some (0, src)

/-- `dirty_replace`: what is returned, and the text that is left. -/
def dirtyReplace (ctx : DirtyCtxT) (src : List UInt8) : Option (Int × List UInt8) :=
  if maxSourceWordsLen < src.length then some (-1, src)
  else replaceLoop ctx (src.map tolower) (src.length + 1) src 0

/-! ## What the scan goes through -/

/-- The length that is found at the start of a text. -/
def found (words : List (List UInt8)) (src : List UInt8) : Option Nat :=
  hitLength words (src.map tolower)

/-- The bytes of the first character of a text. -/
def width : List UInt8 → Nat
  | [] => 1
  | c :: _ => if tolower c < gbSpecChar then 1 else 2

/-- How far the scan goes on from the start of a text. -/
def stride (words : List (List UInt8)) (src : List UInt8) : Nat :=
  (found words src).getD (width src)

/-- What is left of the text at each position that is scanned, after some bytes that are passed
over. -/
def scannedAfter (words : List (List UInt8)) : Nat → List UInt8 → List (List UInt8)
  | _, [] => []
  | more + 1, _ :: rest => scannedAfter words more rest
  | 0, c :: rest => (c :: rest) :: scannedAfter words (stride words (c :: rest) - 1) rest

def scanned (words : List (List UInt8)) (src : List UInt8) : List (List UInt8) :=
  scannedAfter words 0 src

/-- What is left in place of the bytes up to the next position. -/
def piece (words : List (List UInt8)) (rest : List UInt8) : List UInt8 :=
  match found words rest with
  | none => rest.take (width rest)
  | some k => List.replicate k dirtyReplaceChar

/-- The text with all that is found overwritten. -/
def starred (words : List (List UInt8)) (src : List UInt8) : List UInt8 :=
  (scanned words src).flatMap (piece words)

/-- The scan gets to a lead byte with nothing behind it. -/
def LoneLead (words : List (List UInt8)) (src : List UInt8) : Prop :=
  ∃ rest, rest ∈ scanned words src ∧ slot (rest.map tolower) = none

instance LoneLead.decidable (words : List (List UInt8)) (src : List UInt8) :
    Decidable (LoneLead words src) :=
  inferInstanceAs (Decidable (∃ rest, rest ∈ scanned words src ∧ _))

/-- The scan ends with the text. -/
def Finished (words : List (List UInt8)) (src : List UInt8) : Prop :=
  src.length ≤ maxSourceWordsLen ∧ ¬ LoneLead words src

/-- No word of the table starts where the text is scanned. -/
def Clean (words : List (List UInt8)) (src : List UInt8) : Prop :=
  ∀ rest, rest ∈ scanned words src → ¬ Starts words (rest.map tolower)

/-- A word of the table is overwritten. -/
def Replaced (words : List (List UInt8)) (src : List UInt8) : Prop :=
  ∃ rest, rest ∈ scanned words src ∧
    ∃ k, found words rest = some k ∧ (rest.map tolower).take k ∈ words

/-- What is overwritten was stars before. -/
def Kept (words : List (List UInt8)) (src : List UInt8) : Prop :=
  ∀ rest, rest ∈ scanned words src →
    ∀ k, found words rest = some k → rest.take k = List.replicate k dirtyReplaceChar

/-- What the return value and the text that is left should tell. -/
structure Contract (words : List (List UInt8)) (src : List UInt8) (ret : Int)
    (out : List UInt8) : Prop where
  zero : ret = 0 ↔ Finished words src ∧ Clean words src
  same : ret = 0 → out = src
  one : ret = 1 ↔ Finished words src ∧ Replaced words src
  fail : ret = -1 ↔ ¬ Finished words src
  back : ret = -1 → out = src

section

variable {words : List (List UInt8)} {ctx : DirtyCtxT} {src : List UInt8} {k : Nat}

private theorem width_pos (src : List UInt8) : 0 < width src := by
  cases src with
  | nil => exact Nat.one_pos
  | cons c rest =>
      rw [width]
      split <;> decide

theorem stride_pos (words : List (List UInt8)) (src : List UInt8) : 0 < stride words src := by
  rw [stride]
  cases hFound : found words src with
  | none => exact width_pos src
  | some k => exact (hitLength_some hFound).1

theorem stride_none (hFound : found words src = none) : stride words src = width src := by
  rw [stride, hFound, Option.getD_none]

theorem stride_some (hFound : found words src = some k) : stride words src = k := by
  rw [stride, hFound, Option.getD_some]

/-- What is found is in the text. -/
theorem found_le (hFound : found words src = some k) : k ≤ src.length := by
  have hFits := (hitLength_some hFound).2.1
  rwa [List.length_map] at hFits

theorem scannedAfter_eq (more : Nat) (src : List UInt8) :
    scannedAfter words more src = scanned words (src.drop more) := by
  induction src generalizing more with
  | nil => rw [scannedAfter, List.drop_nil, scanned, scannedAfter]
  | cons c rest ih =>
      cases more with
      | zero => rfl
      | succ more => exact ih more

theorem scanned_nil : scanned words [] = [] := rfl

/-- The scan goes on behind what is passed over. -/
theorem scanned_eq (hSome : src ≠ []) :
    scanned words src = src :: scanned words (src.drop (stride words src)) := by
  obtain ⟨c, rest, rfl⟩ := List.exists_cons_of_ne_nil hSome
  have hPos := stride_pos words (c :: rest)
  rw [scanned, scannedAfter, scannedAfter_eq]
  congr 2
  rw [List.drop_cons hPos]

/-- Induction along the scan. -/
theorem scan_induction (words : List (List UInt8)) {motive : List UInt8 → Prop} (nil : motive [])
    (turn : ∀ src, src ≠ [] → motive (src.drop (stride words src)) → motive src)
    (src : List UInt8) : motive src := by
  induction hLength : src.length using Nat.strong_induction_on generalizing src with
  | _ n ih =>
      by_cases hNil : src = []
      · exact hNil ▸ nil
      · have hPos := stride_pos words src
        have hSome := List.length_pos_iff.mpr hNil
        refine turn src hNil (ih _ ?_ _ rfl)
        rw [List.length_drop]
        omega

theorem starred_eq (hSome : src ≠ []) :
    starred words src = piece words src ++ starred words (src.drop (stride words src)) := by
  rw [starred, scanned_eq hSome, List.flatMap_cons, starred]

theorem loneLead_iff (hSome : src ≠ []) : LoneLead words src ↔
    slot (src.map tolower) = none ∨ LoneLead words (src.drop (stride words src)) := by
  simp only [LoneLead, scanned_eq hSome, List.mem_cons, exists_eq_or_imp]

/-! ## The loop -/

/-- The bytes from some place on are overwritten. -/
theorem overwrite_eq (done : List UInt8) (hk : k ≤ src.length) :
    overwrite (done ++ src) done.length k =
      done ++ List.replicate k dirtyReplaceChar ++ src.drop k := by
  induction k with
  | zero => simp [overwrite]
  | succ k ih =>
      have hCut : src.drop k = src[k] :: src.drop (k + 1) := List.drop_eq_getElem_cons hk
      rw [overwrite, List.range_succ, List.foldl_concat]
      have hBefore := ih (by omega)
      rw [overwrite] at hBefore
      have hPlace : (done ++ List.replicate k dirtyReplaceChar).length = done.length + k := by
        rw [List.length_append, List.length_replicate]
      rw [hBefore, hCut, List.set_append_right _ _ (by omega), hPlace, Nat.sub_self,
        List.set_cons_zero, List.replicate_succ', List.append_assoc, List.append_assoc,
        List.append_assoc]
      rfl

/-- The turn at the start of what is left of a text. -/
theorem replaceTurn_spec (h : Built words ctx) (hSome : src ≠ []) (before done : List UInt8)
    (hBefore : before.length = done.length) :
    (slot (src.map tolower) = none ∧
      replaceTurn ctx (before ++ src.map tolower) (done ++ src) done.length =
        some (.error (-1))) ∨
    (slot (src.map tolower) ≠ none ∧
      replaceTurn ctx (before ++ src.map tolower) (done ++ src) done.length =
        some (.ok (done ++ piece words src ++ src.drop (stride words src), stride words src))) := by
  obtain ⟨c, rest, rfl⟩ := List.exists_cons_of_ne_nil hSome
  have hFirst : (before ++ (c :: rest).map tolower)[done.length]? = some (tolower c) := by
    rw [← hBefore, List.getElem?_append_right (Nat.le_refl _), Nat.sub_self]
    rfl
  have hDrop : (before ++ (c :: rest).map tolower).drop done.length = (c :: rest).map tolower := by
    rw [← hBefore, List.drop_left]
  rw [replaceTurn, hFirst, hDrop, Option.bind_eq_bind, Option.bind_some]
  cases hSlot : slot ((c :: rest).map tolower) with
  | none => exact Or.inl ⟨rfl, rfl⟩
  | some entry =>
      obtain ⟨row, col⟩ := entry
      refine Or.inr ⟨Option.some_ne_none _, ?_⟩
      -- a character is passed over where nothing is found
      have hPass : found words (c :: rest) = none → done ++ piece words (c :: rest) ++
          (c :: rest).drop (stride words (c :: rest)) = done ++ (c :: rest) := by
        intro hFound
        rw [stride_none hFound, piece, hFound, List.append_assoc, List.take_append_drop]
      by_cases hZero : ctx.index row col = 0#32
      · have hFound : found words (c :: rest) = none := hitLength_none h hSlot hZero
        simp only [if_pos hZero]
        rw [hPass hFound, stride_none hFound]
        rfl
      · simp only [if_neg hZero, matchLoop_index h hSlot, Option.bind_eq_bind, Option.bind_some]
        cases hFound : hitLength words ((c :: rest).map tolower) with
        | none =>
            rw [hPass hFound, stride_none hFound]
            rfl
        | some k =>
            have hStars : piece words (c :: rest) = List.replicate k dirtyReplaceChar := by
              rw [piece, found, hFound]
            rw [stride_some hFound, hStars, ← overwrite_eq done (found_le hFound)]
            rfl

/-- A character that has an entry is in the text. -/
theorem width_le (hSome : src ≠ []) (hSlot : slot (src.map tolower) ≠ none) :
    width src ≤ src.length := by
  obtain ⟨c, rest, rfl⟩ := List.exists_cons_of_ne_nil hSome
  rw [width]
  split
  · exact Nat.succ_le_succ (Nat.zero_le _)
  · rename_i hLead
    cases rest with
    | nil => exact absurd (if_neg hLead) hSlot
    | cons d rest => exact Nat.succ_le_succ (Nat.succ_le_succ (Nat.zero_le _))

private theorem stride_le (hSome : src ≠ []) (hSlot : slot (src.map tolower) ≠ none) :
    stride words src ≤ src.length := by
  cases hFound : found words src with
  | none => exact stride_none hFound ▸ width_le hSome hSlot
  | some k => exact stride_some hFound ▸ found_le hFound

theorem length_piece (words : List (List UInt8)) (src : List UInt8) :
    (piece words src).length = (src.take (stride words src)).length := by
  cases hFound : found words src with
  | none => rw [stride_none hFound, piece, hFound]
  | some k =>
      rw [stride_some hFound, piece, hFound, List.length_replicate,
        List.length_take_of_le (found_le hFound)]

/-- A lone lead byte is left as it is. -/
theorem starred_lone (h : Built words ctx) (hSome : src ≠ [])
    (hSlot : slot (src.map tolower) = none) : starred words src = src := by
  have hFound : found words src = none := by
    cases hHit : found words src with
    | none => rfl
    | some k =>
        obtain ⟨w, hIn, hSame, -⟩ := (hitLength_some hHit).2.2.1
        exact absurd (hSame.trans hSlot) (h.slot w hIn)
  have hShort : src.length ≤ width src := by
    obtain ⟨c, rest, rfl⟩ := List.exists_cons_of_ne_nil hSome
    have hPos := width_pos (c :: rest)
    have hMap : (c :: rest).map tolower ≠ [] := List.cons_ne_nil _ _
    obtain ⟨c', -, hOne⟩ := (slot_eq_none_iff hMap).mp hSlot
    have hLength := congrArg List.length hOne
    rw [List.length_map, List.length_singleton] at hLength
    omega
  rw [starred_eq hSome, stride_none hFound, List.drop_eq_nil_of_le hShort, piece, hFound]
  exact (List.append_nil _).trans (List.take_of_length_le hShort)

/-- The loop goes through what is left of a text. -/
theorem replaceLoop_spec (h : Built words ctx) (src : List UInt8) :
    ∀ (before done : List UInt8) (fuel : Nat), before.length = done.length → src.length < fuel →
      replaceLoop ctx (before ++ src.map tolower) fuel (done ++ src) done.length =
        some (if LoneLead words src then -1 else 0, done ++ starred words src) := by
  induction src using scan_induction words with
  | nil =>
      intro before done fuel hBefore hFuel
      obtain ⟨fuel, rfl⟩ := Nat.exists_eq_succ_of_ne_zero (by omega : fuel ≠ 0)
      have hEnd : ¬ done.length < (before ++ [].map tolower).length := by
        rw [List.map_nil, List.append_nil]
        omega
      have hClean : ¬ LoneLead words [] := by
        rintro ⟨rest, hIn, -⟩
        cases hIn
      rw [replaceLoop, if_neg hEnd, if_neg hClean]
      rfl
  | turn src hSome ih =>
      intro before done fuel hBefore hFuel
      obtain ⟨fuel, rfl⟩ := Nat.exists_eq_succ_of_ne_zero (by omega : fuel ≠ 0)
      have hPos := List.length_pos_iff.mpr hSome
      have hMore : done.length < (before ++ src.map tolower).length := by
        rw [List.length_append, List.length_map]
        omega
      rw [replaceLoop, if_pos hMore]
      rcases replaceTurn_spec h hSome before done hBefore with ⟨hSlot, hTurn⟩ | ⟨hSlot, hTurn⟩
      · have hLone : LoneLead words src := (loneLead_iff hSome).mpr (Or.inl hSlot)
        rw [hTurn, if_pos hLone, starred_lone h hSome hSlot]
      · have hStride := @stride_le words src hSome hSlot
        have hStep := stride_pos words src
        have hPiece := (length_piece words src).trans (List.length_take_of_le hStride)
        have hNext := ih (before ++ (src.take (stride words src)).map tolower)
          (done ++ piece words src) fuel
          (by rw [List.length_append, List.length_append, List.length_map,
            List.length_take_of_le hStride, hPiece, hBefore])
          (by rw [List.length_drop]; omega)
        rw [List.append_assoc, ← List.map_append, List.take_append_drop, List.length_append,
          hPiece] at hNext
        have hLone : LoneLead words src ↔ LoneLead words (src.drop (stride words src)) := by
          rw [loneLead_iff hSome, or_iff_right hSlot]
        rw [hTurn]
        simp only [hLone, starred_eq hSome]
        rw [← List.append_assoc]
        exact hNext

/-- What `dirty_replace` returns, and what it leaves of a text. -/
theorem dirtyReplace_spec (h : Built words ctx) (hLen : src.length ≤ maxSourceWordsLen) :
    dirtyReplace ctx src =
      some (if LoneLead words src then -1 else 0, starred words src) := by
  rw [dirtyReplace, if_neg (Nat.not_lt.mpr hLen)]
  exact replaceLoop_spec h src [] [] (src.length + 1) rfl (Nat.lt_succ_self _)

/-- A text is left as it was if and only if nothing but stars is overwritten. -/
theorem starred_eq_self_iff (src : List UInt8) : starred words src = src ↔ Kept words src := by
  induction src using scan_induction words with
  | nil =>
      refine iff_of_true rfl ?_
      intro rest hIn
      cases hIn
  | turn src hSome ih =>
      have hHere : piece words src = src.take (stride words src) ↔
          ∀ k, found words src = some k → src.take k = List.replicate k dirtyReplaceChar := by
        rw [piece]
        cases hFound : found words src with
        | none =>
            rw [stride_none hFound]
            exact iff_of_true rfl nofun
        | some k =>
            rw [stride_some hFound]
            constructor
            · rintro hEq k' hSame
              cases hSame
              exact hEq.symm
            · exact fun hAll => (hAll k rfl).symm
      have hSplit : starred words src = src ↔ piece words src = src.take (stride words src) ∧
          starred words (src.drop (stride words src)) = src.drop (stride words src) := by
        constructor
        · intro hEq
          rw [starred_eq hSome] at hEq
          exact List.append_inj (hEq.trans (List.take_append_drop _ src).symm)
            (length_piece words src)
        · rintro ⟨hHead, hTail⟩
          rw [starred_eq hSome, hHead, hTail, List.take_append_drop]
      rw [hSplit, hHere, ih]
      simp only [Kept, scanned_eq hSome, List.mem_cons, forall_eq_or_imp]

/-- Where a word is overwritten it starts. -/
theorem not_replaced (hClean : Clean words src) : ¬ Replaced words src := by
  rintro ⟨rest, hIn, k, hFound, hWord⟩
  have hPos := (hitLength_some hFound).1
  have hFits := (hitLength_some hFound).2.1
  refine hClean rest hIn ⟨_, hWord, ?_, List.take_prefix k _⟩
  apply List.ne_nil_of_length_pos
  rw [List.length_take_of_le hFits]
  exact hPos

/-- A text that is refused keeps the contract if it is left as it was. -/
theorem Contract.refused (hNot : ¬ Finished words src) : Contract words src (-1) src where
  zero := iff_of_false (by decide) fun hBoth => hNot hBoth.1
  same := nofun
  one := iff_of_false (by decide) fun hBoth => hNot hBoth.1
  fail := iff_of_true rfl hNot
  back := fun _ => rfl

end

/-- The contract is kept if and only if the text is too long, or nothing but stars is overwritten
and either a lone lead byte is reached or no word starts where the text is scanned. -/
theorem dirtyReplace_contract_iff {file : List UInt8} {ctx : DirtyCtxT}
    (hCreate : dirtyCreate file = some ctx) (src : List UInt8) :
    (∃ ret out, dirtyReplace ctx src = some (ret, out) ∧ Contract ctx.words src ret out) ↔
      maxSourceWordsLen < src.length ∨
        (Kept ctx.words src ∧ (LoneLead ctx.words src ∨ Clean ctx.words src)) := by
  have h := dirtyCreate_built hCreate
  by_cases hLong : maxSourceWordsLen < src.length
  · have hNot : ¬ Finished ctx.words src := fun hFinished => absurd hFinished.1 (by omega)
    exact iff_of_true ⟨-1, src, if_pos hLong, Contract.refused hNot⟩ (Or.inl hLong)
  have hLen := Nat.not_lt.mp hLong
  rw [or_iff_right hLong, ← starred_eq_self_iff]
  have hResult : (∃ ret out, dirtyReplace ctx src = some (ret, out) ∧
      Contract ctx.words src ret out) ↔
      Contract ctx.words src (if LoneLead ctx.words src then -1 else 0)
        (starred ctx.words src) := by
    rw [dirtyReplace_spec h hLen]
    constructor
    · rintro ⟨ret, out, hEq, hContract⟩
      cases hEq
      exact hContract
    · exact fun hContract => ⟨_, _, rfl, hContract⟩
  rw [hResult]
  by_cases hLone : LoneLead ctx.words src
  · have hNot : ¬ Finished ctx.words src := fun hFinished => hFinished.2 hLone
    rw [if_pos hLone, and_iff_left (Or.inl hLone)]
    constructor
    · exact fun hContract => hContract.back rfl
    · intro hSame
      rw [hSame]
      exact Contract.refused hNot
  · have hFinished : Finished ctx.words src := ⟨hLen, hLone⟩
    rw [if_neg hLone, or_iff_right hLone]
    constructor
    · exact fun hContract => ⟨hContract.same rfl, (hContract.zero.mp rfl).2⟩
    · rintro ⟨hSame, hClean⟩
      exact {
        zero := iff_of_true rfl ⟨hFinished, hClean⟩
        same := fun _ => hSame
        one := iff_of_false (by decide) fun hBoth => not_replaced hClean hBoth.2
        fail := iff_of_false (by decide) (not_not.mpr hFinished)
        back := nofun }

/-- A clean text keeps the contract. -/
theorem dirtyReplace_contract_clean :
    ∃ ret out, dirtyReplace badCtx (ascii "ok") = some (ret, out) ∧
      Contract badCtx.words (ascii "ok") ret out := by
  have hCreate : dirtyCreate (ascii "bad\n") = some badCtx := (Option.some_get _).symm
  have hNone : ∀ rest, rest ∈ scanned badCtx.words (ascii "ok") →
      found badCtx.words rest = none ∧ ¬ Starts badCtx.words (rest.map tolower) := by decide
  refine (dirtyReplace_contract_iff hCreate (ascii "ok")).mpr (Or.inr ⟨?_, ?_⟩)
  · intro rest hIn k hFound
    rw [(hNone rest hIn).1] at hFound
    cases hFound
  · exact Or.inr fun rest hIn => (hNone rest hIn).2

/-- A word is overwritten without a word of it, and stays so when the text is refused. -/
theorem dirtyReplace_not_contract :
    dirtyReplace badCtx (ascii "bad") = some (0, ascii "***") ∧
      dirtyReplace badCtx (ascii "bad" ++ [0x80]) = some (-1, ascii "***" ++ [0x80]) ∧
      ¬ ∃ ret out, dirtyReplace badCtx (ascii "bad") = some (ret, out) ∧
        Contract badCtx.words (ascii "bad") ret out := by
  have hRun : dirtyReplace badCtx (ascii "bad") = some (0, ascii "***") := by decide
  refine ⟨hRun, by decide, ?_⟩
  rintro ⟨ret, out, hRun', hContract⟩
  rw [hRun] at hRun'
  cases hRun'
  exact absurd (hContract.same rfl) (by decide)

end Gbase.Logic.Dirty
