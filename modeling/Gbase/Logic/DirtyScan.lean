import Gbase.Logic.Dirty
import Mathlib.Data.List.Find

/-!
# The lengths that are looked up (`logic/dirty.c`)

At a position of a text `dirty_check` and `dirty_replace` go through the lengths of the mask for its
first bytes, the shortest first, until one of them is found.

The masks have one bit for each length, and the bits of a mask are the lengths of the words that
start with the same one or two bytes.  The loop thus passes over lengths without looking, and what
it passes over cannot be found.

## Main results

* `matchLoop_spec`: the loop comes to the first length of the mask that is found.
* `matchLoop_index`: the same for the mask of the first bytes.
-/

namespace Gbase.Logic.Dirty

/-- The loop of `dirty_replace` over the lengths from `k` on, at a text: the length that is
found. -/
def matchLoop (ctx : DirtyCtxT) (text : List UInt8) :
    Nat → Nat → BitVec 32 → Option (Option Nat)
  | 0, _, _ => some none
  | more + 1, k, key =>
      if text.length < k then some none
      else if key &&& 1#32 <<< k = 0#32 then matchLoop ctx text more (k + 1) key
      else do
        let ret ← dirtyHashFind ctx text k
        if ret = 0 then return some k
        else
          let key := key &&& ~~~ (1#32 <<< k)
          if key = 0#32 then return none
          else matchLoop ctx text more (k + 1) key

instance Found.decidable (words : List (List UInt8)) (src : List UInt8) (len : Nat) :
    Decidable (Found words src len) := inferInstanceAs (Decidable (∃ w, w ∈ words ∧ _))

/-- What is found has a length of the mask and is in the text. -/
def Match (words : List (List UInt8)) (text : List UInt8) (key : BitVec 32) (k : Nat) : Prop :=
  k ≤ text.length ∧ key.getLsbD k = true ∧ Found words text k

instance Match.decidable (words : List (List UInt8)) (text : List UInt8) (key : BitVec 32)
    (k : Nat) : Decidable (Match words text key k) := inferInstanceAs (Decidable (_ ∧ _))

/-- A length that a word with the same first bytes has is found at the start of the text. -/
def HitAt (words : List (List UInt8)) (text : List UInt8) (k : Nat) : Prop :=
  k ≤ text.length ∧ (∃ w, w ∈ words ∧ slot w = slot text ∧ w.length = k) ∧ Found words text k

instance HitAt.decidable (words : List (List UInt8)) (text : List UInt8) (k : Nat) :
    Decidable (HitAt words text k) :=
  inferInstanceAs (Decidable (_ ∧ (∃ w, w ∈ words ∧ _) ∧ _))

/-- The first length that is found at the start of the text. -/
def hitLength (words : List (List UInt8)) (text : List UInt8) : Option Nat :=
  (List.range' 1 (maxDirtyWordsLen - 1)).find? fun k => HitAt words text k

section

variable {words : List (List UInt8)} {ctx : DirtyCtxT} {text : List UInt8} {key : BitVec 32}
  {k more : Nat}

theorem getLsbD_bit {j : Nat} (hj : j < 32) : (1#32 <<< k).getLsbD j = true ↔ j = k := by
  simp only [BitVec.getLsbD_shiftLeft, BitVec.getLsbD_one, Bool.and_eq_true, decide_eq_true_iff,
    Bool.not_eq_true', decide_eq_false_iff_not]
  omega

/-- Whether a mask has a bit. -/
theorem and_bit_eq_zero (hk : k < 32) : key &&& 1#32 <<< k = 0#32 ↔ ¬ key.getLsbD k = true := by
  constructor
  · intro hZero hBit
    have hBoth : (key &&& 1#32 <<< k).getLsbD k = true := by
      rw [BitVec.getLsbD_and, hBit, (getLsbD_bit hk).mpr rfl]
      rfl
    rw [hZero, BitVec.getLsbD_zero] at hBoth
    cases hBoth
  · intro hNot
    apply BitVec.eq_of_getLsbD_eq
    intro j hj
    rw [BitVec.getLsbD_and, BitVec.getLsbD_zero, Bool.and_eq_false_iff]
    by_cases hSame : j = k
    · exact Or.inl (Bool.eq_false_iff.mpr (hSame ▸ hNot))
    · exact Or.inr (Bool.eq_false_iff.mpr fun hBit => hSame ((getLsbD_bit hj).mp hBit))

/-- The bits of a mask after one was reset. -/
theorem getLsbD_reset {j : Nat} (hj : j < 32) :
    (key &&& ~~~ (1#32 <<< k)).getLsbD j = true ↔ key.getLsbD j = true ∧ j ≠ k := by
  rw [BitVec.getLsbD_and, BitVec.getLsbD_not, Bool.and_eq_true, Bool.and_eq_true,
    decide_eq_true_iff, Bool.not_eq_true', Ne, ← getLsbD_bit hj, Bool.not_eq_true]
  exact and_congr_right fun _ => and_iff_right hj

/-- Only the bits of the lengths that are looked up matter. -/
theorem find_match_congr {key' : BitVec 32}
    (hSame : ∀ j, k ≤ j → j < k + more → (key'.getLsbD j = true ↔ key.getLsbD j = true)) :
    (List.range' k more).find? (fun j => Match words text key' j) =
      (List.range' k more).find? fun j => Match words text key j := by
  apply List.find?_congr
  intro j hj
  obtain ⟨hLow, hHigh⟩ := List.mem_range'_1.mp hj
  exact decide_eq_decide.mpr (and_congr_right fun _ => and_congr_left' (hSame j hLow hHigh))

private theorem find_match_zero :
    (List.range' k more).find? (fun j => Match words text 0#32 j) = none := by
  rw [List.find?_eq_none]
  intro j _ hIn
  have hHas := (of_decide_eq_true hIn).2.1
  rw [BitVec.getLsbD_zero] at hHas
  cases hHas

/-- The lengths of a mask are looked up one after the other. -/
theorem matchLoop_spec (h : Hashed words words.length ctx) (hk : 0 < k) (hMore : k + more ≤ 32) :
    matchLoop ctx text more k key =
      some ((List.range' k more).find? fun j => Match words text key j) := by
  induction more generalizing k key with
  | zero => rfl
  | succ more ih =>
      by_cases hLong : text.length < k
      · have hNone : (List.range' k (more + 1)).find? (fun j => Match words text key j) = none := by
          rw [List.find?_eq_none]
          intro j hj hIn
          have hLow := (List.mem_range'_1.mp hj).1
          have hFits := (of_decide_eq_true hIn).1
          omega
        rw [matchLoop, if_pos hLong, hNone]
      rw [List.range'_succ]
      by_cases hBit : key.getLsbD k = true
      · have hSet : ¬ key &&& 1#32 <<< k = 0#32 := fun hZero =>
          (and_bit_eq_zero (by omega)).mp hZero hBit
        obtain ⟨ret, hFind, hSpec⟩ := dirtyHashFind_spec h text hk
        rw [matchLoop, if_neg hLong, if_neg hSet, hFind, Option.bind_eq_bind, Option.bind_some]
        by_cases hFound : ret = 0
        · have hMatch : Match words text key k := ⟨by omega, hBit, hSpec.mp hFound⟩
          rw [if_pos hFound, List.find?_cons_of_pos (by simpa using hMatch)]
          rfl
        · have hNot : ¬ Match words text key k := fun hIn => hFound (hSpec.mpr hIn.2.2)
          -- the bit that is reset is not looked at again
          have hRest : (List.range' (k + 1) more).find? (fun j =>
              Match words text (key &&& ~~~ (1#32 <<< k)) j) =
              (List.range' (k + 1) more).find? fun j => Match words text key j := by
            apply find_match_congr
            intro j hLow hHigh
            rw [getLsbD_reset (by omega)]
            exact and_iff_left (by omega)
          rw [if_neg hFound, List.find?_cons_of_neg (by simpa using hNot), ← hRest]
          by_cases hZero : key &&& ~~~ (1#32 <<< k) = 0#32
          · rw [if_pos hZero, hZero, find_match_zero]
            rfl
          · rw [if_neg hZero, ih (by omega) (by omega)]
      · have hNot : ¬ Match words text key k := fun hIn => hBit hIn.2.1
        rw [matchLoop, if_neg hLong, if_pos ((and_bit_eq_zero (by omega)).mpr hBit),
          ih (by omega) (by omega), List.find?_cons_of_neg (by simpa using hNot)]

/-- The mask of the first bytes tells the lengths of the words that start so. -/
theorem find_match_index (h : Built words ctx) {row col : UInt8}
    (hSlot : slot text = some (row, col)) :
    ((List.range' 1 (maxDirtyWordsLen - 1)).find? fun j =>
      Match words text (ctx.index row col) j) = hitLength words text := by
  apply List.find?_congr
  intro j hj
  have hShort : j < 32 := by
    have hHigh := (List.mem_range'_1.mp hj).2
    have hMax : 1 + (maxDirtyWordsLen - 1) = 32 := rfl
    omega
  refine decide_eq_decide.mpr (and_congr_right fun _ => and_congr_left' ?_)
  rw [h.indexed row col j hShort, hSlot]

/-- The loop comes to the first length that is found. -/
theorem matchLoop_index (h : Built words ctx) {row col : UInt8}
    (hSlot : slot text = some (row, col)) :
    matchLoop ctx text (maxDirtyWordsLen - 1) 1 (ctx.index row col) =
      some (hitLength words text) := by
  rw [matchLoop_spec h.hashed (by decide) (by decide), find_match_index h hSlot]

/-- Nothing is found for an empty mask. -/
theorem hitLength_none (h : Built words ctx) {row col : UInt8}
    (hSlot : slot text = some (row, col)) (hZero : ctx.index row col = 0#32) :
    hitLength words text = none := by
  rw [← find_match_index h hSlot, hZero, find_match_zero]

theorem hitLength_some (hHit : hitLength words text = some k) : 0 < k ∧ HitAt words text k := by
  have hIn := List.mem_range'_1.mp (List.mem_of_find?_eq_some hHit)
  have hAt := List.find?_some hHit
  exact ⟨hIn.1, of_decide_eq_true hAt⟩

theorem hitLength_ne_none (h : Built words ctx) (hPos : 0 < k) (hAt : HitAt words text k) :
    hitLength words text ≠ none := by
  intro hNone
  obtain ⟨w, hIn, -, rfl⟩ := hAt.2.1
  have hShort := (h.word w hIn).1
  have hMem : w.length ∈ List.range' 1 (maxDirtyWordsLen - 1) :=
    List.mem_range'_1.mpr ⟨hPos, by omega⟩
  exact List.find?_eq_none.mp hNone w.length hMem (decide_eq_true hAt)

end

end Gbase.Logic.Dirty
