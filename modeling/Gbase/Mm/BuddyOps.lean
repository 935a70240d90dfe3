import Gbase.Mm.BuddyRepr

/-!
# The operations of the buddy allocator

The index is an array of tags; the proofs look at it as a tree, with a zipper for the place where a
loop stands.  Every loop of the source moves the zipper up or down by one, so each is an induction
over its frames, and what a call reads and writes are the cells of the tree at this place.

## Main results

* `allocLoop_spec`: the depth first search finds the first unused region that is large
  enough, or leaves the index as it is.
* `searchLoop_spec`: the search by offset ends at the node of the block that starts there.
* `buddyAlloc_spec`, `buddyFree_spec`: what the calls do to the tree.
-/

namespace Gbase.Mm.Buddy

open Gbase.Core.OsDef
open Gbase.Lib.BuddyTree
open Gbase.Lib.BuddyTree.Blocks
open Gbase.Lib.Store

/-! ## Single accesses -/

section Access

variable {buddy : BuddyT} {cs m : Multiset (Nat × Tag)} {M h i : Nat} {fs : List Frame}
  {t : Blocks} {tag : Tag}

theorem tag_spec (hHolds : Holds buddy.tree cs) (hIn : (i, tag) ∈ cs) : buddy.tag i = some tag :=
  hHolds.read hIn

theorem setTag_spec (hHolds : Holds buddy.tree cs) (hM : cs = {(i, tag)} + m) (w : Tag) :
    ∃ tree, buddy.setTag i w = some { buddy with tree := tree } ∧ Holds tree ({(i, w)} + m) := by
  subst hM
  have hRead : buddy.tree i = some tag :=
    hHolds.read (Multiset.mem_add.mpr (Or.inl (Multiset.mem_singleton_self _)))
  refine ⟨Function.update buddy.tree i (some w), ?_, hHolds.write w⟩
  simp [BuddyT.setTag, hRead]

theorem Shape.withTree {H : Nat} (hShape : Shape buddy M H) (tree : Nat → Option Tag) :
    Shape { buddy with tree := tree } M H :=
  ⟨hShape.poolSize, hShape.minSize, hShape.treeSize, hShape.bound⟩

theorem ilog2_index (fs : List Frame) (hLen : fs.length < 64) : ilog2 (index fs) = fs.length :=
  ilog2_eq (index_bounds fs).1 (index_bounds fs).2 hLen

/-- The size of the region at a position. -/
theorem sizeFromIndex_spec (hShape : Shape buddy M (h + fs.length)) :
    sizeFromIndex buddy (index fs) = 2 ^ (M + h) := by
  have hBound := hShape.bound
  rw [sizeFromIndex, ilog2_index fs (by omega), hShape.poolSize, Nat.shiftRight_eq_div_pow,
    Nat.pow_div (by omega) (by decide), show M + (h + fs.length) - fs.length = M + h by omega]

/-- Where the region at a position starts. -/
theorem shiftFromIndex_spec (hShape : Shape buddy M (h + fs.length)) :
    shiftFromIndex buddy (index fs) = 2 ^ M * start h fs := by
  have hBound := hShape.bound
  have hSize : buddy.poolSize >>> ilog2 (index fs) = 2 ^ (M + h) := sizeFromIndex_spec hShape
  rw [shiftFromIndex, hSize, ilog2_index fs (by omega), Nat.shiftLeft_eq, Nat.one_mul, start_eq,
    Nat.pow_add, Nat.mul_assoc]

theorem index_lt (hShape : Shape buddy M (h + fs.length)) : index fs < buddy.treeSize := by
  rw [hShape.treeSize]
  exact Nat.lt_of_lt_of_le (index_bounds fs).2 (Nat.pow_le_pow_right (by decide) (by omega))

/-- The tags of a position and of its brother, read in the order of their numbers. -/
theorem bothTaken_spec {f : Frame} (hHere : buddy.tag (index (f :: fs)) = some (tagOf t))
    (hSib : buddy.tag (sibIndex f fs) = some (tagOf f.sib)) :
    buddy.bothTaken (2 * index fs) (2 * index fs + 1) = some (t.full && f.sib.full) := by
  have hRead : ∀ {l r : Blocks}, buddy.tag (2 * index fs) = some (tagOf l) →
      buddy.tag (2 * index fs + 1) = some (tagOf r) →
      buddy.bothTaken (2 * index fs) (2 * index fs + 1) = some (l.full && r.full) := by
    intro l r hL hR
    simp only [BuddyT.bothTaken, hL, hR, tagOf_taken, Option.bind_eq_bind, Option.bind_some]
    cases l.full <;> simp
  cases hSide : f.right with
  | false =>
      simp only [index, sibIndex, hSide, Bool.false_eq_true, if_false, Nat.add_zero] at hHere hSib
      exact hRead hHere hSib
  | true =>
      simp only [index, sibIndex, hSide, if_true, Nat.add_zero] at hHere hSib
      rw [Bool.and_comm]
      exact hRead hSib hHere

theorem bothUnused_spec {f : Frame} (hHere : buddy.tag (index (f :: fs)) = some (tagOf t))
    (hSib : buddy.tag (sibIndex f fs) = some (tagOf f.sib)) :
    buddy.bothUnused (2 * index fs) (2 * index fs + 1) =
      some (decide (t = .unused ∧ f.sib = .unused)) := by
  have hRead : ∀ {l r : Blocks}, buddy.tag (2 * index fs) = some (tagOf l) →
      buddy.tag (2 * index fs + 1) = some (tagOf r) →
      buddy.bothUnused (2 * index fs) (2 * index fs + 1) =
        some (decide (l = .unused ∧ r = .unused)) := by
    intro l r hL hR
    simp only [BuddyT.bothUnused, hL, hR, tagOf_unused, Option.bind_eq_bind, Option.bind_some]
    by_cases hl : l = .unused <;> simp [hl]
  cases hSide : f.right with
  | false =>
      simp only [index, sibIndex, hSide, Bool.false_eq_true, if_false, Nat.add_zero] at hHere hSib
      exact hRead hHere hSib
  | true =>
      simp only [index, sibIndex, hSide, if_true, Nat.add_zero] at hHere hSib
      have hSwap := hRead hSib hHere
      simpa only [and_comm] using hSwap

/-- The numbers of the two halves as the loops compute them. -/
theorem halves_eq (f : Frame) (fs : List Frame) :
    (index (f :: fs) >>> 1) <<< 1 = 2 * index fs := by
  rw [Nat.shiftRight_eq_div_pow, Nat.pow_one, index_div, Nat.shiftLeft_eq, Nat.pow_one,
    Nat.mul_comm]

theorem one_lt_index (f : Frame) (fs : List Frame) : index (f :: fs) > 1 := by
  have hPos := index_pos fs
  rw [index]
  omega

/-- The cells of a position and of its brother. -/
theorem reads {f : Frame} {full : Bool}
    (hHolds : Holds buddy.tree (ctxCells h (f :: fs) full + cells h (index (f :: fs)) t)) :
    buddy.tag (index (f :: fs)) = some (tagOf t) ∧
      buddy.tag (sibIndex f fs) = some (tagOf f.sib) ∧
      buddy.tag (index fs) = some (splitTag (full && f.sib.full)) := by
  refine ⟨tag_spec hHolds ?_, tag_spec hHolds ?_, tag_spec hHolds ?_⟩
  · exact Multiset.mem_add.mpr (Or.inr (mem_cells ..))
  · simp only [ctxCells, Multiset.mem_add]
    exact Or.inl (Or.inr (Or.inl (mem_cells ..)))
  · simp [ctxCells]

end Access

/-! ## The loops up -/

section Up

variable {buddy : BuddyT}

/-- The tags above a new block. -/
theorem fullLoop_spec (fs : List Frame) :
    ∀ {h turns : Nat} {t : Blocks} {tree : Nat → Option Tag},
      Holds tree (ctxCells h fs false + cells h (index fs) t) → t.full = true →
      fs.length ≤ turns →
      ∃ tree', fullLoop turns { buddy with tree := tree } (index fs) =
          some { buddy with tree := tree' } ∧
        Holds tree' (cells (h + fs.length) 1 (zip fs t)) := by
  induction fs with
  | nil =>
      intro h turns t tree hHolds _ _
      refine ⟨tree, ?_, by simpa [ctxCells, index, zip] using hHolds⟩
      cases turns <;> simp [fullLoop, index]
  | cons f fs ih =>
      intro h turns t tree hHolds hFull hTurns
      rw [List.length_cons] at hTurns
      obtain ⟨turns, rfl⟩ := Nat.exists_eq_succ_of_ne_zero (by omega : turns ≠ 0)
      obtain ⟨hHere, hSib, -⟩ := @reads { buddy with tree := tree } h fs t f false hHolds
      have hTaken := bothTaken_spec hHere hSib
      rw [fullLoop, if_pos (one_lt_index f fs), halves_eq, index_div]
      simp only [hTaken, hFull, Option.bind_eq_bind, Option.bind_some, Bool.true_and]
      cases hSibFull : f.sib.full with
      | true =>
          obtain ⟨tree₁, hSet, hHolds₁⟩ := @setTag_spec { buddy with tree := tree } _
            (cells h (sibIndex f fs) f.sib + ctxCells (h + 1) fs false +
              cells h (index (f :: fs)) t) (index fs) .split hHolds
            (by simp only [ctxCells, Bool.false_and, splitTag, Bool.false_eq_true, if_false]; abel)
            .full
          have hUp : Holds tree₁
              (ctxCells (h + 1) fs false + cells (h + 1) (index fs) (f.plug t)) := by
            rw [cells_plug, hFull, hSibFull]
            convert hHolds₁ using 1
            simp only [splitTag, Bool.and_self, if_true]
            abel
          obtain ⟨tree', hLoop, hHolds'⟩ := ih hUp (by rw [full_plug, hFull, hSibFull]; rfl)
            (by omega : fs.length ≤ turns)
          refine ⟨tree', ?_, ?_⟩
          · rw [hSet, if_pos rfl]
            exact hLoop
          · rw [zip, List.length_cons, show h + (fs.length + 1) = h + 1 + fs.length by omega]
            exact hHolds'
      | false =>
          refine ⟨tree, rfl, ?_⟩
          rw [cells_zip, hFull]
          simpa [ctxCells, hSibFull] using hHolds

/-- The tags above a block that is gone. -/
theorem unfullLoop_spec (fs : List Frame) :
    ∀ {h turns : Nat} {full : Bool} {m : Multiset (Nat × Tag)} {tree : Nat → Option Tag},
      Holds tree (ctxCells h fs full + m) → fs.length ≤ turns →
      ∃ tree', unfullLoop turns { buddy with tree := tree } (index fs) =
          some { buddy with tree := tree' } ∧ Holds tree' (ctxCells h fs false + m) := by
  induction fs with
  | nil =>
      intro h turns full m tree hHolds _
      refine ⟨tree, ?_, hHolds⟩
      cases turns <;> simp [unfullLoop, index]
  | cons f fs ih =>
      intro h turns full m tree hHolds hTurns
      rw [List.length_cons] at hTurns
      obtain ⟨turns, rfl⟩ := Nat.exists_eq_succ_of_ne_zero (by omega : turns ≠ 0)
      have hTag : BuddyT.tag { buddy with tree := tree } (index fs) =
          some (splitTag (full && f.sib.full)) :=
        tag_spec hHolds (by simp [ctxCells])
      rw [unfullLoop, if_pos (one_lt_index f fs), index_div, hTag]
      simp only [Option.bind_eq_bind, Option.bind_some]
      cases hFull : full && f.sib.full with
      | true =>
          obtain ⟨tree₁, hSet, hHolds₁⟩ := @setTag_spec { buddy with tree := tree } _
            (cells h (sibIndex f fs) f.sib + ctxCells (h + 1) fs true + m) (index fs) .full hHolds
            (by simp only [ctxCells, hFull, splitTag, if_true]; abel) .split
          obtain ⟨tree', hLoop, hHolds'⟩ :=
            @ih (h + 1) turns true ({(index fs, .split)} + cells h (sibIndex f fs) f.sib + m) tree₁
              (by convert hHolds₁ using 1; abel) (by omega)
          refine ⟨tree', ?_, ?_⟩
          · rw [splitTag, if_pos rfl, if_pos rfl, hSet]
            exact hLoop
          · convert hHolds' using 1
            simp only [ctxCells, Bool.false_and, splitTag, Bool.false_eq_true, if_false]
            abel
      | false =>
          refine ⟨tree, by simp [splitTag], ?_⟩
          simpa [ctxCells, hFull] using hHolds

/-- One turn of merging, with an unused brother. -/
theorem mergeLoop_turn {h turns : Nat} {f : Frame} {fs : List Frame} {tree : Nat → Option Tag}
    (hHolds : Holds tree (ctxCells h (f :: fs) false + cells h (index (f :: fs)) .unused))
    (hSib : f.sib = .unused) :
    ∃ tree', mergeLoop (turns + 1) { buddy with tree := tree } (index (f :: fs)) =
        mergeLoop turns { buddy with tree := tree' } (index fs) ∧
      Holds tree' (ctxCells (h + 1) fs false + cells (h + 1) (index fs) .unused) := by
  obtain ⟨hHere, hBrother, -⟩ := @reads { buddy with tree := tree } h fs _ f false hHolds
  have hUnused := bothUnused_spec hHere hBrother
  obtain ⟨tree₁, hSet, hHolds₁⟩ := @setTag_spec { buddy with tree := tree } _
    (cells h (sibIndex f fs) f.sib + ctxCells (h + 1) fs false +
      cells h (index (f :: fs)) .unused) (index fs) .split hHolds
    (by simp only [ctxCells, Bool.false_and, splitTag, Bool.false_eq_true, if_false]; abel)
    .unused
  have hHalves : cells (h + 1) (index fs) .unused = {(index fs, .unused)} +
      (cells h (index (f :: fs)) .unused + cells h (sibIndex f fs) .unused) := by
    rw [cells, index, sibIndex]
    cases f.right
    · rfl
    · rw [add_comm (cells h _ _)]
      rfl
  refine ⟨tree₁, ?_, ?_⟩
  · rw [mergeLoop, if_pos (one_lt_index f fs), halves_eq, index_div]
    simp only [hUnused, hSib, and_self, decide_true, if_true, hSet, Option.bind_eq_bind,
      Option.bind_some]
  · rw [hHalves]
    rw [hSib] at hHolds₁
    convert hHolds₁ using 1
    abel

/-- Merging ends at once next to a region that is not unused. -/
theorem mergeLoop_stop {h : Nat} {f : Frame} {fs : List Frame} {full : Bool}
    {tree : Nat → Option Tag}
    (hHolds : Holds tree (ctxCells h (f :: fs) full + cells h (index (f :: fs)) .unused))
    (hSib : f.sib ≠ .unused) (turns : Nat) :
    mergeLoop turns { buddy with tree := tree } (index (f :: fs)) =
      some { buddy with tree := tree } := by
  cases turns with
  | zero => rfl
  | succ turns =>
      obtain ⟨hHere, hBrother, -⟩ := @reads { buddy with tree := tree } h fs _ f full hHolds
      have hUnused := bothUnused_spec hHere hBrother
      rw [mergeLoop, if_pos (one_lt_index f fs), halves_eq]
      simp only [hUnused, hSib, and_false, decide_false, Bool.false_eq_true, if_false,
        Option.bind_eq_bind, Option.bind_some]
      rfl

/-- Merging upwards from an unused region below nothing that is full. -/
theorem mergeLoop_spec (fs : List Frame) :
    ∀ {h turns : Nat} {tree : Nat → Option Tag},
      Holds tree (ctxCells h fs false + cells h (index fs) .unused) → fs.length ≤ turns →
      ∃ tree', mergeLoop turns { buddy with tree := tree } (index fs) =
          some { buddy with tree := tree' } ∧
        Holds tree' (cells (h + fs.length) 1 (zipMerge fs .unused)) := by
  induction fs with
  | nil =>
      intro h turns tree hHolds _
      refine ⟨tree, ?_, by simpa [ctxCells, index, zipMerge] using hHolds⟩
      cases turns <;> simp [mergeLoop, index]
  | cons f fs ih =>
      intro h turns tree hHolds hTurns
      rw [List.length_cons] at hTurns
      obtain ⟨turns, rfl⟩ := Nat.exists_eq_succ_of_ne_zero (by omega : turns ≠ 0)
      rw [zipMerge, Frame.merge]
      by_cases hSib : f.sib = .unused
      · obtain ⟨tree₁, hTurn, hHolds₁⟩ := @mergeLoop_turn buddy h turns f fs tree hHolds hSib
        obtain ⟨tree', hLoop, hHolds'⟩ := ih hHolds₁ (by omega : fs.length ≤ turns)
        refine ⟨tree', hTurn.trans hLoop, ?_⟩
        rw [if_pos ⟨rfl, hSib⟩, List.length_cons,
          show h + (fs.length + 1) = h + 1 + fs.length by omega]
        exact hHolds'
      · refine ⟨tree, mergeLoop_stop hHolds hSib _, ?_⟩
        rw [if_neg fun hBoth => hSib hBoth.2, zipMerge_of_ne fs (plug_ne_unused f _)]
        exact (cells_zip (f :: fs) h .unused).symm ▸ hHolds

/-- Merging only makes nodes unused. -/
theorem mergeLoop_unused (turns : Nat) :
    ∀ {buddy buddy' : BuddyT} {loop i : Nat}, mergeLoop turns buddy loop = some buddy' →
      buddy.tag i = some .unused → buddy'.tag i = some .unused := by
  induction turns with
  | zero =>
      intro buddy buddy' loop i hRun hTag
      cases hRun
      exact hTag
  | succ turns ih =>
      intro buddy buddy' loop i hRun hTag
      rw [mergeLoop] at hRun
      split at hRun
      · simp only [Option.bind_eq_bind, Option.bind_eq_some_iff] at hRun
        obtain ⟨unused, -, hRun⟩ := hRun
        split at hRun
        · simp only [Option.bind_eq_some_iff, BuddyT.setTag, Option.map_eq_some_iff] at hRun
          obtain ⟨buddy₁, ⟨_, -, rfl⟩, hLoop⟩ := hRun
          apply ih hLoop
          by_cases hi : i = loop / 2
          · simp [BuddyT.tag, hi]
          · simpa [BuddyT.tag, Function.update_of_ne hi] using hTag
        · cases hRun
          exact hTag
      · cases hRun
        exact hTag

/-- Both loops of `buddy_free` together. -/
theorem releaseLoops_spec (fs : List Frame) {h turns : Nat} {tree : Nat → Option Tag}
    (hHolds : Holds tree (ctxCells h fs true + cells h (index fs) .unused))
    (hTurns : fs.length ≤ turns) :
    ∃ tree', (mergeLoop turns { buddy with tree := tree } (index fs)).bind
        (fun buddy => unfullLoop turns buddy (index fs)) = some { buddy with tree := tree' } ∧
      Holds tree' (cells (h + fs.length) 1 (zipMerge fs .unused)) := by
  cases fs with
  | nil =>
      obtain ⟨tree', hMerge, hHolds'⟩ := @mergeLoop_spec buddy [] h turns tree hHolds hTurns
      refine ⟨tree', ?_, hHolds'⟩
      rw [hMerge]
      cases turns <;> simp [unfullLoop, index]
  | cons f fs =>
      rw [List.length_cons] at hTurns
      obtain ⟨turns, rfl⟩ := Nat.exists_eq_succ_of_ne_zero (by omega : turns ≠ 0)
      by_cases hSib : f.sib = .unused
      · -- nothing above is full, and the parent becomes unused
        have hSame : ctxCells h (f :: fs) true = ctxCells h (f :: fs) false := by
          simp [ctxCells, hSib, Blocks.full]
        rw [hSame] at hHolds
        obtain ⟨tree₁, hTurn, hHolds₁⟩ := @mergeLoop_turn buddy h turns f fs tree hHolds hSib
        have hTag : BuddyT.tag { buddy with tree := tree₁ } (index fs) = some .unused :=
          tag_spec hHolds₁ (Multiset.mem_add.mpr (Or.inr (mem_cells ..)))
        obtain ⟨tree', hMerge, hHolds'⟩ := @mergeLoop_spec buddy fs (h + 1) turns tree₁ hHolds₁
          (by omega)
        have hTag' := mergeLoop_unused turns hMerge hTag
        refine ⟨tree', ?_, ?_⟩
        · rw [hTurn, hMerge, Option.bind_some, unfullLoop, if_pos (one_lt_index f fs), index_div,
            hTag']
          rfl
        · rw [zipMerge, Frame.merge, if_pos ⟨rfl, hSib⟩, List.length_cons,
            show h + (fs.length + 1) = h + 1 + fs.length by omega]
          exact hHolds'
      · obtain ⟨tree', hUnfull, hHolds'⟩ := @unfullLoop_spec buddy (f :: fs) h (turns + 1) true _
          tree hHolds hTurns
        refine ⟨tree', ?_, ?_⟩
        · rw [mergeLoop_stop hHolds hSib, Option.bind_some]
          exact hUnfull
        · rw [zipMerge, Frame.merge, if_neg fun hBoth => hSib hBoth.2,
            zipMerge_of_ne fs (plug_ne_unused f _)]
          exact (cells_zip (f :: fs) h .unused).symm ▸ hHolds'

end Up

/-! ## The depth first search -/

theorem climbLoop_eq (i : Nat) : ∀ turns, i ≤ turns → climbLoop turns i = climb i := by
  induction i using Nat.strongRecOn with
  | ind i ih =>
      intro turns hTurns
      rw [climb]
      cases i with
      | zero => cases turns <;> simp [climbLoop]
      | succ j =>
          obtain ⟨turns, rfl⟩ := Nat.exists_eq_succ_of_ne_zero (by omega : turns ≠ 0)
          rw [climbLoop, climbLoop]
          split
          · rw [ih ((j + 1) / 2) (by omega) turns (by omega),
              ih ((j + 1) / 2) (by omega) j (by omega)]
          · rfl

theorem climb_one : climb 1 = 1 := by decide

private theorem climb_left (i : Nat) : climb (2 * i) = 2 * i := by
  rw [climb]
  cases hTwice : 2 * i with
  | zero => rfl
  | succ j => rw [climbLoop, if_neg (by omega)]

private theorem climb_right {i : Nat} (hi : 1 ≤ i) : climb (2 * i + 1) = climb i := by
  rw [climb, climbLoop, if_pos ⟨by omega, by omega⟩, show (2 * i + 1) / 2 = i by omega]
  exact climbLoop_eq i _ (by omega)

section Search

variable {buddy : BuddyT} {M k : Nat}

/-- Leaving a region behind: the search goes on at the next region on the right. -/
def skip (mallocSize fuel : Nat) (buddy : BuddyT) (i : Nat) : Option (Option Nat × BuddyT) :=
  if climb i = 1 then some (none, buddy) else allocLoop mallocSize fuel buddy (climb i + 1)

private theorem skip_left (mallocSize fuel : Nat) (buddy : BuddyT) (i : Nat) :
    skip mallocSize fuel buddy (2 * i) = allocLoop mallocSize fuel buddy (2 * i + 1) := by
  rw [skip, climb_left, if_neg (by omega)]

private theorem skip_right (mallocSize fuel : Nat) (buddy : BuddyT) {i : Nat} (hi : 1 ≤ i) :
    skip mallocSize fuel buddy (2 * i + 1) = skip mallocSize fuel buddy i := by
  rw [skip, climb_right hi, skip]

/-- An unused region of sufficient size is split down to the wanted size. -/
theorem allocLoop_carve (n : Nat) :
    ∀ {fs : List Frame} {fuel : Nat} {tree : Nat → Option Tag},
      Shape buddy M (k + n + fs.length) →
      Holds tree (ctxCells (k + n) fs false + cells (k + n) (index fs) .unused) → n < fuel →
      ∃ tree', allocLoop (2 ^ (M + k)) fuel { buddy with tree := tree } (index fs) =
          some (some (2 ^ M * start (k + n) fs), { buddy with tree := tree' }) ∧
        Holds tree' (cells (k + n + fs.length) 1 (zip fs (carve n))) := by
  induction n with
  | zero =>
      intro fs fuel tree hShape hHolds hFuel
      obtain ⟨fuel, rfl⟩ := Nat.exists_eq_succ_of_ne_zero (by omega : fuel ≠ 0)
      rw [Nat.add_zero] at hShape hHolds ⊢
      have hShape' := hShape.withTree tree
      have hTag := @tag_spec { buddy with tree := tree } _ _ _ hHolds
        (Multiset.mem_add.mpr (Or.inr (mem_cells ..)))
      obtain ⟨m, hUnused, hUsed⟩ := cells_used k (index fs)
      rw [hUnused] at hHolds
      obtain ⟨tree₁, hSet, hHolds₁⟩ := @setTag_spec { buddy with tree := tree } _
        (ctxCells k fs false + m) (index fs) .unused hHolds (by abel) .used
      have hBlock : Holds tree₁ (ctxCells k fs false + cells k (index fs) .used) := by
        rw [hUsed]
        convert hHolds₁ using 1
        abel
      obtain ⟨tree', hLoop, hHolds'⟩ := @fullLoop_spec buddy fs k (index fs) .used tree₁ hBlock rfl
        (Nat.le_trans (Nat.le_of_lt Nat.lt_two_pow_self) (index_bounds fs).1)
      refine ⟨tree', ?_, hHolds'⟩
      simp only [tagOf] at hTag
      simp only [allocLoop, index_lt hShape', if_true, hTag, sizeFromIndex_spec hShape',
        hSet, shiftFromIndex_spec (hShape.withTree tree₁), hLoop, Option.bind_eq_bind,
        Option.bind_some]
      rfl
  | succ n ih =>
      intro fs fuel tree hShape hHolds hFuel
      obtain ⟨fuel, rfl⟩ := Nat.exists_eq_succ_of_ne_zero (by omega : fuel ≠ 0)
      have hShape' := hShape.withTree tree
      have hTag := @tag_spec { buddy with tree := tree } _ _ _ hHolds
        (Multiset.mem_add.mpr (Or.inr (mem_cells ..)))
      obtain ⟨tree₁, hSet, hHolds₁⟩ := @setTag_spec { buddy with tree := tree } _
        (ctxCells (k + n + 1) fs false + (cells (k + n) (2 * index fs) .unused +
          cells (k + n) (2 * index fs + 1) .unused)) (index fs) .unused hHolds
        (by rw [← Nat.add_assoc, cells, show Blocks.unused.left = .unused from rfl,
          show Blocks.unused.right = .unused from rfl, tagOf]; abel) .split
      have hDown : Holds tree₁ (ctxCells (k + n) (⟨false, .unused⟩ :: fs) false +
          cells (k + n) (index (⟨false, .unused⟩ :: fs)) .unused) := by
        convert hHolds₁ using 1
        simp only [ctxCells, index, sibIndex, Bool.false_and, splitTag, Bool.false_eq_true,
          if_false, Nat.add_zero]
        abel
      have hShapeDown : Shape buddy M (k + n + (⟨false, .unused⟩ :: fs : List Frame).length) := by
        rw [List.length_cons, show k + n + (fs.length + 1) = k + (n + 1) + fs.length by omega]
        exact hShape
      obtain ⟨tree', hLoop, hHolds'⟩ := ih hShapeDown hDown (by omega : n < fuel)
      refine ⟨tree', ?_, ?_⟩
      · have hMore : 2 ^ (M + k) < 2 ^ (M + (k + (n + 1))) :=
          Nat.pow_lt_pow_right (by decide) (by omega)
        simp only [tagOf] at hTag
        simp only [index, Bool.false_eq_true, if_false, Nat.add_zero, start] at hLoop
        simp only [allocLoop, index_lt hShape', if_true, hTag, sizeFromIndex_spec hShape',
          Nat.ne_of_gt hMore, if_false, hMore, hSet, Option.bind_eq_bind,
          Option.bind_some, Nat.mul_comm (index fs) 2, hLoop]
        rfl
      · rw [List.length_cons, show k + n + (fs.length + 1) = k + (n + 1) + fs.length by omega]
          at hHolds'
        exact hHolds'

/-- The tag of a region that is left behind at once. -/
theorem allocLoop_leave {h : Nat} {fs : List Frame} {tree : Nat → Option Tag} {t : Blocks}
    (hShape : Shape buddy M (h + fs.length))
    (hHolds : Holds tree (ctxCells h fs false + cells h (index fs) t))
    (hLeave : t.full = true ∨ (h ≤ k ∧ t ≠ .unused)) (fuel : Nat) :
    allocLoop (2 ^ (M + k)) (fuel + 1) { buddy with tree := tree } (index fs) =
      skip (2 ^ (M + k)) fuel { buddy with tree := tree } (index fs) := by
  have hShape' := hShape.withTree tree
  have hTag := @tag_spec { buddy with tree := tree } _ _ _ hHolds
    (Multiset.mem_add.mpr (Or.inr (mem_cells ..)))
  rw [allocLoop, if_pos (index_lt hShape'), hTag, skip]
  cases t with
  | unused =>
      rcases hLeave with hFull | ⟨-, hNe⟩
      · cases hFull
      · exact absurd rfl hNe
  | used => rfl
  | split l r =>
      cases hFull : l.full && r.full with
      | true =>
          simp only [tagOf, hFull]
          rfl
      | false =>
          rcases hLeave with hFull' | ⟨hLe, -⟩
          · rw [full, hFull] at hFull'
            cases hFull'
          · have hSize : 2 ^ (M + h) ≤ 2 ^ (M + k) := Nat.pow_le_pow_right (by decide) (by omega)
            simp only [tagOf, hFull, splitTag, Bool.false_eq_true, if_false,
              sizeFromIndex_spec hShape', hSize, if_true, Option.bind_eq_bind, Option.bind_some]
            rfl

/-- A split region with room is entered on the left. -/
theorem allocLoop_enter {h : Nat} {fs : List Frame} {tree : Nat → Option Tag} {l r : Blocks}
    (hShape : Shape buddy M (h + 1 + fs.length))
    (hHolds : Holds tree (ctxCells (h + 1) fs false + cells (h + 1) (index fs) (.split l r)))
    (hRoom : (l.full && r.full) = false) (hk : k ≤ h) (fuel : Nat) :
    allocLoop (2 ^ (M + k)) (fuel + 1) { buddy with tree := tree } (index fs) =
      allocLoop (2 ^ (M + k)) fuel { buddy with tree := tree } (2 * index fs) := by
  have hShape' := hShape.withTree tree
  have hTag := @tag_spec { buddy with tree := tree } _ _ _ hHolds
    (Multiset.mem_add.mpr (Or.inr (mem_cells ..)))
  have hSize : ¬ 2 ^ (M + (h + 1)) ≤ 2 ^ (M + k) := by
    rw [Nat.not_le]
    exact Nat.pow_lt_pow_right (by decide) (by omega)
  rw [allocLoop, if_pos (index_lt hShape'), hTag]
  simp only [tagOf, hRoom, splitTag, Bool.false_eq_true, if_false, sizeFromIndex_spec hShape',
    hSize, Nat.mul_comm (index fs) 2, Option.bind_eq_bind, Option.bind_some]

/-- What the search from a region comes to: the first unused region that is large enough, or the
region is left behind with the index as it was. -/
structure Searches (buddy : BuddyT) (M k h : Nat) (fs : List Frame) (tree : Nat → Option Tag)
    (t : Blocks) : Prop where
  found : ∀ {o : Nat} {t' : Blocks}, alloc k h (start h fs) t = some (o, t') →
    ∀ {fuel : Nat}, 2 ^ (h + 1) ≤ fuel + 1 →
      ∃ tree', allocLoop (2 ^ (M + k)) fuel { buddy with tree := tree } (index fs) =
          some (some (2 ^ M * o), { buddy with tree := tree' }) ∧
        Holds tree' (cells (h + fs.length) 1 (zip fs t'))
  missed : alloc k h (start h fs) t = none → ∃ turns, turns + 1 ≤ 2 ^ (h + 1) ∧ ∀ fuel,
    allocLoop (2 ^ (M + k)) (fuel + turns) { buddy with tree := tree } (index fs) =
      skip (2 ^ (M + k)) fuel { buddy with tree := tree } (index fs)

/-- An unused region is carved. -/
theorem searches_unused {n : Nat} {fs : List Frame} {tree : Nat → Option Tag}
    (hShape : Shape buddy M (k + n + fs.length))
    (hHolds : Holds tree (ctxCells (k + n) fs false + cells (k + n) (index fs) .unused)) :
    Searches buddy M k (k + n) fs tree .unused where
  found := by
    intro o t' hAlloc fuel hFuel
    simp only [alloc, Option.some.injEq, Prod.mk.injEq, Nat.add_sub_cancel_left] at hAlloc
    obtain ⟨rfl, rfl⟩ := hAlloc
    have hPow : k + n + 1 < 2 ^ (k + n + 1) := Nat.lt_two_pow_self
    exact allocLoop_carve n hShape hHolds (by omega)
  missed := by
    intro hAlloc
    simp [alloc] at hAlloc

/-- A region that is left behind at once has no room. -/
theorem searches_leave {h : Nat} {fs : List Frame} {tree : Nat → Option Tag} {t : Blocks}
    (hShape : Shape buddy M (h + fs.length))
    (hHolds : Holds tree (ctxCells h fs false + cells h (index fs) t))
    (hLeave : t.full = true ∨ (h ≤ k ∧ t ≠ .unused))
    (hNone : ∀ base, alloc k h base t = none) : Searches buddy M k h fs tree t where
  found := by
    intro o t' hAlloc
    rw [hNone] at hAlloc
    cases hAlloc
  missed := by
    intro _
    refine ⟨1, ?_, allocLoop_leave hShape hHolds hLeave⟩
    rw [Nat.pow_succ]
    have hPos := Nat.two_pow_pos h
    omega

/-- A split region is searched on the left, and then on the right. -/
theorem searches_split {h : Nat} {fs : List Frame} {tree : Nat → Option Tag} {l r : Blocks}
    (hShape : Shape buddy M (h + 1 + fs.length))
    (hHolds : Holds tree (ctxCells (h + 1) fs false + cells (h + 1) (index fs) (.split l r)))
    (hRoom : (l.full && r.full) = false) (hk : k ≤ h)
    (hLeft : Searches buddy M k h (⟨false, r⟩ :: fs) tree l)
    (hRight : Searches buddy M k h (⟨true, l⟩ :: fs) tree r) :
    Searches buddy M k (h + 1) fs tree (.split l r) := by
  have hEnter := @allocLoop_enter buddy M k h fs tree l r hShape hHolds hRoom hk
  have hPos := Nat.two_pow_pos h
  obtain ⟨hFoundL, hMissL⟩ := hLeft
  obtain ⟨hFoundR, hMissR⟩ := hRight
  simp only [start, index, List.length_cons, Bool.false_eq_true, if_false, if_true,
    Nat.add_zero, show h + (fs.length + 1) = h + 1 + fs.length by omega, zip,
    Frame.plug] at hFoundL hMissL hFoundR hMissR
  cases hAllocL : alloc k h (start (h + 1) fs) l with
  | some p =>
      obtain ⟨o, l'⟩ := p
      have hAlloc := alloc_left hk hAllocL r
      refine ⟨?_, fun hNone => absurd (hAlloc.symm.trans hNone) (Option.some_ne_none _)⟩
      intro o' t' hSome fuel hFuel
      rw [hAlloc] at hSome
      cases hSome
      rw [Nat.pow_succ, Nat.pow_succ] at hFuel
      obtain ⟨fuel, rfl⟩ := Nat.exists_eq_succ_of_ne_zero (by omega : fuel ≠ 0)
      rw [hEnter]
      exact hFoundL hAllocL (by rw [Nat.pow_succ]; omega)
  | none =>
      obtain ⟨turnsL, hTurnsL, hSkipL⟩ := hMissL hAllocL
      have hNext : ∀ fuel, allocLoop (2 ^ (M + k)) (fuel + turnsL + 1)
          { buddy with tree := tree } (index fs) =
          allocLoop (2 ^ (M + k)) fuel { buddy with tree := tree } (2 * index fs + 1) := by
        intro fuel
        rw [hEnter, hSkipL, skip_left]
      rw [Nat.pow_succ] at hTurnsL
      have hAlloc := alloc_right hk hAllocL r
      cases hAllocR : alloc k h (start (h + 1) fs + 2 ^ h) r with
      | some p =>
          obtain ⟨o, r'⟩ := p
          rw [hAllocR] at hAlloc
          refine ⟨?_, fun hNone => absurd (hAlloc.symm.trans hNone) (Option.some_ne_none _)⟩
          intro o' t' hSome fuel hFuel
          rw [hAlloc] at hSome
          cases hSome
          rw [Nat.pow_succ, Nat.pow_succ] at hFuel
          obtain ⟨fuel, rfl⟩ : ∃ n, fuel = n + turnsL + 1 := ⟨fuel - turnsL - 1, by omega⟩
          rw [hNext]
          exact hFoundR hAllocR (by rw [Nat.pow_succ]; omega)
      | none =>
          obtain ⟨turnsR, hTurnsR, hSkipR⟩ := hMissR hAllocR
          rw [Nat.pow_succ] at hTurnsR
          rw [hAllocR] at hAlloc
          refine ⟨fun hSome => absurd (hAlloc.symm.trans hSome) (Option.some_ne_none _).symm, ?_⟩
          intro _
          refine ⟨turnsR + turnsL + 1, by rw [Nat.pow_succ, Nat.pow_succ]; omega, ?_⟩
          intro fuel
          rw [show fuel + (turnsR + turnsL + 1) = fuel + turnsR + turnsL + 1 by omega,
            hNext, hSkipR, skip_right _ _ _ (index_pos fs)]

/-- The search from a position gives the first unused region that is large enough, or leaves
the region behind with the index as it was. -/
theorem allocLoop_spec (t : Blocks) :
    ∀ {h : Nat} {fs : List Frame} {tree : Nat → Option Tag}, k ≤ h → t.Fits h →
      Shape buddy M (h + fs.length) →
      Holds tree (ctxCells h fs false + cells h (index fs) t) →
      Searches buddy M k h fs tree t := by
  induction t with
  | unused =>
      intro h fs tree hk _ hShape hHolds
      obtain ⟨n, rfl⟩ := Nat.exists_eq_add_of_le hk
      exact searches_unused hShape hHolds
  | used =>
      intro h fs tree _ _ hShape hHolds
      exact searches_leave hShape hHolds (Or.inl rfl) fun base => alloc_full k rfl h base
  | split l r ihl ihr =>
      intro h fs tree hk hFits hShape hHolds
      cases h with
      | zero => cases hFits
      | succ h =>
          cases hFull : (Blocks.split l r).full with
          | true =>
              exact searches_leave hShape hHolds (Or.inl hFull)
                fun base => alloc_full k hFull (h + 1) base
          | false =>
              have hRoom : (l.full && r.full) = false := hFull
              by_cases hLow : h + 1 ≤ k
              · refine searches_leave hShape hHolds (Or.inr ⟨hLow, Blocks.noConfusion⟩) ?_
                intro base
                rw [alloc, if_pos hLow]
              · have hShapeDown : ∀ f : Frame, Shape buddy M (h + (f :: fs).length) := by
                  intro f
                  rw [List.length_cons, show h + (fs.length + 1) = h + 1 + fs.length by omega]
                  exact hShape
                have hLeft : Holds tree (ctxCells h (⟨false, r⟩ :: fs) false +
                    cells h (index (⟨false, r⟩ :: fs)) l) := by
                  convert hHolds using 1
                  simp only [ctxCells, cells, tagOf, hRoom, index, sibIndex, Blocks.left,
                    Blocks.right, Bool.false_and, Bool.false_eq_true, if_false, Nat.add_zero]
                  abel
                have hRight : Holds tree (ctxCells h (⟨true, l⟩ :: fs) false +
                    cells h (index (⟨true, l⟩ :: fs)) r) := by
                  convert hHolds using 1
                  simp only [ctxCells, cells, tagOf, hRoom, index, sibIndex, Blocks.left,
                    Blocks.right, Bool.false_and, if_true, Nat.add_zero]
                  abel
                exact searches_split hShape hHolds hRoom (by omega)
                  (ihl (by omega) hFits.1 (hShapeDown _) hLeft)
                  (ihr (by omega) hFits.2 (hShapeDown _) hRight)

end Search

/-! ## The search by offset -/

/-- A position is aligned to its size. -/
theorem dvd_start (h : Nat) (fs : List Frame) : 2 ^ h ∣ start h fs := by
  rw [start_eq]
  exact Nat.dvd_mul_right _ _

/-- The search ends at the node of the block that starts at the offset. -/
theorem searchLoop_spec {buddy : BuddyT} {M o k : Nat} (t : Blocks) :
    ∀ {h : Nat} {fs : List Frame} {turns : Nat}, t.Fits h →
      Holds buddy.tree (cells (h + fs.length) 1 (zip fs t)) → (o, k) ∈ t.live h (start h fs) →
      h < turns →
      ∃ gs, searchLoop buddy (2 ^ M * o) turns (index fs) (2 ^ (M + h)) (2 ^ M * start h fs) =
          some (index gs, 2 ^ M * o) ∧
        zip gs .used = zip fs t ∧ k + gs.length = h + fs.length ∧ start k gs = o := by
  induction t with
  | unused =>
      intro h fs turns _ _ hIn
      simp [live] at hIn
  | used =>
      intro h fs turns _ hHolds hIn hTurns
      obtain ⟨turns, rfl⟩ := Nat.exists_eq_succ_of_ne_zero (by omega : turns ≠ 0)
      simp only [live, List.mem_singleton, Prod.mk.injEq] at hIn
      obtain ⟨rfl, rfl⟩ := hIn
      rw [cells_zip] at hHolds
      have hTag := tag_spec hHolds (Multiset.mem_add.mpr (Or.inr (mem_cells ..)))
      refine ⟨fs, ?_, rfl, rfl, rfl⟩
      rw [searchLoop, hTag]
      rfl
  | split l r ihl ihr =>
      intro h fs turns hFits hHolds hIn hTurns
      obtain ⟨turns, rfl⟩ := Nat.exists_eq_succ_of_ne_zero (by omega : turns ≠ 0)
      cases h with
      | zero => cases hFits
      | succ h =>
          have hCells := hHolds
          rw [cells_zip] at hCells
          have hTag := tag_spec hCells (Multiset.mem_add.mpr (Or.inr (mem_cells ..)))
          have hNotUsed : tagOf (.split l r) ≠ .used := by
            simp only [tagOf, splitTag]
            split <;> decide
          have hStep : 2 ^ (M + (h + 1)) / 2 = 2 ^ M * 2 ^ h := by
            rw [← Nat.add_assoc, Nat.pow_succ, Nat.mul_div_cancel _ (by decide), Nat.pow_add]
          have hHalf : 2 ^ h ∣ start (h + 1) fs :=
            (Nat.pow_dvd_pow 2 (Nat.le_succ h)).trans (dvd_start (h + 1) fs)
          have hPos := Nat.two_pow_pos M
          -- the loop compares with the middle
          have hTest : 2 ^ M * o ≥ 2 ^ M * start (h + 1) fs + 2 ^ M * 2 ^ h ↔
              start (h + 1) fs + 2 ^ h ≤ o := by
            rw [← Nat.mul_add, ge_iff_le, Nat.mul_le_mul_left_iff hPos]
          have hLen : ∀ f : Frame, h + (f :: fs).length = h + 1 + fs.length := by
            intro f
            rw [List.length_cons]
            omega
          rw [searchLoop, hTag]
          simp only [Option.bind_eq_bind, Option.bind_some, hNotUsed, if_false, hStep, hTest]
          rw [live, List.mem_append] at hIn
          rcases hIn with hLeft | hRight
          · have hBounds := live_spec l hLeft hHalf
            have hSize := Nat.two_pow_pos k
            obtain ⟨gs, hRun, hZip, hHeight, hStart⟩ := @ihl h (⟨false, r⟩ :: fs) turns
              hFits.1 (by rw [hLen]; exact hHolds) (by simpa [start] using hLeft) (by omega)
            refine ⟨gs, ?_, hZip, by rw [hHeight, hLen], hStart⟩
            rw [if_neg (by omega)]
            simp only [index, start, Bool.false_eq_true, if_false, Nat.add_zero, Nat.pow_add]
              at hRun
            rw [Nat.mul_comm (index fs) 2]
            exact hRun
          · have hBounds := live_spec r hRight (Nat.dvd_add hHalf (Nat.dvd_refl _))
            obtain ⟨gs, hRun, hZip, hHeight, hStart⟩ := @ihr h (⟨true, l⟩ :: fs) turns
              hFits.2 (by rw [hLen]; exact hHolds) (by simpa [start] using hRight) (by omega)
            refine ⟨gs, ?_, hZip, by rw [hHeight, hLen], hStart⟩
            rw [if_pos hBounds.1]
            simp only [index, start, if_true, Nat.pow_add, Nat.mul_add] at hRun
            rw [Nat.mul_comm (index fs) 2]
            exact hRun

/-! ## The calls -/

/-- The pool is the tree `t` of height `H`, with units of `2 ^ M` bytes. -/
structure Pool (buddy : BuddyT) (M H : Nat) (t : Blocks) : Prop where
  shape : Shape buddy M H
  holds : Holds buddy.tree (cells H 1 t)
  fits : t.Fits H

section Calls

variable {buddy : BuddyT} {M H o k : Nat} {t : Blocks}

/-- The block at an offset is found at its node. -/
theorem Pool.search (hPool : Pool buddy M H t) (hIn : (o, k) ∈ t.live H 0) :
    ∃ gs, search buddy (2 ^ M * o) = some (index gs, 2 ^ M * o) ∧ zip gs .used = t ∧
      k + gs.length = H ∧ start k gs = o := by
  have hBounds := live_spec t hIn (Nat.dvd_zero _)
  have hPow : H < 2 ^ (H + 1) :=
    Nat.lt_of_lt_of_le Nat.lt_two_pow_self (Nat.pow_le_pow_right (by decide) (Nat.le_succ H))
  obtain ⟨gs, hRun, hZip, hHeight, hStart⟩ :=
    @searchLoop_spec buddy M o k t H [] (2 ^ (H + 1)) hPool.fits hPool.holds hIn hPow
  refine ⟨gs, ?_, hZip, hHeight, hStart⟩
  rw [Buddy.search, hPool.shape.treeSize, hPool.shape.poolSize, if_pos]
  · exact hRun
  · rw [Nat.pow_add]
    exact Nat.mul_le_mul_left _ (by omega)

/-- The search from the root gives the first unused region of `2 ^ k` units, if there is one. -/
theorem Pool.allocLoop (hPool : Pool buddy M H t) (hk : k ≤ H) :
    alloc k H 0 t = none ∧
        allocLoop (2 ^ (M + k)) buddy.treeSize buddy 1 = some (none, buddy) ∨
      ∃ o t' tree, alloc k H 0 t = some (o, t') ∧
        allocLoop (2 ^ (M + k)) buddy.treeSize buddy 1 =
          some (some (2 ^ M * o), { buddy with tree := tree }) ∧
        Pool { buddy with tree := tree } M H t' := by
  obtain ⟨hFound, hMiss⟩ := @allocLoop_spec buddy M k t H [] buddy.tree hk hPool.fits
    hPool.shape (by simpa [ctxCells, index] using hPool.holds)
  have hSize := hPool.shape.treeSize
  cases hAlloc : alloc k H 0 t with
  | none =>
      obtain ⟨turns, hTurns, hSkip⟩ := hMiss hAlloc
      obtain ⟨fuel, hFuel⟩ : ∃ fuel, buddy.treeSize = fuel + turns :=
        ⟨buddy.treeSize - turns, by omega⟩
      refine Or.inl ⟨rfl, ?_⟩
      rw [hFuel]
      refine (hSkip fuel).trans ?_
      rw [skip, index, climb_one, if_pos rfl]
  | some p =>
      obtain ⟨o, t'⟩ := p
      obtain ⟨tree, hLoop, hHolds⟩ := hFound hAlloc (by omega : 2 ^ (H + 1) ≤ buddy.treeSize + 1)
      exact Or.inr ⟨o, t', tree, rfl, hLoop, hPool.shape.withTree tree, hHolds,
        (alloc_spec t hAlloc hk hPool.fits).1⟩

/-- `buddy_alloc` rounds the size up to `2 ^ k` units and takes the first unused region that
is large enough. -/
theorem buddyAlloc_spec (hPool : Pool buddy M H t) {nbytes : Nat} (hPos : 1 ≤ nbytes)
    (hLe : nbytes ≤ buddy.poolSize) :
    ∃ k, k ≤ H ∧ nbytes ≤ 2 ^ (M + k) ∧ (k = 0 ∨ 2 ^ (M + k) < 2 * nbytes) ∧
      (alloc k H 0 t = none ∧ buddyAlloc buddy nbytes = some (none, buddy) ∨
        ∃ o t' tree, alloc k H 0 t = some (o, t') ∧
          buddyAlloc buddy nbytes = some (some (2 ^ M * o), { buddy with tree := tree }) ∧
          Pool { buddy with tree := tree } M H t') := by
  have hBound := hPool.shape.bound
  rw [hPool.shape.poolSize] at hLe
  have hSmall : 2 ^ (M + H) < 2 ^ 30 := Nat.pow_lt_pow_right (by decide) hBound
  obtain ⟨r, hr, hRound, hUp, hDown⟩ := roundup_spec hPos (by omega)
  have hrLe : r ≤ M + H := by
    by_contra hMore
    have hPow : 2 ^ (M + H + 1) ≤ 2 ^ r := Nat.pow_le_pow_right (by decide) (by omega)
    rw [Nat.pow_succ] at hPow
    omega
  have hPowR : 2 ^ r ≤ 2 ^ (M + H) := Nat.pow_le_pow_right (by decide) hrLe
  have hInt : toInt nbytes = nbytes := toInt_eq (by omega)
  have hSize : toSize (2 ^ r) = 2 ^ r := by
    exact_mod_cast @toSize_eq (2 ^ r) (by omega)
  have hIntR : toInt ((2 ^ r : Nat) : Int) = ((2 ^ r : Nat) : Int) := toInt_eq (by omega)
  obtain ⟨k, hkH, hkUp, hkDown, hMalloc⟩ : ∃ k, k ≤ H ∧ nbytes ≤ 2 ^ (M + k) ∧
      (k = 0 ∨ 2 ^ (M + k) < 2 * nbytes) ∧
      (if toInt ((2 ^ r : Nat) : Int) < buddy.minSize then buddy.minSize else 2 ^ r) =
        2 ^ (M + k) := by
    rw [hIntR, hPool.shape.minSize]
    by_cases hMin : r < M
    · have hPow : 2 ^ r < 2 ^ M := Nat.pow_lt_pow_right (by decide) hMin
      refine ⟨0, Nat.zero_le _, hUp.trans (Nat.le_of_lt hPow), Or.inl rfl, ?_⟩
      rw [if_pos (by exact_mod_cast hPow), Nat.add_zero]
    · obtain ⟨k, rfl⟩ := Nat.exists_eq_add_of_le (Nat.not_lt.mp hMin)
      have hPow : 2 ^ M ≤ 2 ^ (M + k) := Nat.pow_le_pow_right (by decide) (by omega)
      refine ⟨k, by omega, hUp, Or.inr hDown, ?_⟩
      rw [if_neg]
      exact_mod_cast Nat.not_lt.mpr hPow
  refine ⟨k, hkH, hkUp, hkDown, ?_⟩
  have hRun : buddyAlloc buddy nbytes =
      Buddy.allocLoop (2 ^ (M + k)) buddy.treeSize buddy 1 := by
    simp only [buddyAlloc, hInt, hRound, hSize, hMalloc]
    rw [if_neg]
    rw [hPool.shape.poolSize]
    exact_mod_cast Nat.not_lt.mpr hLe
  rw [hRun]
  exact hPool.allocLoop hkH

/-- `buddy_free` makes the block unused and merges as far up as possible. -/
theorem buddyFree_spec (hPool : Pool buddy M H t) (hIn : (o, k) ∈ t.live H 0) :
    ∃ gs tree, zip gs .used = t ∧ k + gs.length = H ∧ start k gs = o ∧
      buddyFree buddy (some (2 ^ M * o)) = some { buddy with tree := tree } ∧
      Pool { buddy with tree := tree } M H (zipMerge gs .unused) := by
  obtain ⟨gs, hSearch, hZip, hHeight, hStart⟩ := hPool.search hIn
  have hHolds := hPool.holds
  obtain ⟨m, hUnused, hUsed⟩ := cells_used k (index gs)
  rw [← hZip, ← hHeight, cells_zip, hUsed] at hHolds
  obtain ⟨tree₁, hSet, hHolds₁⟩ := @setTag_spec buddy _ (ctxCells k gs true + m) (index gs) .used
    hHolds (by rw [Blocks.full]; abel) .unused
  have hGone : Holds tree₁ (ctxCells k gs true + cells k (index gs) .unused) := by
    rw [hUnused]
    convert hHolds₁ using 1
    abel
  have hTurns : gs.length ≤ index gs :=
    Nat.le_trans (Nat.le_of_lt Nat.lt_two_pow_self) (index_bounds gs).1
  have hFits : (zipMerge gs .unused).Fits H := by
    rw [← hHeight]
    apply fits_zipMerge
    have hFits := hPool.fits
    rw [← hZip, ← hHeight, fits_zip] at hFits
    rw [fits_zip]
    exact ⟨by cases k <;> trivial, hFits.2⟩
  obtain ⟨tree, hLoops, hHolds'⟩ : ∃ tree,
      (mergeLoop (index gs) { buddy with tree := tree₁ } (index gs)).bind
        (fun buddy => unfullLoop (index gs) buddy (index gs)) = some { buddy with tree := tree } ∧
      Holds tree (cells H 1 (zipMerge gs .unused)) := by
    rw [← hHeight]
    exact releaseLoops_spec gs hGone hTurns
  refine ⟨gs, tree, hZip, hHeight, hStart, ?_, hPool.shape.withTree tree, hHolds', hFits⟩
  simp only [buddyFree, hSearch, if_true, hSet, Option.bind_eq_bind, Option.bind_some]
  exact hLoops

end Calls

end Gbase.Mm.Buddy
