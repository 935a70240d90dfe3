import Gbase.Lib.BlockList
import Gbase.Mm.Slab
import Mathlib.Tactic.Ring

/-!
# A page as a row of blocks

`Lays metas p s bs q` says that the metas of the blocks `bs`, the first of them at `s`, are in
the page, and that the free list goes from `p` through the free ones among them to `q`.  The
code rewrites some neighbouring blocks and the links from the two free blocks around these;
`Lays.splice` says that nothing else has to be looked at.

## Main results

* `lays_append`, `Lays.congr`: parts of a page are read on their own.
* `Lays.splice`: some blocks in the middle of a page are replaced.
* `slabFreeErase_spec`, `slabFreeReplace_spec`, `slabFreeInsert_spec`: what the three
  operations on the free list change.
-/

namespace Gbase.Mm.Slab

open Gbase.Lib.BlockList

/-- The meta of a free block. -/
def freeCell (n p q : Int) : MetaT :=
  { size := n, color := metaColorDefault, freeNext := q, freePrev := p }

/-- The meta of a block that is given out. -/
def usedCell (n : Int) : MetaT :=
  { size := n, color := metaColorAlloc, freeNext := -1, freePrev := -1 }

/-- The blocks `bs` are in the page from `s` on, behind the free block `p` and before `q`. -/
def Lays (metas : Int → MetaT) (p s : Int) (bs : List Block) (q : Int) : Prop :=
  match bs with
  | [] => True
  | ⟨n, none⟩ :: bs =>
      metas s = freeCell n p (firstFree metaSize (s + (metaSize + n)) bs q) ∧
        Lays metas s (s + (metaSize + n)) bs q
  | ⟨n, some _⟩ :: bs => metas s = usedCell n ∧ Lays metas p (s + (metaSize + n)) bs q

/-- A field of a link: a shift, or -1. -/
def Link (t : Int) : Prop := t = -1 ∨ ValidShift t

section

variable {metas metas' : Int → MetaT} {page : PageT} {p q s t n : Int} {r : Nat}
  {xs ys bs : List Block} {b : Block}

@[simp] theorem freeCell_allocated : (freeCell n p q).allocated = false := by
  simp [freeCell, MetaT.allocated, metaColorDefault]

@[simp] theorem usedCell_allocated : (usedCell n).allocated = true := by
  simp [usedCell, MetaT.allocated, metaColorAlloc]

@[simp] theorem lays_nil : Lays metas p s [] q := trivial

@[simp] theorem lays_free :
    Lays metas p s (⟨n, none⟩ :: bs) q ↔
      metas s = freeCell n p (firstFree metaSize (s + (metaSize + n)) bs q) ∧
        Lays metas s (s + (metaSize + n)) bs q := Iff.rfl

@[simp] theorem lays_used :
    Lays metas p s (⟨n, some r⟩ :: bs) q ↔
      metas s = usedCell n ∧ Lays metas p (s + (metaSize + n)) bs q := Iff.rfl

theorem lays_append :
    Lays metas p s (xs ++ ys) q ↔
      Lays metas p s xs (firstFree metaSize (s + span metaSize xs) ys q) ∧
        Lays metas (lastFree metaSize p s xs) (s + span metaSize xs) ys q := by
  induction xs generalizing p s with
  | nil => simp
  | cons x xs ih =>
      obtain ⟨n, owner⟩ := x
      cases owner with
      | none => simp [ih, firstFree_append, and_assoc, add_assoc]
      | some r => simp [ih, and_assoc, add_assoc]

/-- Only the part of the page with the blocks counts. -/
theorem Lays.congr (h : Lays metas p s bs q) (hSized : Sized 8 bs)
    (hSame : ∀ t, s ≤ t → t < s + span metaSize bs → metas' t = metas t) :
    Lays metas' p s bs q := by
  induction bs generalizing p s with
  | nil => trivial
  | cons b bs ih =>
      obtain ⟨n, owner⟩ := b
      rw [sized_cons] at hSized
      have hSpan : 0 ≤ span metaSize bs := span_nonneg (by decide) hSized.2
      have hSize : 0 ≤ n := hSized.1.1
      rw [span_cons] at hSame
      have hHead : metas' s = metas s := by
        apply hSame s (le_refl s)
        show s < s + (8 + n + span metaSize bs)
        omega
      have hTail : ∀ t, s + (metaSize + n) ≤ t →
          t < s + (metaSize + n) + span metaSize bs → metas' t = metas t := by
        intro t hLow hHigh
        apply hSame t
        · have hPos : (0 : Int) ≤ metaSize := by decide
          omega
        · show t < s + (metaSize + n + span metaSize bs)
          omega
      cases owner with
      | none => exact ⟨hHead.trans h.1, ih h.2 hSized.2 hTail⟩
      | some r => exact ⟨hHead.trans h.1, ih h.2 hSized.2 hTail⟩

/-- Used blocks have no links. -/
theorem Lays.used (h : Lays metas p s bs q) (hUsed : ∀ b, b ∈ bs → b.owner ≠ none) (p' q' : Int) :
    Lays metas p' s bs q' := by
  induction bs generalizing s with
  | nil => trivial
  | cons b bs ih =>
      obtain ⟨n, owner⟩ := b
      cases owner with
      | none => exact absurd rfl (hUsed _ List.mem_cons_self)
      | some r => exact ⟨h.1, ih h.2 fun c hc => hUsed c (List.mem_cons_of_mem _ hc)⟩

/-! ## The free blocks around a place -/

/-- The first free block comes from the one before the blocks. -/
theorem Lays.prev_first (h : Lays metas p s bs q) (hFirst : firstFree metaSize s bs q ≠ q) :
    (metas (firstFree metaSize s bs q)).freePrev = p := by
  cases firstFree_cases metaSize s bs with
  | inl hNone => exact absurd (hNone.2 q) hFirst
  | inr hSome =>
      obtain ⟨xs, n, ys, rfl, hUsed, hEq⟩ := hSome
      rw [lays_append, lays_free, @lastFree_of_used metaSize s p xs hUsed] at h
      rw [hEq, h.2.1, freeCell]

/-- The free list leads to the block at `q'` instead of `q`. -/
theorem Lays.relinkNext {q' : Int} (h : Lays metas p s bs q) (hSized : Sized 8 bs) (hp : p ≤ 0)
    (hs : 0 < s)
    (hLast : 0 < lastFree metaSize p s bs →
      metas' (lastFree metaSize p s bs) =
        { metas (lastFree metaSize p s bs) with freeNext := q' })
    (hSame : ∀ t, s ≤ t → t < s + span metaSize bs → t ≠ lastFree metaSize p s bs →
      metas' t = metas t) :
    Lays metas' p s bs q' := by
  cases lastFree_cases metaSize s bs with
  | inl hNone =>
      apply (h.used hNone.1 p q').congr hSized
      intro t hLow hHigh
      apply hSame t hLow hHigh
      rw [hNone.2]
      omega
  | inr hSome =>
      obtain ⟨xs, n, ys, rfl, hUsed, hEq⟩ := hSome
      rw [hEq] at hLast hSame
      rw [sized_append, sized_cons] at hSized
      have hXs : 0 ≤ span metaSize xs := span_nonneg (by decide) hSized.1
      have hYs : 0 ≤ span metaSize ys := span_nonneg (by decide) hSized.2.2
      have hSize : 0 ≤ n := hSized.2.1.1
      have hMeta : (0 : Int) < metaSize := by decide
      simp only [span_append, span_cons] at hSame
      simp only [lays_append, lays_free] at h ⊢
      refine ⟨?_, ?_, ?_⟩
      · apply h.1.congr hSized.1
        intro t hLow hHigh
        apply hSame t hLow <;> omega
      · rw [hLast (by omega), h.2.1, firstFree_of_used hUsed, firstFree_of_used hUsed]
        rfl
      · apply (h.2.2.used hUsed _ _).congr hSized.2.2
        intro t hLow hHigh
        apply hSame t <;> omega

/-- The free list comes from the block at `p'` instead of `p`. -/
theorem Lays.relinkPrev {p' : Int} (h : Lays metas p s bs q) (hSized : Sized 8 bs) (hq : q ≤ 0)
    (hs : 0 < s)
    (hFirst : 0 < firstFree metaSize s bs q →
      metas' (firstFree metaSize s bs q) =
        { metas (firstFree metaSize s bs q) with freePrev := p' })
    (hSame : ∀ t, s ≤ t → t < s + span metaSize bs → t ≠ firstFree metaSize s bs q →
      metas' t = metas t) :
    Lays metas' p' s bs q := by
  cases firstFree_cases metaSize s bs with
  | inl hNone =>
      apply (h.used hNone.1 p' q).congr hSized
      intro t hLow hHigh
      apply hSame t hLow hHigh
      rw [hNone.2]
      omega
  | inr hSome =>
      obtain ⟨xs, n, ys, rfl, hUsed, hEq⟩ := hSome
      rw [hEq] at hFirst hSame
      rw [sized_append, sized_cons] at hSized
      have hXs : 0 ≤ span metaSize xs := span_nonneg (by decide) hSized.1
      have hYs : 0 ≤ span metaSize ys := span_nonneg (by decide) hSized.2.2
      have hSize : 0 ≤ n := hSized.2.1.1
      have hMeta : (0 : Int) < metaSize := by decide
      simp only [span_append, span_cons] at hSame
      simp only [lays_append, lays_free, firstFree_free] at h ⊢
      refine ⟨?_, ?_, ?_⟩
      · apply (h.1.used hUsed _ _).congr hSized.1
        intro t hLow hHigh
        apply hSame t hLow <;> omega
      · rw [hFirst (by omega), h.2.1, @lastFree_of_used metaSize s p' xs hUsed]
        rfl
      · apply h.2.2.congr hSized.2.2
        intro t hLow hHigh
        apply hSame t <;> omega

/-- What changes outside of the blocks from `lo` to `hi`: the free block `p` before them leads
to `next`, and the one behind them, `q`, comes from `prev`. -/
structure Spliced (metas metas' : Int → MetaT) (lo hi p q next prev : Int) : Prop where
  last : 0 < p → metas' p = { metas p with freeNext := next }
  first : 0 < q → metas' q = { metas q with freePrev := prev }
  same : ∀ t, t < lo ∨ hi ≤ t → t ≠ p → t ≠ q → metas' t = metas t

/-- Some blocks in the middle of a page are replaced, and the free blocks around them are
linked to the new ones. -/
theorem Lays.splice {old new : List Block} (hs : 0 < s)
    (h : Lays metas (-1) s (xs ++ (old ++ ys)) (-1)) (hSized : Sized 8 (xs ++ (old ++ ys)))
    (hSpan : span metaSize new = span metaSize old)
    (hMid : Lays metas' (lastFree metaSize (-1) s xs) (s + span metaSize xs) new
      (firstFree metaSize (s + span metaSize xs + span metaSize old) ys (-1)))
    (hOut : Spliced metas metas' (s + span metaSize xs)
      (s + span metaSize xs + span metaSize old) (lastFree metaSize (-1) s xs)
      (firstFree metaSize (s + span metaSize xs + span metaSize old) ys (-1))
      (firstFree metaSize (s + span metaSize xs) new
        (firstFree metaSize (s + span metaSize xs + span metaSize old) ys (-1)))
      (lastFree metaSize (lastFree metaSize (-1) s xs) (s + span metaSize xs) new)) :
    Lays metas' (-1) s (xs ++ (new ++ ys)) (-1) := by
  simp only [sized_append] at hSized
  obtain ⟨hXs, hOld, hYs⟩ := hSized
  have hXsSpan : 0 ≤ span metaSize xs := span_nonneg (by decide) hXs
  have hOldSpan : 0 ≤ span metaSize old := span_nonneg (by decide) hOld
  have hBefore : lastFree metaSize (-1) s xs < s + span metaSize xs := by
    cases lastFree_cases metaSize s xs with
    | inl h =>
        rw [h.2]
        omega
    | inr h =>
        obtain ⟨us, n, vs, rfl, -, hEq⟩ := h
        simp only [sized_append, sized_cons] at hXs
        have hVs : 0 ≤ span metaSize vs := span_nonneg (by decide) hXs.2.2
        have hMeta : (0 : Int) < metaSize := by decide
        rw [hEq]
        simp only [span_append, span_cons]
        omega
  have hBehind : firstFree metaSize (s + span metaSize xs + span metaSize old) ys (-1) = -1 ∨
      s + span metaSize xs + span metaSize old ≤
        firstFree metaSize (s + span metaSize xs + span metaSize old) ys (-1) := by
    cases firstFree_cases metaSize (s + span metaSize xs + span metaSize old) ys with
    | inl h => exact Or.inl (h.2 (-1))
    | inr h =>
        obtain ⟨us, n, vs, rfl, -, hEq⟩ := h
        rw [sized_append] at hYs
        rw [hEq]
        have hUs : 0 ≤ span metaSize us := span_nonneg (by decide) hYs.1
        omega
  rw [lays_append, lays_append] at h ⊢
  obtain ⟨hLays, -, hRest⟩ := h
  rw [hSpan]
  refine ⟨?_, hMid, ?_⟩
  · apply hLays.relinkNext hXs (by decide) hs
    · rw [firstFree_append, hSpan]
      exact hOut.last
    · intro t hLow hHigh hNe
      apply hOut.same t (Or.inl hHigh) hNe
      omega
  · apply hRest.relinkPrev hYs (by decide) (by omega) hOut.first
    intro t hLow hHigh hNe
    apply hOut.same t (Or.inr hLow) _ hNe
    omega

/-! ## Where metas may stand -/

theorem link_eq (h : Link t) (ht : 0 < t) : ValidShift t := by
  cases h with
  | inl h => omega
  | inr h => exact h

theorem PageT.get_eq (h : ValidShift s) : page.get s = some (page.metas s) := if_pos h

theorem PageT.modify_eq (h : ValidShift s) (change : MetaT → MetaT) :
    page.modify s change =
      some { page with metas := Function.update page.metas s (change (page.metas s)) } :=
  if_pos h

/-- The blocks fill the page behind its header. -/
structure Fills (bs : List Block) : Prop where
  sized : Sized 8 bs
  whole : span metaSize bs = pageSize - pageHeadSize

/-- The place of a block in a page. -/
theorem Fills.validShift (h : Fills (xs ++ b :: ys)) :
    ValidShift (pageHeadSize + span metaSize xs) := by
  have hSpan := h.whole
  have hSized := h.sized
  rw [sized_append, sized_cons] at hSized
  have hXs : 0 ≤ span metaSize xs := span_nonneg (by decide) hSized.1
  have hYs : 0 ≤ span metaSize ys := span_nonneg (by decide) hSized.2.2
  have hDvd : (8 : Int) ∣ span metaSize xs := span_dvd (by decide) hSized.1
  have hSize := hSized.2.1.1
  simp only [span_append, span_cons] at hSpan
  simp only [ValidShift, metaSize, pageSize, pageHeadSize] at *
  omega

theorem Fills.link_last (h : Fills (xs ++ ys)) :
    Link (lastFree metaSize (-1) pageHeadSize xs) ∧
      lastFree metaSize (-1) pageHeadSize xs < pageHeadSize + span metaSize xs := by
  cases lastFree_cases metaSize pageHeadSize xs with
  | inl hNone =>
      rw [hNone.2]
      have hSized := h.sized
      rw [sized_append] at hSized
      have hXs : 0 ≤ span metaSize xs := span_nonneg (by decide) hSized.1
      refine ⟨Or.inl rfl, ?_⟩
      simp only [pageHeadSize]
      omega
  | inr hSome =>
      obtain ⟨us, n, vs, rfl, -, hEq⟩ := hSome
      rw [hEq]
      rw [List.append_assoc, List.cons_append] at h
      refine ⟨Or.inr h.validShift, ?_⟩
      have hSized := h.sized
      simp only [sized_append, sized_cons] at hSized
      have hVs : 0 ≤ span metaSize vs := span_nonneg (by decide) hSized.2.2.1
      have hSize := hSized.2.1.1
      have hMeta : (0 : Int) < metaSize := by decide
      simp only [span_append, span_cons]
      omega

theorem Fills.link_first (h : Fills (xs ++ ys)) :
    Link (firstFree metaSize (pageHeadSize + span metaSize xs) ys (-1)) ∧
      (firstFree metaSize (pageHeadSize + span metaSize xs) ys (-1) = -1 ∨
        pageHeadSize + span metaSize xs ≤
          firstFree metaSize (pageHeadSize + span metaSize xs) ys (-1)) := by
  cases firstFree_cases metaSize (pageHeadSize + span metaSize xs) ys with
  | inl hNone => exact ⟨Or.inl (hNone.2 (-1)), Or.inl (hNone.2 (-1))⟩
  | inr hSome =>
      obtain ⟨us, n, vs, rfl, -, hEq⟩ := hSome
      rw [hEq]
      have hSized := h.sized
      simp only [sized_append] at hSized
      have hUs : 0 ≤ span metaSize us := span_nonneg (by decide) hSized.2.1
      rw [← List.append_assoc] at h
      have hValid := h.validShift
      rw [span_append, ← add_assoc] at hValid
      exact ⟨Or.inr hValid, Or.inr (by omega)⟩

/-- A place in a page: the blocks `old` go from `s` to `e`, and the free blocks around them are
`p` and `q`. -/
structure Focus (xs old ys : List Block) (s e p q : Int) : Prop where
  start : pageHeadSize + span metaSize xs = s
  stop : s + span metaSize old = e
  last : lastFree metaSize (-1) pageHeadSize xs = p
  first : firstFree metaSize e ys (-1) = q
  linkLast : Link p
  lastLt : p < s
  linkFirst : Link q
  firstLe : q = -1 ∨ e ≤ q

/-- Every place in a page is one. -/
theorem Fills.focus (xs old : List Block) (h : Fills (xs ++ (old ++ ys))) :
    ∃ s e p q, Focus xs old ys s e p q := by
  obtain ⟨hp, hps⟩ := h.link_last
  rw [← List.append_assoc] at h
  obtain ⟨hq, heq⟩ := h.link_first
  rw [span_append, ← add_assoc] at hq heq
  exact ⟨_, _, _, _, rfl, rfl, rfl, rfl, hp, hps, hq, heq⟩

section

variable {zs : List Block}

theorem Focus.validShift (f : Focus xs old ys s e p q) (h : Fills (xs ++ b :: zs)) :
    ValidShift s := f.start ▸ h.validShift

/-- The place of a block behind some others. -/
theorem Focus.validShift_behind (f : Focus xs old ys s e p q) (us : List Block)
    (h : Fills (xs ++ (us ++ b :: zs))) : ValidShift (s + span metaSize us) := by
  rw [← List.append_assoc] at h
  have hValid := h.validShift
  rwa [span_append, ← add_assoc, f.start] at hValid

end

/-! ## The operations on the free list -/

/-- An assignment to the meta at `t`, if `t` leads to one. -/
def patch (metas : Int → MetaT) (t : Int) (change : MetaT → MetaT) : Int → MetaT :=
  if 0 < t then Function.update metas t (change (metas t)) else metas

theorem patch_self (ht : 0 < t) (change : MetaT → MetaT) :
    patch metas t change t = change (metas t) := by
  rw [patch, if_pos ht, Function.update_self]

theorem patch_of_ne {t' : Int} (h : t' ≠ t) (change : MetaT → MetaT) :
    patch metas t change t' = metas t' := by
  rw [patch]
  split
  · exact Function.update_of_ne h _ _
  · rfl

theorem link_neg (h : Link t) (ht : ¬ 0 < t) : t = -1 := by
  cases h with
  | inl h => exact h
  | inr h =>
      have hLow := h.1
      simp only [pageHeadSize] at hLow
      omega

theorem validShift_pos (h : ValidShift s) : 0 < s := by
  have hLow := h.1
  simp only [pageHeadSize] at hLow
  omega

/-- What changes around a block whose links are `p` and `q`: `p` leads to `next`, and `q` comes
from `prev`. -/
structure Relinked (metas metas' : Int → MetaT) (s p q next prev : Int) : Prop where
  last : 0 < p → metas' p = { metas p with freeNext := next }
  first : 0 < q → metas' q = { metas q with freePrev := prev }
  same : ∀ t, t ≠ s → t ≠ p → t ≠ q → metas' t = metas t

/-- Links around a block are links around the blocks it is one of. -/
theorem Relinked.spliced {metas' : Int → MetaT} {next prev lo hi : Int}
    (h : Relinked metas metas' s p q next prev) (hIn : lo ≤ s ∧ s < hi) :
    Spliced metas metas' lo hi p q next prev :=
  ⟨h.last, h.first, fun t ht => h.same t (by omega)⟩

theorem slabFreeErase_spec (hs : ValidShift s) (hp : Link p) (hq : Link q) (hps : p < s)
    (hsq : q = -1 ∨ s < q) (hPrev : (page.metas s).freePrev = p)
    (hNext : (page.metas s).freeNext = q) :
    ∃ metas', slabFreeErase page s =
        some (if q > 0 then some q else none, { page with metas := metas' }) ∧
      metas' s = { page.metas s with freePrev := -1, freeNext := -1 } ∧
      Relinked page.metas metas' s p q q p := by
  have hs0 := validShift_pos hs
  have hpq : 0 < p → p ≠ q := by omega
  refine ⟨patch (patch (patch page.metas q fun m => { m with freePrev := p }) p
    fun m => { m with freeNext := q }) s fun m => { m with freePrev := -1, freeNext := -1 },
    ?_, ?_, ?_, ?_, ?_⟩
  · by_cases hp0 : 0 < p
    · by_cases hq0 : 0 < q
      · simp [slabFreeErase, patch, PageT.get_eq hs, PageT.modify_eq hs,
          PageT.modify_eq (link_eq hp hp0), PageT.modify_eq (link_eq hq hq0), hPrev, hNext,
          hp0, hq0, hs0]
      · simp [slabFreeErase, patch, PageT.get_eq hs, PageT.modify_eq hs,
          PageT.modify_eq (link_eq hp hp0), hPrev, hNext, hp0, hs0, link_neg hq hq0]
    · by_cases hq0 : 0 < q
      · simp [slabFreeErase, patch, PageT.get_eq hs, PageT.modify_eq hs,
          PageT.modify_eq (link_eq hq hq0), hPrev, hNext, hq0, hs0, link_neg hp hp0]
      · simp [slabFreeErase, patch, PageT.get_eq hs, PageT.modify_eq hs, hPrev, hNext, hs0,
          link_neg hp hp0, link_neg hq hq0]
  · rw [patch_self hs0, patch_of_ne (by omega), patch_of_ne (by omega)]
  · intro hp0
    rw [patch_of_ne (by omega), patch_self hp0, patch_of_ne (hpq hp0)]
  · intro hq0
    rw [patch_of_ne (by omega), patch_of_ne (by omega), patch_self hq0]
  · intro t hts htp htq
    rw [patch_of_ne hts, patch_of_ne htp, patch_of_ne htq]

theorem slabFreeReplace_spec (hs : ValidShift s) (ht : ValidShift t) (hp : Link p) (hq : Link q)
    (hps : p < s) (hpt : p < t) (hst : s ≠ t) (hsq : q = -1 ∨ s < q ∧ t < q)
    (hPrev : (page.metas s).freePrev = p) (hNext : (page.metas s).freeNext = q) :
    ∃ metas', slabFreeReplace page s t = some { page with metas := metas' } ∧
      metas' t = { page.metas t with freePrev := p, freeNext := q } ∧
      Relinked page.metas metas' t p q t t := by
  have hs0 := validShift_pos hs
  have ht0 := validShift_pos ht
  have hpq : 0 < p → p ≠ q := by omega
  refine ⟨patch (patch (patch (patch page.metas p fun m => { m with freeNext := t }) t
    fun m => { m with freePrev := p }) q fun m => { m with freePrev := t }) t
    fun m => { m with freeNext := q }, ?_, ?_, ?_, ?_, ?_⟩
  · have hNe : s ≠ p := by omega
    by_cases hp0 : 0 < p
    · by_cases hq0 : 0 < q
      · simp [slabFreeReplace, patch, PageT.get_eq hs, PageT.modify_eq ht,
          PageT.modify_eq (link_eq hp hp0), PageT.modify_eq (link_eq hq hq0), hPrev, hNext,
          hp0, hq0, ht0, hst, hNe]
      · simp [slabFreeReplace, patch, PageT.get_eq hs, PageT.modify_eq ht,
          PageT.modify_eq (link_eq hp hp0), hPrev, hNext, hp0, ht0, hst, hNe, link_neg hq hq0]
    · by_cases hq0 : 0 < q
      · simp [slabFreeReplace, patch, PageT.get_eq hs, PageT.modify_eq ht,
          PageT.modify_eq (link_eq hq hq0), hPrev, hNext, hq0, ht0, hst, link_neg hp hp0]
      · simp [slabFreeReplace, patch, PageT.get_eq hs, PageT.modify_eq ht, hPrev, hNext, ht0,
          hst, link_neg hp hp0, link_neg hq hq0]
  · rw [patch_self ht0, patch_of_ne (by omega), patch_self ht0, patch_of_ne (by omega)]
  · intro hp0
    rw [patch_of_ne (by omega), patch_of_ne (hpq hp0), patch_of_ne (by omega), patch_self hp0]
  · intro hq0
    rw [patch_of_ne (by omega), patch_self hq0, patch_of_ne (by omega), patch_of_ne (by omega)]
  · intro u hut hup huq
    rw [patch_of_ne hut, patch_of_ne huq, patch_of_ne hut, patch_of_ne hup]

theorem slabFreeInsert_spec (hs : ValidShift s) (ht : ValidShift t) (hq : Link q)
    (hst : s < t) (htq : q = -1 ∨ t < q) (hNext : (page.metas s).freeNext = q)
    (hInsert : (page.metas t).freeNext = -1) :
    ∃ metas', slabFreeInsert page s t = some { page with metas := metas' } ∧
      metas' t = { page.metas t with freePrev := s, freeNext := q } ∧
      Relinked page.metas metas' t s q t t := by
  have hs0 := validShift_pos hs
  have ht0 := validShift_pos ht
  refine ⟨patch (patch (patch (patch page.metas t fun m => { m with freeNext := q }) q
    fun m => { m with freePrev := t }) t fun m => { m with freePrev := s }) s
    fun m => { m with freeNext := t }, ?_, ?_, ?_, ?_, ?_⟩
  · by_cases hq0 : 0 < q
    · simp [slabFreeInsert, patch, PageT.get_eq hs, PageT.modify_eq ht, PageT.modify_eq hs,
        PageT.modify_eq (link_eq hq hq0), hNext, hq0, hs0, ht0]
    · have hOld : ({ page.metas t with freeNext := -1 } : MetaT) = page.metas t := by
        rw [← hInsert]
      simp [slabFreeInsert, patch, PageT.get_eq hs, PageT.modify_eq ht, PageT.modify_eq hs,
        hNext, hs0, ht0, link_neg hq hq0, hOld]
  · rw [patch_of_ne (by omega), patch_self ht0, patch_of_ne (by omega), patch_self ht0]
  · intro hs0
    rw [patch_self hs0, patch_of_ne (by omega), patch_of_ne (by omega), patch_of_ne (by omega)]
  · intro hq0
    rw [patch_of_ne (by omega), patch_of_ne (by omega), patch_self hq0, patch_of_ne (by omega)]
  · intro u hut hus huq
    rw [patch_of_ne hus, patch_of_ne hut, patch_of_ne huq, patch_of_ne hut]

end

end Gbase.Mm.Slab
