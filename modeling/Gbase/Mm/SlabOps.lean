import Gbase.Mm.SlabRepr

/-!
# What the slab operations do to a page

`PageRepr page bs` says that the page holds the blocks `bs`.  Each operation on a page is
followed through the code once, and its effect is stated on the blocks: an allocation gives
out a free block or cuts a used one off it, a release joins the block with its free
neighbours.

## Main results

* `pageAlloc_spec`: `_slab_alloc` on a page.
* `pageFree_spec`: `slab_free` on a page; its five ways all are `Coalesced`.
-/

namespace Gbase.Mm.Slab

open Gbase.Lib.BlockList

/-- The page holds the blocks. -/
structure PageRepr (page : PageT) (bs : List Block) : Prop where
  fills : Fills bs
  fits : Fits bs
  apart : Apart bs
  lays : Lays page.metas (-1) pageHeadSize bs (-1)
  free : page.free = firstFree metaSize pageHeadSize bs (-1)
  remain : page.remain = room metaSize bs

section

variable {metas metas' : Int → MetaT} {page : PageT} {p q s t n c : Int} {r : Nat}
  {xs ys bs : List Block} {b : Block}

/-! ## Quick merges -/

/-- The next block is given out, or there is none. -/
theorem quickMerge_none (hs : ValidShift s) (replaceNext : Int)
    (hNext : s + metaSize + (page.metas s).size < pageSize →
      ValidShift (s + metaSize + (page.metas s).size) ∧
        (page.metas (s + metaSize + (page.metas s).size)).allocated = true) :
    slabFreeQuickMerge page s replaceNext = some (-1, page) := by
  by_cases hEnd : s + metaSize + (page.metas s).size < pageSize
  · obtain ⟨hValid, hUsed⟩ := hNext hEnd
    simp [slabFreeQuickMerge, PageT.get_eq hs, PageT.get_eq hValid, hEnd, hUsed]
  · simp [slabFreeQuickMerge, PageT.get_eq hs, hEnd]

/-- The previous free block takes over a block that is not in the free list. -/
theorem quickMerge_left (hp : ValidShift p) (hs : ValidShift s)
    (hAdjacent : p + metaSize + (page.metas p).size = s)
    (hCell : page.metas s = freeCell n (-1) (-1)) :
    slabFreeQuickMerge page p (-1) = some (0, { page with
      metas := (Function.update page.metas p
        { page.metas p with size := (page.metas p).size + (n + metaSize) }) }) := by
  have hEnd : s < pageSize := by
    have hHigh := hs.2.1
    simp only [metaSize, pageSize] at *
    omega
  have hFree : (page.metas s).allocated = false := by rw [hCell, freeCell_allocated]
  have hSize : (page.metas s).size = n := by rw [hCell, freeCell]
  have hPrev : (page.metas s).freePrev = -1 := by rw [hCell, freeCell]
  simp [slabFreeQuickMerge, PageT.get_eq hp, hAdjacent, PageT.get_eq hs, PageT.modify_eq hp,
    hEnd, hFree, hSize, hPrev]

/-- A block takes over the free block behind it, and its place in the free list. -/
theorem grow_replace (hs : ValidShift s) (ht : ValidShift t) (hp : Link p) (hq : Link q)
    (hps : p < s) (hst : s < t) (htq : q = -1 ∨ t < q)
    (hCell : page.metas s = freeCell n (-1) (-1)) (hNext : page.metas t = freeCell c p q) :
    ∃ page₁ metas',
      page.modify s (fun m => { m with size := m.size + (c + metaSize) }) = some page₁ ∧
      slabFreeReplace page₁ t s = some { page with metas := metas' } ∧
      metas' s = freeCell (n + (c + metaSize)) p q ∧ Relinked page.metas metas' s p q s s := by
  have hGrow : ({ page.metas s with size := (page.metas s).size + (c + metaSize) } : MetaT) =
      freeCell (n + (c + metaSize)) (-1) (-1) := by
    rw [hCell]
    rfl
  have hSelf : Function.update page.metas s (freeCell (n + (c + metaSize)) (-1) (-1)) s =
      freeCell (n + (c + metaSize)) (-1) (-1) := Function.update_self _ _ _
  have hSame : ∀ u, u ≠ s →
      Function.update page.metas s (freeCell (n + (c + metaSize)) (-1) (-1)) u = page.metas u :=
    fun u hu => Function.update_of_ne hu _ _
  obtain ⟨metas', hReplace, hReplaced, hRelinked⟩ := @slabFreeReplace_spec
    { page with metas := Function.update page.metas s (freeCell (n + (c + metaSize)) (-1) (-1)) }
    p q t s ht hs hp hq (by omega) hps (by omega) (by omega)
    (congrArg MetaT.freePrev ((hSame t (by omega)).trans hNext))
    (congrArg MetaT.freeNext ((hSame t (by omega)).trans hNext))
  refine ⟨_, metas', PageT.modify_eq hs _, ?_, ?_, ?_, ?_, ?_⟩
  · rw [hGrow]
    exact hReplace
  · rw [hReplaced]
    simp only [hSelf]
    rfl
  · intro hp0
    simpa only [hSame p (by omega)] using hRelinked.last hp0
  · intro hq0
    simpa only [hSame q (by omega)] using hRelinked.first hq0
  · intro u hus hup huq
    exact (hRelinked.same u hus hup huq).trans (hSame u hus)

/-- A block takes over the free block behind it; the free block before it comes next. -/
theorem quickMerge_next (hs : ValidShift s) (ht : ValidShift t) (hp : Link p) (hq : Link q)
    (hps : p < s) (hst : s < t) (htq : q = -1 ∨ t < q)
    (hAdjacent : s + metaSize + n = t) (hCell : page.metas s = freeCell n (-1) (-1))
    (hNext : page.metas t = freeCell c p q) :
    ∃ metas' page', page' = { page with
        free := if t = page.free then s else page.free, metas := metas' } ∧
      metas' s = freeCell (n + (c + metaSize)) p q ∧ Relinked page.metas metas' s p q s s ∧
      slabFreeQuickMerge page s 0 =
        if 0 < p then do
          let prevCell ← page'.get p
          if p + metaSize + prevCell.size = s then
            let cell ← page'.get s
            let page ← page'.modify p fun m =>
              { m with size := m.size + (metaSize + cell.size), freeNext := cell.freeNext }
            let page ← (if cell.freeNext > 0 then
                page.modify cell.freeNext fun m => { m with freePrev := p }
              else some page)
            return (0, page)
          else return (0, page')
        else some (0, page') := by
  have hEnd : t < pageSize := by
    have hHigh := ht.2.1
    simp only [metaSize, pageSize] at *
    omega
  have hFree : (page.metas t).allocated = false := by rw [hNext, freeCell_allocated]
  have hSize : (page.metas s).size = n := by rw [hCell, freeCell]
  have hNextSize : (page.metas t).size = c := by rw [hNext, freeCell]
  have hNextPrev : (page.metas t).freePrev = p := by rw [hNext, freeCell]
  obtain ⟨page₁, metas', hModify, hReplace, hSelf, hRelinked⟩ :=
    grow_replace hs ht hp hq hps hst htq hCell hNext
  have hHead :
      (if t = page.free then ({ free := s, remain := page.remain, metas := metas' } : PageT)
        else { free := page.free, remain := page.remain, metas := metas' }) =
      { free := if t = page.free then s else page.free, remain := page.remain,
        metas := metas' } := by
    split <;> rfl
  refine ⟨metas', _, rfl, hSelf, hRelinked, ?_⟩
  by_cases hp0 : 0 < p
  · simp [slabFreeQuickMerge, PageT.get_eq hs, PageT.get_eq ht, hSize, hAdjacent, hEnd, hFree,
      hNextSize, hNextPrev, hp0, hModify, hReplace, hHead]
  · simp [slabFreeQuickMerge, PageT.get_eq hs, PageT.get_eq ht, hSize, hAdjacent, hEnd, hFree,
      hNextSize, hNextPrev, hp0, hModify, hReplace, hHead]

/-- A block and the free block behind it become one, and the free list goes through it. -/
theorem quickMerge_right (hs : ValidShift s) (ht : ValidShift t) (hp : Link p) (hq : Link q)
    (hps : p < s) (hst : s < t) (htq : q = -1 ∨ t < q)
    (hAdjacent : s + metaSize + n = t) (hCell : page.metas s = freeCell n (-1) (-1))
    (hNext : page.metas t = freeCell c p q)
    (hApart : 0 < p → p + metaSize + (page.metas p).size ≠ s) :
    ∃ metas', slabFreeQuickMerge page s 0 = some (0,
        { page with free := if t = page.free then s else page.free, metas := metas' }) ∧
      metas' s = freeCell (n + (c + metaSize)) p q ∧
      Relinked page.metas metas' s p q s s := by
  obtain ⟨metas', page', rfl, hSelf, hRelinked, hMerge⟩ :=
    quickMerge_next hs ht hp hq hps hst htq hAdjacent hCell hNext
  refine ⟨metas', hMerge.trans ?_, hSelf, hRelinked⟩
  by_cases hp0 : 0 < p
  · simp only [if_pos hp0, PageT.get_eq (link_eq hp hp0), Option.bind_eq_bind, Option.bind_some,
      hRelinked.last hp0, if_neg (hApart hp0)]
    rfl
  · exact if_neg hp0

/-- A block between two free ones becomes one with both. -/
theorem quickMerge_both (hs : ValidShift s) (ht : ValidShift t) (hp : ValidShift p) (hq : Link q)
    (hps : p < s) (hst : s < t) (htq : q = -1 ∨ t < q)
    (hAdjacent : s + metaSize + n = t) (hCell : page.metas s = freeCell n (-1) (-1))
    (hNext : page.metas t = freeCell c p q)
    (hBefore : p + metaSize + (page.metas p).size = s) :
    ∃ metas', slabFreeQuickMerge page s 0 = some (0,
        { page with free := if t = page.free then s else page.free, metas := metas' }) ∧
      metas' p = { page.metas p with
        size := (page.metas p).size + (metaSize + (n + (c + metaSize))), freeNext := q } ∧
      (0 < q → metas' q = { page.metas q with freePrev := p }) ∧
      ∀ u, u ≠ s → u ≠ p → u ≠ q → metas' u = page.metas u := by
  have hp0 := validShift_pos hp
  obtain ⟨metas', page', rfl, hSelf, hRelinked, hMerge⟩ :=
    quickMerge_next hs ht (Or.inr hp) hq hps hst htq hAdjacent hCell hNext
  have hSelfSize : (metas' s).size = n + (c + metaSize) := by rw [hSelf, freeCell]
  have hSelfNext : (metas' s).freeNext = q := by rw [hSelf, freeCell]
  have hPrevSize : (metas' p).size = (page.metas p).size := by rw [hRelinked.last hp0]
  refine ⟨patch (patch metas' p fun m =>
    { m with size := m.size + (metaSize + (n + (c + metaSize))), freeNext := q }) q
    fun m => { m with freePrev := p }, hMerge.trans ?_, ?_, ?_, ?_⟩
  · simp only [if_pos hp0, PageT.get_eq hp, PageT.get_eq hs, PageT.modify_eq hp,
      Option.bind_eq_bind, Option.bind_some, hPrevSize, if_pos hBefore, hSelfSize, hSelfNext, patch]
    by_cases hq0 : 0 < q
    · simp only [hq0, if_true, PageT.modify_eq (link_eq hq hq0), Option.bind_some]
      rfl
    · simp only [hq0, if_false, Option.bind_some]
      rfl
  · rw [patch_of_ne (by omega), patch_self hp0, hRelinked.last hp0]
  · intro hq0
    rw [patch_self hq0, patch_of_ne (by omega), hRelinked.first hq0]
  · intro u hus hup huq
    rw [patch_of_ne huq, patch_of_ne hup, hRelinked.same u hus hup huq]

/-! ## A place in a page -/

section

variable {old new : List Block} {e : Int} {page' : PageT}

/-- What the page contains before, at and behind a place. -/
theorem PageRepr.lays_at (h : PageRepr page (xs ++ (old ++ ys))) (f : Focus xs old ys s e p q) :
    Lays page.metas (-1) pageHeadSize xs (firstFree metaSize s old q) ∧
      Lays page.metas p s old q ∧ Lays page.metas (lastFree metaSize p s old) e ys (-1) := by
  have hLays := h.lays
  rw [lays_append, lays_append, firstFree_append, f.start, f.stop, f.last, f.first] at hLays
  exact hLays

/-- The free list starts behind some blocks exactly when these are used. -/
theorem firstFree_move (hSized : Sized 8 xs) (ht : pageHeadSize + span metaSize xs ≤ t)
    (next : Int) :
    (if t = firstFree metaSize pageHeadSize xs t then next
      else firstFree metaSize pageHeadSize xs t) = firstFree metaSize pageHeadSize xs next := by
  cases firstFree_cases metaSize pageHeadSize xs with
  | inl hNone => rw [hNone.2, hNone.2, if_pos rfl]
  | inr hSome =>
      obtain ⟨us, k, vs, rfl, -, hEq⟩ := hSome
      simp only [sized_append, sized_mk] at hSized
      have hVs : 0 ≤ span metaSize vs := span_nonneg (by decide) hSized.2.2
      have hSize := hSized.2.1.1
      have hMeta : (0 : Int) < metaSize := by decide
      rw [span_append, span_mk] at ht
      rw [hEq, hEq, if_neg (by omega)]

/-- The free list of blocks that are not all used starts inside them. -/
theorem firstFree_inside (hSized : Sized 8 xs) (hSome : ∃ b, b ∈ xs ∧ b.owner = none) (q : Int) :
    0 < firstFree metaSize pageHeadSize xs q ∧
      firstFree metaSize pageHeadSize xs q < pageHeadSize + span metaSize xs ∧
      ∀ q', firstFree metaSize pageHeadSize xs q = firstFree metaSize pageHeadSize xs q' := by
  obtain ⟨b, hb, hFree⟩ := hSome
  cases firstFree_cases metaSize pageHeadSize xs with
  | inl hNone => exact absurd hFree (hNone.1 b hb)
  | inr hFirst =>
      obtain ⟨us, k, vs, rfl, -, hEq⟩ := hFirst
      simp only [sized_append, sized_mk] at hSized
      have hUs : 0 ≤ span metaSize us := span_nonneg (by decide) hSized.1
      have hVs : 0 ≤ span metaSize vs := span_nonneg (by decide) hSized.2.2
      have hMeta : (0 : Int) < metaSize ∧ (0 : Int) < pageHeadSize := by decide
      rw [hEq, span_append, span_mk]
      refine ⟨by omega, by omega, fun q' => (hEq q').symm⟩

/-- The free list starts at a free block exactly when all blocks before it are used. -/
theorem PageRepr.free_at (h : PageRepr page (xs ++ (⟨n, none⟩ :: old ++ ys)))
    (f : Focus xs (⟨n, none⟩ :: old) ys s e p q) (next : Int) :
    (if s = page.free then next else page.free) = firstFree metaSize pageHeadSize xs next := by
  have hFree := h.free
  have hSized := h.fills.sized
  rw [firstFree_append, List.cons_append, firstFree_free, f.start] at hFree
  rw [sized_append] at hSized
  rw [hFree]
  exact firstFree_move hSized.1 f.start.le next

/-- A page after the blocks at a place were replaced. -/
theorem PageRepr.splice (h : PageRepr page (xs ++ (old ++ ys))) (f : Focus xs old ys s e p q)
    (hSized : Sized 8 new) (hFits : Fits new) (hApart : Apart (xs ++ (new ++ ys)))
    (hSpan : span metaSize new = span metaSize old) (hMid : Lays page'.metas p s new q)
    (hOut : Spliced page.metas page'.metas s e p q (firstFree metaSize s new q)
      (lastFree metaSize p s new))
    (hFree : page'.free = firstFree metaSize pageHeadSize xs (firstFree metaSize s new q))
    (hRemain : page'.remain + room metaSize old = page.remain + room metaSize new) :
    PageRepr page' (xs ++ (new ++ ys)) := by
  have hOldSized := h.fills.sized
  have hOldFits := h.fits
  have hWhole := h.fills.whole
  have hOldRemain := h.remain
  simp only [sized_append, fits_append, span_append, room_append] at *
  refine ⟨⟨?_, ?_⟩, ?_, hApart, ?_, ?_, ?_⟩
  · simp only [sized_append]
    exact ⟨hOldSized.1, hSized, hOldSized.2.2⟩
  · simp only [span_append, hSpan]
    exact hWhole
  · simp only [fits_append]
    exact ⟨hOldFits.1, hFits, hOldFits.2.2⟩
  · apply h.lays.splice (by decide) h.fills.sized hSpan
    · rwa [f.start, f.stop, f.last, f.first]
    · rwa [f.start, f.stop, f.last, f.first]
  · rw [hFree, firstFree_append, firstFree_append, hSpan, f.start, f.stop, f.first]
  · simp only [room_append]
    omega

end

/-! ## Allocation -/

/-- A free block of about the right size is given out as a whole. -/
theorem allocLoop_exact {sz : Nat} {e : Int} (h : PageRepr page (xs ++ ([⟨n, none⟩] ++ ys)))
    (f : Focus xs [⟨n, none⟩] ys s e p q) (hLow : sz ≤ n) (hHigh : n ≤ sz + metaSize)
    (hr : r ≤ sz) :
    ∃ free metas', allocLoop page sz 1 s =
        some (some s, { free := free, remain := page.remain, metas := metas' }) ∧
      (metas' s).size = n ∧ (metas' s).color = metaColorDefault ∧
      PageRepr { free := free, remain := page.remain - (metaSize + n),
                 metas := Function.update metas' s (usedCell n) }
        (xs ++ ([⟨n, some r⟩] ++ ys)) := by
  have hs : ValidShift s := f.validShift h.fills
  have hs0 := validShift_pos hs
  obtain ⟨-, hMid, -⟩ := h.lays_at f
  have hMeta : (0 : Int) < metaSize := by decide
  have hStop := f.stop
  simp only [span_cons, span_nil, add_zero] at hStop
  have hps := f.lastLt
  have hsq := f.firstLe
  have hCell : page.metas s = freeCell n p q := hMid.1
  obtain ⟨metas', hErase, hSelf, hLinks⟩ := slabFreeErase_spec hs f.linkLast f.linkFirst
    f.lastLt (by omega) (congrArg MetaT.freePrev hCell) (congrArg MetaT.freeNext hCell)
  have hNext : (if q > 0 then some q else none).getD (-1) = q := by
    split
    · rfl
    · show -1 = q
      omega
  refine ⟨firstFree metaSize pageHeadSize xs q, metas', ?_, ?_, ?_, ?_⟩
  · have hSize : (page.metas s).size = n := by rw [hCell, freeCell]
    rw [allocLoop, if_pos hs0, ← h.free_at f q]
    simp only [PageT.get_eq hs, Option.bind_eq_bind, Option.bind_some, hSize, hErase,
      if_neg (by omega : ¬ n < (sz : Int)), if_pos hHigh, hNext]
    split <;> rfl
  · rw [hSelf, hCell]
    rfl
  · rw [hSelf, hCell]
    rfl
  · have hSized := h.fills.sized
    have hApart := h.apart
    rw [List.singleton_append, apart_around] at hApart
    rw [List.singleton_append, sized_append, sized_cons] at hSized
    apply h.splice f
    · rw [sized_cons]
      exact ⟨hSized.2.1, sized_nil⟩
    · rw [fits_used]
      exact ⟨by omega, fits_nil⟩
    · exact apart_around.mpr ⟨hApart.1, hApart.2.1, fun hNone => absurd hNone (by simp)⟩
    · rfl
    · exact ⟨Function.update_self _ _ _, trivial⟩
    · rw [firstFree_used, firstFree_nil, lastFree_used, lastFree_nil]
      constructor
      · intro hp0
        show Function.update metas' s (usedCell n) p = _
        rw [Function.update_of_ne (by omega), hLinks.last hp0]
      · intro hq0
        show Function.update metas' s (usedCell n) q = _
        rw [Function.update_of_ne (by omega), hLinks.first hq0]
      · intro t ht htp htq
        show Function.update metas' s (usedCell n) t = _
        rw [Function.update_of_ne (by omega), hLinks.same t (by omega) htp htq]
    · rw [firstFree_used, firstFree_nil]
    · rw [room_free, room_used, room_nil]
      show page.remain - (metaSize + n) + (metaSize + n + 0) = page.remain + 0
      omega

/-- A larger free block is cut in two. -/
theorem slabFreeSplit_spec {used : Int} (hs : ValidShift s) (ht : ValidShift t)
    (hAt : s + metaSize + used = t) (hUsed : 0 ≤ used) (hCell : page.metas s = freeCell n p q)
    (hSize : used + metaSize < n) :
    ∃ metas', slabFreeSplit page s used = some (t, { page with metas := metas' }) ∧
      metas' s = freeCell used p q ∧ metas' t = freeCell (n - used - metaSize) (-1) (-1) ∧
      ∀ u, u ≠ s → u ≠ t → metas' u = page.metas u := by
  have hMeta : (0 : Int) < metaSize := by decide
  have hst : s ≠ t := by omega
  have hOld : (page.metas s).size = n := by rw [hCell, freeCell]
  refine ⟨Function.update (Function.update page.metas t (freeCell (n - used - metaSize) (-1) (-1)))
    s (freeCell used p q), ?_, ?_, ?_, ?_⟩
  · have hNew : ({ page.metas s with size := used } : MetaT) = freeCell used p q := by
      rw [hCell]
      rfl
    simp only [slabFreeSplit, PageT.get_eq hs, Option.bind_eq_bind, Option.bind_some, hOld,
      gt_iff_lt, if_pos hSize, hAt, slabMetaInit, PageT.modify_eq ht, PageT.modify_eq hs,
      Function.update_of_ne hst, hNew]
    rfl
  · exact Function.update_self _ _ _
  · rw [Function.update_of_ne hst.symm, Function.update_self]
  · intro u hus hut
    rw [Function.update_of_ne hus, Function.update_of_ne hut]

/-- The front of a larger free block is given out. -/
theorem allocLoop_split {sz : Nat} {e : Int} (h : PageRepr page (xs ++ ([⟨n, none⟩] ++ ys)))
    (f : Focus xs [⟨n, none⟩] ys s e p q) (hSize : sz + metaSize < n) (hSz : 8 ∣ sz)
    (hr : r ≤ sz) :
    ∃ free metas', allocLoop page sz 1 s =
        some (some s, { free := free, remain := page.remain, metas := metas' }) ∧
      (metas' s).size = sz ∧ (metas' s).color = metaColorDefault ∧
      PageRepr { free := free, remain := page.remain - (metaSize + sz),
                 metas := Function.update metas' s (usedCell sz) }
        (xs ++ ([⟨sz, some r⟩, ⟨n - sz - metaSize, none⟩] ++ ys)) := by
  have hSized := h.fills.sized
  have hApart := h.apart
  rw [List.singleton_append, sized_append, sized_mk] at hSized
  rw [List.singleton_append, apart_around] at hApart
  have hs : ValidShift s := f.validShift h.fills
  have hs0 := validShift_pos hs
  obtain ⟨-, hMid, -⟩ := h.lays_at f
  have hMeta : (0 : Int) < metaSize := by decide
  have hStop := f.stop
  simp only [span_mk, span_nil, add_zero] at hStop
  have hps := f.lastLt
  have hsq := f.firstLe
  have hCell : page.metas s = freeCell n p q := hMid.1
  have hEnd : e ≤ pageSize := by
    have hWhole := h.fills.whole
    have hStart := f.start
    have hYs : 0 ≤ span metaSize ys := span_nonneg (by decide) hSized.2.2
    simp only [span_append, span_mk, span_nil] at hWhole
    omega
  have hDvd : (8 : Int) ∣ n - sz - metaSize := by
    have hn := hSized.2.1.2
    simp only [metaSize]
    omega
  obtain ⟨t, ht⟩ : ∃ t, s + metaSize + sz = t := ⟨_, rfl⟩
  have hValid : ValidShift t := by
    have hLow := hs.1
    have hMod := hs.2.2
    refine ⟨by omega, by omega, ?_⟩
    simp only [metaSize] at ht
    omega
  obtain ⟨metas₁, hSplit, hFront, hBack, hSame⟩ :=
    slabFreeSplit_spec hs hValid ht (by omega) hCell hSize
  have hRelink : ∃ metas', slabFreeReplace { page with metas := metas₁ } s t =
        some { page with metas := metas' } ∧
      metas' t = { metas₁ t with freePrev := p, freeNext := q } ∧
      Relinked metas₁ metas' t p q t t :=
    slabFreeReplace_spec hs hValid f.linkLast f.linkFirst hps (by omega) (by omega) (by omega)
      (congrArg MetaT.freePrev hFront) (congrArg MetaT.freeNext hFront)
  obtain ⟨metas', hReplace, hSelf, hLinks⟩ := hRelink
  have hFrontSame : metas' s = freeCell sz p q := by
    rw [hLinks.same s (by omega) (by omega) (by omega)]
    exact hFront
  refine ⟨firstFree metaSize pageHeadSize xs t, metas', ?_, ?_, ?_, ?_⟩
  · have hOld : (page.metas s).size = n := by rw [hCell, freeCell]
    rw [allocLoop, if_pos hs0, ← h.free_at f t]
    simp only [PageT.get_eq hs, Option.bind_eq_bind, Option.bind_some, hOld,
      if_neg (by omega : ¬ n < (sz : Int)), if_neg (by omega : ¬ n ≤ (sz : Int) + metaSize),
      hSplit, hReplace]
    split <;> rfl
  · rw [hFrontSame, freeCell]
  · rw [hFrontSame, freeCell]
  · apply h.splice f
    · rw [sized_mk, sized_mk]
      refine ⟨⟨by omega, ?_⟩, ⟨by omega, hDvd⟩, sized_nil⟩
      exact_mod_cast hSz
    · rw [fits_used, fits_free]
      exact ⟨by omega, fits_nil⟩
    · apply apart_around.mpr
      refine ⟨hApart.1, ?_, fun hNone => absurd hNone (by simp)⟩
      apply (@apart_around [] ys ⟨n - sz - metaSize, none⟩).mpr
      exact ⟨apart_nil, hApart.2.1, fun _ => ⟨usedLast_nil, (hApart.2.2 rfl).2⟩⟩
    · simp only [span_mk, span_nil]
      omega
    · rw [lays_used, lays_free, firstFree_nil, ← add_assoc, ht]
      refine ⟨Function.update_self _ _ _, ?_, trivial⟩
      show Function.update metas' s (usedCell sz) t = _
      rw [Function.update_of_ne (by omega), hSelf, hBack]
      rfl
    · rw [firstFree_used, firstFree_free, lastFree_used, lastFree_free, lastFree_nil,
        ← add_assoc, ht]
      constructor
      · intro hp0
        show Function.update metas' s (usedCell sz) p = _
        rw [Function.update_of_ne (by omega), hLinks.last hp0, hSame p (by omega) (by omega)]
      · intro hq0
        show Function.update metas' s (usedCell sz) q = _
        rw [Function.update_of_ne (by omega), hLinks.first hq0, hSame q (by omega) (by omega)]
      · intro u hu hup huq
        show Function.update metas' s (usedCell sz) u = _
        rw [Function.update_of_ne (by omega), hLinks.same u (by omega) hup huq,
          hSame u (by omega) (by omega)]
    · rw [firstFree_used, firstFree_free, ← add_assoc, ht]
    · rw [room_free, room_used, room_free, room_nil]
      show page.remain - (metaSize + sz) + (metaSize + n + 0) =
        page.remain + (metaSize + (n - sz - metaSize) + 0)
      omega

/-- The loop over free memory stops at the first free block that is large enough. -/
theorem allocLoop_search {sz turns : Nat} (h : PageRepr page (xs ++ ys))
    (hTurns : ys.length < turns) :
    allocLoop page sz turns (firstFree metaSize (pageHeadSize + span metaSize xs) ys (-1)) =
        some (none, page) ∧ (∀ b, b ∈ ys → b.owner = none → b.size < sz) ∨
      ∃ us vs, ∃ n : Int, xs ++ ys = us ++ ([⟨n, none⟩] ++ vs) ∧ sz ≤ n ∧
        allocLoop page sz turns (firstFree metaSize (pageHeadSize + span metaSize xs) ys (-1)) =
          allocLoop page sz 1 (pageHeadSize + span metaSize us) := by
  induction ys generalizing xs turns with
  | nil =>
      left
      obtain ⟨k, rfl⟩ : ∃ k, turns = k + 1 := ⟨turns - 1, by omega⟩
      rw [firstFree_nil, allocLoop, if_neg (by decide)]
      exact ⟨rfl, fun b hb => (by cases hb)⟩
  | cons b ys ih =>
      rw [List.length_cons] at hTurns
      obtain ⟨n, owner⟩ := b
      have hMove : xs ++ ⟨n, owner⟩ :: ys = xs ++ [⟨n, owner⟩] ++ ys := by simp
      have hPlace : pageHeadSize + span metaSize (xs ++ [⟨n, owner⟩]) =
          pageHeadSize + span metaSize xs + (metaSize + n) := by
        rw [span_append, span_mk, span_nil]
        omega
      cases owner with
      | some r =>
          rw [hMove] at h ⊢
          have hRest := ih h (by omega : ys.length < turns)
          rw [hPlace] at hRest
          exact hRest.imp_left fun hNone => ⟨hNone.1, List.forall_mem_cons.mpr
            ⟨fun hFree => absurd hFree (Option.some_ne_none r), hNone.2⟩⟩
      | none =>
          obtain ⟨k, rfl⟩ : ∃ k, turns = k + 1 := ⟨turns - 1, by omega⟩
          obtain ⟨s, e, p, q, f⟩ := Fills.focus xs [⟨n, none⟩] h.fills
          have hCell : page.metas s = freeCell n p q := (h.lays_at f).2.1.1
          have hs : ValidShift s := f.validShift h.fills
          have hOld : (page.metas s).size = n := by rw [hCell, freeCell]
          have hNext : (page.metas s).freeNext = q := by rw [hCell, freeCell]
          rw [firstFree_free, f.start]
          by_cases hSize : n < sz
          · rw [hMove] at h ⊢
            have hRest := ih h (by omega : ys.length < k)
            rw [hPlace, f.start] at hRest
            have hStop := f.stop
            rw [span_mk, span_nil, add_zero] at hStop
            rw [hStop, f.first] at hRest
            rw [allocLoop, if_pos (validShift_pos hs)]
            simp only [PageT.get_eq hs, Option.bind_eq_bind, Option.bind_some, hOld, if_pos hSize,
              hNext]
            exact hRest.imp_left fun hNone =>
              ⟨hNone.1, List.forall_mem_cons.mpr ⟨fun _ => hSize, hNone.2⟩⟩
          · right
            refine ⟨xs, ys, n, rfl, by omega, ?_⟩
            rw [f.start, allocLoop, allocLoop, if_pos (validShift_pos hs),
              if_pos (validShift_pos hs)]
            simp only [PageT.get_eq hs, Option.bind_eq_bind, Option.bind_some, hOld, if_neg hSize]

/-- A page has less than 512 blocks. -/
theorem Fills.length_lt (h : Fills bs) : bs.length < 512 := by
  have hSpan : metaSize * bs.length ≤ span metaSize bs := length_le_span h.sized
  have hWhole := h.whole
  simp only [metaSize, pageSize, pageHeadSize] at *
  omega

/-- A page that is refused has no free block that is large enough. -/
theorem PageRepr.small_of_guard {sz : Nat} (h : PageRepr page bs)
    (hGuard : page.free ≤ 0 ∨ page.remain < sz + metaSize) (hb : b ∈ bs) (hFree : b.owner = none) :
    b.size < sz := by
  cases hGuard with
  | inl hNone =>
      have hPos := (firstFree_inside h.fills.sized ⟨b, hb, hFree⟩ (-1)).1
      rw [← h.free] at hPos
      omega
  | inr hSmall =>
      have hRoom := size_le_room (by decide : 0 ≤ metaSize) h.fills.sized hb hFree
      rw [← h.remain] at hRoom
      omega

/-- `_slab_alloc` fails without a change, as there is no free block that is large enough, or
gives one out. -/
theorem pageAlloc_spec {sz : Nat} (h : PageRepr page bs) (hSz : 8 ∣ sz) (hr : r ≤ sz) :
    pageAlloc page sz = some (none, page) ∧ (∀ b, b ∈ bs → b.owner = none → b.size < sz) ∨
      ∃ xs n ys zs page', bs = xs ++ ⟨n, none⟩ :: ys ∧ Granted metaSize r xs n ys zs ∧
        pageAlloc page sz = some (some (pageHeadSize + span metaSize xs), page') ∧
        PageRepr page' zs := by
  by_cases hGuard : page.free ≤ 0 ∨ page.remain < sz + metaSize
  · left
    rw [pageAlloc, if_pos hGuard]
    exact ⟨rfl, fun b hb hFree => h.small_of_guard hGuard hb hFree⟩
  · rw [pageAlloc, if_neg hGuard]
    have hFree := h.free
    have hSearch := @allocLoop_search page [] bs sz 512 h h.fills.length_lt
    rw [span_nil, add_zero, ← hFree] at hSearch
    cases hSearch with
    | inl hNone =>
        left
        rw [hNone.1]
        exact ⟨rfl, hNone.2⟩
    | inr hSome =>
        right
        obtain ⟨xs, ys, n, hBs, hLow, hLoop⟩ := hSome
        rw [List.nil_append] at hBs
        subst hBs
        obtain ⟨s, e, p, q, f⟩ := h.fills.focus
        have hs : ValidShift s := f.validShift h.fills
        rw [f.start] at hLoop
        -- what is done to the block that was taken
        have hTake : ∀ (k : Int) (free : Int) (metas' : Int → MetaT), (metas' s).size = k →
            (metas' s).color = metaColorDefault →
            (PageT.modify { free := free, remain := page.remain, metas := metas' } s fun m =>
              { m with color := m.color ||| metaColorAlloc, freeNext := -1, freePrev := -1 }) =
              some { free := free, remain := page.remain,
                     metas := Function.update metas' s (usedCell k) } := by
          intro k free metas' hSize hColor
          rw [PageT.modify_eq hs]
          simp only [hSize, hColor]
          rfl
        have hUsedSize : ∀ (k : Int) (metas' : Int → MetaT),
            (Function.update metas' s (usedCell k) s).size = k := by
          intro k metas'
          rw [Function.update_self, usedCell]
        by_cases hSize : n ≤ sz + metaSize
        · obtain ⟨free, metas', hExact, hk, hColor, hRepr⟩ := allocLoop_exact h f hLow hSize hr
          refine ⟨xs, n, ys, _, _, rfl, Granted.whole, ?_, hRepr⟩
          rw [f.start, hLoop, hExact]
          simp only [Option.bind_eq_bind, Option.bind_some, hTake n free metas' hk hColor,
            PageT.get_eq hs, hUsedSize]
          rfl
        · obtain ⟨free, metas', hSplit, hk, hColor, hRepr⟩ :=
            allocLoop_split h f (by omega) hSz hr
          refine ⟨xs, n, ys, _, _, rfl, Granted.front sz, ?_, hRepr⟩
          rw [f.start, hLoop, hSplit]
          simp only [Option.bind_eq_bind, Option.bind_some, hTake sz free metas' hk hColor,
            PageT.get_eq hs, hUsedSize]
          rfl

/-! ## Release -/

section

variable {page₀ : PageT} {old : List Block} {e : Int}

/-- A used block comes between the last free block and the place. -/
theorem PageRepr.gap (h : PageRepr page (xs ++ (old ++ ys))) (f : Focus xs old ys s e p q)
    (hLast : UsedLast xs) (hp : 0 < p) :
    ValidShift (p + metaSize + (page.metas p).size) ∧
      (page.metas (p + metaSize + (page.metas p).size)).allocated = true ∧
      p + metaSize + (page.metas p).size < s ∧
      (page.metas p).freeNext = firstFree metaSize s old q := by
  obtain ⟨hXs, -, -⟩ := h.lays_at f
  have hSized := h.fills.sized
  have hEq := f.last
  have hStart := f.start
  cases lastFree_cases metaSize pageHeadSize xs with
  | inl hNone =>
      rw [hNone.2] at hEq
      omega
  | inr hSome =>
      obtain ⟨us, a, vs, rfl, hUsed, hPlace⟩ := hSome
      rw [hPlace] at hEq
      cases vs with
      | nil =>
          have hFree := hLast ⟨a, none⟩ (by rw [List.getLast?_concat]; rfl)
          exact absurd rfl hFree
      | cons v ws =>
          obtain ⟨k, owner⟩ := v
          cases owner with
          | none => exact absurd rfl (hUsed ⟨k, none⟩ List.mem_cons_self)
          | some r' =>
              rw [lays_append, lays_free, lays_used, firstFree_used, hEq,
                firstFree_of_used fun b hb => hUsed b (List.mem_cons_of_mem _ hb)] at hXs
              obtain ⟨-, hCell, hNext, -⟩ := hXs
              have hSize : (page.metas p).size = a := by rw [hCell, freeCell]
              rw [hSize, add_assoc, hNext]
              have hFills : Fills (us ++ [⟨a, none⟩] ++ ⟨k, some r'⟩ :: (ws ++ (old ++ ys))) := by
                have hFills := h.fills
                simpa using hFills
              have hValid := hFills.validShift
              rw [span_append, span_mk, span_nil, add_zero, ← add_assoc, hEq] at hValid
              simp only [sized_append, sized_mk] at hSized
              have hWs : 0 ≤ span metaSize ws := span_nonneg (by decide) hSized.1.2.2.2
              have hMeta : (0 : Int) < metaSize := by decide
              rw [span_append, span_mk, span_mk] at hStart
              exact ⟨hValid, usedCell_allocated, by omega, by rw [hCell, freeCell]⟩

/-- The page after a block was marked free and its size added. -/
structure Released (page₀ page : PageT) (s n : Int) : Prop where
  cell : page.metas s = freeCell n (-1) (-1)
  same : ∀ t, t ≠ s → page.metas t = page₀.metas t
  free : page.free = page₀.free
  remain : page.remain = page₀.remain + (n + metaSize)

/-- A released block and its free neighbours become one block, which stands between the free
blocks around them. -/
theorem Released.joined {v m : Int} (hRel : Released page₀ page s n)
    (h : PageRepr page₀ (xs ++ (old ++ ys))) (f : Focus xs old ys v e p q)
    (hIn : v ≤ s ∧ s < e) (hm : 0 ≤ m ∧ 8 ∣ m) (hSpan : metaSize + m = span metaSize old)
    (hApart : Apart (xs ++ ⟨m, none⟩ :: ys)) (hSelf : metas' v = freeCell m p q)
    (hOut : Spliced page.metas metas' v e p q v v)
    (hRoom : room metaSize old + (n + metaSize) = metaSize + m) :
    PageRepr { free := firstFree metaSize pageHeadSize xs v, remain := page.remain,
               metas := metas' } (xs ++ ([⟨m, none⟩] ++ ys)) := by
  have hps := f.lastLt
  have heq := f.firstLe
  apply h.splice f
  · rw [sized_mk]
    exact ⟨hm, sized_nil⟩
  · rw [fits_free]
    exact fits_nil
  · exact hApart
  · rw [span_mk, span_nil, add_zero, hSpan]
  · rw [lays_free, firstFree_nil]
    exact ⟨hSelf, trivial⟩
  · rw [firstFree_free, lastFree_free, lastFree_nil]
    show Spliced page₀.metas metas' v e p q v v
    constructor
    · intro hp0
      rw [hOut.last hp0, hRel.same p (by omega)]
    · intro hq0
      rw [hOut.first hq0, hRel.same q (by omega)]
    · intro u hu hup huq
      rw [hOut.same u hu hup huq, hRel.same u (by omega)]
  · rw [firstFree_free]
  · rw [room_free, room_nil]
    show page.remain + room metaSize old = _
    rw [hRel.remain]
    omega

/-- The last free block leads to a free place already. -/
theorem Released.leads {a v : Int} (hRel : Released page₀ page s n)
    (h : PageRepr page₀ (xs ++ (⟨a, none⟩ :: old ++ ys)))
    (f : Focus xs (⟨a, none⟩ :: old) ys v e p q) (hvs : v < s) (hLast : UsedLast xs)
    (hp : 0 < p) : page.metas p = { page.metas p with freeNext := v } := by
  have hLink := (h.gap f hLast hp).2.2.2
  have hpv := f.lastLt
  rw [firstFree_free] at hLink
  rw [hRel.same p (by omega), ← hLink]

/-- The block behind is free, and the one before is not. -/
theorem pageFree_right
    (h : PageRepr page₀ (xs ++ ([⟨n, some r⟩, ⟨c, none⟩] ++ ys)))
    (f : Focus xs [⟨n, some r⟩, ⟨c, none⟩] ys s e p q) (hRel : Released page₀ page s n)
    (hLast : UsedLast xs) :
    ∃ page', pageFree page s = some page' ∧
      PageRepr page' (xs ++ ([⟨n + (c + metaSize), none⟩] ++ ys)) := by
  have hSized := h.fills.sized
  have hFits := h.fits
  have hApart := h.apart
  have hNewApart : Apart (xs ++ ⟨n + (c + metaSize), none⟩ :: ys) := by
    have hRest := (apart_around.mp hApart).2.1
    have hAround := (@apart_around [] ys ⟨c, none⟩).mp hRest
    exact apart_around.mpr
      ⟨(apart_around.mp hApart).1, hAround.2.1, fun _ => ⟨hLast, (hAround.2.2 rfl).2⟩⟩
  simp only [sized_append, sized_mk] at hSized
  obtain ⟨hXs, ⟨hn, hc, -⟩, -⟩ := hSized
  obtain ⟨-, hMid, -⟩ := h.lays_at f
  rw [lays_used, lays_free, firstFree_nil] at hMid
  obtain ⟨-, hNext, -⟩ := hMid
  obtain ⟨t, ht⟩ : ∃ t, s + (metaSize + n) = t := ⟨_, rfl⟩
  rw [ht] at hNext
  have hMeta : (0 : Int) < metaSize := by decide
  have hps := f.lastLt
  have heq := f.firstLe
  have hStop := f.stop
  rw [span_mk, span_mk, span_nil] at hStop
  have hs : ValidShift s := f.validShift h.fills
  have hValid : ValidShift t := by
    have hValid := f.validShift_behind [⟨n, some r⟩] h.fills
    rwa [span_mk, span_nil, add_zero, ht] at hValid
  have hGap : 0 < p → p + metaSize + (page.metas p).size ≠ s := by
    intro hp0
    have hBefore := (h.gap f hLast hp0).2.2.1
    rw [hRel.same p (by omega)]
    omega
  obtain ⟨metas', hMerge, hSelf, hLinks⟩ := quickMerge_right hs hValid f.linkLast f.linkFirst hps
    (by omega) (by omega) (by omega) hRel.cell ((hRel.same t (by omega)).trans hNext) hGap
  have hHead : (if t = page.free then s else page.free) = firstFree metaSize pageHeadSize xs s := by
    have hFree := h.free
    rw [firstFree_append, f.start, List.cons_append, firstFree_used, List.singleton_append,
      firstFree_free, ht] at hFree
    rw [hRel.free, hFree]
    exact firstFree_move hXs (by rw [f.start]; omega) s
  refine ⟨{ free := if t = page.free then s else page.free, remain := page.remain,
            metas := metas' }, by rw [pageFree, hMerge]; rfl, ?_⟩
  rw [hHead]
  apply hRel.joined h f (by omega) ⟨by omega, dvd_add hn.2 (dvd_add hc.2 (by decide))⟩
  · rw [span_mk, span_mk, span_nil]
    omega
  · exact hNewApart
  · exact hSelf
  · exact hLinks.spliced (by omega)
  · rw [room_used, room_free, room_nil]
    omega

/-- A block on both sides is free. -/
theorem pageFree_both {a v : Int}
    (h : PageRepr page₀ (xs ++ ([⟨a, none⟩, ⟨n, some r⟩, ⟨c, none⟩] ++ ys)))
    (f : Focus xs [⟨a, none⟩, ⟨n, some r⟩, ⟨c, none⟩] ys v e p q)
    (hs : v + (metaSize + a) = s) (hRel : Released page₀ page s n) :
    ∃ page', pageFree page s = some page' ∧
      PageRepr page' (xs ++ ([⟨a + (metaSize + (n + (c + metaSize))), none⟩] ++ ys)) := by
  have hSized := h.fills.sized
  have hApart := apart_around.mp h.apart
  have hLast : UsedLast xs := (hApart.2.2 rfl).1
  have hHead : Apart ys ∧ UsedHead ys := by
    have hNext := (@apart_around [] _ ⟨n, some r⟩).mp hApart.2.1
    have hAround := (@apart_around [] ys ⟨c, none⟩).mp hNext.2.1
    exact ⟨hAround.2.1, (hAround.2.2 rfl).2⟩
  simp only [sized_append, sized_mk] at hSized
  obtain ⟨hXs, ⟨ha, hn, hc, -⟩, -⟩ := hSized
  obtain ⟨-, hMid, -⟩ := h.lays_at f
  rw [lays_free, lays_used, lays_free, firstFree_used, firstFree_free, firstFree_nil, hs] at hMid
  obtain ⟨t, ht⟩ : ∃ t, s + (metaSize + n) = t := ⟨_, rfl⟩
  rw [ht] at hMid
  obtain ⟨hBefore, -, hNext, -⟩ := hMid
  have hMeta : (0 : Int) < metaSize := by decide
  have hpv := f.lastLt
  have heq := f.firstLe
  have hStop := f.stop
  rw [span_mk, span_mk, span_mk, span_nil] at hStop
  have hValidV : ValidShift v := f.validShift h.fills
  have hValidS : ValidShift s := by
    have hValid := f.validShift_behind [⟨a, none⟩] h.fills
    rwa [span_mk, span_nil, add_zero, hs] at hValid
  have hValidT : ValidShift t := by
    have hValid := f.validShift_behind [⟨a, none⟩, ⟨n, some r⟩] h.fills
    rwa [span_mk, span_mk, span_nil, add_zero, ← add_assoc, hs, ht] at hValid
  have hPrev : page.metas v = freeCell a p t := (hRel.same v (by omega)).trans hBefore
  obtain ⟨metas', hMerge, hSelf, hFirst, hSame⟩ := quickMerge_both hValidS hValidT hValidV
    f.linkFirst (by omega) (by omega) (by omega) (by omega) hRel.cell
    ((hRel.same t (by omega)).trans hNext)
    (by rw [hPrev]; show v + metaSize + a = s; omega)
  have hNewSelf : metas' v = freeCell (a + (metaSize + (n + (c + metaSize)))) p q := by
    rw [hSelf, hPrev]
    rfl
  have hPageFree : page.free = firstFree metaSize pageHeadSize xs v := by
    have hFree := h.free
    rw [firstFree_append, f.start, List.cons_append, firstFree_free] at hFree
    rw [hRel.free, hFree]
  have hNot : t ≠ page.free := by
    have hSized : Sized 8 (xs ++ [⟨a, none⟩]) := by
      rw [sized_append, sized_mk]
      exact ⟨hXs, ha, sized_nil⟩
    have hInside := (firstFree_inside hSized ⟨⟨a, none⟩, by simp, rfl⟩ q).2.1
    rw [firstFree_append, firstFree_free, span_append, span_mk, span_nil, f.start, ← hPageFree,
      ← add_assoc, f.start] at hInside
    omega
  refine ⟨{ page with metas := metas' }, ?_, ?_⟩
  · rw [if_neg hNot] at hMerge
    rw [pageFree, hMerge]
    rfl
  · show PageRepr { free := page.free, remain := page.remain, metas := metas' } _
    rw [hPageFree]
    apply hRel.joined h f (by omega) ⟨by omega,
      dvd_add ha.2 (dvd_add (by decide) (dvd_add hn.2 (dvd_add hc.2 (by decide))))⟩
    · simp only [span_mk, span_nil]
      omega
    · exact apart_around.mpr ⟨hApart.1, hHead.1, fun _ => ⟨hLast, hHead.2⟩⟩
    · exact hNewSelf
    · refine ⟨fun hp0 => ?_, hFirst, fun u hu hup huq => hSame u (by omega) (by omega) huq⟩
      rw [hSame p (by omega) (by omega) (by omega)]
      exact hRel.leads h f (by omega) hLast hp0
    · simp only [room_free, room_used, room_nil]
      omega

/-- The block behind a place is given out, or there is none. -/
theorem PageRepr.behind (h : PageRepr page (xs ++ (old ++ ys))) (f : Focus xs old ys s e p q)
    (hHead : UsedHead ys) (hEnd : e < pageSize) :
    ValidShift e ∧ (page.metas e).allocated = true := by
  obtain ⟨-, -, hYs⟩ := h.lays_at f
  cases ys with
  | nil =>
      have hWhole := h.fills.whole
      have hStart := f.start
      have hStop := f.stop
      rw [span_append, span_append, span_nil] at hWhole
      simp only [pageSize, pageHeadSize] at *
      omega
  | cons b ys =>
      obtain ⟨k, owner⟩ := b
      cases owner with
      | none => exact absurd rfl (hHead ⟨k, none⟩ rfl)
      | some r' =>
          have hFills : Fills (xs ++ old ++ ⟨k, some r'⟩ :: ys) := by
            rw [List.append_assoc]
            exact h.fills
          have hValid := hFills.validShift
          rw [span_append, ← add_assoc, f.start, f.stop] at hValid
          rw [lays_used] at hYs
          exact ⟨hValid, by rw [hYs.1, usedCell_allocated]⟩

/-- The loop over the free list stops at the last free block before the place. -/
theorem freeLoop_spec {us zs : List Block} {turns : Nat} (hFills : Fills (us ++ xs ++ zs))
    (hLays : Lays page.metas (-1) pageHeadSize (us ++ xs) q)
    (hs : pageHeadSize + span metaSize (us ++ xs) ≤ s) (hq : q = -1 ∨ s < q)
    (hSome : ∃ b, b ∈ xs ∧ b.owner = none) (hTurns : xs.length < turns) :
    freeLoop page s turns (firstFree metaSize (pageHeadSize + span metaSize us) xs q) =
      some (lastFree metaSize (-1) pageHeadSize (us ++ xs)) := by
  induction xs generalizing us turns with
  | nil =>
      obtain ⟨b, hb, -⟩ := hSome
      cases hb
  | cons b xs ih =>
      obtain ⟨n, owner⟩ := b
      have hMove : us ++ ⟨n, owner⟩ :: xs = us ++ [⟨n, owner⟩] ++ xs := by simp
      have hPlace : pageHeadSize + span metaSize (us ++ [⟨n, owner⟩]) =
          pageHeadSize + span metaSize us + (metaSize + n) := by
        rw [span_append, span_mk, span_nil]
        omega
      have hRest := @ih (us ++ [⟨n, owner⟩])
      rw [hPlace, ← hMove] at hRest
      rw [List.length_cons] at hTurns
      cases owner with
      | some r' =>
          rw [firstFree_used]
          apply hRest hFills hLays hs _ (by omega)
          obtain ⟨b, hb, hFree⟩ := hSome
          cases hb with
          | head => cases hFree
          | tail _ hb => exact ⟨b, hb, hFree⟩
      | none =>
          obtain ⟨k, rfl⟩ : ∃ k, turns = k + 1 := ⟨turns - 1, by omega⟩
          rw [List.append_assoc] at hFills
          have hValid := hFills.validShift
          have hCell := (lays_append.mp hLays).2
          rw [lays_free] at hCell
          have hNext : (page.metas (pageHeadSize + span metaSize us)).freeNext =
              firstFree metaSize (pageHeadSize + span metaSize us + (metaSize + n)) xs q := by
            rw [hCell.1, freeCell]
          rw [firstFree_free, freeLoop]
          simp only [PageT.get_eq hValid, Option.bind_eq_bind, Option.bind_some, hNext]
          cases firstFree_cases metaSize (pageHeadSize + span metaSize us + (metaSize + n)) xs with
          | inl hNone =>
              rw [hNone.2, lastFree_append, lastFree_free, lastFree_of_used hNone.1]
              by_cases hq0 : q < 0
              · rw [if_pos hq0]
                rfl
              · rw [if_neg hq0, if_pos (by omega)]
                rfl
          | inr hMore =>
              obtain ⟨vs, m, ws, rfl, hVs, hFirst⟩ := hMore
              have hSized := hFills.sized
              simp only [List.cons_append, sized_append, sized_mk] at hSized
              have hUs : 0 ≤ span metaSize us := span_nonneg (by decide) hSized.1
              have hVsSpan : 0 ≤ span metaSize vs := span_nonneg (by decide) hSized.2.2.1.1
              have hWs : 0 ≤ span metaSize ws := span_nonneg (by decide) hSized.2.2.1.2.2
              have hMeta : (0 : Int) < metaSize ∧ 0 < pageHeadSize := by decide
              simp only [span_append, span_mk] at hs
              rw [hFirst, if_neg (by omega), if_neg (by omega), ← hFirst q]
              apply hRest _ hLays
              · simp only [span_append, span_mk]
                omega
              · exact ⟨⟨m, none⟩, by simp, rfl⟩
              · omega
              · rw [List.append_assoc]
                exact hFills

/-- A released block is not merged when the block behind it is not free. -/
theorem Released.merge_none {v : Int} (hRel : Released page₀ page s n)
    (h : PageRepr page₀ (xs ++ (old ++ ys))) (f : Focus xs old ys v e p q) (hs : ValidShift s)
    (hEnd : s + (metaSize + n) = e) (hSe : s < e) (hHead : UsedHead ys) :
    slabFreeQuickMerge page s 0 = some (-1, page) := by
  have hCellSize : (page.metas s).size = n := by rw [hRel.cell, freeCell]
  apply quickMerge_none hs
  rw [hCellSize, show s + metaSize + n = e by omega]
  intro hInside
  rw [hRel.same e (by omega)]
  exact h.behind f hHead hInside

/-- The free list starts before a released block, or is what follows it. -/
theorem Released.free_eq (hRel : Released page₀ page s n)
    (h : PageRepr page₀ (xs ++ ([⟨n, some r⟩] ++ ys))) (f : Focus xs [⟨n, some r⟩] ys s e p q) :
    page.free = firstFree metaSize pageHeadSize xs q := by
  have hFree := h.free
  rw [firstFree_append, firstFree_append, f.start, f.stop, f.first, firstFree_used,
    firstFree_nil] at hFree
  rw [hRel.free, hFree]

/-- Where `slab_free` links a released block: behind the last free block before it. -/
theorem Released.loop (hRel : Released page₀ page s n)
    (h : PageRepr page₀ (xs ++ ([⟨n, some r⟩] ++ ys))) (f : Focus xs [⟨n, some r⟩] ys s e p q)
    (hSome : ∃ b, b ∈ xs ∧ b.owner = none) :
    0 < page.free ∧ page.free < s ∧ (∀ q', page.free = firstFree metaSize pageHeadSize xs q') ∧
      freeLoop page s 512 page.free = some p := by
  have hSized := h.fills.sized
  have hLength := h.fills.length_lt
  have hStart := f.start
  have hStop := f.stop
  have hMeta : (0 : Int) < metaSize := by decide
  simp only [sized_append, sized_mk] at hSized
  obtain ⟨hXs, ⟨hn, -⟩, -⟩ := hSized
  rw [span_mk, span_nil] at hStop
  have hFree := hRel.free_eq h f
  obtain ⟨hPos, hInside, hAny⟩ := firstFree_inside hXs hSome q
  have hLays : Lays page.metas (-1) pageHeadSize xs q := by
    have hLays := (h.lays_at f).1
    rw [firstFree_used, firstFree_nil] at hLays
    apply hLays.congr hXs
    intro t hLow hHigh
    exact hRel.same t (by omega)
  have hq : q = -1 ∨ s < q := by
    have hFirst := f.firstLe
    omega
  rw [List.length_append] at hLength
  have hSpec := @freeLoop_spec page q s xs [] ([⟨n, some r⟩] ++ ys) 512 h.fills hLays
    (by rw [List.nil_append, f.start]) hq hSome (by omega)
  rw [span_nil, add_zero, List.nil_append, f.last, ← hFree] at hSpec
  exact ⟨by omega, by omega, fun q' => hFree.trans (hAny q'), hSpec⟩

/-- Only the block before is free. -/
theorem pageFree_left {a v : Int} (h : PageRepr page₀ (xs ++ ([⟨a, none⟩, ⟨n, some r⟩] ++ ys)))
    (f : Focus xs [⟨a, none⟩, ⟨n, some r⟩] ys v e p q) (hs : v + (metaSize + a) = s)
    (hRel : Released page₀ page s n) (hHead : UsedHead ys) :
    ∃ page', pageFree page s = some page' ∧
      PageRepr page' (xs ++ ([⟨a + (metaSize + n), none⟩] ++ ys)) := by
  have hSized := h.fills.sized
  have hApart := apart_around.mp h.apart
  have hLast : UsedLast xs := (hApart.2.2 rfl).1
  have hYsApart : Apart ys := ((@apart_around [] ys ⟨n, some r⟩).mp hApart.2.1).2.1
  simp only [sized_append, sized_mk] at hSized
  obtain ⟨-, ⟨ha, hn, -⟩, -⟩ := hSized
  obtain ⟨-, hMid, hEdge⟩ := h.lays_at f
  rw [lays_free, lays_used, firstFree_used, firstFree_nil, hs] at hMid
  rw [lastFree_free, lastFree_used, lastFree_nil] at hEdge
  obtain ⟨hBefore, -, -⟩ := hMid
  have hMeta : (0 : Int) < metaSize := by decide
  have hpv := f.lastLt
  have heq := f.firstLe
  have hStop := f.stop
  rw [span_mk, span_mk, span_nil] at hStop
  have hValidV : ValidShift v := f.validShift h.fills
  -- the same page, read at the released block
  have hHere : PageRepr page₀ (xs ++ [⟨a, none⟩] ++ ([⟨n, some r⟩] ++ ys)) := by
    simpa using h
  obtain ⟨s', e', p', q', f'⟩ := Fills.focus (xs ++ [⟨a, none⟩]) [⟨n, some r⟩] hHere.fills
  have hPlace : s = s' ∧ v = p' := by
    rw [← f'.start, ← f'.last, lastFree_append, lastFree_free, lastFree_nil, span_append, span_mk,
      span_nil, add_zero, ← add_assoc, f.start, hs]
    exact ⟨rfl, rfl⟩
  obtain ⟨rfl, rfl⟩ := hPlace
  have hValidS : ValidShift s := f'.validShift hHere.fills
  have hv0 := validShift_pos hValidV
  have hPrev : page.metas v = freeCell a p q := (hRel.same v (by omega)).trans hBefore
  have hNone := hRel.merge_none h f hValidS (by omega) (by omega) hHead
  obtain ⟨hFreePos, hFreeLt, hFree, hLoop⟩ := hRel.loop hHere f' ⟨⟨a, none⟩, by simp, rfl⟩
  have hPageFree : page.free = firstFree metaSize pageHeadSize xs v := by
    have hStart := hFree q
    rwa [firstFree_append, firstFree_free, f.start] at hStart
  have hMerge := @quickMerge_left page v s n hValidV hValidS
    (by rw [hPrev]; show v + metaSize + a = s; omega) hRel.cell
  have hNew : ({ page.metas v with size := (page.metas v).size + (n + metaSize) } : MetaT) =
      freeCell (a + (metaSize + n)) p q := by
    rw [hPrev, add_comm metaSize n]
    rfl
  rw [hNew] at hMerge
  refine ⟨{ page with metas := Function.update page.metas v (freeCell (a + (metaSize + n)) p q) },
    ?_, ?_⟩
  · simp only [pageFree, hNone, Option.bind_eq_bind, Option.bind_some, hLoop, hMerge,
      if_neg (by omega : ¬ page.free < 0), if_neg (by omega : ¬ s < page.free)]
    rfl
  · show PageRepr { free := page.free, remain := page.remain, metas := _ } _
    rw [hPageFree]
    apply hRel.joined h f (by omega) ⟨by omega, dvd_add ha.2 (dvd_add (by decide) hn.2)⟩
    · simp only [span_mk, span_nil]
      omega
    · exact apart_around.mpr ⟨hApart.1, hYsApart, fun _ => ⟨hLast, hHead⟩⟩
    · exact Function.update_self _ _ _
    · constructor
      · intro hp0
        rw [Function.update_of_ne (by omega)]
        exact hRel.leads h f (by omega) hLast hp0
      · intro hq0
        have hLink := hEdge.prev_first (by rw [f.first]; omega)
        rw [f.first] at hLink
        rw [Function.update_of_ne (by omega), hRel.same q (by omega), ← hLink]
      · intro u hu _ _
        exact Function.update_of_ne (by omega) _ _
    · simp only [room_free, room_used, room_nil]
      omega

/-- Neither neighbour is free, and the block is linked behind the last free one. -/
theorem pageFree_alone (h : PageRepr page₀ (xs ++ ([⟨n, some r⟩] ++ ys)))
    (f : Focus xs [⟨n, some r⟩] ys s e p q) (hRel : Released page₀ page s n)
    (hLast : UsedLast xs) (hHead : UsedHead ys) :
    ∃ page', pageFree page s = some page' ∧ PageRepr page' (xs ++ ([⟨n, none⟩] ++ ys)) := by
  have hSized := h.fills.sized
  have hApart := apart_around.mp h.apart
  have hNewApart : Apart (xs ++ ⟨n, none⟩ :: ys) :=
    apart_around.mpr ⟨hApart.1, hApart.2.1, fun _ => ⟨hLast, hHead⟩⟩
  simp only [sized_append, sized_mk] at hSized
  obtain ⟨-, ⟨hn, -⟩, -⟩ := hSized
  have hMeta : (0 : Int) < metaSize := by decide
  have hps := f.lastLt
  have heq := f.firstLe
  have hStop := f.stop
  rw [span_mk, span_nil] at hStop
  have hs : ValidShift s := f.validShift h.fills
  have hs0 := validShift_pos hs
  have hNone := hRel.merge_none h f hs (by omega) (by omega) hHead
  have hPageFree := hRel.free_eq h f
  -- what is left to show of the page, in each case
  have hFinish : ∀ metas', metas' s = freeCell n p q → Relinked page.metas metas' s p q s s →
      PageRepr { free := firstFree metaSize pageHeadSize xs s, remain := page.remain,
                 metas := metas' } (xs ++ ([⟨n, none⟩] ++ ys)) := by
    intro metas' hSelf hLinks
    apply hRel.joined h f (by omega) hn
    · rw [span_mk, span_nil, add_zero]
    · exact hNewApart
    · exact hSelf
    · exact hLinks.spliced (by omega)
    · rw [room_used, room_nil]
      omega
  cases lastFree_cases metaSize pageHeadSize xs with
  | inl hUsed =>
      have hp : p = -1 := by rw [← f.last, hUsed.2]
      rw [firstFree_of_used hUsed.1] at hPageFree
      rw [firstFree_of_used hUsed.1] at hFinish
      have hLinks : ∀ metas', (0 < q → metas' q = { page.metas q with freePrev := s }) →
          (∀ t, t ≠ s → t ≠ q → metas' t = page.metas t) →
          Relinked page.metas metas' s p q s s := by
        intro metas' hFirst hSame
        exact ⟨fun hp0 => (by omega), hFirst, fun t hts _ htq => hSame t hts htq⟩
      by_cases hq : q = -1
      · have hNew : ({ page.metas s with freePrev := -1, freeNext := -1 } : MetaT) =
            freeCell n p q := by
          rw [hRel.cell, hp, hq]
          rfl
        refine ⟨_, ?_, hFinish (Function.update page.metas s (freeCell n p q))
          (Function.update_self _ _ _) (hLinks _ (fun hq0 => by omega) ?_)⟩
        · simp only [pageFree, hNone, Option.bind_eq_bind, Option.bind_some, PageT.modify_eq hs,
            hNew, if_pos (by omega : page.free < 0)]
          rfl
        · intro t hts _
          rw [Function.update_of_ne hts]
      · have hqv : ValidShift q := link_eq f.linkFirst (by omega)
        have hNew : ({ page.metas s with freePrev := -1, freeNext := q } : MetaT) =
            freeCell n p q := by
          rw [hRel.cell, hp]
          rfl
        refine ⟨_, ?_, hFinish (Function.update (Function.update page.metas s (freeCell n p q)) q
          { page.metas q with freePrev := s }) ?_ (hLinks _ ?_ ?_)⟩
        · simp only [pageFree, hNone, Option.bind_eq_bind, Option.bind_some, hPageFree,
            PageT.modify_eq hs, PageT.modify_eq hqv, hNew, if_neg (by omega : ¬ q < 0),
            if_pos (by omega : s < q), Function.update_of_ne (by omega : q ≠ s)]
          rfl
        · rw [Function.update_of_ne (by omega), Function.update_self]
        · intro _
          exact Function.update_self _ _ _
        · intro t hts htq
          rw [Function.update_of_ne htq, Function.update_of_ne hts]
  | inr hSome =>
      obtain ⟨us, a, vs, rfl, hVs, hPlace⟩ := hSome
      have hp0 : 0 < p := by
        rw [← f.last, hPlace]
        have hFills := h.fills
        rw [List.append_assoc] at hFills
        exact validShift_pos hFills.validShift
      have hpv : ValidShift p := link_eq f.linkLast hp0
      obtain ⟨hGapValid, hGapUsed, hGapLt, hGapNext⟩ := h.gap f hLast hp0
      rw [firstFree_used, firstFree_nil] at hGapNext
      obtain ⟨hFreePos, hFreeLt, hFree, hLoop⟩ := hRel.loop h f ⟨⟨a, none⟩, by simp, rfl⟩
      have hPrevNone : slabFreeQuickMerge page p (-1) = some (-1, page) := by
        apply quickMerge_none hpv
        rw [hRel.same p (by omega)]
        intro _
        rw [hRel.same _ (by omega)]
        exact ⟨hGapValid, hGapUsed⟩
      obtain ⟨metas', hInsert, hSelf, hLinks⟩ := slabFreeInsert_spec hpv hs f.linkFirst hps
        (by omega) ((congrArg MetaT.freeNext (hRel.same p (by omega))).trans hGapNext)
        (congrArg MetaT.freeNext hRel.cell)
      have hNew : metas' s = freeCell n p q := by
        rw [hSelf, hRel.cell]
        rfl
      refine ⟨_, ?_, hFinish metas' hNew hLinks⟩
      simp only [pageFree, hNone, Option.bind_eq_bind, Option.bind_some, hLoop, hPrevNone,
        if_neg (by omega : ¬ page.free < 0), if_neg (by omega : ¬ s < page.free), hInsert,
        ← hFree]
      rfl

/-- `slab_free` on a page joins the block with its free neighbours. -/
theorem pageFree_spec (h : PageRepr page₀ (xs ++ ⟨n, some r⟩ :: ys))
    (hRel : Released page₀ page (pageHeadSize + span metaSize xs) n) :
    ∃ page' zs, pageFree page (pageHeadSize + span metaSize xs) = some page' ∧
      PageRepr page' zs ∧ Coalesced metaSize xs n ys zs := by
  have hApart := apart_around.mp h.apart
  obtain ⟨s, hs⟩ : ∃ s, pageHeadSize + span metaSize xs = s := ⟨_, rfl⟩
  rw [hs] at hRel ⊢
  -- the last block before it, if that is free
  have hBefore : UsedLast xs ∨ ∃ us a, xs = us ++ [⟨a, none⟩] := by
    cases List.eq_nil_or_concat xs with
    | inl hNil =>
        subst hNil
        exact Or.inl usedLast_nil
    | inr hConcat =>
        obtain ⟨us, ⟨a, owner⟩, rfl⟩ := hConcat
        cases owner with
        | none => exact Or.inr ⟨us, a, by simp⟩
        | some r' =>
            left
            rw [List.concat_eq_append]
            exact usedLast_append (by simp) (by simp)
  have hBehind : UsedHead ys ∨ ∃ c vs, ys = ⟨c, none⟩ :: vs := by
    cases ys with
    | nil => exact Or.inl usedHead_nil
    | cons b vs =>
        obtain ⟨c, owner⟩ := b
        cases owner with
        | none => exact Or.inr ⟨c, vs, rfl⟩
        | some r' => exact Or.inl (usedHead_cons c r')
  have hPlace : ∀ us (a : Int), xs = us ++ [⟨a, none⟩] → ∀ v, pageHeadSize + span metaSize us = v →
      v + (metaSize + a) = s := by
    intro us a hXs v hv
    rw [← hs, ← hv, hXs, span_append, span_mk, span_nil]
    omega
  cases hBefore with
  | inl hLast =>
      cases hBehind with
      | inl hHead =>
          obtain ⟨s', e, p, q, f⟩ := Fills.focus xs [⟨n, some r⟩] h.fills
          obtain rfl : s' = s := f.start.symm.trans hs
          obtain ⟨page', hFree, hRepr⟩ := pageFree_alone h f hRel hLast hHead
          exact ⟨page', _, hFree, hRepr, Coalesced.alone hLast hHead⟩
      | inr hFreeHead =>
          obtain ⟨c, vs, rfl⟩ := hFreeHead
          obtain ⟨s', e, p, q, f⟩ :=
            Fills.focus xs [⟨n, some r⟩, ⟨c, none⟩] h.fills
          obtain rfl : s' = s := f.start.symm.trans hs
          obtain ⟨page', hFree, hRepr⟩ := pageFree_right h f hRel hLast
          exact ⟨page', _, hFree, hRepr, Coalesced.right hLast⟩
  | inr hFreeLast =>
      obtain ⟨us, a, rfl⟩ := hFreeLast
      rw [List.append_assoc] at h
      cases hBehind with
      | inl hHead =>
          obtain ⟨v, e, p, q, f⟩ :=
            Fills.focus us [⟨a, none⟩, ⟨n, some r⟩] h.fills
          obtain ⟨page', hFree, hRepr⟩ :=
            pageFree_left h f (hPlace us a rfl v f.start) hRel hHead
          exact ⟨page', _, hFree, hRepr, Coalesced.left hHead⟩
      | inr hFreeHead =>
          obtain ⟨c, vs, rfl⟩ := hFreeHead
          obtain ⟨v, e, p, q, f⟩ :=
            Fills.focus us [⟨a, none⟩, ⟨n, some r⟩, ⟨c, none⟩] h.fills
          obtain ⟨page', hFree, hRepr⟩ := pageFree_both h f (hPlace us a rfl v f.start) hRel
          exact ⟨page', _, hFree, hRepr, Coalesced.both⟩

end

end

end Gbase.Mm.Slab
