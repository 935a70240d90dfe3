import Gbase.Mm.SlabRuns
import Mathlib.Algebra.Group.Int.Defs
import Mathlib.Algebra.Group.Nat.Defs

/-!
# The lists of full pages

A page whose room is used up, up to the largest request of its list, is moved to a list that no
allocation looks at, and a release moves it back to the list for the size of the block.  An exact
fit can make a block up to 8 bytes larger than the largest request; there is no list for such a
block, so its release leaves the page where it is, with room that is not offered any more.

## Main results

* `Offered.allocIn`: an allocation parks a page only when its room is used up.
* `Freed.offered_iff`: what a release leaves on the lists of full pages.
* `slab_offered_iff`: along a run no page with room is on a list of full pages if and only if no
  block larger than every request is given back to a page that stays on one.
-/

namespace Gbase.Mm.Slab

open Gbase.Core.OsDef
open Gbase.Lib.Run

/-! ## Pages on the lists -/

/-- What the pages on a list of full pages have less than. -/
def threshold : Head → Option Nat
  | .slabMinor => none
  | .slabCommon => none
  | .allocSlabMinor => some slabSizeMinor
  | .allocSlabCommon => some slabSizeMax

/-- The room of the pages on the lists of full pages is used up. -/
def Offered (slab : SlabT) : Prop :=
  ∀ head limit number page, threshold head = some limit → number ∈ slab.lists head →
    slab.pages number = some page → page.remain < limit

/-- The pages are filed: each of them is on exactly one of the four lists, and those on the lists
of full pages are full. -/
structure Filed (slab : SlabT) : Prop where
  offered : Offered slab
  once : ∀ number, (slab.pages number).isSome → ∃ head, (slab.lists head).count number = 1 ∧
    ∀ other, other ≠ head → number ∉ slab.lists other
  pages : ∀ head number, number ∈ slab.lists head → (slab.pages number).isSome

section Lists

variable {slab slab' slab₁ : SlabT} {number memory sz : Nat} {page page' : PageT} {head : Head}

theorem Linked.filed (h : Linked slab) (hOffered : Offered slab) : Filed slab := by
  refine ⟨hOffered, ?_, fun head number hIn => (h.pages number).mp ⟨head, hIn⟩⟩
  intro number hPage
  obtain ⟨head, hIn⟩ := (h.pages number).mpr hPage
  refine ⟨head, by rw [(h.nodup head).count, if_pos hIn], ?_⟩
  intro other hNe hOther
  exact hNe (h.once other head number hOther hIn)

/-- A page may go to a list of full pages when it is full, and to another list at any time. -/
theorem Offered.move (h : Offered slab)
    (hRoom : ∀ limit page, threshold head = some limit → slab.pages number = some page →
      page.remain < limit) :
    Offered (listAdd (without slab number) number head) := by
  intro a limit other page hLimit hIn hPage
  rw [mem_listAdd, mem_without] at hIn
  rcases hIn with ⟨rfl, rfl⟩ | ⟨hOld, -⟩
  · exact hRoom limit page hLimit hPage
  · exact h a limit other page hLimit hOld hPage

/-- A page on no list of full pages may change at any time. -/
theorem Offered.setPage (h : Offered slab)
    (hRoom : ∀ a limit, threshold a = some limit → number ∈ slab.lists a → page.remain < limit) :
    Offered (slab.setPage number page) := by
  intro a limit other page' hLimit hIn hPage
  by_cases hOther : other = number
  · subst hOther
    simp only [SlabT.setPage, Function.update_self] at hPage
    cases hPage
    exact hRoom a limit hLimit hIn
  · simp only [SlabT.setPage, Function.update_of_ne hOther] at hPage
    exact h a limit other page' hLimit hIn hPage

/-- A page may go back at any time. -/
theorem Offered.remove (h : Offered slab) :
    Offered { without slab number with pages := Function.update slab.pages number none } := by
  intro a limit other page hLimit hIn hPage
  have hOld := mem_without.mp hIn
  simp only [Function.update_of_ne hOld.2] at hPage
  exact h a limit other page hLimit hOld.1 hPage

/-- `_slab_page_erase` -/
theorem Offered.erase (h : Offered slab) (hLinked : Linked slab)
    (hPage : slab.pages number = some page)
    (hErase : slabPageErase slab number page head = some slab') : Offered slab' := by
  have hDel : listDel slab number = some (without slab number) :=
    hLinked.listDel_eq (by rw [hPage]; rfl)
  have hMove : ∀ a limit, threshold a = some limit → page.remain < (limit : Int) →
      Offered (listAdd (without slab number) number a) := by
    intro a limit hLimit hFull
    apply h.move
    intro limit' page' hLimit' hPage'
    rw [hLimit] at hLimit'
    rw [hPage] at hPage'
    cases hLimit'
    cases hPage'
    exact hFull
  cases head with
  | slabMinor =>
      rw [slabPageErase] at hErase
      split at hErase
      · next hFull =>
          rw [hDel] at hErase
          cases hErase
          exact hMove .allocSlabMinor slabSizeMinor rfl hFull
      · cases hErase
        exact h
  | slabCommon =>
      rw [slabPageErase] at hErase
      split at hErase
      · next hFull =>
          rw [hDel] at hErase
          cases hErase
          exact hMove .allocSlabCommon slabSizeMax rfl hFull
      · cases hErase
        exact h
  | allocSlabMinor =>
      cases hErase
      exact h
  | allocSlabCommon =>
      cases hErase
      exact h

/-- `_slab_alloc` parks a page only when its room is used up. -/
theorem Offered.allocIn (h : Offered slab) (hLinked : Linked slab) (hIn : number ∈ slab.lists head)
    (hHead : threshold head = none) {result : Option Nat}
    (hAlloc : slabAllocIn slab number head sz = some (result, slab')) : Offered slab' := by
  rw [slabAllocIn, Option.bind_eq_bind, Option.bind_eq_some_iff] at hAlloc
  obtain ⟨page, hPage, hAlloc⟩ := hAlloc
  rw [Option.bind_eq_bind, Option.bind_eq_some_iff] at hAlloc
  obtain ⟨⟨taken, page'⟩, -, hAlloc⟩ := hAlloc
  have hSome : (slab.pages number).isSome := by rw [hPage]; rfl
  have hSet : Offered (slab.setPage number page') := by
    apply h.setPage
    intro a limit hLimit hThere
    obtain rfl := hLinked.once a head number hThere hIn
    rw [hHead] at hLimit
    cases hLimit
  cases taken with
  | none =>
      cases hAlloc
      exact hSet
  | some shift =>
      simp only [Option.bind_eq_bind, Option.bind_eq_some_iff] at hAlloc
      obtain ⟨slab₂, hErase, hEnd⟩ := hAlloc
      cases hEnd
      exact hSet.erase (hLinked.setPage hSome) (Function.update_self _ _ _) hErase

/-- The lists that allocations look at. -/
theorem threshold_freePage (hHead : slabFreePage sz = some head) : threshold head = none := by
  rw [slabFreePage] at hHead
  split at hHead
  · cases hHead
    rfl
  · split at hHead
    · cases hHead
      rfl
    · cases hHead

/-- A new page is offered. -/
theorem Offered.offers (h : Offered slab) (hLinked : Linked slab) (hHead : threshold head = none)
    (hOffers : Offers slab slab₁ head) : Offered slab₁ := by
  rcases hOffers with rfl | ⟨number, page, hNone, rfl⟩
  · exact h
  · intro a limit other page' hLimit hIn hPage
    rcases mem_listAdd.mp hIn with ⟨rfl, -⟩ | hOld
    · rw [hHead] at hLimit
      cases hLimit
    · have hThere : (slab.pages other).isSome := (hLinked.pages other).mp ⟨a, hOld⟩
      have hOther : other ≠ number := by
        rintro rfl
        rw [hNone] at hThere
        cases hThere
      have hSame : (slab.setPage number page).pages other = slab.pages other :=
        Function.update_of_ne hOther _ _
      exact h a limit other page' hLimit hOld (hSame.symm.trans hPage)

/-! ## Releases -/

/-- The release offers the memory again: there is a list for the size of the block, or the page is
not on a list of full pages, or it has no other block. -/
def Unparks (slab : SlabT) (memory : Nat) : Prop :=
  payloadSize slab memory ≤ slabSizeMax ∨
    (∀ head, (threshold head).isSome →
      (memory - metaSize.toNat) / pageSize.toNat ∉ slab.lists head) ∨
    ∀ page, slab.pages ((memory - metaSize.toNat) / pageSize.toNat) = some page →
      page.remain + (metaSize + payloadSize slab memory) + pageHeadSize = pageSize

/-- `_slab_page_insert` moves the page to a list that is offered, if there is one for the size. -/
theorem slabPageInsert_cases {n : Int} (hLinked : Linked slab)
    (hPage : (slab.pages number).isSome) (hLow : 0 ≤ n) (hHigh : n ≤ pageSize)
    (hInsert : slabPageInsert slab number (usedCell n) = some slab₁) :
    (n ≤ slabSizeMax ∧ ∃ head, threshold head = none ∧
        slab₁ = listAdd (without slab number) number head) ∨
      slabSizeMax < n ∧ slab₁ = slab := by
  have hSize : toSize n = n.toNat := by
    simp only [pageSize] at hHigh
    rw [toSize]
    omega
  rw [slabPageInsert, usedCell, hSize] at hInsert
  have hMinor : slabSizeMinor ≤ slabSizeMax := by decide
  cases hHead : slabFreePage n.toNat with
  | some head =>
      left
      rw [hHead] at hInsert
      simp only [hLinked.listDel_eq hPage, Option.map_some, Option.some.injEq] at hInsert
      refine ⟨?_, head, threshold_freePage hHead, hInsert.symm⟩
      rw [slabFreePage] at hHead
      split at hHead
      · omega
      · split at hHead
        · omega
        · cases hHead
  | none =>
      right
      rw [hHead] at hInsert
      cases hInsert
      refine ⟨?_, rfl⟩
      rw [slabFreePage] at hHead
      split at hHead
      · cases hHead
      · split at hHead
        · cases hHead
        · omega

/-- After a release the pages on the lists of full pages are full exactly if it offers the
memory. -/
theorem Freed.offered_iff (h : Freed slab slab' slab₁ memory number page page')
    (hLinked : Linked slab) (hOffered : Offered slab) :
    Offered slab' ↔ Unparks slab memory := by
  have hPage := h.inPage
  have hSome : (slab.pages number).isSome := by rw [hPage]; rfl
  have hResult := h.result
  rcases slabPageInsert_cases hLinked hSome h.low h.high h.insert with
    ⟨hSmall, head, hHead, hMoved⟩ | ⟨hLarge, hSame⟩
  · refine iff_of_true ?_ (Or.inl hSmall)
    have hOffered₁ : Offered slab₁ := by
      rw [hMoved]
      apply hOffered.move
      intro limit _ hLimit
      rw [hHead] at hLimit
      cases hLimit
    have hFree : ∀ a limit, threshold a = some limit → number ∉ slab₁.lists a := by
      intro a limit hLimit hIn
      rw [hMoved, mem_listAdd, mem_without] at hIn
      rcases hIn with ⟨rfl, -⟩ | ⟨-, hNe⟩
      · rw [hHead] at hLimit
        cases hLimit
      · exact hNe rfl
    rw [hResult]
    split
    · exact hOffered₁.remove
    · apply hOffered₁.setPage
      intro a limit hLimit hIn
      exact absurd hIn (hFree a limit hLimit)
  · have hRemain := h.remain
    have hRoom := h.room
    have hNumber := h.eq
    rw [hSame] at hResult
    by_cases hEmpty : page'.remain + pageHeadSize = pageSize
    · rw [if_pos hEmpty] at hResult
      refine iff_of_true ?_ (Or.inr (Or.inr ?_))
      · rw [hResult]
        exact hOffered.remove
      · intro page₂ hPage₂
        rw [← hNumber, hPage] at hPage₂
        cases hPage₂
        rw [← hRemain]
        exact hEmpty
    · rw [if_neg hEmpty] at hResult
      have hMinor : slabSizeMinor ≤ slabSizeMax := by decide
      have hLimits : ∀ {a limit}, threshold a = some limit → limit ≤ slabSizeMax := by
        intro a limit hLimit
        cases a <;> cases hLimit
        · exact hMinor
        · exact Nat.le_refl _
      rw [hResult]
      constructor
      · intro hAfter
        refine Or.inr (Or.inl ?_)
        intro a hFull hIn
        obtain ⟨limit, hLimit⟩ := Option.isSome_iff_exists.mp hFull
        rw [← hNumber] at hIn
        have hLess := hAfter a limit number page' hLimit hIn (Function.update_self _ _ _)
        have hLe := hLimits hLimit
        simp only [metaSize] at hRemain
        omega
      · rintro (hSmall | hApart | hWhole)
        · omega
        · apply hOffered.setPage
          intro a limit hLimit hIn
          rw [hNumber] at hIn
          exact absurd hIn (hApart a (by rw [hLimit]; rfl))
        · rw [← hNumber] at hWhole
          have hAll := hWhole page hPage
          rw [← hRemain] at hAll
          exact absurd hAll hEmpty

end Lists

/-! ## Runs -/

/-- Allocations of any size with new pages that are not in use, releases of live pointers, and
writes that start inside of a live block. -/
def AnySize (s : State) : SlabOp → Prop
  | .alloc _ fresh => ∀ answer, answer ∈ fresh → (s.slab.pages answer.1).isNone
  | .free memory => memory ∈ s.live.map Prod.fst
  | .write memory unit _ =>
      memory ∈ s.live.map Prod.fst ∧ 8 * (unit : Int) < payloadSize s.slab memory

instance (s : State) : ∀ op, Decidable (AnySize s op)
  | .alloc _ fresh =>
      inferInstanceAs (Decidable (∀ answer, answer ∈ fresh → (s.slab.pages answer.1).isNone))
  | .free memory => inferInstanceAs (Decidable (memory ∈ s.live.map Prod.fst))
  | .write memory unit _ =>
      inferInstanceAs (Decidable (memory ∈ s.live.map Prod.fst ∧
        8 * (unit : Int) < payloadSize s.slab memory))

/-- Every release offers the memory again. -/
def UnparksOp (s : State) : SlabOp → Prop
  | .free memory => Unparks s.slab memory
  | _ => True

/-- The invariant of the runs, for some sizes of the live blocks: a size close to `2 ^ 64` wraps
around, so that the block is smaller than what was asked for. -/
def Tracked (s : State) : Prop :=
  ∃ live, live.map Prod.fst = s.live.map Prod.fst ∧ Inv ⟨s.slab, live⟩

section Runs

variable {s : State}

theorem dvd_slabAlign (sz : Nat) : 8 ∣ slabAlign sz := by
  rw [slabAlign, Nat.shiftLeft_eq]
  omega

/-- `slab_alloc` of any size. -/
theorem Tracked.alloc (h : Tracked s) {sz : Nat} {fresh : Option (Nat × (Int → MetaT))}
    (hOp : AnySize s (.alloc sz fresh)) :
    ∃ result s', slabStep s (.alloc sz fresh) = some (result, s') ∧ Tracked s' ∧
      (Offered s.slab → Offered s'.slab) := by
  obtain ⟨slab, live⟩ := s
  obtain ⟨live', hPtrs, hInv⟩ := h
  have hSame : slabAlloc slab sz fresh = some (none, slab) →
      ∃ result s', slabStep ⟨slab, live⟩ (.alloc sz fresh) = some (result, s') ∧ Tracked s' ∧
        (Offered slab → Offered s'.slab) := by
    intro hNone
    refine ⟨none, ⟨slab, live⟩, ?_, ⟨live', hPtrs, hInv⟩, id⟩
    simp only [slabStep, hNone]
    rfl
  by_cases hZero : sz = 0
  · exact hSame (if_pos hZero)
  · cases hHead : slabFreePage (slabAlign sz) with
    | none =>
        apply hSame
        simp only [slabAlloc, if_neg hZero, hHead]
    | some head =>
        rcases slabAlloc_spec hInv hZero hHead (dvd_slabAlign sz) (Nat.le_refl _) hOp with
          ⟨-, hNone⟩ | ⟨memory, slab', hAlloc, hInv', slab₀, number, hOffers, hLinked₀, hIn, hRun⟩
        · exact hSame hNone
        · refine ⟨some memory, ⟨slab', (memory, sz) :: live⟩, ?_, ⟨_, ?_, hInv'⟩, ?_⟩
          · simp only [slabStep, hAlloc]
            rfl
          · exact congrArg (memory :: ·) hPtrs
          · intro hOffered
            have hLook := threshold_freePage hHead
            exact (hOffered.offers hInv.linked hLook hOffers).allocIn hLinked₀ hIn hLook hRun

/-- `slab_free` of a live pointer. -/
theorem Tracked.free (h : Tracked s) {memory : Nat} (hOp : AnySize s (.free memory)) :
    ∃ result s', slabStep s (.free memory) = some (result, s') ∧ Tracked s' ∧
      (Offered s.slab → (Offered s'.slab ↔ Unparks s.slab memory)) := by
  obtain ⟨slab, live⟩ := s
  obtain ⟨live', hPtrs, hInv⟩ := h
  have hLive : memory ∈ live'.map Prod.fst := by
    rw [hPtrs]
    exact hOp
  obtain ⟨slab', hFree, hInv', slab₁, number, page, page', hFreed⟩ := slabFree_spec hInv hLive
  refine ⟨none, ⟨slab', live.filter fun b => b.1 ≠ memory⟩, ?_, ⟨_, ?_, hInv'⟩,
    hFreed.offered_iff hInv.linked⟩
  · simp only [slabStep, hFree]
    rfl
  · have hFilter : ∀ l : List (Nat × Nat), (l.filter fun b => b.1 ≠ memory).map Prod.fst =
        (l.map Prod.fst).filter fun p => p ≠ memory := by
      intro l
      rw [List.filter_map]
      rfl
    rw [hFilter, hFilter, hPtrs]

/-- An owner that writes changes no list and no room. -/
theorem Tracked.write (h : Tracked s) {memory unit : Nat} {value : MetaT}
    (hOp : AnySize s (.write memory unit value)) :
    ∃ result s', slabStep s (.write memory unit value) = some (result, s') ∧ Tracked s' ∧
      (Offered s.slab → Offered s'.slab) := by
  obtain ⟨slab, live⟩ := s
  obtain ⟨live', hPtrs, hInv⟩ := h
  have hLive : memory ∈ live'.map Prod.fst := by
    rw [hPtrs]
    exact hOp.1
  obtain ⟨slab', hStep, hInv'⟩ := @write_inv slab memory live' unit value hInv hLive hOp.2
  simp only [slabStep, Option.bind_eq_bind, Option.bind_eq_some_iff] at hStep
  obtain ⟨page, hPage, page', hModify, hEnd⟩ := hStep
  have hSlab : slab.setPage ((memory + 8 * unit) / pageSize.toNat) page' = slab' :=
    congrArg State.slab (Prod.mk.inj (Option.some.inj hEnd)).2
  refine ⟨none, ⟨slab', live⟩, ?_, ⟨live', hPtrs, hInv'⟩, ?_⟩
  · simp only [slabStep, hPage, Option.bind_eq_bind, Option.bind_some, hModify, hSlab]
    rfl
  · intro hOffered
    rw [← hSlab]
    apply hOffered.setPage
    intro a limit hLimit hIn
    have hRemain : page'.remain = page.remain := by
      rw [PageT.modify] at hModify
      split at hModify
      · cases hModify
        rfl
      · cases hModify
    rw [hRemain]
    exact hOffered a limit _ page hLimit hIn hPage

/-- One call: it returns, and the pages stay in order exactly if a release offers its memory
again. -/
theorem Tracked.step (h : Tracked s) {op : SlabOp} (hOp : AnySize s op) :
    ∃ result s', slabStep s op = some (result, s') ∧ Tracked s' ∧
      (Offered s.slab → (Filed s'.slab ↔ UnparksOp s op)) := by
  have hFiled : ∀ {s' : State}, Tracked s' → (Filed s'.slab ↔ Offered s'.slab) := by
    rintro s' ⟨live', -, hInv⟩
    exact ⟨fun hFiled => hFiled.offered, hInv.linked.filed⟩
  cases op with
  | alloc sz fresh =>
      obtain ⟨result, s', hStep, hTracked, hOffered'⟩ := h.alloc hOp
      exact ⟨result, s', hStep, hTracked, fun hOffered =>
        iff_of_true ((hFiled hTracked).mpr (hOffered' hOffered)) trivial⟩
  | free memory =>
      obtain ⟨result, s', hStep, hTracked, hIff⟩ := h.free hOp
      exact ⟨result, s', hStep, hTracked, fun hOffered =>
        (hFiled hTracked).trans (hIff hOffered)⟩
  | write memory unit value =>
      obtain ⟨result, s', hStep, hTracked, hOffered'⟩ := h.write hOp
      exact ⟨result, s', hStep, hTracked, fun hOffered =>
        iff_of_true ((hFiled hTracked).mpr (hOffered' hOffered)) trivial⟩

theorem tracked_init : Tracked ⟨slabInit, []⟩ := ⟨[], rfl, inv_init⟩

/-- Along a run each page is on exactly one list, and on a list of full pages only when its room
is used up, if and only if every release of a block that is larger than every request is on a page
that is not on a list of full pages, or has no other block. -/
theorem slab_offered_iff {ops : List SlabOp} (hOps : Along slabStep AnySize ⟨slabInit, []⟩ ops) :
    Along slabStep (Does slabStep fun _ _ _ s' => Filed s'.slab) ⟨slabInit, []⟩ ops ↔
      Along slabStep UnparksOp ⟨slabInit, []⟩ ops := by
  have hIff : ∀ s op, Tracked s ∧ Offered s.slab → AnySize s op →
      (Does slabStep (fun _ _ _ s' => Filed s'.slab) s op ↔ UnparksOp s op) := by
    intro s op hInv hOp
    obtain ⟨result, s', hStep, -, hFiled⟩ := hInv.1.step hOp
    exact (does_iff hStep).trans (hFiled hInv.2)
  have hKeep : ∀ s op result s', Tracked s ∧ Offered s.slab → AnySize s op →
      Does slabStep (fun _ _ _ s' => Filed s'.slab) s op → slabStep s op = some (result, s') →
      Tracked s' ∧ Offered s'.slab := by
    intro s op result s' hInv hOp hGood hStep
    have hFiled : Filed s'.slab := (does_iff hStep).mp hGood
    obtain ⟨result₁, s₁, hStep₁, hTracked, -⟩ := hInv.1.step hOp
    rw [hStep] at hStep₁
    cases hStep₁
    exact ⟨hTracked, hFiled.offered⟩
  have hStart : Tracked ⟨slabInit, []⟩ ∧ Offered slabInit := by
    refine ⟨tracked_init, ?_⟩
    intro head limit number page _ hIn
    cases hIn
  exact along_iff_of_inv (fun s => Tracked s ∧ Offered s.slab) hIff hKeep hStart hOps

/-- A page that is filled and gets one of its blocks back. -/
theorem slab_offered_refill :
    Along slabStep (Does slabStep fun _ _ _ s' => Filed s'.slab) ⟨slabInit, []⟩
        [.alloc 1024 (some (1, dirtyPage)), .alloc 1024 none, .alloc 1024 none, .free 4128] ↔
      Along slabStep UnparksOp ⟨slabInit, []⟩
        [.alloc 1024 (some (1, dirtyPage)), .alloc 1024 none, .alloc 1024 none, .free 4128] :=
  slab_offered_iff (by decide)

/-- The last block is an exact fit of 1032 bytes, which fills the page and comes back. -/
def refilled : List SlabOp :=
  [.alloc 1024 (some (1, dirtyPage)), .alloc 1024 none, .alloc 960 none, .alloc 1024 none,
    .free 7160]

/-- The page has 1040 bytes of room and stays on the list of full pages. -/
theorem slab_offered_parks :
    Along slabStep AnySize ⟨slabInit, []⟩ refilled ∧
      ¬ Along slabStep (Does slabStep fun _ _ _ s' => Filed s'.slab) ⟨slabInit, []⟩ refilled := by
  refine ⟨by decide, ?_⟩
  intro hAlong
  have hRun : (run slabStep ⟨slabInit, []⟩ refilled).isSome := by decide
  obtain ⟨⟨results, last⟩, hLast⟩ := Option.isSome_iff_exists.mp hRun
  obtain ⟨_, _, hFiled⟩ := last_of_along hAlong hLast
  have hParked : (run slabStep ⟨slabInit, []⟩ refilled).map
      (fun r => decide (1 ∈ r.2.slab.lists .allocSlabCommon)) = some true := by decide
  have hRoom : (run slabStep ⟨slabInit, []⟩ refilled).map
      (fun r => (r.2.slab.pages 1).map PageT.remain) = some (some 1040) := by decide
  rw [hLast] at hParked hRoom
  obtain ⟨page, hPage, hRemain⟩ := Option.map_eq_some_iff.mp (Option.some.inj hRoom)
  have hIn : 1 ∈ last.slab.lists .allocSlabCommon :=
    of_decide_eq_true (Option.some.inj hParked)
  have hLess := hFiled.offered .allocSlabCommon slabSizeMax 1 page rfl hIn hPage
  rw [hRemain] at hLess
  exact absurd hLess (by decide)

end Runs

end Gbase.Mm.Slab
