import Gbase.Lib.Run
import Gbase.Mm.SlabOps

/-!
# Runs of the slab allocator

A run keeps, next to the allocator, the pointers that were handed out and not given back, with
the sizes that were asked for.  Between the calls an owner may write to its own memory, in
which the allocator keeps nothing.

## Main results

* `slab_run_sound`: after every call each page is tiled by blocks, its free list is in order
  and complete, no two free blocks are neighbours, its remaining size is right and it has an
  owner; the live blocks are disjoint, aligned and large enough, and no call is undefined.
-/

namespace Gbase.Mm.Slab

open Gbase.Core.OsDef
open Gbase.Lib.BlockList
open Gbase.Lib.Run

/-! ## Calls -/

/-- The allocator, and the live pointers with the sizes asked for. -/
structure State where
  slab : SlabT
  live : List (Nat × Nat)

/-- A call with the answer of `posix_memalign`, or an owner that writes `value` to the unit of 8
bytes number `unit` of its memory. -/
inductive SlabOp where
  | alloc (sz : Nat) (fresh : Option (Nat × (Int → MetaT)))
  | free (memory : Nat)
  | write (memory unit : Nat) (value : MetaT)

/-- One call, with the pointer it returns. -/
def slabStep : Step State SlabOp (Option Nat)
  | s, .alloc sz fresh => do
      let (memory, slab) ← slabAlloc s.slab sz fresh
      match memory with
      | some memory => return (some memory, ⟨slab, (memory, sz) :: s.live⟩)
      | none => return (none, ⟨slab, s.live⟩)
  | s, .free memory => do
      let slab ← slabFree s.slab (some memory)
      return (none, ⟨slab, s.live.filter fun b => b.1 ≠ memory⟩)
  | s, .write memory unit value => do
      let number := (memory + 8 * unit) / pageSize.toNat
      let shift : Int := ((memory + 8 * unit) % pageSize.toNat : Nat)
      let page ← s.slab.pages number
      let page ← page.modify shift fun _ => value
      return (none, ⟨s.slab.setPage number page, s.live⟩)

/-- Sizes from 1 to `SLAB_SIZE_MAX`, new pages that are not in use, live pointers, and writes
that start below the size that was asked for. -/
def Legal (s : State) : SlabOp → Prop
  | .alloc sz fresh => 1 ≤ sz ∧ sz ≤ slabSizeMax ∧
      ∀ answer, answer ∈ fresh → (s.slab.pages answer.1).isNone
  | .free memory => memory ∈ s.live.map Prod.fst
  | .write memory unit _ => ∃ b, b ∈ s.live ∧ b.1 = memory ∧ 8 * unit < b.2

instance (s : State) (op : SlabOp) : Decidable (Legal s op) := by
  unfold Legal
  split <;> infer_instance

/-! ## What holds after a call -/

/-- The blocks at `starts` go from one to the next, from the first to the end of the page. -/
def Walk (metas : Int → MetaT) : Int → List Int → Prop
  | s, [] => s = pageSize
  | s, t :: ts => t = s ∧ 0 ≤ (metas t).size ∧ Walk metas (t + (metaSize + (metas t).size)) ts

/-- The list that starts at `first`, behind `prev`, linked in both directions. -/
def FreeList (metas : Int → MetaT) : Int → Int → List Int → Prop
  | _, first, [] => first = -1
  | prev, first, t :: ts =>
      first = t ∧ (metas t).freePrev = prev ∧ FreeList metas t (metas t).freeNext ts

/-- The blocks of a page. -/
structure PageSound (page : PageT) (starts : List Int) : Prop where
  tiles : Walk page.metas pageHeadSize starts
  freeList : ∃ frees, FreeList page.metas (-1) page.free frees ∧ frees.Pairwise (· < ·) ∧
    frees = starts.filter fun t => ¬ (page.metas t).allocated
  apart : starts.IsChain fun a b => (page.metas a).allocated ∨ (page.metas b).allocated
  remain : page.remain = ((starts.filter fun t => ¬ (page.metas t).allocated).map
    fun t => metaSize + (page.metas t).size).sum
  owner : ∃ t, t ∈ starts ∧ (page.metas t).allocated

/-- The size of the payload at a pointer, in the meta before it. -/
def payloadSize (slab : SlabT) (memory : Nat) : Int :=
  match slab.pages ((memory - metaSize.toNat) / pageSize.toNat) with
  | some page => (page.metas ((memory - metaSize.toNat) % pageSize.toNat : Nat)).size
  | none => 0

/-- The payload at a pointer does not overlap the bytes from `low` to `high`. -/
def Clear (slab : SlabT) (memory : Nat) (low high : Int) : Prop :=
  memory + payloadSize slab memory ≤ low ∨ high ≤ memory

/-- All pages are in order, and so are the live blocks. -/
structure Sound (s : State) : Prop where
  pages : ∀ number page, s.slab.pages number = some page → ∃ starts, PageSound page starts ∧
    (∀ t, t ∈ starts → (page.metas t).allocated → metaMem number t ∈ s.live.map Prod.fst) ∧
    ∀ memory, memory ∈ s.live.map Prod.fst →
      Clear s.slab memory (number * pageSize) (number * pageSize + pageHeadSize) ∧
      ∀ t, t ∈ starts →
        Clear s.slab memory (number * pageSize + t) (number * pageSize + t + metaSize)
  live : ∀ memory sz, (memory, sz) ∈ s.live →
    (∃ number page t, s.slab.pages number = some page ∧ memory = metaMem number t ∧
      (page.metas t).allocated) ∧
    memory % 8 = 0 ∧ sz ≤ payloadSize s.slab memory
  disjoint : s.live.Pairwise fun a b =>
    Clear s.slab a.1 b.1 (b.1 + payloadSize s.slab b.1)
  released : s.live = [] → ∀ number, s.slab.pages number = none

/-! ## A page that holds blocks is sound -/

section

variable {metas : Int → MetaT} {page : PageT} {p q s t n : Int} {bs : List Block} {b : Block}

private theorem size_at (h : Lays metas p s bs q) (hIn : (t, b) ∈ placed metaSize s bs) :
    (metas t).size = b.size := by
  obtain ⟨xs, ys, rfl, rfl⟩ := exists_of_placed hIn
  obtain ⟨n, owner⟩ := b
  have hRest := (lays_append.mp h).2
  cases owner with
  | none => rw [hRest.1, freeCell]
  | some r => rw [hRest.1, usedCell]

theorem allocated_at (h : Lays metas p s bs q) (hIn : (t, b) ∈ placed metaSize s bs) :
    (metas t).allocated = true ↔ b.owner ≠ none := by
  obtain ⟨xs, ys, rfl, rfl⟩ := exists_of_placed hIn
  obtain ⟨n, owner⟩ := b
  have hRest := (lays_append.mp h).2
  cases owner with
  | none => simp [hRest.1]
  | some r => simp [hRest.1]

/-- The free ones among the blocks. -/
theorem frees_cons {owner : Option Nat} :
    (((placed metaSize s (⟨n, owner⟩ :: bs)).map Prod.fst).filter fun t => ¬ (metas t).allocated) =
      if (metas s).allocated then
        ((placed metaSize (s + (metaSize + n)) bs).map Prod.fst).filter
          fun t => ¬ (metas t).allocated
      else s :: ((placed metaSize (s + (metaSize + n)) bs).map Prod.fst).filter
        fun t => ¬ (metas t).allocated := by
  rw [placed_cons, List.map_cons, List.filter_cons]
  cases (metas s).allocated <;> simp

private theorem walk_of_lays (h : Lays metas p s bs q) (hSized : Sized 8 bs)
    (hEnd : s + span metaSize bs = pageSize) :
    Walk metas s ((placed metaSize s bs).map Prod.fst) := by
  induction bs generalizing p s with
  | nil =>
      rw [span_nil, add_zero] at hEnd
      exact hEnd
  | cons b bs ih =>
      have hSize := size_at h (List.mem_cons_self : (s, b) ∈ placed metaSize s (b :: bs))
      rw [sized_cons] at hSized
      rw [span_cons] at hEnd
      have hRest : ∃ p', Lays metas p' (s + (metaSize + b.size)) bs q := by
        obtain ⟨n, owner⟩ := b
        cases owner with
        | none => exact ⟨s, h.2⟩
        | some r => exact ⟨p, h.2⟩
      obtain ⟨p', hLays⟩ := hRest
      refine ⟨rfl, by rw [hSize]; exact hSized.1.1, ?_⟩
      rw [hSize]
      exact ih hLays hSized.2 (by omega)

private theorem freeList_of_lays (h : Lays metas p s bs (-1)) :
    FreeList metas p (firstFree metaSize s bs (-1))
      (((placed metaSize s bs).map Prod.fst).filter fun t => ¬ (metas t).allocated) := by
  induction bs generalizing p s with
  | nil => rfl
  | cons b bs ih =>
      obtain ⟨n, owner⟩ := b
      cases owner with
      | none =>
          rw [lays_free] at h
          rw [firstFree_free, frees_cons, if_neg (by simp [h.1])]
          refine ⟨rfl, by rw [h.1, freeCell], ?_⟩
          have hRest := ih h.2
          rwa [h.1]
      | some r =>
          rw [lays_used] at h
          rw [firstFree_used, frees_cons, if_pos (by simp [h.1])]
          exact ih h.2

private theorem room_of_lays (h : Lays metas p s bs q) :
    room metaSize bs =
      ((((placed metaSize s bs).map Prod.fst).filter fun t => ¬ (metas t).allocated).map
        fun t => metaSize + (metas t).size).sum := by
  induction bs generalizing p s with
  | nil => rfl
  | cons b bs ih =>
      obtain ⟨n, owner⟩ := b
      cases owner with
      | none =>
          rw [lays_free] at h
          rw [room_free, frees_cons, if_neg (by simp [h.1]), List.map_cons, List.sum_cons,
            ← ih h.2, h.1, freeCell]
      | some r =>
          rw [lays_used] at h
          rw [room_used, frees_cons, if_pos (by simp [h.1]), ← ih h.2]

private theorem apart_of_lays (h : Lays metas p s bs q) (hApart : Apart bs) :
    ((placed metaSize s bs).map Prod.fst).IsChain
      fun a b => (metas a).allocated ∨ (metas b).allocated := by
  induction bs generalizing p s with
  | nil => exact List.IsChain.nil
  | cons b bs ih =>
      have hRest : ∃ p', Lays metas p' (s + (metaSize + b.size)) bs q := by
        obtain ⟨n, owner⟩ := b
        cases owner with
        | none => exact ⟨s, h.2⟩
        | some r => exact ⟨p, h.2⟩
      obtain ⟨p', hLays⟩ := hRest
      have hHead : (s, b) ∈ placed metaSize s (b :: bs) := List.mem_cons_self
      cases bs with
      | nil => exact List.IsChain.singleton s
      | cons c cs =>
          obtain ⟨hPair, hTail⟩ := List.isChain_cons_cons.mp hApart
          have hNext : (s + (metaSize + b.size), c) ∈ placed metaSize s (b :: c :: cs) :=
            List.mem_cons_of_mem _ List.mem_cons_self
          rw [placed_cons, List.map_cons, placed_cons, List.map_cons, List.isChain_cons_cons]
          refine ⟨?_, ih hLays hTail⟩
          rw [allocated_at h hHead, allocated_at h hNext]
          by_cases hFree : b.owner = none
          · exact Or.inr fun hOther => hPair ⟨hFree, hOther⟩
          · exact Or.inl hFree

theorem PageRepr.sound (h : PageRepr page bs) (hOwned : owned metaSize pageHeadSize bs ≠ []) :
    PageSound page ((placed metaSize pageHeadSize bs).map Prod.fst) := by
  have hWhole := h.fills.whole
  have hSorted : ((placed metaSize pageHeadSize bs).map Prod.fst).Pairwise (· < ·) := by
    rw [List.pairwise_map]
    apply (placed_sorted (s := pageHeadSize) (by decide : 0 ≤ metaSize) h.fills.sized).imp_of_mem
    intro x y hx _ hxy
    obtain ⟨us, vs, rfl, -⟩ := exists_of_placed (b := x.2) hx
    have hSized := h.fills.sized
    rw [sized_append, sized_cons] at hSized
    have hSize := hSized.2.1.1
    have hMeta : (0 : Int) < metaSize := by decide
    omega
  refine ⟨walk_of_lays h.lays h.fills.sized (by omega), ⟨_, ?_, hSorted.filter _, rfl⟩,
    apart_of_lays h.lays h.apart, by rw [h.remain, room_of_lays h.lays], ?_⟩
  · rw [h.free]
    exact freeList_of_lays h.lays
  · obtain ⟨⟨t, r⟩, hIn⟩ := List.exists_mem_of_ne_nil _ hOwned
    obtain ⟨n, hPlaced⟩ := mem_placed_of_owned hIn
    exact ⟨t, List.mem_map_of_mem (f := Prod.fst) hPlaced,
      (allocated_at h.lays hPlaced).mpr (Option.some_ne_none r)⟩

end

/-! ## Pointers -/

section

variable {slab : SlabT} {number : Nat} {t : Int}

/-- A pointer as a number, when its meta is in a page. -/
theorem metaMem_eq (ht : 0 ≤ t) : (metaMem number t : Int) = number * 4096 + (t + 8) := by
  have hPage : pageSize.toNat = 4096 := rfl
  rw [metaMem, hPage]
  simp only [metaSize]
  omega

/-- The page and the shift of the meta before a pointer. -/
theorem metaMem_split (ht : 0 ≤ t) (hEnd : t < 4096) :
    (metaMem number t - metaSize.toNat) / pageSize.toNat = number ∧
      ((metaMem number t - metaSize.toNat) % pageSize.toNat : Nat) = t := by
  have hEq := @metaMem_eq number t ht
  have hPage : pageSize.toNat = 4096 := rfl
  have hMeta : metaSize.toNat = 8 := rfl
  rw [hPage, hMeta]
  omega

theorem metaMem_inj {number' : Nat} {t' : Int} (ht : 0 ≤ t ∧ t < 4096) (ht' : 0 ≤ t' ∧ t' < 4096)
    (h : metaMem number t = metaMem number' t') : number = number' ∧ t = t' := by
  have hEq := @metaMem_eq number t ht.1
  have hEq' := @metaMem_eq number' t' ht'.1
  omega

theorem payloadSize_eq {page : PageT} (hPage : slab.pages number = some page) (ht : 0 ≤ t)
    (hEnd : t < 4096) : payloadSize slab (metaMem number t) = (page.metas t).size := by
  obtain ⟨hNumber, hShift⟩ := @metaMem_split number t ht hEnd
  rw [payloadSize, hNumber, hPage, hShift]

end

/-! ## The invariant of a run -/

/-- The pages hold the blocks, and the live pointers are the used ones. -/
structure Matches (s : State) (blocks : Nat → List Block) : Prop where
  pages : ∀ number page, s.slab.pages number = some page →
    PageRepr page (blocks number) ∧ owned metaSize pageHeadSize (blocks number) ≠ []
  unused : ∀ number, s.slab.pages number = none → blocks number = []
  live : ∀ memory sz, (memory, sz) ∈ s.live ↔
    ∃ number t, (t, sz) ∈ owned metaSize pageHeadSize (blocks number) ∧
      memory = metaMem number t
  nodup : (s.live.map Prod.fst).Nodup

/-- The four lists hold each page once. -/
structure Linked (slab : SlabT) : Prop where
  nodup : ∀ head, (slab.lists head).Nodup
  once : ∀ head head' number, number ∈ slab.lists head → number ∈ slab.lists head' → head = head'
  pages : ∀ number, (∃ head, number ∈ slab.lists head) ↔ (slab.pages number).isSome

/-- The pages match some blocks, and they are on the lists. -/
structure Inv (s : State) : Prop where
  blocks : ∃ blocks, Matches s blocks
  linked : Linked s.slab

section

variable {st : State} {blocks : Nat → List Block} {memory sz : Nat}

/-- The block of a live pointer. -/
structure BlockAt (st : State) (blocks : Nat → List Block) (memory sz number : Nat) (page : PageT)
    (t n : Int) : Prop where
  inPage : st.slab.pages number = some page
  repr : PageRepr page (blocks number)
  placed : (t, ⟨n, some sz⟩) ∈ placed metaSize pageHeadSize (blocks number)
  eq : memory = metaMem number t
  low : pageHeadSize ≤ t
  high : t + (metaSize + n) ≤ pageSize
  aligned : t % 8 = 0
  fits : sz ≤ n
  size : payloadSize st.slab memory = n

theorem Matches.block_at (h : Matches st blocks) (hIn : (memory, sz) ∈ st.live) :
    ∃ number page t n, BlockAt st blocks memory sz number page t n := by
  obtain ⟨number, t, hOwned, hEq⟩ := (h.live memory sz).mp hIn
  obtain ⟨n, hPlaced⟩ := mem_placed_of_owned hOwned
  cases hPage : st.slab.pages number with
  | none =>
      rw [h.unused number hPage] at hPlaced
      cases hPlaced
  | some page =>
      have hRepr := (h.pages number page hPage).1
      obtain ⟨xs, ys, hBs, ht⟩ := exists_of_placed hPlaced
      have hFills := hRepr.fills
      rw [hBs] at hFills
      have hValid := hFills.validShift
      rw [← ht] at hValid
      have hWhole := hFills.whole
      have hSized := hFills.sized
      have hFits := hRepr.fits
      rw [hBs, fits_append, fits_used] at hFits
      rw [sized_append, sized_mk] at hSized
      rw [span_append, span_mk] at hWhole
      have hYs : 0 ≤ span metaSize ys := span_nonneg (by decide) hSized.2.2
      have hn := hSized.2.1.1
      have hSize := size_at hRepr.lays hPlaced
      have hLow := hValid.1
      have hMod := hValid.2.2
      simp only [metaSize, pageSize, pageHeadSize] at hWhole hYs ht hLow
      refine ⟨number, page, t, n, hPage, hRepr, hPlaced, hEq, hValid.1, ?_, hMod, hFits.2.1, ?_⟩
      · simp only [metaSize, pageSize]
        omega
      · rw [hEq, payloadSize_eq hPage (by omega) (by omega), hSize]

/-- Different live pointers have different blocks, which do not overlap. -/
theorem BlockAt.disjoint {memory' sz' number number' : Nat} {page page' : PageT} {t t' n n' : Int}
    (h : BlockAt st blocks memory sz number page t n)
    (h' : BlockAt st blocks memory' sz' number' page' t' n') (hNe : memory ≠ memory') :
    (memory : Int) + n ≤ memory' ∨ memory' + n' ≤ (memory : Int) := by
  have hLow := h.low
  have hHigh := h.high
  have hLow' := h'.low
  have hHigh' := h'.high
  have hFits := h.fits
  have hFits' := h'.fits
  simp only [metaSize, pageSize, pageHeadSize] at hLow hHigh hLow' hHigh'
  have hEq := @metaMem_eq number t (by omega)
  have hEq' := @metaMem_eq number' t' (by omega)
  rw [← h.eq] at hEq
  rw [← h'.eq] at hEq'
  by_cases hSame : number = number'
  · subst hSame
    have hPlaces := placed_disjoint (by decide : 0 ≤ metaSize) h.repr.fills.sized h.placed h'.placed
    simp only [Prod.mk.injEq, metaSize] at hPlaces
    omega
  · omega

theorem sound_of_inv (h : Inv st) : Sound st := by
  obtain ⟨blocks, hMatches⟩ := h.blocks
  have hAt : ∀ memory, memory ∈ st.live.map Prod.fst →
      ∃ sz number page t n, BlockAt st blocks memory sz number page t n := by
    intro memory hIn
    obtain ⟨⟨memory', sz⟩, hMem, rfl⟩ := List.mem_map.mp hIn
    obtain ⟨number, page, t, n, hBlock⟩ := hMatches.block_at hMem
    exact ⟨sz, number, page, t, n, hBlock⟩
  refine ⟨?_, ?_, ?_, ?_⟩
  · intro number page hPage
    obtain ⟨hRepr, hOwned⟩ := hMatches.pages number page hPage
    refine ⟨_, hRepr.sound hOwned, ?_, ?_⟩
    · intro t hStart hUsed
      obtain ⟨⟨t', b⟩, hPlaced, rfl⟩ := List.mem_map.mp hStart
      have hOwner := (allocated_at hRepr.lays hPlaced).mp hUsed
      obtain ⟨n, owner⟩ := b
      cases owner with
      | none => exact absurd rfl hOwner
      | some r =>
          have hLive := (hMatches.live (metaMem number t') r).mpr
            ⟨number, t', owned_of_mem_placed hPlaced, rfl⟩
          exact List.mem_map_of_mem (f := Prod.fst) hLive
    · intro memory hIn
      obtain ⟨sz, number', page', t, n, hBlock⟩ := hAt memory hIn
      have hLow := hBlock.low
      have hHigh := hBlock.high
      have hFits := hBlock.fits
      simp only [metaSize, pageSize, pageHeadSize] at hLow hHigh
      have hEq := @metaMem_eq number' t (by omega)
      rw [← hBlock.eq] at hEq
      constructor
      · simp only [Clear, hBlock.size, pageSize, pageHeadSize]
        omega
      intro t' hStart
      obtain ⟨⟨t'', b⟩, hPlaced, rfl⟩ := List.mem_map.mp hStart
      obtain ⟨xs, ys, hBs, hPlace⟩ := exists_of_placed hPlaced
      have hFills := hRepr.fills
      rw [hBs] at hFills
      have hValid := hFills.validShift
      rw [← hPlace] at hValid
      obtain ⟨hLow', hHigh', -⟩ := hValid
      have hSized := hFills.sized
      rw [sized_append, sized_cons] at hSized
      have hSize := hSized.2.1.1
      simp only [metaSize, pageSize, pageHeadSize] at hLow' hHigh'
      simp only [Clear, hBlock.size, metaSize, pageSize]
      by_cases hSame : number' = number
      · subst hSame
        have hPlaces := placed_disjoint (by decide : 0 ≤ metaSize) hRepr.fills.sized hBlock.placed
          hPlaced
        simp only [Prod.mk.injEq, metaSize] at hPlaces
        omega
      · omega
  · intro memory sz hIn
    obtain ⟨number, page, t, n, hBlock⟩ := hMatches.block_at hIn
    have hLow := hBlock.low
    have hMod := hBlock.aligned
    simp only [pageHeadSize] at hLow
    have hEq := @metaMem_eq number t (by omega)
    rw [← hBlock.eq] at hEq
    refine ⟨⟨number, page, t, hBlock.inPage, hBlock.eq, ?_⟩, by omega, ?_⟩
    · exact (allocated_at hBlock.repr.lays hBlock.placed).mpr (Option.some_ne_none sz)
    · rw [hBlock.size]
      exact hBlock.fits
  · have hNodup := hMatches.nodup
    rw [List.Nodup, List.pairwise_map] at hNodup
    apply hNodup.imp_of_mem
    intro a b ha hb hNe
    obtain ⟨number, page, t, n, hBlock⟩ := hMatches.block_at ha
    obtain ⟨number', page', t', n', hBlock'⟩ := hMatches.block_at hb
    simp only [Clear, hBlock.size, hBlock'.size]
    exact hBlock.disjoint hBlock' hNe
  · intro hNone number
    cases hPage : st.slab.pages number with
    | none => rfl
    | some page =>
        obtain ⟨⟨t, r⟩, hIn⟩ :=
          List.exists_mem_of_ne_nil _ (hMatches.pages number page hPage).2
        have hLive := (hMatches.live (metaMem number t) r).mpr ⟨number, t, hIn, rfl⟩
        rw [hNone] at hLive
        cases hLive

end

/-! ## The lists of pages -/

section

variable {slab : SlabT} {number : Nat} {page : PageT}

theorem Linked.linked (h : Linked slab) (hPage : (slab.pages number).isSome) :
    slab.linked number := by
  obtain ⟨head, hIn⟩ := (h.pages number).mpr hPage
  rw [SlabT.linked]
  cases head <;> simp [hIn]

theorem mem_listAdd {head a : Head} {other : Nat} :
    other ∈ (listAdd slab number head).lists a ↔
      a = head ∧ other = number ∨ other ∈ slab.lists a := by
  by_cases ha : a = head
  · simp [listAdd, ha]
  · simp [listAdd, ha]

/-- The page is not on the lists any more. -/
def without (slab : SlabT) (number : Nat) : SlabT :=
  { slab with lists := fun head => (slab.lists head).filter (· ≠ number) }

theorem mem_without {a : Head} {other : Nat} :
    other ∈ (without slab number).lists a ↔ other ∈ slab.lists a ∧ other ≠ number := by
  simp [without]

theorem Linked.listDel_eq (h : Linked slab) (hPage : (slab.pages number).isSome) :
    listDel slab number = some (without slab number) :=
  if_pos (h.linked hPage)

private theorem nodup_listAdd {head : Head} (h : ∀ a, (slab.lists a).Nodup)
    (hNot : number ∉ slab.lists head) (a : Head) :
    ((listAdd slab number head).lists a).Nodup := by
  by_cases ha : a = head
  · subst ha
    simp only [listAdd, Function.update_self]
    exact List.nodup_cons.mpr ⟨hNot, h a⟩
  · simp only [listAdd, Function.update_of_ne ha]
    exact h a

/-- A page is moved to another list. -/
theorem Linked.move (h : Linked slab) (hPage : (slab.pages number).isSome) (head : Head) :
    ∃ slab', listDel slab number = some slab' ∧ Linked (listAdd slab' number head) ∧
      (listAdd slab' number head).pages = slab.pages := by
  refine ⟨_, h.listDel_eq hPage, ⟨?_, ?_, ?_⟩, rfl⟩
  · apply nodup_listAdd
    · intro a
      exact (h.nodup a).filter _
    · rw [mem_without]
      exact fun hIn => hIn.2 rfl
  · intro a b other ha hb
    rw [mem_listAdd, mem_without] at ha hb
    cases ha with
    | inl ha =>
        cases hb with
        | inl hb => rw [ha.1, hb.1]
        | inr hb => exact absurd ha.2 hb.2
    | inr ha =>
        cases hb with
        | inl hb => exact absurd hb.2 ha.2
        | inr hb => exact h.once a b other ha.1 hb.1
  · intro other
    by_cases hOther : other = number
    · subst hOther
      exact ⟨fun _ => hPage, fun _ => ⟨head, mem_listAdd.mpr (Or.inl ⟨rfl, rfl⟩)⟩⟩
    · rw [show (listAdd (without slab number) number head).pages = slab.pages from rfl,
        ← h.pages other]
      simp only [mem_listAdd, mem_without, hOther, and_false, false_or, ne_eq, not_false_eq_true,
        and_true]

theorem slabPageErase_spec (h : Linked slab) (hPage : (slab.pages number).isSome) (head : Head) :
    ∃ slab', slabPageErase slab number page head = some slab' ∧ Linked slab' ∧
      slab'.pages = slab.pages := by
  have hMove : ∀ head', ∃ slab', (listDel slab number).map (fun slab => listAdd slab number head') =
      some slab' ∧ Linked slab' ∧ slab'.pages = slab.pages := by
    intro head'
    obtain ⟨slab', hDel, hLinked, hPages⟩ := h.move hPage head'
    exact ⟨_, by rw [hDel]; rfl, hLinked, hPages⟩
  have hStay : ∃ slab', some slab = some slab' ∧ Linked slab' ∧ slab'.pages = slab.pages :=
    ⟨slab, rfl, h, rfl⟩
  cases head with
  | slabMinor =>
      simp only [slabPageErase]
      split
      · exact hMove .allocSlabMinor
      · exact hStay
  | slabCommon =>
      simp only [slabPageErase]
      split
      · exact hMove .allocSlabCommon
      · exact hStay
  | allocSlabMinor => exact hStay
  | allocSlabCommon => exact hStay

theorem slabPageInsert_spec (h : Linked slab) (hPage : (slab.pages number).isSome)
    (cell : MetaT) :
    ∃ slab', slabPageInsert slab number cell = some slab' ∧ Linked slab' ∧
      slab'.pages = slab.pages := by
  rw [slabPageInsert]
  split
  · rename_i head _
    obtain ⟨slab', hDel, hLinked, hPages⟩ := h.move hPage head
    exact ⟨_, by rw [hDel]; rfl, hLinked, hPages⟩
  · exact ⟨slab, rfl, h, rfl⟩

theorem Linked.setPage (h : Linked slab) (hPage : (slab.pages number).isSome) :
    Linked (slab.setPage number page) := by
  refine ⟨h.nodup, h.once, ?_⟩
  intro other
  have hLists := h.pages other
  by_cases hOther : other = number
  · subst hOther
    simpa [SlabT.setPage, hPage] using hLists
  · simpa [SlabT.setPage, hOther] using hLists

/-- A page that was not in use is put on a list. -/
theorem Linked.addPage (h : Linked slab) (hNone : slab.pages number = none) (head : Head) :
    Linked (listAdd (slab.setPage number page) number head) := by
  have hNot : ∀ a, number ∉ slab.lists a := by
    intro a ha
    have hSome := (h.pages number).mp ⟨a, ha⟩
    rw [hNone] at hSome
    cases hSome
  refine ⟨nodup_listAdd h.nodup (hNot head), ?_, ?_⟩
  · intro a b other ha hb
    rw [mem_listAdd] at ha hb
    cases ha with
    | inl ha =>
        cases hb with
        | inl hb => rw [ha.1, hb.1]
        | inr hb => exact absurd (ha.2 ▸ hb) (hNot b)
    | inr ha =>
        cases hb with
        | inl hb => exact absurd (hb.2 ▸ ha) (hNot a)
        | inr hb => exact h.once a b other ha hb
  · intro other
    by_cases hOther : other = number
    · subst hOther
      refine ⟨fun _ => ?_, fun _ => ⟨head, mem_listAdd.mpr (Or.inl ⟨rfl, rfl⟩)⟩⟩
      simp [listAdd, SlabT.setPage]
    · have hPages : (listAdd (slab.setPage number page) number head).pages other =
          slab.pages other := Function.update_of_ne hOther _ _
      rw [hPages, ← h.pages other]
      simp only [mem_listAdd, hOther, and_false, false_or]
      exact Iff.rfl

/-- A page is taken off its list and given back. -/
theorem Linked.removePage (h : Linked slab) :
    Linked { without slab number with pages := Function.update slab.pages number none } := by
  refine ⟨fun a => (h.nodup a).filter _, ?_, ?_⟩
  · intro a b other ha hb
    exact h.once a b other (List.mem_of_mem_filter ha) (List.mem_of_mem_filter hb)
  · intro other
    have hLists := h.pages other
    by_cases hOther : other = number
    · simp [without, hOther]
    · simpa [without, hOther] using hLists

end

/-! ## Calls keep the invariant -/

section

variable {st : State} {slab slab' : SlabT} {blocks : Nat → List Block} {number sz r memory : Nat}
  {page page' : PageT} {bs zs : List Block} {t : Int} {live : List (Nat × Nat)}

theorem PageRepr.owned_bounds (h : PageRepr page bs)
    (hIn : (t, r) ∈ owned metaSize pageHeadSize bs) : 0 ≤ t ∧ t < 4096 := by
  obtain ⟨xs, n, ys, rfl, rfl⟩ := exists_of_owned hIn
  obtain ⟨hLow, hHigh, -⟩ := h.fills.validShift
  simp only [metaSize, pageSize, pageHeadSize] at *
  omega

/-- The place of an owner in some page. -/
theorem Matches.bounds (h : Matches st blocks)
    (hIn : (t, r) ∈ owned metaSize pageHeadSize (blocks number)) : 0 ≤ t ∧ t < 4096 := by
  cases hPage : st.slab.pages number with
  | none =>
      rw [h.unused number hPage] at hIn
      cases hIn
  | some page => exact (h.pages number page hPage).1.owned_bounds hIn

/-- One page changes, and with it the live pointers into it. -/
theorem Matches.update (h : Matches st blocks)
    (hOther : ∀ other, other ≠ number → slab'.pages other = st.slab.pages other)
    (hSome : ∀ page, slab'.pages number = some page →
      PageRepr page zs ∧ owned metaSize pageHeadSize zs ≠ [])
    (hNone : slab'.pages number = none → zs = [])
    (hLive : ∀ memory sz, (memory, sz) ∈ live ↔
      (∃ other t, other ≠ number ∧ (t, sz) ∈ owned metaSize pageHeadSize (blocks other) ∧
        memory = metaMem other t) ∨
      ∃ t, (t, sz) ∈ owned metaSize pageHeadSize zs ∧ memory = metaMem number t)
    (hNodup : (live.map Prod.fst).Nodup) :
    Matches ⟨slab', live⟩ (Function.update blocks number zs) := by
  refine ⟨?_, ?_, ?_, hNodup⟩
  · intro other page hPage
    by_cases hEq : other = number
    · subst hEq
      rw [Function.update_self]
      exact hSome page hPage
    · rw [Function.update_of_ne hEq]
      exact h.pages other page ((hOther other hEq).symm.trans hPage)
  · intro other hPage
    by_cases hEq : other = number
    · subst hEq
      rw [Function.update_self]
      exact hNone hPage
    · rw [Function.update_of_ne hEq]
      exact h.unused other ((hOther other hEq).symm.trans hPage)
  · intro memory sz
    rw [hLive memory sz]
    constructor
    · rintro (⟨other, t, hNe, hIn, rfl⟩ | ⟨t, hIn, rfl⟩)
      · exact ⟨other, t, by rwa [Function.update_of_ne hNe], rfl⟩
      · exact ⟨number, t, by rwa [Function.update_self], rfl⟩
    · rintro ⟨other, t, hIn, rfl⟩
      by_cases hEq : other = number
      · subst hEq
        rw [Function.update_self] at hIn
        exact Or.inr ⟨t, hIn, rfl⟩
      · rw [Function.update_of_ne hEq] at hIn
        exact Or.inl ⟨other, t, hEq, hIn, rfl⟩

/-- The same when the page stays. -/
theorem Matches.set (h : Matches st blocks)
    (hPages : slab'.pages = Function.update st.slab.pages number (some page))
    (hRepr : PageRepr page zs) (hOwned : owned metaSize pageHeadSize zs ≠ [])
    (hLive : ∀ memory sz, (memory, sz) ∈ live ↔
      (∃ other t, other ≠ number ∧ (t, sz) ∈ owned metaSize pageHeadSize (blocks other) ∧
        memory = metaMem other t) ∨
      ∃ t, (t, sz) ∈ owned metaSize pageHeadSize zs ∧ memory = metaMem number t)
    (hNodup : (live.map Prod.fst).Nodup) :
    Matches ⟨slab', live⟩ (Function.update blocks number zs) := by
  have hHere : slab'.pages number = some page := by rw [hPages, Function.update_self]
  apply h.update _ _ _ hLive hNodup
  · intro other hNe
    rw [hPages, Function.update_of_ne hNe]
  · intro page' hPage'
    rw [hHere] at hPage'
    cases hPage'
    exact ⟨hRepr, hOwned⟩
  · intro hNone
    rw [hHere] at hNone
    cases hNone

/-- The live pointers by page. -/
theorem Matches.live_split (h : Matches st blocks) (number memory sz : Nat) :
    (memory, sz) ∈ st.live ↔
      (∃ other t, other ≠ number ∧ (t, sz) ∈ owned metaSize pageHeadSize (blocks other) ∧
        memory = metaMem other t) ∨
      ∃ t, (t, sz) ∈ owned metaSize pageHeadSize (blocks number) ∧ memory = metaMem number t := by
  rw [h.live memory sz]
  constructor
  · rintro ⟨other, t, hIn, rfl⟩
    by_cases hEq : other = number
    · subst hEq
      exact Or.inr ⟨t, hIn, rfl⟩
    · exact Or.inl ⟨other, t, hEq, hIn, rfl⟩
  · rintro (⟨other, t, -, hIn, rfl⟩ | ⟨t, hIn, rfl⟩)
    · exact ⟨other, t, hIn, rfl⟩
    · exact ⟨number, t, hIn, rfl⟩

/-! ### Allocation -/

/-- What `_slab_alloc` did when it gave out memory of the page `number`, which held `bs`. -/
structure Gave (slab slab' : SlabT) (number r memory : Nat) (bs : List Block) : Prop where
  linked : Linked slab'
  block : ∃ xs n ys zs page', bs = xs ++ ⟨n, none⟩ :: ys ∧ Granted metaSize r xs n ys zs ∧
    PageRepr page' zs ∧ memory = metaMem number (pageHeadSize + span metaSize xs) ∧
    slab'.pages = Function.update slab.pages number (some page')

theorem slabAllocIn_spec (hLinked : Linked slab) (hPage : slab.pages number = some page)
    (hRepr : PageRepr page bs) (head : Head) (hSz : 8 ∣ sz) (hr : r ≤ sz) :
    slabAllocIn slab number head sz = some (none, slab) ∧
        (∀ b, b ∈ bs → b.owner = none → b.size < sz) ∨
      ∃ memory slab', slabAllocIn slab number head sz = some (some memory, slab') ∧
        Gave slab slab' number r memory bs := by
  have hSome : (slab.pages number).isSome := by rw [hPage]; rfl
  cases pageAlloc_spec hRepr hSz hr with
  | inl hNone =>
      left
      refine ⟨?_, hNone.2⟩
      have hSame : slab.setPage number page = slab := by
        rw [SlabT.setPage, ← hPage, Function.update_eq_self]
      simp only [slabAllocIn, hPage, Option.bind_eq_bind, Option.bind_some, hNone.1, hSame]
      rfl
  | inr hGave =>
      right
      obtain ⟨xs, n, ys, zs, page', hBs, hGranted, hAlloc, hRepr'⟩ := hGave
      have hSome' : ((slab.setPage number page').pages number).isSome := by
        simp [SlabT.setPage]
      obtain ⟨slab', hErase, hLinked', hPages⟩ :=
        @slabPageErase_spec _ number page' (hLinked.setPage hSome) hSome' head
      refine ⟨_, slab', ?_, hLinked', xs, n, ys, zs, page', hBs, hGranted, hRepr', rfl, hPages⟩
      simp only [slabAllocIn, hPage, Option.bind_eq_bind, Option.bind_some, hAlloc, hErase]
      rfl

theorem slabAllocLoop_spec (hMatches : Matches ⟨slab, live⟩ blocks) (hLinked : Linked slab)
    (head : Head) (hSz : 8 ∣ sz) (hr : r ≤ sz) {numbers : List Nat}
    (hNumbers : ∀ number, number ∈ numbers → (slab.pages number).isSome) :
    slabAllocLoop slab head sz numbers = some (none, slab) ∨
      ∃ number memory slab', number ∈ numbers ∧
        slabAllocLoop slab head sz numbers = some (some memory, slab') ∧
        slabAllocIn slab number head sz = some (some memory, slab') ∧
        Gave slab slab' number r memory (blocks number) := by
  induction numbers with
  | nil => exact Or.inl rfl
  | cons number rest ih =>
      have hSome := hNumbers number List.mem_cons_self
      obtain ⟨page, hPage⟩ := Option.isSome_iff_exists.mp hSome
      have hRepr := (hMatches.pages number page hPage).1
      cases slabAllocIn_spec hLinked hPage hRepr head hSz hr with
      | inl hNone =>
          simp only [slabAllocLoop, hNone.1, Option.bind_eq_bind, Option.bind_some,
            Option.isSome_none, Bool.false_eq_true, if_false]
          rcases ih fun other hIn => hNumbers other (List.mem_cons_of_mem number hIn) with
            hAll | ⟨other, memory, slab', hIn, hLater⟩
          · exact Or.inl hAll
          · exact Or.inr ⟨other, memory, slab', List.mem_cons_of_mem number hIn, hLater⟩
      | inr hGave =>
          obtain ⟨memory, slab', hAlloc, hSpec⟩ := hGave
          right
          refine ⟨number, memory, slab', List.mem_cons_self, ?_, hAlloc, hSpec⟩
          simp only [slabAllocLoop, hAlloc, Option.bind_eq_bind, Option.bind_some,
            Option.isSome_some, if_true]
          rfl

/-- A block that is given out adds a live pointer. -/
theorem Matches.grant (hMatches : Matches ⟨slab, live⟩ blocks)
    (hGave : Gave slab slab' number r memory bs)
    (hOwned : owned metaSize pageHeadSize bs = owned metaSize pageHeadSize (blocks number)) :
    Inv ⟨slab', (memory, r) :: live⟩ := by
  obtain ⟨xs, n, ys, zs, page', rfl, hGranted, hRepr, rfl, hPages⟩ := hGave.block
  have hMem : ∀ x, x ∈ owned metaSize pageHeadSize zs ↔
      x = (pageHeadSize + span metaSize xs, r) ∨
        x ∈ owned metaSize pageHeadSize (blocks number) := by
    intro x
    rw [← hOwned]
    exact hGranted.mem_owned
  have hNew : (pageHeadSize + span metaSize xs, r) ∈ owned metaSize pageHeadSize zs :=
    (hMem _).mpr (Or.inl rfl)
  have hBounds := hRepr.owned_bounds hNew
  have hFresh : metaMem number (pageHeadSize + span metaSize xs) ∉ live.map Prod.fst := by
    intro hIn
    obtain ⟨⟨memory, sz⟩, hLive, hEq⟩ := List.mem_map.mp hIn
    obtain ⟨other, t, hOwner, hPlace⟩ := (hMatches.live memory sz).mp hLive
    have hSame := metaMem_inj hBounds (hMatches.bounds hOwner) (hEq.symm.trans hPlace)
    obtain ⟨rfl, rfl⟩ := hSame
    rw [← hOwned] at hOwner
    exact hGranted.not_owned (by decide) hRepr.fills.sized hOwner
  refine ⟨⟨Function.update blocks number zs, ?_⟩, hGave.linked⟩
  apply hMatches.set hPages hRepr (List.ne_nil_of_mem hNew)
  · intro memory sz
    have hOld := hMatches.live_split number memory sz
    rw [List.mem_cons, hOld]
    constructor
    · rintro (hHere | hOther | ⟨t, hIn, rfl⟩)
      · cases hHere
        exact Or.inr ⟨_, hNew, rfl⟩
      · exact Or.inl hOther
      · exact Or.inr ⟨t, (hMem _).mpr (Or.inr hIn), rfl⟩
    · rintro (hOther | ⟨t, hIn, rfl⟩)
      · exact Or.inr (Or.inl hOther)
      · cases (hMem _).mp hIn with
        | inl hHere =>
            cases hHere
            exact Or.inl rfl
        | inr hIn => exact Or.inr (Or.inr ⟨t, hIn, rfl⟩)
  · rw [List.map_cons, List.nodup_cons]
    exact ⟨hFresh, hMatches.nodup⟩

/-- `SLAB_ALIGN` rounds up to a multiple of 8, up to the last seven sizes. -/
theorem slabAlign_eq {sz : Nat} (hSz : sz ≤ 2 ^ 64 - 8) : slabAlign sz = (sz + 7) / 8 * 8 := by
  rw [slabAlign, Nat.mod_eq_of_lt (by omega : sz + 7 < 2 ^ 64), Nat.shiftRight_eq_div_pow,
    Nat.shiftLeft_eq]
  exact Nat.mod_eq_of_lt (by omega)

theorem slabAlign_spec {sz : Nat} (hPos : 1 ≤ sz) (hMax : sz ≤ slabSizeMax) :
    8 ∣ slabAlign sz ∧ sz ≤ slabAlign sz ∧ slabAlign sz ≤ slabSizeMax ∧ slabAlign sz ≠ 0 := by
  have hMaxEq : slabSizeMax = 1024 := rfl
  have hEq := @slabAlign_eq sz (by omega)
  omega

/-- There is a list for every size up to `SLAB_SIZE_MAX`. -/
theorem slabFreePage_some {sz : Nat} (hHigh : sz ≤ slabSizeMax) :
    ∃ head, slabFreePage sz = some head := by
  by_cases hMinor : sz ≤ slabSizeMinor
  · exact ⟨.slabMinor, if_pos hMinor⟩
  · exact ⟨.slabCommon, by rw [slabFreePage, if_neg hMinor, if_pos hHigh]⟩

theorem newPage_spec (content : Int → MetaT) :
    ∃ page, newPage content = some page ∧ PageRepr page [⟨4064, none⟩] := by
  refine ⟨{ free := 24, remain := 4072,
            metas := Function.update content 24 (freeCell 4064 (-1) (-1)) }, rfl, ?_⟩
  have hCell : Function.update content 24 (freeCell 4064 (-1) (-1)) 24 = freeCell 4064 (-1) (-1) :=
    Function.update_self _ _ _
  refine ⟨⟨?_, rfl⟩, ?_, List.IsChain.singleton _, ⟨hCell, trivial⟩, rfl, rfl⟩
  · rw [sized_mk]
    exact ⟨by decide, sized_nil⟩
  · rw [fits_free]
    exact fits_nil

/-- The allocator as `_slab_alloc` finds it: as it was, or with a new page on the list. -/
def Offers (slab slab₀ : SlabT) (head : Head) : Prop :=
  slab₀ = slab ∨ ∃ number page, slab.pages number = none ∧
    slab₀ = listAdd (slab.setPage number page) number head

/-- `slab_alloc`, when there is a list for the size: nothing changes, and there is no new page, or a
page on this list gives a block. -/
theorem slabAlloc_spec {fresh : Option (Nat × (Int → MetaT))} {head : Head}
    (hInv : Inv ⟨slab, live⟩) (hPos : sz ≠ 0) (hHead : slabFreePage (slabAlign sz) = some head)
    (hDvd : 8 ∣ slabAlign sz) (hLow : r ≤ slabAlign sz)
    (hFresh : ∀ answer, answer ∈ fresh → (slab.pages answer.1).isNone) :
    (fresh = none ∧ slabAlloc slab sz fresh = some (none, slab)) ∨
      ∃ memory slab', slabAlloc slab sz fresh = some (some memory, slab') ∧
        Inv ⟨slab', (memory, r) :: live⟩ ∧
        ∃ slab₀ number, Offers slab slab₀ head ∧ Linked slab₀ ∧ number ∈ slab₀.lists head ∧
          slabAllocIn slab₀ number head (slabAlign sz) = some (some memory, slab') := by
  obtain ⟨⟨blocks, hMatches⟩, hLinked⟩ := hInv
  have hHigh : slabAlign sz ≤ slabSizeMax := by
    have hMinor : slabSizeMinor ≤ slabSizeMax := by decide
    rw [slabFreePage] at hHead
    split at hHead
    · omega
    · split at hHead
      · assumption
      · cases hHead
  rw [slabAlloc, if_neg hPos]
  simp only [hHead]
  have hListed : ∀ number, number ∈ slab.lists head → (slab.pages number).isSome :=
    fun number hIn => (hLinked.pages number).mp ⟨head, hIn⟩
  cases slabAllocLoop_spec hMatches hLinked head hDvd hLow hListed with
  | inr hGave =>
      right
      obtain ⟨number, memory, slab', hIn, hLoop, hAlloc, hSpec⟩ := hGave
      refine ⟨memory, slab', ?_, hMatches.grant hSpec rfl, slab, number, Or.inl rfl, hLinked, hIn,
        hAlloc⟩
      simp only [hLoop, Option.bind_eq_bind, Option.bind_some, Option.isSome_some, if_true]
      rfl
  | inl hNone =>
      simp only [hNone, Option.bind_eq_bind, Option.bind_some, Option.isSome_none,
        Bool.false_eq_true, if_false]
      cases fresh with
      | none => exact Or.inl ⟨rfl, rfl⟩
      | some answer =>
          right
          obtain ⟨number, content⟩ := answer
          have hUnused : slab.pages number = none := by
            have hIsNone := hFresh (number, content) rfl
            exact Option.isNone_iff_eq_none.mp hIsNone
          obtain ⟨page, hNew, hRepr⟩ := newPage_spec content
          have hPage : (listAdd (slab.setPage number page) number head).pages number = some page :=
            Function.update_self _ _ _
          have hLinked₀ : Linked (listAdd (slab.setPage number page) number head) :=
            hLinked.addPage hUnused head
          cases slabAllocIn_spec hLinked₀ hPage hRepr head hDvd hLow with
          | inl hSmall =>
              -- the block of a new page is larger than any request
              have hSize := hSmall.2 ⟨4064, none⟩ List.mem_cons_self rfl
              have hMaxEq : slabSizeMax = 1024 := rfl
              simp only at hSize
              omega
          | inr hGave =>
              obtain ⟨memory, slab', hAlloc, hSpec⟩ := hGave
              obtain ⟨xs, n, ys, zs, page', hBs, hGranted, hRepr', hMemory, hPages⟩ := hSpec.block
              have hListed₀ :
                  number ∈ (listAdd (slab.setPage number page) number head).lists head :=
                mem_listAdd.mpr (Or.inl ⟨rfl, rfl⟩)
              refine ⟨memory, slab', ?_, ?_, _, number, Or.inr ⟨number, page, hUnused, rfl⟩,
                hLinked₀, hListed₀, hAlloc⟩
              · simp only [hNew, Option.bind_some]
                exact hAlloc
              · have hGave' : Gave slab slab' number r memory [⟨4064, none⟩] := by
                  refine ⟨hSpec.linked, xs, n, ys, zs, page', hBs, hGranted, hRepr', hMemory, ?_⟩
                  rw [hPages]
                  exact Function.update_idem _ _ _
                apply hMatches.grant hGave'
                rw [hMatches.unused number hUnused, owned_free]
                rfl

theorem slabAlloc_inv {fresh : Option (Nat × (Int → MetaT))} (hInv : Inv ⟨slab, live⟩)
    (hPos : 1 ≤ sz) (hMax : sz ≤ slabSizeMax)
    (hFresh : ∀ answer, answer ∈ fresh → (slab.pages answer.1).isNone) :
    slabAlloc slab sz fresh = some (none, slab) ∨
      ∃ memory slab', slabAlloc slab sz fresh = some (some memory, slab') ∧
        Inv ⟨slab', (memory, sz) :: live⟩ := by
  obtain ⟨hDvd, hLow, hHigh, -⟩ := slabAlign_spec hPos hMax
  obtain ⟨head, hHead⟩ := slabFreePage_some hHigh
  rcases slabAlloc_spec hInv (by omega) hHead hDvd hLow hFresh with
    ⟨-, hNone⟩ | ⟨memory, slab', hAlloc, hInv', -⟩
  · exact Or.inl hNone
  · exact Or.inr ⟨memory, slab', hAlloc, hInv'⟩

/-! ### Release -/

/-- `slab_free` of a block: the page goes back when it has no other block. -/
theorem slabFree_run {slab₁ : SlabT} {n : Int} (hPage : slab.pages number = some page)
    (ht : ValidShift t) (hCell : page.metas t = usedCell n)
    (hInsert : slabPageInsert slab number (usedCell n) = some slab₁)
    (hFree : pageFree ⟨page.free, page.remain + (n + metaSize),
      Function.update page.metas t (freeCell n (-1) (-1))⟩ t = some page') :
    slabFree slab (some (metaMem number t)) =
      if page'.remain + pageHeadSize = pageSize then
        (listDel slab₁ number).map fun slab =>
          { slab with pages := Function.update slab.pages number none }
      else some (slab₁.setPage number page') := by
  have hBounds : 0 ≤ t ∧ t < 4096 := by
    obtain ⟨hLow, hHigh, -⟩ := ht
    simp only [metaSize, pageSize, pageHeadSize] at *
    omega
  obtain ⟨hNumber, hShift⟩ := @metaMem_split number t hBounds.1 hBounds.2
  have hClear : MetaT.mk n ((usedCell n).color &&& ~~~metaColorAlloc) (usedCell n).freeNext
      (usedCell n).freePrev = freeCell n (-1) (-1) := by
    simp [usedCell, freeCell, metaColorAlloc, metaColorDefault]
  have hCellSize : (usedCell n).size = n := rfl
  simp only [slabFree, hNumber, hShift, hPage, Option.bind_eq_bind, Option.bind_some,
    PageT.get_eq ht, PageT.modify_eq ht, hCell, usedCell_allocated, not_true_eq_false,
    if_false, hClear, hInsert, hCellSize, hFree]
  split
  · rw [Option.map_eq_bind]
    rfl
  · rfl

/-- The live pointers without the one to `t`, by page. -/
theorem Matches.release (h : Matches ⟨slab, live⟩ blocks)
    (hBounds : 0 ≤ t ∧ t < 4096)
    (hMem : ∀ x, x ∈ owned metaSize pageHeadSize zs ↔
      x ∈ owned metaSize pageHeadSize (blocks number) ∧ x.1 ≠ t) (memory sz : Nat) :
    (memory, sz) ∈ live.filter (fun b => b.1 ≠ metaMem number t) ↔
      (∃ other t, other ≠ number ∧ (t, sz) ∈ owned metaSize pageHeadSize (blocks other) ∧
        memory = metaMem other t) ∨
      ∃ t, (t, sz) ∈ owned metaSize pageHeadSize zs ∧ memory = metaMem number t := by
  rw [List.mem_filter, h.live_split number memory sz]
  constructor
  · rintro ⟨hOther | ⟨t', hOwner, rfl⟩, hNe⟩
    · exact Or.inl hOther
    · refine Or.inr ⟨t', (hMem _).mpr ⟨hOwner, ?_⟩, rfl⟩
      rintro rfl
      simp at hNe
  · rintro (⟨other, t', hNe, hOwner, rfl⟩ | ⟨t', hOwner, rfl⟩)
    · refine ⟨Or.inl ⟨other, t', hNe, hOwner, rfl⟩, ?_⟩
      have hDiff : metaMem other t' ≠ metaMem number t :=
        fun hEq => hNe (metaMem_inj (h.bounds hOwner) hBounds hEq).1
      simpa using hDiff
    · have hOwner' := (hMem _).mp hOwner
      refine ⟨Or.inr ⟨t', hOwner'.1, rfl⟩, ?_⟩
      have hDiff : metaMem number t' ≠ metaMem number t :=
        fun hEq => hOwner'.2 (metaMem_inj (h.bounds hOwner'.1) hBounds hEq).2
      simpa using hDiff

/-- What `slab_free` does with the page of a block: it is moved to the list for the size of the
block, if there is one, has the room of the block added, and goes back when that is all it has. -/
structure Freed (slab slab' slab₁ : SlabT) (memory number : Nat) (page page' : PageT) : Prop where
  inPage : slab.pages number = some page
  room : 0 ≤ page.remain
  eq : number = (memory - metaSize.toNat) / pageSize.toNat
  low : 0 ≤ payloadSize slab memory
  high : payloadSize slab memory ≤ pageSize
  insert : slabPageInsert slab number (usedCell (payloadSize slab memory)) = some slab₁
  remain : page'.remain = page.remain + (metaSize + payloadSize slab memory)
  result : slab' =
    if page'.remain + pageHeadSize = pageSize then
      { without slab₁ number with pages := Function.update slab₁.pages number none }
    else slab₁.setPage number page'

/-- `slab_free` of a live pointer. -/
theorem slabFree_spec (hInv : Inv ⟨slab, live⟩) (hLive : memory ∈ live.map Prod.fst) :
    ∃ slab', slabFree slab (some memory) = some slab' ∧
      Inv ⟨slab', live.filter fun b => b.1 ≠ memory⟩ ∧
      ∃ slab₁ number page page', Freed slab slab' slab₁ memory number page page' := by
  obtain ⟨⟨blocks, hMatches⟩, hLinked⟩ := hInv
  obtain ⟨⟨memory', r⟩, hIn, rfl⟩ := List.mem_map.mp hLive
  obtain ⟨number, page, t, n, hBlock⟩ := hMatches.block_at hIn
  have hPage : slab.pages number = some page := hBlock.inPage
  obtain ⟨xs, ys, hBs, ht⟩ := exists_of_placed hBlock.placed
  have hRepr := hBlock.repr
  rw [hBs] at hRepr
  have hValid : ValidShift t := by
    rw [ht]
    exact hRepr.fills.validShift
  have hSome : (slab.pages number).isSome := by rw [hPage]; rfl
  have hCell : page.metas t = usedCell n := by
    have hLays := hRepr.lays
    rw [lays_append, lays_used, ← ht] at hLays
    exact hLays.2.1
  obtain ⟨slab₁, hInsert, hLinked₁, hPages₁⟩ := slabPageInsert_spec hLinked hSome (usedCell n)
  -- the page as `_slab_free_quick_merge` finds it
  have hRel : Released page ⟨page.free, page.remain + (n + metaSize),
      Function.update page.metas t (freeCell n (-1) (-1))⟩ (pageHeadSize + span metaSize xs) n := by
    rw [← ht]
    exact ⟨Function.update_self _ _ _, fun u hu => Function.update_of_ne hu _ _, rfl, rfl⟩
  obtain ⟨page', zs, hFree, hRepr', hCoalesced⟩ := pageFree_spec hRepr hRel
  have hRemain : page'.remain = page.remain + (metaSize + n) := by
    rw [hRepr'.remain, hRepr.remain, hCoalesced.room_eq]
  have hRest : 0 ≤ page.remain := by
    rw [hRepr.remain]
    exact room_nonneg (by decide) hRepr.fills.sized
  have hMem : ∀ x, x ∈ owned metaSize pageHeadSize zs ↔
      x ∈ owned metaSize pageHeadSize (blocks number) ∧ x.1 ≠ t := by
    intro x
    rw [hBs, ht]
    exact hCoalesced.mem_owned (by decide) hRepr.fills.sized
  rw [← ht] at hFree
  obtain rfl := hBlock.eq
  have hSub := hMatches.release (hMatches.bounds (owned_of_mem_placed hBlock.placed)) hMem
  have hNodup : ((live.filter fun b => b.1 ≠ metaMem number t).map Prod.fst).Nodup :=
    hMatches.nodup.sublist (List.Sublist.map Prod.fst List.filter_sublist)
  have hSome₁ : (slab₁.pages number).isSome := by rw [hPages₁]; exact hSome
  have hRoom := hRepr'.remain
  have hWhole := hRepr'.fills.whole
  have hDel : listDel slab₁ number = some (without slab₁ number) := hLinked₁.listDel_eq hSome₁
  obtain ⟨after, hAfter⟩ : ∃ after, after =
      if page'.remain + pageHeadSize = pageSize then
        { without slab₁ number with pages := Function.update slab₁.pages number none }
      else slab₁.setPage number page' := ⟨_, rfl⟩
  have hRun : slabFree slab (some (metaMem number t)) = some after := by
    rw [slabFree_run hPage hValid hCell hInsert hFree, hDel, hAfter]
    split <;> rfl
  have hSize : payloadSize slab (metaMem number t) = n := hBlock.size
  have hLow : 0 ≤ n := by
    have hSized := hRepr.fills.sized
    rw [sized_append, sized_mk] at hSized
    exact hSized.2.1.1
  have hHigh : n ≤ pageSize := by
    have hFirst := hBlock.low
    have hLast := hBlock.high
    simp only [metaSize, pageSize, pageHeadSize] at *
    omega
  have hBounds := hMatches.bounds (owned_of_mem_placed hBlock.placed)
  have hFreed : Freed slab after slab₁ (metaMem number t) number page page' :=
    { inPage := hPage
      room := hRest
      eq := (metaMem_split hBounds.1 hBounds.2).1.symm
      low := by rwa [hSize]
      high := by rwa [hSize]
      insert := by rwa [hSize]
      remain := by rwa [hSize]
      result := hAfter }
  refine ⟨after, hRun, ?_, slab₁, number, page, page', hFreed⟩
  rw [hAfter]
  by_cases hEmpty : page'.remain + pageHeadSize = pageSize
  · rw [if_pos hEmpty]
    have hNone : owned metaSize pageHeadSize zs = [] :=
      owned_nil_of_room_eq (by decide) hRepr'.fills.sized (by omega)
    refine ⟨⟨Function.update blocks number [], ?_⟩, hLinked₁.removePage⟩
    apply hMatches.update _ _ _ _ hNodup
    · intro other hNe
      rw [← hPages₁]
      exact Function.update_of_ne hNe _ _
    · intro page₂ hPage₂
      simp only [Function.update_self] at hPage₂
      cases hPage₂
    · intro _
      rfl
    · intro memory sz
      rw [hSub memory sz, hNone]
      rfl
  · rw [if_neg hEmpty]
    have hOwned : owned metaSize pageHeadSize zs ≠ [] := by
      intro hNone
      have hFull := room_eq_of_owned_nil hNone
      omega
    have hPages : (slab₁.setPage number page').pages =
        Function.update slab.pages number (some page') := by
      rw [← hPages₁]
      rfl
    exact ⟨⟨_, hMatches.set hPages hRepr' hOwned hSub hNodup⟩, hLinked₁.setPage hSome₁⟩

/-! ### An owner writes to its memory -/

/-- A write into a used block does not reach the metas. -/
theorem PageRepr.write {xs ys : List Block} {n u : Int} {value : MetaT}
    (h : PageRepr page (xs ++ ⟨n, some r⟩ :: ys))
    (hLow : pageHeadSize + span metaSize xs < u)
    (hHigh : u < pageHeadSize + span metaSize xs + (metaSize + n)) :
    PageRepr { page with metas := Function.update page.metas u value }
      (xs ++ ⟨n, some r⟩ :: ys) := by
  refine ⟨h.fills, h.fits, h.apart, ?_, h.free, h.remain⟩
  have hSized := h.fills.sized
  rw [sized_append, sized_mk] at hSized
  have hLays := h.lays
  rw [lays_append, lays_used] at hLays ⊢
  refine ⟨?_, ?_, ?_⟩
  · apply hLays.1.congr hSized.1
    intro t _ ht
    exact Function.update_of_ne (by omega) _ _
  · rw [← hLays.2.1]
    exact Function.update_of_ne (by omega) _ _
  · apply hLays.2.2.congr hSized.2.2
    intro t ht _
    exact Function.update_of_ne (by omega) _ _

theorem write_inv {unit : Nat} {value : MetaT} (hInv : Inv ⟨slab, live⟩)
    (hLive : memory ∈ live.map Prod.fst) (hUnit : 8 * (unit : Int) < payloadSize slab memory) :
    ∃ slab', slabStep ⟨slab, live⟩ (.write memory unit value) = some (none, ⟨slab', live⟩) ∧
      Inv ⟨slab', live⟩ := by
  obtain ⟨⟨blocks, hMatches⟩, hLinked⟩ := hInv
  obtain ⟨⟨memory', sz⟩, hIn, rfl⟩ := List.mem_map.mp hLive
  obtain ⟨number, page, t, n, hBlock⟩ := hMatches.block_at hIn
  have hSize : payloadSize slab memory' = n := hBlock.size
  rw [hSize] at hUnit
  have hPage : slab.pages number = some page := hBlock.inPage
  obtain ⟨xs, ys, hBs, ht⟩ := exists_of_placed hBlock.placed
  have hRepr := hBlock.repr
  have hOwned := (hMatches.pages number page hPage).2
  have hSome : (slab.pages number).isSome := by rw [hPage]; rfl
  have hLow := hBlock.low
  have hHigh := hBlock.high
  have hAligned := hBlock.aligned
  have hSized := hRepr.fills.sized
  rw [hBs, sized_append, sized_mk] at hSized
  have hDvd := hSized.2.1.2
  simp only [metaSize, pageSize, pageHeadSize] at hLow hHigh
  have hEq := @metaMem_eq number t (by omega)
  rw [← hBlock.eq] at hEq
  have hNumber : (memory' + 8 * unit) / pageSize.toNat = number := by
    have hPageSize : pageSize.toNat = 4096 := rfl
    rw [hPageSize]
    omega
  have hShift : ((memory' + 8 * unit) % pageSize.toNat : Nat) = t + 8 + 8 * (unit : Int) := by
    have hPageSize : pageSize.toNat = 4096 := rfl
    rw [hPageSize]
    omega
  have hValid : ValidShift (t + 8 + 8 * unit) := by
    simp only [ValidShift, metaSize, pageSize, pageHeadSize]
    omega
  refine ⟨slab.setPage number { page with
    metas := Function.update page.metas (t + 8 + 8 * unit) value }, ?_,
    ⟨Function.update blocks number (blocks number), ?_⟩, hLinked.setPage hSome⟩
  · simp only [slabStep, hNumber, hShift, hPage, Option.bind_eq_bind, Option.bind_some,
      PageT.modify_eq hValid]
    rfl
  · apply hMatches.set rfl _ hOwned (hMatches.live_split number) hMatches.nodup
    rw [hBs] at hRepr ⊢
    apply hRepr.write
    · rw [← ht]
      omega
    · rw [← ht]
      simp only [metaSize]
      omega

/-- Every legal call returns and keeps the invariant. -/
theorem slabStep_inv {op : SlabOp} (hInv : Inv st) (hLegal : Legal st op) :
    ∃ p st', slabStep st op = some (p, st') ∧ Inv st' := by
  obtain ⟨slab, live⟩ := st
  cases op with
  | alloc sz fresh =>
      cases slabAlloc_inv hInv hLegal.1 hLegal.2.1 hLegal.2.2 with
      | inl hNone => exact ⟨none, _, by simp only [slabStep, hNone]; rfl, hInv⟩
      | inr hSome =>
          obtain ⟨memory, slab', hAlloc, hInv'⟩ := hSome
          exact ⟨some memory, _, by simp only [slabStep, hAlloc]; rfl, hInv'⟩
  | free memory =>
      obtain ⟨slab', hFree, hInv', -⟩ := slabFree_spec hInv hLegal
      exact ⟨none, _, by simp only [slabStep, hFree]; rfl, hInv'⟩
  | write memory unit value =>
      obtain ⟨⟨memory', sz⟩, hIn, rfl, hUnit⟩ := hLegal
      have hSize := ((sound_of_inv hInv).live memory' sz hIn).2.2
      have hLive : memory' ∈ live.map Prod.fst := List.mem_map.mpr ⟨_, hIn, rfl⟩
      obtain ⟨slab', hStep, hInv'⟩ := @write_inv slab memory' live unit value hInv hLive
        (by dsimp only at hUnit hSize; omega)
      exact ⟨none, _, hStep, hInv'⟩

theorem inv_init : Inv ⟨slabInit, []⟩ := by
  refine ⟨⟨fun _ => [], ?_, fun _ _ => rfl, ?_, List.nodup_nil⟩, ?_, ?_, ?_⟩
  · intro number page hPage
    cases hPage
  · intro memory sz
    constructor
    · intro hIn
      cases hIn
    · rintro ⟨number, t, hIn, -⟩
      cases hIn
  · intro head
    exact List.nodup_nil
  · intro a b number ha
    cases ha
  · intro number
    constructor
    · rintro ⟨head, hIn⟩
      cases hIn
    · intro hSome
      cases hSome

end

/-! ## Whole runs -/

/-- From the start, every call returns, and pages and live blocks are sound after it.  A new page
may hold anything, and the callers may write anything into their blocks. -/
theorem slab_run_sound {ops : List SlabOp} (hLegal : Along slabStep Legal ⟨slabInit, []⟩ ops) :
    Along slabStep (Does slabStep fun _ _ _ st' => Sound st') ⟨slabInit, []⟩ ops := by
  apply along_of_spec Inv _ inv_init hLegal
  intro st op hInv hOp
  obtain ⟨p, st', hStep, hInv'⟩ := slabStep_inv hInv hOp
  exact ⟨p, st', hStep, sound_of_inv hInv', hInv'⟩

/-- A new page whose content looks like used blocks. -/
def dirtyPage : Int → MetaT := fun _ => { size := 8, color := 3, freeNext := 24, freePrev := 32 }

/-- Blocks that are split off, an exact fit, a write, and releases of all four kinds. -/
theorem slab_run_sound_four_kinds :
    Along slabStep (Does slabStep fun _ _ _ st' => Sound st') ⟨slabInit, []⟩
      [.alloc 100 (some (1, dirtyPage)), .alloc 8 none, .alloc 9 none, .alloc 20 none,
        .write 4128 12 (dirtyPage 0), .free 4128, .free 4240, .alloc 8 none, .free 4128,
        .free 4280, .free 4256, .alloc 1024 (some (2, dirtyPage))] :=
  slab_run_sound (by decide)

end Gbase.Mm.Slab
