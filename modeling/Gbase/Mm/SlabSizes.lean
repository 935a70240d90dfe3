import Gbase.Mm.SlabLists
import Mathlib.Data.Fintype.EquivFin

/-!
# The sizes of requests

The alignment of a request wraps around: the last seven sizes of a `size_t` become 0, for which
there is a list.

Which sizes lose their value in the rounding is an arithmetical question about words of 64 bits, and
is settled here before the lists come in; a size that keeps its value and has no list is answered
with `NULL`.

## Main results

* `slabAlloc_size`: a request with a list gets a block of its aligned size.
* `slab_alloc_size_iff`: when `slab_alloc` gives what was asked for or nothing.
-/

namespace Gbase.Mm.Slab

open Gbase.Core.OsDef
open Gbase.Lib.Run

/-- `slab_alloc` gives `NULL` for no bytes and for more than `SLAB_SIZE_MAX`; otherwise it gives a
block for the size rounded up to 8, or `NULL` when there is no new page. -/
def SizeRight (slab : SlabT) (sz : Nat) : Prop :=
  ∀ fresh, (∀ answer, answer ∈ fresh → (slab.pages answer.1).isNone) →
    ∃ memory slab', slabAlloc slab sz fresh = some (memory, slab') ∧
      if sz = 0 ∨ slabSizeMax < sz then memory = none
      else (memory = none → fresh = none) ∧
        ∀ p, memory = some p → (((sz + 7) / 8 * 8 : Nat) : Int) ≤ payloadSize slab' p

section

variable {slab : SlabT} {live : List (Nat × Nat)} {sz : Nat} {head : Head} {s : State}

/-- The last seven sizes. -/
theorem slabAlign_wraps (hSz : 2 ^ 64 - 8 < sz) (hMax : sz < 2 ^ 64) : slabAlign sz = 0 := by
  have hWrap : (sz + 7) % 2 ^ 64 < 8 := by omega
  rw [slabAlign, Nat.shiftRight_eq_div_pow, Nat.shiftLeft_eq, Nat.div_eq_of_lt (by omega)]
  rfl

/-- A request with a list gets a block of its aligned size, unless there is no new page. -/
theorem slabAlloc_size {fresh : Option (Nat × (Int → MetaT))} (hInv : Inv ⟨slab, live⟩)
    (hPos : sz ≠ 0) (hHead : slabFreePage (slabAlign sz) = some head)
    (hFresh : ∀ answer, answer ∈ fresh → (slab.pages answer.1).isNone) :
    ∃ memory slab', slabAlloc slab sz fresh = some (memory, slab') ∧
      (memory = none → fresh = none) ∧
      ∀ p, memory = some p → (slabAlign sz : Int) ≤ payloadSize slab' p := by
  rcases slabAlloc_spec hInv hPos hHead (dvd_slabAlign sz) (Nat.le_refl _) hFresh with
    ⟨hNoPage, hNone⟩ | ⟨memory, slab', hAlloc, hInv', -⟩
  · refine ⟨none, slab, hNone, fun _ => hNoPage, ?_⟩
    intro p hp
    cases hp
  · refine ⟨some memory, slab', hAlloc, ?_, ?_⟩
    · intro hNone
      cases hNone
    · intro p hp
      cases hp
      exact ((sound_of_inv hInv').live memory _ List.mem_cons_self).2.2

/-- Some page is not in use. -/
theorem Linked.unused (h : Linked slab) : ∃ number, slab.pages number = none := by
  obtain ⟨number, hNot⟩ := Infinite.exists_notMem_finset
    (slab.lists .slabMinor ++ slab.lists .slabCommon ++ slab.lists .allocSlabMinor ++
      slab.lists .allocSlabCommon).toFinset
  refine ⟨number, Option.not_isSome_iff_eq_none.mp ?_⟩
  intro hSome
  obtain ⟨head, hIn⟩ := (h.pages number).mpr hSome
  apply hNot
  cases head <;> simp [hIn]

/-- At any time of a run, a request is answered by its size exactly if it is not one of the last
seven sizes, which get a block for no bytes. -/
theorem slab_alloc_size_iff {ops : List SlabOp} {results : List (Option Nat)}
    (hOps : Along slabStep AnySize ⟨slabInit, []⟩ ops)
    (hRun : run slabStep ⟨slabInit, []⟩ ops = some (results, s)) (hMax : sz < 2 ^ 64) :
    SizeRight s.slab sz ↔ sz ≤ 2 ^ 64 - 8 := by
  have hKeep : ∀ s op, Tracked s → AnySize s op →
      ∃ result s', slabStep s op = some (result, s') ∧ Tracked s' := by
    intro s op hTracked hOp
    obtain ⟨result, s', hStep, hTracked', -⟩ := hTracked.step hOp
    exact ⟨result, s', hStep, hTracked'⟩
  obtain ⟨results', s', hRun', live, -, hInv⟩ := run_of_inv Tracked hKeep tracked_init hOps
  rw [hRun] at hRun'
  cases hRun'
  constructor
  · intro hRight
    by_contra hLast
    have hWraps := slabAlign_wraps (by omega) hMax
    have hHead : slabFreePage (slabAlign sz) = some .slabMinor := by
      rw [hWraps]
      rfl
    have hMaxEq : slabSizeMax = 1024 := rfl
    obtain ⟨number, hUnused⟩ := hInv.linked.unused
    have hFresh : ∀ answer, answer ∈ some (number, dirtyPage) →
        (s.slab.pages answer.1).isNone := by
      intro answer hAnswer
      cases hAnswer
      exact Option.isNone_iff_eq_none.mpr hUnused
    obtain ⟨memory, slab', hAlloc, hSize⟩ := hRight _ hFresh
    obtain ⟨memory₁, slab₁, hAlloc₁, hBlock, -⟩ := slabAlloc_size hInv (by omega) hHead hFresh
    rw [if_pos (Or.inr (by omega))] at hSize
    rw [hAlloc₁] at hAlloc
    cases hAlloc
    exact Option.some_ne_none _ (hBlock hSize)
  · intro hSz fresh hFresh
    have hAlign := slabAlign_eq hSz
    have hMaxEq : slabSizeMax = 1024 := rfl
    by_cases hOut : sz = 0 ∨ slabSizeMax < sz
    · refine ⟨none, s.slab, ?_, by rw [if_pos hOut]⟩
      by_cases hZero : sz = 0
      · exact if_pos hZero
      · have hNoList : slabFreePage (slabAlign sz) = none := by
          have hMinorEq : slabSizeMinor = 128 := rfl
          rw [slabFreePage, if_neg (by omega), if_neg (by omega)]
        rw [slabAlloc, if_neg hZero]
        simp only [hNoList]
    · rw [not_or] at hOut
      obtain ⟨-, -, hHigh, -⟩ := @slabAlign_spec sz (by omega) (by omega)
      obtain ⟨head, hHead⟩ := slabFreePage_some hHigh
      obtain ⟨memory, slab', hAlloc, hBlock, hSize⟩ := slabAlloc_size hInv hOut.1 hHead hFresh
      refine ⟨memory, slab', hAlloc, ?_⟩
      rw [if_neg (by rw [not_or]; exact hOut), ← hAlign]
      exact ⟨hBlock, hSize⟩

end

/-- A page with one block, asked for 100 bytes more. -/
theorem slab_alloc_size_hundred :
    ∃ results s, run slabStep ⟨slabInit, []⟩ [.alloc 9 (some (1, dirtyPage))] =
        some (results, s) ∧
      (SizeRight s.slab 100 ↔ 100 ≤ 2 ^ 64 - 8) := by
  have hOps : Along slabStep AnySize ⟨slabInit, []⟩ [.alloc 9 (some (1, dirtyPage))] := by decide
  exact ⟨_, _, rfl, slab_alloc_size_iff hOps rfl (by decide)⟩

/-- The largest size gets a block of no bytes. -/
theorem slab_alloc_size_last : ¬ SizeRight slabInit (2 ^ 64 - 1) := by
  intro hRight
  obtain ⟨memory, slab', hAlloc, hSize⟩ := hRight (some (1, dirtyPage)) (fun _ _ => rfl)
  have hBlock : (slabAlloc slabInit (2 ^ 64 - 1) (some (1, dirtyPage))).map Prod.fst =
      some (some 4128) := by decide
  rw [hAlloc, Option.map_some, Option.some.injEq] at hBlock
  rw [if_pos (by decide)] at hSize
  exact absurd (hSize.symm.trans hBlock) (by decide)

end Gbase.Mm.Slab
