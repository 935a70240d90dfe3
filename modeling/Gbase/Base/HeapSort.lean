import Gbase.Base.HeapRuns

/-!
# Sorting with the heap

Inserting the elements of a list into a fresh heap and popping as many gives them back in
order.  No key is freed before the last insertion, so every insertion finds a key at hand,
over any number of reallocations.

None of the calls that can go wrong is made here, and the specifications of two operations are
enough.

## Main results

* `insertAll_spec`: the insertions put the elements into the heap, under their keys.
* `popAll_spec`: popping gives the stored elements, the least first.
* `heap_sort`: the two together.
-/

namespace Gbase.Base.Heap

open Gbase.Lib.Comparator
open Gbase.Lib.ImplicitHeap

variable {α : Type}

/-- Insert the elements of a list one after the other, and collect the keys. -/
def insertAll (cmp : α → α → Int) : HeapT α → List α → Option (List Int × HeapT α)
  | heap, [] => some ([], heap)
  | heap, d :: l => do
      let (key, heap₁) ← heapInsert cmp true heap (some d)
      let (keys, heap₂) ← insertAll cmp heap₁ l
      return (key :: keys, heap₂)

/-- Pop `n` times, and collect what is popped with the size that is left. -/
def popAll (cmp : α → α → Int) : Nat → HeapT α → Option (List (Option α × Nat) × HeapT α)
  | 0, heap => some ([], heap)
  | n + 1, heap => do
      let (data, heap₁) ← heapPop cmp heap
      let (popped, heap₂) ← popAll cmp n heap₁
      return ((data, heapSize heap₁) :: popped, heap₂)

/-! ## What the heap stores -/

/-- The data pointers in the heap. -/
def HeapT.stored (heap : HeapT α) : Multiset (Option α) := heap.entries.map NodeT.data

/-- The keys in use. -/
def HeapT.keys (heap : HeapT α) : Multiset Int := heap.entries.map NodeT.heapKey

theorem entries_card (heap : HeapT α) : heap.entries.card = heap.size := by
  simp [HeapT.entries]

/-- The data at the top is not behind any other. -/
theorem top_le_stored {cmp : α → α → Int} (hPre : TotalPreorder cmp) {heap : HeapT α}
    (hOrd : HeapOrdered cmp heap) {x y : α} (hTop : (heap.array 0).data = some x)
    (hy : some y ∈ heap.stored) : cmp x y ≤ 0 := by
  obtain ⟨n, hn, hData⟩ := Multiset.mem_map.mp hy
  obtain ⟨i, hi, rfl⟩ := mem_entries.mp hn
  have hLe := hOrd.top_le (nodeLe_refl hPre) (nodeLe_trans hPre) i hi
  simp only [nodeLe, hTop, hData] at hLe
  exact hLe

/-! ## The two phases -/

theorem insertAll_spec {cmp : α → α → Int} (hPre : TotalPreorder cmp) (l : List α) :
    ∀ {heap : HeapT α}, Usable heap → KeyConsistent heap → HeapOrdered cmp heap →
      ∃ keys heap', insertAll cmp heap l = some (keys, heap') ∧ Usable heap' ∧
        HeapOrdered cmp heap' ∧ keys.length = l.length ∧
        heap'.stored = ↑(l.map some) + heap.stored ∧ heap'.keys = ↑keys + heap.keys := by
  induction l with
  | nil =>
      intro heap hU _ hOrd
      exact ⟨[], heap, rfl, hU, hOrd, rfl, by simp, by simp⟩
  | cons d l ih =>
      intro heap hU hKeys hOrd
      obtain ⟨heap₁, hRun, hU₁, hEntries, -, hOrd₁⟩ :=
        heapInsert_usable cmp hU hKeys.keyAtHand d fun _ => rfl
      have hKeys₁ : KeyConsistent heap₁ := by
        obtain ⟨heap', hRun', hKeys'⟩ := heapInsert_keys cmp hU hKeys d fun _ => rfl
        rw [hRun] at hRun'
        rw [(Prod.mk.inj (Option.some.inj hRun')).2]
        exact hKeys'
      obtain ⟨keys, heap₂, hRest, hU₂, hOrd₂, hLength, hStored, hInUse⟩ :=
        ih hU₁ hKeys₁ (hOrd₁ hPre hOrd)
      refine ⟨heap.nextKey :: keys, heap₂, ?_, hU₂, hOrd₂, ?_, ?_, ?_⟩
      · rw [insertAll, hRun]
        simp [hRest]
      · rw [List.length_cons, hLength, List.length_cons]
      · have hOne : heap₁.stored = some d ::ₘ heap.stored := by
          rw [HeapT.stored, hEntries, Multiset.map_cons]
          rfl
        rw [hStored, hOne, List.map_cons, Multiset.add_cons, ← Multiset.cons_coe,
          Multiset.cons_add]
      · have hOne : heap₁.keys = heap.nextKey ::ₘ heap.keys := by
          rw [HeapT.keys, hEntries, Multiset.map_cons]
          rfl
        rw [hInUse, hOne, Multiset.add_cons, ← Multiset.cons_coe, Multiset.cons_add]

theorem popAll_spec {cmp : α → α → Int} (hPre : TotalPreorder cmp) (n : Nat) :
    ∀ {heap : HeapT α}, Usable heap → HeapOrdered cmp heap → heap.size = n →
      ∃ popped heap', ∃ l : List α, popAll cmp n heap = some (popped, heap') ∧
        popped.map Prod.snd = (List.range n).reverse ∧ popped.map Prod.fst = l.map some ∧
        heap.stored = ↑(l.map some) ∧ l.Pairwise fun x y => cmp x y ≤ 0 := by
  induction n with
  | zero =>
      intro heap _ _ hSize
      refine ⟨[], heap, [], rfl, rfl, rfl, ?_, List.Pairwise.nil⟩
      simp [HeapT.stored, HeapT.entries, hSize]
  | succ n ih =>
      intro heap hU hOrd hSize
      obtain ⟨x, hTop⟩ := hU.live.data 0 (by omega)
      obtain ⟨heap₁, hRun, hU₁, hEntries, hOrd₁⟩ := heapPop_usable cmp hU (by omega)
      have hSize₁ : heap₁.size = n := by
        have hCard := congrArg Multiset.card hEntries
        rw [Multiset.card_cons, entries_card, entries_card] at hCard
        omega
      have hStored : heap.stored = some x ::ₘ heap₁.stored := by
        rw [HeapT.stored, hEntries, Multiset.map_cons, hTop]
        rfl
      obtain ⟨popped, heap₂, l, hRest, hSizes, hData, hRestStored, hSorted⟩ :=
        ih hU₁ (hOrd₁ hPre hOrd) hSize₁
      refine ⟨(some x, n) :: popped, heap₂, x :: l, ?_, ?_, ?_, ?_, ?_⟩
      · rw [popAll, hRun, hTop]
        simp [hRest, heapSize, hSize₁]
      · rw [List.map_cons, hSizes, List.range_succ, List.reverse_append]
        rfl
      · rw [List.map_cons, hData, List.map_cons]
      · rw [hStored, hRestStored, List.map_cons, Multiset.cons_coe]
      · refine List.Pairwise.cons ?_ hSorted
        intro y hy
        apply top_le_stored hPre hOrd hTop
        rw [hStored, hRestStored]
        exact Multiset.mem_cons_of_mem (Multiset.mem_coe.mpr (List.mem_map_of_mem hy))

/-- Inserting any list into a fresh heap gives distinct keys, and popping as often as there
are elements gives a permutation of the list in order, the size counting down to zero. -/
theorem heap_sort {cmp : α → α → Int} (hPre : TotalPreorder cmp) (l : List α) :
    ∃ keys heap popped heap', ∃ sorted : List α,
      insertAll cmp heapCreate l = some (keys, heap) ∧
      keys.length = l.length ∧ keys.Nodup ∧ (∀ key ∈ keys, 0 ≤ key) ∧
      heapSize heap = l.length ∧ popAll cmp l.length heap = some (popped, heap') ∧
      popped.map Prod.snd = (List.range l.length).reverse ∧
      popped.map Prod.fst = sorted.map some ∧ sorted.Perm l ∧
      sorted.Pairwise fun x y => cmp x y ≤ 0 := by
  obtain ⟨keys, heap, hInsert, hU, hOrd, hLength, hStored, hKeys⟩ :=
    insertAll_spec hPre l heapCreate_usable heapCreate_keys (heapCreate_ordered cmp)
  have hFresh : (heapCreate : HeapT α).entries = 0 := rfl
  rw [HeapT.stored, HeapT.stored, hFresh, Multiset.map_zero, Multiset.add_zero] at hStored
  rw [HeapT.keys, HeapT.keys, hFresh, Multiset.map_zero, Multiset.add_zero] at hKeys
  have hSize : heap.size = l.length := by
    have hCard := congrArg Multiset.card hStored
    rwa [Multiset.card_map, entries_card, Multiset.coe_card, List.length_map] at hCard
  have hNodup : keys.Nodup := by
    rw [← Multiset.coe_nodup, ← hKeys]
    exact hU.live.keys_nodup
  have hNonneg : ∀ key ∈ keys, 0 ≤ key := by
    intro key hMem
    rw [← Multiset.mem_coe, ← hKeys] at hMem
    obtain ⟨n, hn, rfl⟩ := Multiset.mem_map.mp hMem
    obtain ⟨i, hi, rfl⟩ := mem_entries.mp hn
    exact (hU.live.key i hi).1
  obtain ⟨popped, heap', sorted, hPop, hSizes, hData, hSorted, hPairwise⟩ :=
    popAll_spec hPre l.length hU hOrd hSize
  refine ⟨keys, heap, popped, heap', sorted, hInsert, hLength, hNodup, hNonneg, hSize, hPop,
    hSizes, hData, ?_, hPairwise⟩
  have hSome : (sorted.map some).Perm (l.map some) :=
    Multiset.coe_eq_coe.mp (hSorted.symm.trans hStored)
  exact (List.map_perm_map_iff (Option.some_injective α)).mp hSome

/-- A list with repetitions, sorted. -/
theorem heap_sort_five :
    ∃ keys heap popped heap', ∃ sorted : List Nat,
      insertAll natCmp heapCreate [5, 2, 9, 2, 1] = some (keys, heap) ∧
      keys.length = 5 ∧ keys.Nodup ∧ (∀ key ∈ keys, 0 ≤ key) ∧
      heapSize heap = 5 ∧ popAll natCmp 5 heap = some (popped, heap') ∧
      popped.map Prod.snd = (List.range 5).reverse ∧
      popped.map Prod.fst = sorted.map some ∧ sorted.Perm [5, 2, 9, 2, 1] ∧
      sorted.Pairwise fun x y => natCmp x y ≤ 0 :=
  heap_sort natCmp_totalPreorder [5, 2, 9, 2, 1]

end Gbase.Base.Heap
