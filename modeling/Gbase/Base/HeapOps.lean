import Gbase.Base.HeapSpec

/-!
# What the heap operations do

Each operation is described by the heap it would leave without sifting (`placed`,
`removed`, `replaced`), of which the real result is a rearrangement.  `Usable` is the
consistency every reachable heap has.

`heap_erase` and `heap_update` only sift down, which is enough unless the new node is smaller than
its parent.  Both are therefore described with the condition under which they keep the order, and
the order is kept apart from the consistency that holds in any case.

## Main results

* `removed_ordered_iff`, `replaced_ordered_iff`: when sifting down is enough.
* `heapInsert_usable`, `heapErase_usable`, `heapUpdate_usable`, `heapPop_usable`: the
  results of the operations on a usable heap, and exactly when they keep its order.
* `heapInsert_undefined`: the one access out of bounds that a run can reach.
-/

namespace Gbase.Base.Heap

open Gbase.Lib.Comparator
open Gbase.Lib.ImplicitHeap

variable {α : Type}

/-! ## `heap_insert` -/

/-- The heap with a new node behind the last one, before it is moved up. -/
def HeapT.placed (heap : HeapT α) (d : α) (nextKey : Int) : HeapT α :=
  { heap with
    array := fun i =>
      if i = heap.size then { data := some d, heapKey := heap.nextKey } else heap.array i
    size := heap.size + 1
    nextKey := nextKey
    keyTable := fun k => if k = heap.nextKey.toNat then heap.size else heap.keyTable k }

theorem placed_live {heap : HeapT α} (hLive : Live heap) {next : Nat}
    (hNext : heap.nextKey = next) (hLt : next < heap.cap) (hRoom : heap.size < heap.cap)
    (hFree : heap.keyTable next < 0) (d : α) (nextKey : Int) : Live (heap.placed d nextKey) := by
  have hCases : ∀ i, i < heap.size + 1 → i = heap.size ∨ i < heap.size ∧ i ≠ heap.size := by
    intro i hi
    omega
  refine ⟨hRoom, ?_, ?_, ?_⟩
  · intro i hi
    rcases hCases i hi with h | ⟨h, hne⟩
    · exact ⟨d, by simp [HeapT.placed, h]⟩
    · simpa [HeapT.placed, hne] using hLive.data i h
  · intro i hi
    rcases hCases i hi with h | ⟨h, hne⟩
    · simp only [HeapT.placed, h, if_true, hNext]
      omega
    · simpa [HeapT.placed, hne] using hLive.key i h
  · intro i hi
    rcases hCases i hi with h | ⟨h, hne⟩
    · simp [HeapT.placed, h]
    · simp only [HeapT.placed, hne, if_false, hNext, Int.toNat_natCast]
      have hPos := hLive.pos i h
      rw [if_neg, hPos]
      intro hKey
      rw [hKey] at hPos
      omega

theorem placed_entries (heap : HeapT α) (d : α) (nextKey : Int) :
    (heap.placed d nextKey).entries =
      { data := some d, heapKey := heap.nextKey } ::ₘ heap.entries := by
  simp only [HeapT.entries, HeapT.placed, Multiset.range_succ, Multiset.map_cons, if_true]
  congr 1
  refine Multiset.map_congr rfl ?_
  intro i hi
  rw [Multiset.mem_range] at hi
  rw [if_neg (by omega)]

/-- A new last node can only be out of order with its parent. -/
theorem placed_siftUpInv {cmp : α → α → Int} {heap : HeapT α} (d : α) (nextKey : Int)
    (hOrd : HeapOrdered cmp heap) :
    SiftUpInv (nodeLe cmp) (heap.placed d nextKey).array (heap.size + 1) heap.size where
  off := by
    intro i hi hin hne
    have hUp := parent_lt hi
    have hLe := hOrd i hi (by omega)
    simpa only [HeapT.placed, hne, show parent i ≠ heap.size by omega, if_false] using hLe
  grand := by
    intro _ i hi hin hpi
    have hUp := parent_lt hi
    omega

/-- `_heap_realloc` succeeding. -/
def HeapT.grown (heap : HeapT α) : HeapT α := (heapRealloc true heap).2

/-- The heap `heap_insert` works on once there is room. -/
def HeapT.roomy (heap : HeapT α) : HeapT α :=
  if heap.cap = heap.size then heap.grown else heap

theorem grown_array {heap : HeapT α} (hLive : Live heap) {i : Nat} (hi : i < heap.size) :
    heap.grown.array i = heap.array i := by
  have hCap := hLive.size_le
  simp only [HeapT.grown, heapRealloc, if_true]
  rw [if_pos (by omega)]

private theorem grown_live {heap : HeapT α} (hLive : Live heap) : Live heap.grown := by
  have hCap := hLive.size_le
  refine ⟨?_, ?_, ?_, ?_⟩
  · change heap.size ≤ heap.cap * 2
    omega
  · intro i hi
    rw [grown_array hLive hi]
    exact hLive.data i hi
  · intro i hi
    have hKey := hLive.key i hi
    rw [grown_array hLive hi]
    change _ ∧ _ < ((heap.cap * 2 : Nat) : Int)
    omega
  · intro i hi
    have hKey := hLive.key i hi
    rw [grown_array hLive hi]
    simp only [HeapT.grown, heapRealloc, if_true]
    rw [if_pos (by omega)]
    exact hLive.pos i hi

theorem roomy_live {heap : HeapT α} (hLive : Live heap) : Live heap.roomy := by
  unfold HeapT.roomy
  split
  · exact grown_live hLive
  · exact hLive

theorem roomy_entries {heap : HeapT α} (hLive : Live heap) : heap.roomy.entries = heap.entries := by
  unfold HeapT.roomy
  split
  · refine Multiset.map_congr rfl ?_
    intro i hi
    exact grown_array hLive (Multiset.mem_range.mp hi)
  · rfl

private theorem roomy_ordered {cmp : α → α → Int} {heap : HeapT α} (hLive : Live heap)
    (hOrd : HeapOrdered cmp heap) : HeapOrdered cmp heap.roomy := by
  unfold HeapT.roomy
  split
  · intro i hi hin
    have hUp := parent_lt hi
    have hin' : i < heap.size := hin
    rw [grown_array hLive hin', grown_array hLive (by omega)]
    exact hOrd i hi hin'
  · exact hOrd

@[simp] theorem roomy_size (heap : HeapT α) : heap.roomy.size = heap.size := by
  unfold HeapT.roomy
  split <;> rfl

@[simp] theorem roomy_nextKey (heap : HeapT α) : heap.roomy.nextKey = heap.nextKey := by
  unfold HeapT.roomy
  split <;> rfl

theorem cap_le_roomy (heap : HeapT α) : heap.cap ≤ heap.roomy.cap := by
  unfold HeapT.roomy
  split
  · exact Nat.le_mul_of_pos_right heap.cap Nat.two_pos
  · exact Nat.le_refl heap.cap

theorem heapInsert_null (cmp : α → α → Int) (mem : Bool) (heap : HeapT α) :
    heapInsert cmp mem heap none = some (-1, heap) := by
  simp [heapInsert]

/-- A full heap that cannot grow refuses the element. -/
theorem heapInsert_noMem (cmp : α → α → Int) {heap : HeapT α} (hFull : heap.cap = heap.size)
    (data : Option α) : heapInsert cmp false heap data = some (-1, heap) := by
  simp [heapInsert, heapFull, hFull, heapRealloc]

/-- The part of `heap_insert` behind the reallocation. -/
theorem heapInsert_eq (cmp : α → α → Int) {mem : Bool} {heap : HeapT α} (d : α)
    (hMem : heap.cap = heap.size → mem = true) :
    heapInsert cmp mem heap (some d) = (do
      let h ← HeapT.setNode { heap.roomy with size := heap.size + 1 } heap.size
        { data := some d, heapKey := heap.nextKey }
      let h ← h.setKeyPos heap.nextKey heap.size
      let h ← heapSetNextKey h
      let h ← rotupLoop cmp (heap.size + 1) h heap.size
      return (heap.nextKey, h)) := by
  by_cases hFull : heap.cap = heap.size
  · obtain rfl := hMem hFull
    simp [heapInsert, heapFull, hFull, HeapT.roomy, HeapT.grown, heapRealloc]
  · simp [heapInsert, heapFull, hFull, HeapT.roomy]

/-- `heap_insert` with a usable next key: the new node gets that key, and the result is a
rearrangement of the heap with the node placed last. -/
theorem heapInsert_spec (cmp : α → α → Int) {mem : Bool} {heap : HeapT α} (hLive : Live heap)
    {next : Nat} (hNext : heap.nextKey = next) (hLt : next < heap.roomy.cap)
    (hFree : heap.roomy.keyTable next < 0) (hRoom : heap.size < heap.roomy.cap) (d : α)
    (hMem : heap.cap = heap.size → mem = true) :
    ∃ (key : Int) (heap' : HeapT α),
      heapInsert cmp mem heap (some d) = some ((next : Int), heap') ∧ Live heap' ∧
      Rearranged (heap.roomy.placed d key) heap' ∧
      ((∃ k : Nat, key = k ∧ k < heap.roomy.cap ∧ k ≠ next ∧ heap.roomy.keyTable k < 0) ∨
        (key = heap.roomy.cap ∧
          ∀ k, k < heap.roomy.cap → k ≠ next → 0 ≤ heap.roomy.keyTable k)) ∧
      (TotalPreorder cmp → HeapOrdered cmp heap → HeapOrdered cmp heap') := by
  have hNextR : heap.roomy.nextKey = next := by rw [roomy_nextKey, hNext]
  obtain ⟨key, hSet, hKey⟩ := @heapSetNextKey_spec α (heap.roomy.placed d next) next rfl hLt
  have hSizeR := roomy_size heap
  have hLive₁ := placed_live (roomy_live hLive) hNextR hLt (by omega) hFree d key
  obtain ⟨heap', hRun, hLive', hRe, hOrd⟩ :=
    rotupLoop_spec cmp (heap.size + 1) hLive₁
      (show heap.size < heap.roomy.size + 1 by omega) (by omega)
  refine ⟨key, heap', ?_, hLive', hRe, ?_, ?_⟩
  · have hWrite : (do
        let h ← HeapT.setNode { heap.roomy with size := heap.size + 1 } heap.size
          { data := some d, heapKey := heap.nextKey }
        h.setKeyPos heap.nextKey heap.size) = some (heap.roomy.placed d next) := by
      simp [HeapT.setNode, HeapT.setKeyPos, hRoom, hNext, hLt, HeapT.placed]
    rw [heapInsert_eq cmp d hMem, ← bind_assoc, hWrite]
    simp only [Option.bind_eq_bind, Option.bind_some, hSet]
    change (rotupLoop cmp (heap.size + 1) (heap.roomy.placed d key) heap.size).bind _ = _
    rw [hRun, Option.bind_some, hNext]
    rfl
  · have hTable : ∀ k, k ≠ next →
        (heap.roomy.placed d next).keyTable k = heap.roomy.keyTable k := by
      intro k hk
      simp [HeapT.placed, hNext, hk]
    rcases hKey with ⟨k, hk, hkc, hne, hkf⟩ | ⟨hCap, hAll⟩
    · exact Or.inl ⟨k, hk, hkc, hne, by rwa [hTable k hne] at hkf⟩
    · refine Or.inr ⟨hCap, ?_⟩
      intro k hkc hne
      have hUsed := hAll k hkc hne
      rwa [hTable k hne] at hUsed
  · intro hPre hOrdered
    have hInv := placed_siftUpInv d key (roomy_ordered hLive hOrdered)
    rw [hSizeR] at hInv
    refine hOrd hPre ?_
    change SiftUpInv _ _ (heap.roomy.size + 1) _
    rw [hSizeR]
    exact hInv

/-! ## Taking a node out -/

/-- The heap after the node at `i` was exchanged with the last one and cut off, before
the moved node is sifted. -/
def HeapT.removed (heap : HeapT α) (i : Nat) : HeapT α :=
  { heap.swapped i (heap.size - 1) with size := heap.size - 1 }

theorem removed_live {heap : HeapT α} (hLive : Live heap) {i : Nat} (hi : i < heap.size) :
    Live (heap.removed i) := by
  have hSwap := swapped_live hLive hi (by omega : heap.size - 1 < heap.size)
  have hLt : ∀ j, j < heap.size - 1 → j < (heap.swapped i (heap.size - 1)).size := by
    intro j hj
    change j < heap.size
    omega
  refine ⟨?_, fun j hj => hSwap.data j (hLt j hj), fun j hj => hSwap.key j (hLt j hj),
    fun j hj => hSwap.pos j (hLt j hj)⟩
  have hCap := hSwap.size_le
  change heap.size - 1 ≤ heap.cap
  change heap.size ≤ heap.cap at hCap
  omega

/-- Exactly the node at `i` is gone. -/
theorem removed_entries {heap : HeapT α} {i : Nat} (hi : i < heap.size) :
    heap.entries = heap.array i ::ₘ (heap.removed i).entries := by
  have hSwap := (swapped_rearranged heap hi (by omega : heap.size - 1 < heap.size)).entries
  obtain ⟨n, hn⟩ : ∃ n, heap.size = n + 1 := ⟨heap.size - 1, by omega⟩
  rw [← hSwap]
  simp only [HeapT.entries, HeapT.removed, HeapT.swapped, hn, Multiset.range_succ,
    Multiset.map_cons, Nat.add_sub_cancel, swapAt_right]

/-- The key of the node that was cut off is no longer in the heap, and its table entry is
the position it was moved to. -/
theorem removed_key {heap : HeapT α} (hLive : Live heap) {i : Nat} (hi : i < heap.size) :
    (∀ j < (heap.removed i).size,
      ((heap.removed i).array j).heapKey.toNat ≠ (heap.array i).heapKey.toNat) ∧
    (heap.removed i).keyTable (heap.array i).heapKey.toNat = (heap.size - 1 : Nat) := by
  have hLast : heap.size - 1 < heap.size := by omega
  have hSwap := swapped_live hLive hi hLast
  have hTail : (heap.swapped i (heap.size - 1)).array (heap.size - 1) = heap.array i :=
    swapAt_right _ _ _
  constructor
  · intro j hj hKey
    change j < heap.size - 1 at hj
    rw [← hTail] at hKey
    have hSame := hSwap.key_inj (show j < heap.size by omega) hLast hKey
    omega
  · have hPos := hSwap.pos (heap.size - 1) hLast
    rw [hTail] at hPos
    exact hPos

/-- Table entries of keys that were not in the heap are untouched. -/
theorem removed_idle {heap : HeapT α} {i : Nat} (hi : i < heap.size) {k : Nat}
    (hk : ∀ j < heap.size, (heap.array j).heapKey.toNat ≠ k) :
    (heap.removed i).keyTable k = heap.keyTable k :=
  (swapped_rearranged heap hi (by omega : heap.size - 1 < heap.size)).idle k hk

/-- Sifting down is enough after a removal: the last node is not before the parent of the
place it moves to. -/
def TailFits (cmp : α → α → Int) (heap : HeapT α) (i : Nat) : Prop :=
  i = heap.size - 1 ∨ i = 0 ∨ nodeLe cmp (heap.array (parent i)) (heap.array (heap.size - 1))

instance (cmp : α → α → Int) (heap : HeapT α) (i : Nat) : Decidable (TailFits cmp heap i) :=
  inferInstanceAs (Decidable (_ ∨ _ ∨ _))

theorem removed_array {heap : HeapT α} {i j : Nat} (hj : j < heap.size - 1) (hne : j ≠ i) :
    (heap.removed i).array j = heap.array j :=
  swapAt_of_ne _ hne (by omega)

theorem removed_array_self (heap : HeapT α) (i : Nat) :
    (heap.removed i).array i = heap.array (heap.size - 1) :=
  swapAt_left _ _ _

private theorem removed_siftDownInv {cmp : α → α → Int} (hPre : TotalPreorder cmp) {heap : HeapT α}
    (hOrd : HeapOrdered cmp heap) {i : Nat} (hi : i < heap.size) (hFits : TailFits cmp heap i) :
    SiftDownInv (nodeLe cmp) (heap.removed i).array (heap.removed i).size i where
  off := by
    intro j hj hjn hpj
    change j < heap.size - 1 at hjn
    have hUp := parent_lt hj
    rw [removed_array (by omega) hpj]
    by_cases hji : j = i
    · subst hji
      rw [removed_array_self]
      rcases hFits with h | h | h
      · omega
      · omega
      · exact h
    · rw [removed_array hjn hji]
      exact hOrd j hj (by omega)
  grand := by
    intro hPos j hj hjn hpj
    change j < heap.size - 1 at hjn
    have hUp := parent_lt hj
    have hUp' := parent_lt hPos
    rw [removed_array (by omega) (by omega), removed_array hjn (by omega)]
    have hBelow := hOrd j hj (by omega)
    rw [hpj] at hBelow
    exact nodeLe_trans hPre _ _ _ (hOrd i hPos hi) hBelow

/-- After a removal, sifting down restores the order exactly when the last node fits. -/
theorem removed_ordered_iff {cmp : α → α → Int} (hPre : TotalPreorder cmp) {heap : HeapT α}
    (hLive : Live heap) (hOrd : HeapOrdered cmp heap) {i : Nat} (hi : i < heap.size)
    {heap' : HeapT α} (hRun : heapRotdown cmp (heap.removed i) i = some heap') :
    HeapOrdered cmp heap' ↔ TailFits cmp heap i := by
  have hLiveR := removed_live hLive hi
  constructor
  · intro hOrd'
    by_contra hFits
    simp only [TailFits, not_or] at hFits
    obtain ⟨hTail, hRoot, hNot⟩ := hFits
    have hUp := parent_lt (by omega : 0 < i)
    have hLess : nodeLe cmp (heap.array (heap.size - 1)) (heap.array (parent i)) := by
      obtain ⟨c, _, hLt, hIff⟩ :=
        hLive.heapCmp cmp (by omega : heap.size - 1 < heap.size) (by omega : parent i < heap.size)
      exact hLt ((hIff hPre).mpr hNot)
    -- the moved node is before its new parent, hence before its children: nothing moves
    have hStay : heapRotdown cmp (heap.removed i) i = some (heap.removed i) := by
      refine rotdownLoop_stay hLiveR hPre _ ?_
      intro s hs hsn hsp
      change s < heap.size - 1 at hsn
      have hsUp := parent_lt hs
      rw [removed_array_self, removed_array hsn (by omega)]
      have hBelow := hOrd s hs (by omega)
      rw [hsp] at hBelow
      exact nodeLe_trans hPre _ _ _ hLess
        (nodeLe_trans hPre _ _ _ (hOrd i (by omega) hi) hBelow)
    obtain rfl : heap.removed i = heap' := by simpa [hStay] using hRun
    have hBad := hOrd' i (by omega) (show i < heap.size - 1 by omega)
    rw [removed_array_self, removed_array (by omega) (by omega)] at hBad
    exact hNot hBad
  · intro hFits
    obtain ⟨heap'', hRun', -, -, hOrd'⟩ := heapRotdown_spec cmp hLiveR i
    obtain rfl : heap'' = heap' := by simpa [hRun] using hRun'.symm
    exact hOrd' hPre (removed_siftDownInv hPre hOrd hi hFits)

/-- `heap_erase` makes the erased key the next one when no other key is free. -/
def HeapT.released (heap : HeapT α) (key : Int) : HeapT α :=
  { heap with nextKey := if heap.nextKey = heap.cap then key else heap.nextKey }

/-- The table entry of `key` is cleared. -/
def HeapT.cleared (heap : HeapT α) (key : Int) : HeapT α :=
  { heap with keyTable := fun k => if k = key.toNat then -1 else heap.keyTable k }

theorem released_live {heap : HeapT α} (hLive : Live heap) (key : Int) :
    Live (heap.released key) :=
  ⟨hLive.size_le, hLive.data, hLive.key, hLive.pos⟩

/-- `heap_erase` of the key of the node at `i`: the node is taken out, the moved node is
sifted down, and the table entry of the key is cleared. -/
theorem heapErase_spec (cmp : α → α → Int) {heap : HeapT α} (hLive : Live heap) {i : Nat}
    (hi : i < heap.size) {key : Int} (hKey : (heap.array i).heapKey = key) :
    ∃ heap₁, heapRotdown cmp ((heap.released key).removed i) i = some heap₁ ∧ Live heap₁ ∧
      Rearranged ((heap.released key).removed i) heap₁ ∧
      heapErase cmp heap key = some ((heap.array i).data, heap₁.cleared key) := by
  have hLive₀ := released_live hLive key
  obtain ⟨heap₁, hRun, hLive₁, hRe, -⟩ := heapRotdown_spec cmp (removed_live hLive₀ hi) i
  refine ⟨heap₁, hRun, hLive₁, hRe, ?_⟩
  obtain ⟨h0, hCap⟩ := hLive.key i hi
  have hPos := hLive.pos i hi
  rw [hKey] at h0 hCap hPos
  have hLast : heap.size - 1 < heap.size := by omega
  have hSwap : heapSwap (heap.released key) i (heap.size - 1) =
      some ((heap.released key).swapped i (heap.size - 1)) := heapSwap_eq hLive₀ hi hLast
  have hRelease : (if heap.nextKey = heap.cap then { heap with nextKey := key } else heap) =
      heap.released key := by
    unfold HeapT.released
    split <;> rfl
  have hLastPos : (heap.released key).lastPos = some (heap.size - 1) :=
    if_neg (show heap.size ≠ 0 by omega)
  have hRun' : heapRotdown cmp
      { (heap.released key).swapped i (heap.size - 1) with
        size := ((heap.released key).swapped i (heap.size - 1)).size - 1 } i = some heap₁ := hRun
  have hClear : heap₁.setKeyPos key (-1) = some (heap₁.cleared key) := by
    refine if_pos ⟨h0, ?_⟩
    rw [hRe.cap]
    exact hCap
  simp only [heapErase, keyPos_eq h0 hCap, hPos, Option.bind_eq_bind, Option.bind_some,
    Int.toNat_natCast, hLive.node hi, hRelease, hLastPos, hSwap, hRun', hClear]
  rw [if_neg (by omega)]
  rfl

/-- A key that is not in the table's use is not erased. -/
theorem heapErase_absent (cmp : α → α → Int) {heap : HeapT α} {key : Int} (h0 : 0 ≤ key)
    (hCap : key < heap.cap) (hFree : heap.keyTable key.toNat < 0) :
    heapErase cmp heap key = some (none, heap) := by
  simp only [heapErase, keyPos_eq h0 hCap, Option.bind_eq_bind, Option.bind_some]
  rw [if_pos hFree]
  rfl

/-- `heap_pop` takes out the first node; its key stays in the table. -/
theorem heapPop_spec (cmp : α → α → Int) {heap : HeapT α} (hLive : Live heap)
    (hSize : 0 < heap.size) :
    ∃ heap₁, heapRotdown cmp (heap.removed 0) 0 = some heap₁ ∧ Live heap₁ ∧
      Rearranged (heap.removed 0) heap₁ ∧
      heapPop cmp heap = some ((heap.array 0).data, heap₁) := by
  obtain ⟨heap₁, hRun, hLive₁, hRe, -⟩ := heapRotdown_spec cmp (removed_live hLive hSize) 0
  refine ⟨heap₁, hRun, hLive₁, hRe, ?_⟩
  have hSwap := heapSwap_eq hLive hSize (by omega : heap.size - 1 < heap.size)
  have hRun' : heapRotdown cmp
      { heap.swapped 0 (heap.size - 1) with
        size := (heap.swapped 0 (heap.size - 1)).size - 1 } 0 = some heap₁ := hRun
  simp [heapPop, show heap.size ≠ 0 by omega, hLive.node hSize, hSwap, hRun']

/-- Popping an empty heap. -/
theorem heapPop_empty (cmp : α → α → Int) {heap : HeapT α} (hSize : heap.size = 0) :
    heapPop cmp heap = some (none, heap) := by
  simp [heapPop, hSize]

/-- A removal at the root never needs sifting up. -/
theorem tailFits_root (cmp : α → α → Int) (heap : HeapT α) : TailFits cmp heap 0 :=
  Or.inr (Or.inl rfl)

/-! ## `heap_update` -/

/-- The heap with new data at position `i`, before the node is sifted. -/
def HeapT.replaced (heap : HeapT α) (i : Nat) (d : α) : HeapT α :=
  { heap with
    array := fun j => if j = i then { heap.array i with data := some d } else heap.array j }

theorem replaced_live {heap : HeapT α} (hLive : Live heap) (i : Nat) (d : α) :
    Live (heap.replaced i d) := by
  have hKey : ∀ j, ((heap.replaced i d).array j).heapKey = (heap.array j).heapKey := by
    intro j
    simp only [HeapT.replaced]
    split
    · next h => rw [h]
    · rfl
  refine ⟨hLive.size_le, ?_, ?_, ?_⟩
  · intro j hj
    by_cases hji : j = i
    · exact ⟨d, by simp [HeapT.replaced, hji]⟩
    · simpa [HeapT.replaced, hji] using hLive.data j hj
  · intro j hj
    rw [hKey]
    exact hLive.key j hj
  · intro j hj
    rw [hKey]
    exact hLive.pos j hj

/-- Exactly the node at `i` gets new data; it keeps its key. -/
theorem replaced_entries {heap : HeapT α} {i : Nat} (hi : i < heap.size) (d : α) :
    ∃ rest, heap.entries = heap.array i ::ₘ rest ∧
      (heap.replaced i d).entries = { heap.array i with data := some d } ::ₘ rest := by
  have hRange : i ::ₘ (Multiset.range heap.size).erase i = Multiset.range heap.size :=
    Multiset.cons_erase (Multiset.mem_range.mpr hi)
  refine ⟨((Multiset.range heap.size).erase i).map heap.array, ?_, ?_⟩
  · rw [HeapT.entries, ← hRange, Multiset.map_cons, hRange]
  · change (Multiset.range heap.size).map (heap.replaced i d).array = _
    rw [← hRange, Multiset.map_cons, hRange]
    congr 1
    · simp [HeapT.replaced]
    · refine Multiset.map_congr rfl ?_
      intro j hj
      have hne := ((Multiset.nodup_range heap.size).mem_erase_iff.mp hj).1
      simp [HeapT.replaced, hne]

/-- Sifting down is enough after an update: the new data is not before the parent's. -/
def UpdateFits (cmp : α → α → Int) (heap : HeapT α) (i : Nat) (d : α) : Prop :=
  i = 0 ∨ nodeLe cmp (heap.array (parent i)) { data := some d, heapKey := -1 }

instance (cmp : α → α → Int) (heap : HeapT α) (i : Nat) (d : α) :
    Decidable (UpdateFits cmp heap i d) :=
  inferInstanceAs (Decidable (_ ∨ _))

private theorem nodeLe_data {cmp : α → α → Int} {a a' b b' : NodeT α} (ha : a.data = a'.data)
    (hb : b.data = b'.data) : nodeLe cmp a b ↔ nodeLe cmp a' b' := by
  rw [nodeLe, nodeLe, ha, hb]

theorem replaced_array_of_ne {heap : HeapT α} {i j : Nat} (d : α) (hne : j ≠ i) :
    (heap.replaced i d).array j = heap.array j := by
  simp [HeapT.replaced, hne]

theorem replaced_array_self (heap : HeapT α) (i : Nat) (d : α) :
    (heap.replaced i d).array i = { heap.array i with data := some d } := by
  simp [HeapT.replaced]

private theorem replaced_siftDownInv {cmp : α → α → Int} (hPre : TotalPreorder cmp) {heap : HeapT α}
    (hOrd : HeapOrdered cmp heap) {i : Nat} (hi : i < heap.size) {d : α}
    (hFits : UpdateFits cmp heap i d) :
    SiftDownInv (nodeLe cmp) (heap.replaced i d).array (heap.replaced i d).size i where
  off := by
    intro j hj hjn hpj
    have hUp := parent_lt hj
    rw [replaced_array_of_ne d hpj]
    by_cases hji : j = i
    · subst hji
      rw [replaced_array_self]
      rcases hFits with h | h
      · omega
      · exact (nodeLe_data rfl rfl).mp h
    · rw [replaced_array_of_ne d hji]
      exact hOrd j hj hjn
  grand := by
    intro hPos j hj hjn hpj
    have hUp := parent_lt hj
    have hUp' := parent_lt hPos
    rw [replaced_array_of_ne d (by omega), replaced_array_of_ne d (by omega)]
    have hBelow := hOrd j hj hjn
    rw [hpj] at hBelow
    exact nodeLe_trans hPre _ _ _ (hOrd i hPos hi) hBelow

/-- After an update, sifting down restores the order exactly when the new data fits. -/
theorem replaced_ordered_iff {cmp : α → α → Int} (hPre : TotalPreorder cmp) {heap : HeapT α}
    (hLive : Live heap) (hOrd : HeapOrdered cmp heap) {i : Nat} (hi : i < heap.size) {d : α}
    {heap' : HeapT α} (hRun : heapRotdown cmp (heap.replaced i d) i = some heap') :
    HeapOrdered cmp heap' ↔ UpdateFits cmp heap i d := by
  have hLiveR := replaced_live hLive i d
  constructor
  · intro hOrd'
    by_contra hFits
    simp only [UpdateFits, not_or] at hFits
    obtain ⟨hRoot, hNot⟩ := hFits
    have hUp := parent_lt (by omega : 0 < i)
    have hNot' : ¬ nodeLe cmp ((heap.replaced i d).array (parent i))
        ((heap.replaced i d).array i) := by
      rw [replaced_array_self, replaced_array_of_ne d (by omega)]
      exact fun h => hNot ((nodeLe_data rfl rfl).mp h)
    have hLess : nodeLe cmp ((heap.replaced i d).array i)
        ((heap.replaced i d).array (parent i)) := by
      obtain ⟨c, _, hLt, hIff⟩ :=
        hLiveR.heapCmp cmp (show i < heap.size from hi) (show parent i < heap.size by omega)
      exact hLt ((hIff hPre).mpr hNot')
    -- the new data is before its parent, hence before its children: nothing moves
    have hStay : heapRotdown cmp (heap.replaced i d) i = some (heap.replaced i d) := by
      refine rotdownLoop_stay hLiveR hPre _ ?_
      intro s hs hsn hsp
      have hsUp := parent_lt hs
      have hBelow := hOrd s hs hsn
      rw [hsp] at hBelow
      rw [replaced_array_of_ne d (show parent i ≠ i by omega)] at hLess
      rw [replaced_array_of_ne d (show s ≠ i by omega)]
      exact nodeLe_trans hPre _ _ _ hLess
        (nodeLe_trans hPre _ _ _ (hOrd i (by omega) hi) hBelow)
    obtain rfl : heap.replaced i d = heap' := by simpa [hStay] using hRun
    exact hNot' (hOrd' i (by omega) hi)
  · intro hFits
    obtain ⟨heap'', hRun', -, -, hOrd'⟩ := heapRotdown_spec cmp hLiveR i
    obtain rfl : heap'' = heap' := by simpa [hRun] using hRun'.symm
    exact hOrd' hPre (replaced_siftDownInv hPre hOrd hi hFits)

/-- `heap_update` of the key of the node at `i`. -/
theorem heapUpdate_spec (cmp : α → α → Int) {heap : HeapT α} (hLive : Live heap) {i : Nat}
    (hi : i < heap.size) (d : α) :
    ∃ heap', heapRotdown cmp (heap.replaced i d) i = some heap' ∧ Live heap' ∧
      Rearranged (heap.replaced i d) heap' ∧
      heapUpdate cmp heap (heap.array i).heapKey (some d) = some heap' := by
  obtain ⟨heap', hRun, hLive', hRe, -⟩ := heapRotdown_spec cmp (replaced_live hLive i d) i
  refine ⟨heap', hRun, hLive', hRe, ?_⟩
  obtain ⟨h0, hCap⟩ := hLive.key i hi
  have hic : i < heap.cap := Nat.lt_of_lt_of_le hi hLive.size_le
  have hSet : heap.setNode i { heap.array i with data := some d } = some (heap.replaced i d) :=
    if_pos hic
  simp only [heapUpdate, Option.isNone_some, Bool.false_eq_true, if_false, keyPos_eq h0 hCap,
    hLive.pos i hi, Option.bind_eq_bind, Option.bind_some, Int.toNat_natCast, hLive.node hi, hSet,
    hRun]
  rw [if_neg (by omega)]

/-- `NULL` is not stored. -/
theorem heapUpdate_null (cmp : α → α → Int) (heap : HeapT α) (key : Int) :
    heapUpdate cmp heap key none = some heap := by
  simp [heapUpdate]

/-! ## Usable heaps

The consistency every reachable heap has, also after pops, which leave the keys of popped
nodes in the table for good.
-/

structure Usable (heap : HeapT α) : Prop where
  live : Live heap
  cap_pos : 0 < heap.cap
  next : heap.nextKey = heap.cap ∨
    ∃ k : Nat, heap.nextKey = k ∧ k < heap.cap ∧ heap.keyTable k < 0

theorem heapCreate_usable : Usable (heapCreate : HeapT α) :=
  ⟨⟨by simp [heapCreate], by simp [heapCreate], by simp [heapCreate], by simp [heapCreate]⟩,
    Nat.zero_lt_succ 15, Or.inr ⟨0, rfl, Nat.zero_lt_succ 15, Int.negSucc_lt_zero 0⟩⟩

/-- `heap_insert` writes the table in bounds: there is a key for the new node. -/
def KeyAtHand (heap : HeapT α) : Prop := heap.size < heap.cap → heap.nextKey < heap.cap

instance (heap : HeapT α) : Decidable (KeyAtHand heap) :=
  inferInstanceAs (Decidable (_ → _))

theorem Usable.freeKey {heap : HeapT α} (hU : Usable heap) (hKey : KeyAtHand heap) :
    ∃ next : Nat, heap.nextKey = next ∧ next < heap.roomy.cap ∧
      heap.roomy.keyTable next < 0 ∧ heap.size < heap.roomy.cap := by
  have hSize := hU.live.size_le
  have hPos := hU.cap_pos
  by_cases hFull : heap.cap = heap.size
  · have hRoomy : heap.roomy = heap.grown := if_pos hFull
    have hCap : heap.grown.cap = heap.cap * 2 := rfl
    have hTable : ∀ k, heap.grown.keyTable k = if k < heap.cap then heap.keyTable k else -1 :=
      fun _ => rfl
    rw [hRoomy, hCap]
    rcases hU.next with hNext | ⟨k, hk, hkc, hFree⟩
    · exact ⟨heap.cap, hNext, by omega, by rw [hTable]; simp, by omega⟩
    · exact ⟨k, hk, by omega, by rw [hTable, if_pos hkc]; exact hFree, by omega⟩
  · have hRoomy : heap.roomy = heap := if_neg hFull
    have hLt := hKey (by omega)
    rw [hRoomy]
    rcases hU.next with hNext | ⟨k, hk, hkc, hFree⟩
    · omega
    · exact ⟨k, hk, hkc, hFree, by omega⟩

/-- A key whose table entry is negative is not in the heap. -/
theorem Live.not_hasKey {heap : HeapT α} (hLive : Live heap) {k : Nat}
    (hFree : heap.keyTable k < 0) : ∀ i < heap.size, (heap.array i).heapKey.toNat ≠ k := by
  intro i hi hKey
  have hPos := hLive.pos i hi
  rw [hKey] at hPos
  omega

theorem heapInsert_usable (cmp : α → α → Int) {mem : Bool} {heap : HeapT α} (hU : Usable heap)
    (hKey : KeyAtHand heap) (d : α) (hMem : heap.cap = heap.size → mem = true) :
    ∃ heap', heapInsert cmp mem heap (some d) = some (heap.nextKey, heap') ∧ Usable heap' ∧
      heap'.entries = { data := some d, heapKey := heap.nextKey } ::ₘ heap.entries ∧
      ¬ heap.HasKey heap.nextKey ∧
      (TotalPreorder cmp → HeapOrdered cmp heap → HeapOrdered cmp heap') := by
  obtain ⟨next, hNext, hLt, hFree, hRoom⟩ := hU.freeKey hKey
  obtain ⟨key, heap', hRun, hLive', hRe, hNextKey, hOrd⟩ :=
    heapInsert_spec cmp hU.live hNext hLt hFree hRoom d hMem
  have hCap : heap'.cap = heap.roomy.cap := hRe.cap
  have hKey' : heap'.nextKey = key := hRe.nextKey
  have hLiveP := placed_live (roomy_live hU.live) (by rw [roomy_nextKey, hNext]) hLt
    (by rw [roomy_size]; exact hRoom) hFree d key
  refine ⟨heap', by rw [hRun, hNext], ⟨hLive', by rw [hCap]; omega, ?_⟩, ?_, ?_, hOrd⟩
  · rw [hCap, hKey']
    rcases hNextKey with ⟨k, hk, hkc, hne, hkf⟩ | ⟨hkc, -⟩
    · have hPlaced : (heap.roomy.placed d key).keyTable k < 0 := by
        simpa [HeapT.placed, hNext, hne] using hkf
      refine Or.inr ⟨k, hk, hkc, ?_⟩
      rw [hRe.idle k (hLiveP.not_hasKey hPlaced)]
      exact hPlaced
    · exact Or.inl hkc
  · rw [hRe.entries, placed_entries, roomy_entries hU.live, roomy_nextKey]
  · rintro ⟨i, hi, hki⟩
    have hMemE : heap.array i ∈ heap.roomy.entries := by
      rw [roomy_entries hU.live]
      exact array_mem_entries hi
    obtain ⟨j, hj, hji⟩ := mem_entries.mp hMemE
    refine (roomy_live hU.live).not_hasKey hFree j hj ?_
    rw [hji, hki, hNext]
    rfl

/-- Without a key at hand, `heap_insert` writes behind the end of the table. -/
theorem heapInsert_undefined (cmp : α → α → Int) (mem : Bool) {heap : HeapT α}
    (hU : Usable heap) (hKey : ¬ KeyAtHand heap) (d : α) :
    heapInsert cmp mem heap (some d) = none := by
  have hSize := hU.live.size_le
  simp only [KeyAtHand, Classical.not_imp] at hKey
  obtain ⟨hRoom, hNext⟩ := hKey
  rw [heapInsert_eq cmp d (fun h => by omega)]
  have hRoomy : heap.roomy = heap := if_neg (by omega)
  have hEnd : ¬ (0 ≤ heap.nextKey ∧ heap.nextKey < heap.cap) := fun h => hNext h.2
  simp [hRoomy, HeapT.setNode, hRoom, HeapT.setKeyPos, hEnd]

/-- Rearranging keeps a free next key. -/
theorem Rearranged.next_free {heap heap' : HeapT α} (hLive : Live heap)
    (hRe : Rearranged heap heap')
    (hNext : heap.nextKey = heap.cap ∨
      ∃ k : Nat, heap.nextKey = k ∧ k < heap.cap ∧ heap.keyTable k < 0) :
    heap'.nextKey = heap'.cap ∨
      ∃ k : Nat, heap'.nextKey = k ∧ k < heap'.cap ∧ heap'.keyTable k < 0 := by
  rw [hRe.nextKey, hRe.cap]
  rcases hNext with h | ⟨k, hk, hkc, hFree⟩
  · exact Or.inl h
  · refine Or.inr ⟨k, hk, hkc, ?_⟩
    rw [hRe.idle k (hLive.not_hasKey hFree)]
    exact hFree

theorem heapErase_usable (cmp : α → α → Int) {heap : HeapT α} (hU : Usable heap) {i : Nat}
    (hi : i < heap.size) {key : Int} (hKey : (heap.array i).heapKey = key) :
    ∃ heap', heapErase cmp heap key = some ((heap.array i).data, heap') ∧ Usable heap' ∧
      heap.entries = heap.array i ::ₘ heap'.entries ∧
      (TotalPreorder cmp → HeapOrdered cmp heap →
        (HeapOrdered cmp heap' ↔ TailFits cmp heap i)) := by
  obtain ⟨heap₁, hRot, hLive₁, hRe, hRun⟩ := heapErase_spec cmp hU.live hi hKey
  have hLive₀ := released_live hU.live key
  have hRange := hU.live.key i hi
  obtain ⟨hGone, -⟩ := removed_key hLive₀ hi
  have hNotKey : ∀ j < heap₁.size, (heap₁.array j).heapKey.toNat ≠ key.toNat := by
    intro j hj hEq
    have hMem : heap₁.array j ∈ ((heap.released key).removed i).entries := by
      rw [← hRe.entries]
      exact array_mem_entries hj
    obtain ⟨l, hl, hlj⟩ := mem_entries.mp hMem
    refine hGone l hl ?_
    rw [hlj, hEq, ← hKey]
    rfl
  have hCap : heap₁.cap = heap.cap := hRe.cap
  refine ⟨heap₁.cleared key, hRun, ⟨?_, ?_, ?_⟩, ?_, ?_⟩
  · refine ⟨hLive₁.size_le, hLive₁.data, hLive₁.key, ?_⟩
    intro j hj
    simp only [HeapT.cleared]
    rw [if_neg (hNotKey j hj)]
    exact hLive₁.pos j hj
  · change 0 < heap₁.cap
    rw [hCap]
    exact hU.cap_pos
  · change heap₁.nextKey = heap₁.cap ∨ _
    have hNext : heap₁.nextKey = if heap.nextKey = heap.cap then key else heap.nextKey :=
      hRe.nextKey
    by_cases hEnd : heap.nextKey = heap.cap
    · refine Or.inr ⟨key.toNat, ?_, ?_, ?_⟩
      · change heap₁.nextKey = _
        rw [hNext, if_pos hEnd]
        omega
      · change key.toNat < heap₁.cap
        omega
      · simp [HeapT.cleared]
    · rcases hU.next with h | ⟨k, hk, hkc, hFree⟩
      · exact absurd h hEnd
      · refine Or.inr ⟨k, ?_, ?_, ?_⟩
        · change heap₁.nextKey = _
          rw [hNext, if_neg hEnd, hk]
        · change k < heap₁.cap
          omega
        · simp only [HeapT.cleared]
          split
          · decide
          · -- a free key is in neither heap, so its entry is untouched
            have hFree₀ : ((heap.released key).removed i).keyTable k < 0 := by
              rw [@removed_idle α (heap.released key) i hi k (hLive₀.not_hasKey hFree)]
              exact hFree
            rw [hRe.idle k ((removed_live hLive₀ hi).not_hasKey hFree₀)]
            exact hFree₀
  · rw [show (heap₁.cleared key).entries = heap₁.entries from rfl, hRe.entries]
    exact @removed_entries α (heap.released key) i hi
  · intro hPre hOrd
    change HeapOrdered cmp heap₁ ↔ TailFits cmp (heap.released key) i
    exact removed_ordered_iff hPre hLive₀ hOrd hi hRot

theorem heapPop_usable (cmp : α → α → Int) {heap : HeapT α} (hU : Usable heap)
    (hSize : 0 < heap.size) :
    ∃ heap', heapPop cmp heap = some ((heap.array 0).data, heap') ∧ Usable heap' ∧
      heap.entries = heap.array 0 ::ₘ heap'.entries ∧
      (TotalPreorder cmp → HeapOrdered cmp heap → HeapOrdered cmp heap') := by
  obtain ⟨heap₁, hRot, hLive₁, hRe, hRun⟩ := heapPop_spec cmp hU.live hSize
  have hLiveR := removed_live hU.live hSize
  refine ⟨heap₁, hRun, ⟨hLive₁, ?_, ?_⟩, ?_, ?_⟩
  · rw [hRe.cap]
    exact hU.cap_pos
  · refine hRe.next_free hLiveR ?_
    rcases hU.next with h | ⟨k, hk, hkc, hFree⟩
    · exact Or.inl h
    · refine Or.inr ⟨k, hk, hkc, ?_⟩
      rw [removed_idle hSize (hU.live.not_hasKey hFree)]
      exact hFree
  · rw [hRe.entries]
    exact removed_entries hSize
  · intro hPre hOrd
    exact (removed_ordered_iff hPre hU.live hOrd hSize hRot).mpr (tailFits_root cmp heap)

theorem heapUpdate_usable (cmp : α → α → Int) {heap : HeapT α} (hU : Usable heap) {i : Nat}
    (hi : i < heap.size) {key : Int} (hKey : (heap.array i).heapKey = key) (d : α) :
    ∃ heap' rest, heapUpdate cmp heap key (some d) = some heap' ∧ Usable heap' ∧
      heap.entries = heap.array i ::ₘ rest ∧
      heap'.entries = { heap.array i with data := some d } ::ₘ rest ∧
      (TotalPreorder cmp → HeapOrdered cmp heap →
        (HeapOrdered cmp heap' ↔ UpdateFits cmp heap i d)) := by
  obtain ⟨heap', hRot, hLive', hRe, hRun⟩ := heapUpdate_spec cmp hU.live hi d
  obtain ⟨rest, hOld, hNew⟩ := replaced_entries hi d
  refine ⟨heap', rest, by rw [← hKey]; exact hRun, ⟨hLive', ?_, ?_⟩, hOld, ?_, ?_⟩
  · rw [hRe.cap]
    exact hU.cap_pos
  · exact hRe.next_free (replaced_live hU.live i d) hU.next
  · rw [hRe.entries]
    exact hNew
  · intro hPre hOrd
    exact replaced_ordered_iff hPre hU.live hOrd hi hRot

end Gbase.Base.Heap
