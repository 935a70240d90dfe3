import Gbase.Base.HeapRuns

/-!
# Keys of popped elements

`heap_pop` leaves the key of the popped element in the key table, where it goes on leading to
the position the element was swapped to.  No later operation on a key in use clears such an entry
or gives the key out again, so the entries that lead somewhere are those of the keys in use and
of the elements popped so far.

The statement of what is wrong needs a history: which of the keys without an element belong to
elements that were popped.  `KeyHistory` carries it along a run as a list of keys, which grows by
one at every pop and never loses any.

## Main results

* `KeyHistory.insert`, `KeyHistory.erase`, `KeyHistory.pop`, `KeyHistory.rearranged`: what the
  operations do to this.
-/

namespace Gbase.Base.Heap

variable {α : Type} {heap heap' : HeapT α} {popped : List Int}

/-- Of the keys that are not in use, those in `popped` lead somewhere, and the others nowhere. -/
structure KeyHistory (heap : HeapT α) (popped : List Int) : Prop where
  unused : ∀ key ∈ popped, 0 ≤ key ∧ key < heap.cap ∧ ¬ heap.HasKey key
  table : ∀ k : Nat, k < heap.cap → ¬ heap.HasKey k → (0 ≤ heap.keyTable k ↔ (k : Int) ∈ popped)

theorem heapCreate_history : KeyHistory (heapCreate : HeapT α) [] := by
  refine ⟨by simp, ?_⟩
  intro k _ _
  simp [heapCreate]

/-- The entry of a key that is not in use. -/
theorem KeyHistory.entry_iff (hHistory : KeyHistory heap popped) {key : Int} (h0 : 0 ≤ key)
    (hCap : key < heap.cap) (hNot : ¬ heap.HasKey key) :
    0 ≤ heap.keyTable key.toNat ↔ key ∈ popped := by
  have hToNat := Int.toNat_of_nonneg h0
  rw [← hToNat] at hNot
  rw [hHistory.table key.toNat (by omega) hNot, hToNat]

theorem KeyHistory.rearranged (hHistory : KeyHistory heap popped) (hLive : Live heap)
    (hRe : Rearranged heap heap') : KeyHistory heap' popped := by
  constructor
  · intro key hIn
    rw [hRe.cap, hRe.hasKey_iff]
    exact hHistory.unused key hIn
  · intro k hk hNot
    rw [free_of_rearranged hLive hRe hNot]
    rw [hRe.cap] at hk
    rw [hRe.hasKey_iff] at hNot
    exact hHistory.table k hk hNot

/-- The key at hand is not one of a popped element. -/
theorem KeyHistory.nextKey_not_mem (hHistory : KeyHistory heap popped) (hU : Usable heap) :
    heap.nextKey ∉ popped := by
  intro hIn
  obtain ⟨h0, hCap, hNot⟩ := hHistory.unused _ hIn
  have hEntry := (hHistory.entry_iff h0 hCap hNot).mpr hIn
  rcases hU.next with hEnd | ⟨k, hk, -, hFree⟩
  · omega
  · rw [hk, Int.toNat_natCast] at hEntry
    omega

theorem KeyHistory.insert (hHistory : KeyHistory heap popped) (cmp : α → α → Int) {mem : Bool}
    (hU : Usable heap) (hKey : KeyAtHand heap) (d : α) (hMem : heap.cap = heap.size → mem = true)
    {r : Int} (hRun : heapInsert cmp mem heap (some d) = some (r, heap')) :
    KeyHistory heap' popped ∧ heap.cap ≤ heap'.cap := by
  obtain ⟨hCap, hHas, hTable⟩ := heapInsert_table cmp hU hKey d hMem hRun
  have hLe : heap.cap ≤ heap'.cap := by
    rw [hCap]
    exact cap_le_roomy heap
  refine ⟨⟨?_, ?_⟩, hLe⟩
  · intro key hIn
    obtain ⟨h0, hKeyCap, hNot⟩ := hHistory.unused key hIn
    refine ⟨h0, by omega, ?_⟩
    rw [hHas, not_or]
    refine ⟨?_, hNot⟩
    rintro rfl
    exact hHistory.nextKey_not_mem hU hIn
  · intro k hk hNot
    rw [hTable k hNot, roomy_keyTable (by rwa [hCap] at hk)]
    rw [hHas, not_or] at hNot
    split
    · next hOld => exact hHistory.table k hOld hNot.2
    · next hNew =>
        refine iff_of_false (by decide) ?_
        intro hIn
        obtain ⟨-, hKeyCap, -⟩ := hHistory.unused _ hIn
        omega

theorem KeyHistory.erase (hHistory : KeyHistory heap popped) (cmp : α → α → Int)
    (hU : Usable heap) {i : Nat} (hi : i < heap.size) {key : Int}
    (hKey : (heap.array i).heapKey = key) {r : Option α}
    (hRun : heapErase cmp heap key = some (r, heap')) :
    KeyHistory heap' popped ∧ heap'.cap = heap.cap := by
  obtain ⟨hCap, hHas, hFreed, hTable⟩ := heapErase_table cmp hU hi hKey hRun
  refine ⟨⟨?_, ?_⟩, hCap⟩
  · intro j hIn
    obtain ⟨h0, hKeyCap, hNot⟩ := hHistory.unused j hIn
    rw [hCap, hHas]
    exact ⟨h0, hKeyCap, fun h => hNot h.2⟩
  · intro k hk hNot
    rw [hCap] at hk
    by_cases hne : (k : Int) = key
    · have hToNat : key.toNat = k := by omega
      rw [hToNat] at hFreed
      rw [hFreed]
      refine iff_of_false (by decide) ?_
      intro hIn
      exact (hHistory.unused _ hIn).2.2 ⟨i, hi, hKey.trans hne.symm⟩
    · rw [hTable k hne hNot]
      exact hHistory.table k hk fun h => hNot ((hHas k).mpr ⟨hne, h⟩)

theorem KeyHistory.pop (hHistory : KeyHistory heap popped) (cmp : α → α → Int) (hLive : Live heap)
    (hSize : 0 < heap.size) {r : Option α} (hRun : heapPop cmp heap = some (r, heap')) :
    KeyHistory heap' (popped ++ [(heap.array 0).heapKey]) ∧ heap'.cap = heap.cap := by
  obtain ⟨hCap, hHas, hEntry, hTable⟩ := heapPop_table cmp hLive hSize hRun
  have hRange := hLive.key 0 hSize
  refine ⟨⟨?_, ?_⟩, hCap⟩
  · intro j hIn
    rw [hCap, hHas]
    rcases List.mem_append.mp hIn with hIn | hIn
    · obtain ⟨h0, hKeyCap, hNot⟩ := hHistory.unused j hIn
      exact ⟨h0, hKeyCap, fun h => hNot h.2⟩
    · rw [List.mem_singleton.mp hIn]
      exact ⟨hRange.1, hRange.2, fun h => h.1 rfl⟩
  · intro k hk hNot
    rw [hCap] at hk
    rw [List.mem_append, List.mem_singleton]
    by_cases hne : (k : Int) = (heap.array 0).heapKey
    · have hToNat : (heap.array 0).heapKey.toNat = k := by omega
      rw [hToNat] at hEntry
      rw [hEntry]
      exact iff_of_true (by omega) (Or.inr hne)
    · rw [hTable k hne hNot, or_iff_left hne]
      exact hHistory.table k hk fun h => hNot ((hHas k).mpr ⟨hne, h⟩)

/-! ## Erasing by such a key -/

theorem setNode_size {pos : Nat} {n : NodeT α} (hRun : heap.setNode pos n = some heap') :
    heap'.size = heap.size := by
  unfold HeapT.setNode at hRun
  split at hRun
  · cases hRun
    rfl
  · cases hRun

theorem setKeyPos_size {key pos : Int} (hRun : heap.setKeyPos key pos = some heap') :
    heap'.size = heap.size := by
  unfold HeapT.setKeyPos at hRun
  split at hRun
  · cases hRun
    rfl
  · cases hRun

private theorem heapSwap_size {p q : Nat} (hRun : heapSwap heap p q = some heap') :
    heap'.size = heap.size := by
  simp only [heapSwap, Option.bind_eq_bind, Option.bind_eq_some_iff] at hRun
  obtain ⟨n1, -, n2, -, heap₁, h₁, heap₂, h₂, heap₃, h₃, h₄⟩ := hRun
  rw [setNode_size h₄, setNode_size h₃, setKeyPos_size h₂, setKeyPos_size h₁]

private theorem rotdownLoop_size (cmp : α → α → Int) (fuel : Nat) :
    ∀ {heap : HeapT α} {pos : Nat}, rotdownLoop cmp fuel heap pos = some heap' →
      heap'.size = heap.size := by
  induction fuel with
  | zero =>
      intro heap pos hRun
      cases hRun
  | succ fuel ih =>
      intro heap pos hRun
      have hMove : ∀ {child : Nat}, ((heapSwap heap pos child).bind fun heap =>
          rotdownLoop cmp fuel heap child) = some heap' → heap'.size = heap.size := by
        intro child h
        obtain ⟨heap₁, hSwap, hRest⟩ := Option.bind_eq_some_iff.mp h
        rw [ih hRest, heapSwap_size hSwap]
      have hStay : some heap = some heap' → heap'.size = heap.size := by
        intro h
        cases h
        rfl
      simp only [rotdownLoop, Option.bind_eq_bind] at hRun
      split at hRun
      · split at hRun
        · exact hStay hRun
        · split at hRun
          · obtain ⟨c, -, hRun⟩ := Option.bind_eq_some_iff.mp hRun
            split at hRun
            · exact hMove hRun
            · exact hStay hRun
          · obtain ⟨c, -, hRun⟩ := Option.bind_eq_some_iff.mp hRun
            obtain ⟨c', -, hRun⟩ := Option.bind_eq_some_iff.mp hRun
            split at hRun
            · exact hMove hRun
            · exact hStay hRun
      · exact hStay hRun

/-- Erasing by a key whose entry leads somewhere takes one element out, whatever it is. -/
theorem heapErase_size (cmp : α → α → Int) {key : Int} {r : Option α}
    (hRun : heapErase cmp heap key = some (r, heap')) (hEntry : 0 ≤ heap.keyTable key.toNat) :
    heap'.size + 1 = heap.size := by
  simp only [heapErase, Option.bind_eq_bind, Option.bind_eq_some_iff] at hRun
  obtain ⟨index, hIndex, hRun⟩ := hRun
  have hPos : 0 ≤ index := by
    unfold HeapT.keyPos at hIndex
    split at hIndex
    · cases hIndex
      exact hEntry
    · cases hIndex
  rw [if_neg (by omega)] at hRun
  simp only [Option.bind_eq_some_iff] at hRun
  obtain ⟨n, -, last, hLast, heap₁, hSwap, heap₂, hRot, heap₃, hClear, hEnd⟩ := hRun
  cases hEnd
  rw [setKeyPos_size hClear, rotdownLoop_size cmp _ hRot]
  have hSame := heapSwap_size hSwap
  have hReleased : (if heap.nextKey = heap.cap then { heap with nextKey := key } else heap).size =
      heap.size := by
    split <;> rfl
  unfold HeapT.lastPos at hLast
  rw [hReleased] at hLast hSame
  split at hLast
  · cases hLast
  · simp only
    omega

end Gbase.Base.Heap
