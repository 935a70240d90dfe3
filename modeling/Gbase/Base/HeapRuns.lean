import Gbase.Base.HeapOps
import Gbase.Lib.Run
import Mathlib.Data.Finset.Card
import Mathlib.Data.Finset.Image
import Mathlib.Logic.Function.Basic

/-!
# Runs of the heap

Operation sequences on a fresh heap, with the keys a client passes to `heap_erase` and
`heap_update` taken from live elements, or, for the consistency of the keys, from anywhere
within the table.

`heap_erase` and `heap_update` only sift down, so the order survives exactly when the
node that ends up at the position is not before its new parent.  `heap_pop` does not give
the key of the popped element back, so the key table is consistent exactly as long as
nothing was popped; afterwards keys run out, and `heap_insert` writes behind the table.

## Main results

* `heap_order_iff`: the order holds after every operation of a run if and only if every
  operation of the run meets `KeepsOrder`.
* `heap_keys_iff`: the key table is consistent after every operation, and keys address
  their own elements, if and only if the run pops nothing.
-/

namespace Gbase.Base.Heap

open Gbase.Lib.Comparator
open Gbase.Lib.ImplicitHeap
open Gbase.Lib.Run

variable {α : Type}

/-- The calls a client makes; `mem` tells whether allocations succeed. -/
inductive HeapOp (α : Type) where
  | insert (mem : Bool) (data : Option α)
  | erase (key : Int)
  | update (key : Int) (data : Option α)
  | pop

inductive HeapResult (α : Type) where
  | key (k : Int)
  | data (ptr : Option α)
  | done

def heapStep (cmp : α → α → Int) : Step (HeapT α) (HeapOp α) (HeapResult α)
  | h, .insert mem data => (heapInsert cmp mem h data).map fun r => (.key r.1, r.2)
  | h, .erase key => (heapErase cmp h key).map fun r => (.data r.1, r.2)
  | h, .update key data => (heapUpdate cmp h key data).map fun r => (.done, r)
  | h, .pop => (heapPop cmp h).map fun r => (.data r.1, r.2)

/-- Keys passed by the client belong to live elements. -/
def LiveKey (heap : HeapT α) : HeapOp α → Prop
  | .erase key => heap.HasKey key
  | .update key _ => heap.HasKey key
  | _ => True

/-! ## The order -/

/-- The heap order as the array shows it, and the top as a minimum of the elements. -/
structure MinOrdered (cmp : α → α → Int) (heap : HeapT α) : Prop where
  order : ∀ i, 0 < i → i < heap.size → ∃ x y, (heap.array ((i - 1) / 2)).data = some x ∧
    (heap.array i).data = some y ∧ cmp x y ≤ 0
  top : ∀ i < heap.size, ∃ x y, heapTop heap = some x ∧ (heap.array i).data = some y ∧
    cmp x y ≤ 0

private theorem nodeLe_iff {cmp : α → α → Int} {a b : NodeT α} (ha : ∃ d, a.data = some d)
    (hb : ∃ d, b.data = some d) :
    nodeLe cmp a b ↔ ∃ x y, a.data = some x ∧ b.data = some y ∧ cmp x y ≤ 0 := by
  obtain ⟨x, hx⟩ := ha
  obtain ⟨y, hy⟩ := hb
  simp [nodeLe, hx, hy]

private theorem minOrdered_iff {cmp : α → α → Int} (hPre : TotalPreorder cmp) {heap : HeapT α}
    (hLive : Live heap) : MinOrdered cmp heap ↔ HeapOrdered cmp heap := by
  have hPair : ∀ i, 0 < i → i < heap.size → (nodeLe cmp (heap.array (parent i)) (heap.array i) ↔
      ∃ x y, (heap.array ((i - 1) / 2)).data = some x ∧ (heap.array i).data = some y ∧
        cmp x y ≤ 0) := by
    intro i hi hin
    have hUp := parent_lt hi
    exact nodeLe_iff (hLive.data _ (by omega)) (hLive.data i hin)
  constructor
  · intro h i hi hin
    exact (hPair i hi hin).mpr (h.order i hi hin)
  · intro h
    refine ⟨fun i hi hin => (hPair i hi hin).mp (h i hi hin), ?_⟩
    intro i hi
    have hTop := h.top_le (nodeLe_refl hPre) (nodeLe_trans hPre) i hi
    have hPos : 0 < heap.size := by omega
    rw [heapTop, if_pos hPos]
    exact (nodeLe_iff (hLive.data 0 hPos) (hLive.data i hi)).mp hTop

/-- What an operation needs for the order to survive it: `heap_insert` has a key at hand,
and sifting down is enough for `heap_erase` and `heap_update`. -/
def KeepsOrder (cmp : α → α → Int) (heap : HeapT α) : HeapOp α → Prop
  | .insert _ (some _) => KeyAtHand heap
  | .erase key => ∀ i < heap.size, (heap.array i).heapKey = key → TailFits cmp heap i
  | .update key (some d) =>
      ∀ i < heap.size, (heap.array i).heapKey = key → UpdateFits cmp heap i d
  | _ => True

instance (cmp : α → α → Int) (heap : HeapT α) (op : HeapOp α) :
    Decidable (KeepsOrder cmp heap op) := by
  unfold KeepsOrder
  split <;> infer_instance

instance (heap : HeapT α) (op : HeapOp α) : Decidable (LiveKey heap op) := by
  unfold LiveKey
  split <;> infer_instance

/-- A condition on the position of a live key is one on its only position. -/
theorem Live.forall_key_iff {heap : HeapT α} (hLive : Live heap) {P : Nat → Prop} {i : Nat}
    (hi : i < heap.size) {key : Int} (hKey : (heap.array i).heapKey = key) :
    (∀ j < heap.size, (heap.array j).heapKey = key → P j) ↔ P i := by
  constructor
  · intro h
    exact h i hi hKey
  · intro h j hj hjk
    rw [hLive.key_inj hj hi (by rw [hjk, hKey])]
    exact h

/-- One operation on a usable heap: without a key at hand it is undefined, and otherwise
it leaves a usable heap, which is ordered exactly under `KeepsOrder`. -/
theorem heapStep_usable (cmp : α → α → Int) {heap : HeapT α} (hU : Usable heap)
    {op : HeapOp α} (hLegal : LiveKey heap op) :
    (heapStep cmp heap op = none ∧ ¬ KeepsOrder cmp heap op) ∨
    ∃ r heap', heapStep cmp heap op = some (r, heap') ∧ Usable heap' ∧
      (TotalPreorder cmp → HeapOrdered cmp heap →
        (HeapOrdered cmp heap' ↔ KeepsOrder cmp heap op)) := by
  have hSame : ∀ r, heapStep cmp heap op = some (r, heap) → KeepsOrder cmp heap op →
      ∃ r heap', heapStep cmp heap op = some (r, heap') ∧ Usable heap' ∧
        (TotalPreorder cmp → HeapOrdered cmp heap →
          (HeapOrdered cmp heap' ↔ KeepsOrder cmp heap op)) :=
    fun r hStep hKeeps => ⟨r, heap, hStep, hU, fun _ hOrd => iff_of_true hOrd hKeeps⟩
  cases op with
  | insert mem data =>
      cases data with
      | none => exact Or.inr (hSame (.key (-1)) (by simp [heapStep, heapInsert_null]) trivial)
      | some d =>
          by_cases hKey : KeyAtHand heap
          · by_cases hMem : heap.cap = heap.size → mem = true
            · obtain ⟨heap', hRun, hU', -, -, hOrd⟩ := heapInsert_usable cmp hU hKey d hMem
              exact Or.inr ⟨_, heap', by rw [heapStep, hRun]; rfl, hU',
                fun hPre hOrdered => iff_of_true (hOrd hPre hOrdered) hKey⟩
            · simp only [Classical.not_imp, Bool.not_eq_true] at hMem
              obtain ⟨hFull, rfl⟩ := hMem
              exact Or.inr (hSame (.key (-1)) (by simp [heapStep, heapInsert_noMem cmp hFull]) hKey)
          · exact Or.inl ⟨by simp [heapStep, heapInsert_undefined cmp mem hU hKey d], hKey⟩
  | erase key =>
      obtain ⟨i, hi, hKey⟩ := hLegal
      obtain ⟨heap', hRun, hU', -, hOrd⟩ := heapErase_usable cmp hU hi hKey
      refine Or.inr ⟨_, heap', by rw [heapStep, hRun]; rfl, hU', ?_⟩
      intro hPre hOrdered
      rw [hOrd hPre hOrdered]
      exact (hU.live.forall_key_iff hi hKey).symm
  | update key data =>
      cases data with
      | none => exact Or.inr (hSame .done (by simp [heapStep, heapUpdate_null]) trivial)
      | some d =>
          obtain ⟨i, hi, hKey⟩ := hLegal
          obtain ⟨heap', rest, hRun, hU', -, -, hOrd⟩ := heapUpdate_usable cmp hU hi hKey d
          refine Or.inr ⟨_, heap', by rw [heapStep, hRun]; rfl, hU', ?_⟩
          intro hPre hOrdered
          rw [hOrd hPre hOrdered]
          exact (hU.live.forall_key_iff (P := fun j => UpdateFits cmp heap j d) hi hKey).symm
  | pop =>
      rcases Nat.eq_zero_or_pos heap.size with hSize | hSize
      · exact Or.inr (hSame (.data none) (by simp [heapStep, heapPop_empty cmp hSize]) trivial)
      · obtain ⟨heap', hRun, hU', -, hOrd⟩ := heapPop_usable cmp hU hSize
        exact Or.inr ⟨_, heap', by rw [heapStep, hRun]; rfl, hU',
          fun hPre hOrdered => iff_of_true (hOrd hPre hOrdered) trivial⟩

theorem heapCreate_ordered (cmp : α → α → Int) : HeapOrdered cmp (heapCreate : HeapT α) := by
  intro i _ hin
  exact absurd hin (Nat.not_lt_zero i)

/-- In every run of a fresh heap, the heap is in order after every operation, with its
top a minimum, if and only if every operation meets `KeepsOrder`. -/
theorem heap_order_iff {cmp : α → α → Int} (hPre : TotalPreorder cmp) (ops : List (HeapOp α))
    (hLegal : Along (heapStep cmp) LiveKey heapCreate ops) :
    Along (heapStep cmp) (Does (heapStep cmp) fun _ _ _ h' => MinOrdered cmp h')
        heapCreate ops ↔
      Along (heapStep cmp) (KeepsOrder cmp) heapCreate ops := by
  refine along_iff_of_inv (fun h => Usable h ∧ HeapOrdered cmp h) ?_ ?_
    ⟨heapCreate_usable, heapCreate_ordered cmp⟩ hLegal
  · rintro h op ⟨hU, hOrd⟩ hLive
    rcases heapStep_usable cmp hU hLive with ⟨hNone, hNot⟩ | ⟨r, h', hStep, hU', hIff⟩
    · exact iff_of_false (not_does hNone) hNot
    · rw [← hIff hPre hOrd, ← minOrdered_iff hPre hU'.live]
      exact does_iff hStep
  · rintro h op r h' ⟨hU, hOrd⟩ hLive hDoes hStep
    have hMin := (does_iff hStep).mp hDoes
    rcases heapStep_usable cmp hU hLive with ⟨hNone, -⟩ | ⟨r₂, h₂, hStep₂, hU₂, -⟩
    · rw [hNone] at hStep
      cases hStep
    · rw [hStep] at hStep₂
      cases hStep₂
      exact ⟨hU₂, (minOrdered_iff hPre hU₂.live).mp hMin⟩

/-- A run that erases and updates within the limits. -/
theorem heap_order_iff_fitting_run :
    TotalPreorder natCmp ∧
      Along (heapStep natCmp) (Does (heapStep natCmp) fun _ _ _ h' => MinOrdered natCmp h')
        heapCreate
        [.insert true (some 1), .insert true (some 4), .insert true (some 2), .update 1 (some 3),
          .erase 0, .pop] := by
  refine ⟨natCmp_totalPreorder, ?_⟩
  exact (heap_order_iff natCmp_totalPreorder _ (by decide)).mpr (by decide)

/-- The data in the array after a run, position by position. -/
def arrayAfter (cmp : α → α → Int) (ops : List (HeapOp α)) : Option (List (Option α)) :=
  (run (heapStep cmp) heapCreate ops).map fun r =>
    (List.range r.2.size).map fun i => (r.2.array i).data

/-- A run whose array ends with a child before its parent is not in order throughout. -/
theorem not_along_of_arrayAfter {cmp : α → α → Int} {op : HeapOp α} {ops : List (HeapOp α)}
    {l : List (Option α)} (hArray : arrayAfter cmp (op :: ops) = some l) {i : Nat} {x y : α}
    (hPos : 0 < i) (hUp : l[(i - 1) / 2]? = some (some x)) (hAt : l[i]? = some (some y))
    (hLess : 0 < cmp x y) :
    ¬ Along (heapStep cmp) (Does (heapStep cmp) fun _ _ _ h' => MinOrdered cmp h')
      heapCreate (op :: ops) := by
  intro hAlong
  unfold arrayAfter at hArray
  cases hRun : run (heapStep cmp) heapCreate (op :: ops) with
  | none => simp [hRun] at hArray
  | some r =>
      simp only [hRun, Option.map_some, Option.some.injEq] at hArray
      subst hArray
      obtain ⟨_, _, hMin⟩ := last_of_along hAlong hRun
      simp only [List.getElem?_map, Option.map_eq_some_iff, List.getElem?_eq_some_iff,
        List.length_range, List.getElem_range] at hUp hAt
      obtain ⟨_, ⟨hj, rfl⟩, hx⟩ := hUp
      obtain ⟨_, ⟨hi, rfl⟩, hy⟩ := hAt
      obtain ⟨x', y', hx', hy', hLe⟩ := hMin.order i hPos hi
      rw [hx] at hx'
      rw [hy] at hy'
      cases hx'
      cases hy'
      omega

/-- Updating to a smaller value, and erasing so that the small last node lands below a
large parent, both leave the heap out of order. -/
theorem heap_order_broken :
    TotalPreorder natCmp ∧
      (arrayAfter natCmp [.insert true (some 1), .insert true (some 2), .update 1 (some 0)] =
          some [some 1, some 0] ∧
        ¬ Along (heapStep natCmp) (Does (heapStep natCmp) fun _ _ _ h' => MinOrdered natCmp h')
          heapCreate [.insert true (some 1), .insert true (some 2), .update 1 (some 0)]) ∧
      (arrayAfter natCmp [.insert true (some 1), .insert true (some 10), .insert true (some 2),
          .insert true (some 11), .insert true (some 12), .insert true (some 3), .erase 3] =
          some [some 1, some 10, some 2, some 3, some 12] ∧
        ¬ Along (heapStep natCmp) (Does (heapStep natCmp) fun _ _ _ h' => MinOrdered natCmp h')
          heapCreate [.insert true (some 1), .insert true (some 10), .insert true (some 2),
            .insert true (some 11), .insert true (some 12), .insert true (some 3), .erase 3]) := by
  have hUpdate : arrayAfter natCmp
      [.insert true (some 1), .insert true (some 2), .update 1 (some 0)] =
      some [some 1, some 0] := by decide
  have hErase : arrayAfter natCmp
      [.insert true (some 1), .insert true (some 10), .insert true (some 2),
        .insert true (some 11), .insert true (some 12), .insert true (some 3), .erase 3] =
      some [some 1, some 10, some 2, some 3, some 12] := by decide
  exact ⟨natCmp_totalPreorder,
    ⟨hUpdate, not_along_of_arrayAfter hUpdate (i := 1) Nat.one_pos rfl rfl (by decide)⟩,
    ⟨hErase, not_along_of_arrayAfter hErase (i := 3) (by decide) rfl rfl (by decide)⟩⟩

/-! ## The keys -/

/-- The key table and the array are inverse to each other, and `next_key` is free or marks
a full heap. -/
structure KeyConsistent (heap : HeapT α) : Prop where
  size_le : heap.size ≤ heap.cap
  below : ∀ i < heap.size, 0 ≤ (heap.array i).heapKey ∧ (heap.array i).heapKey < heap.cap
  distinct : ∀ i < heap.size, ∀ j < heap.size,
    (heap.array i).heapKey = (heap.array j).heapKey → i = j
  inverse : ∀ i < heap.size, heap.keyTable (heap.array i).heapKey.toNat = i
  free : ∀ k : Nat, k < heap.cap → ¬ heap.HasKey k → heap.keyTable k = -1
  next : (∃ k : Nat, heap.nextKey = k ∧ k < heap.cap ∧ ¬ heap.HasKey k) ∨
    (heap.nextKey = heap.cap ∧ heap.size = heap.cap)

/-- The element a key leads to, read through the key table. -/
def HeapT.addressed (heap : HeapT α) (key : Int) : Option α :=
  if 0 ≤ key ∧ key < heap.cap ∧ 0 ≤ heap.keyTable key.toNat then
    (heap.array (heap.keyTable key.toNat).toNat).data
  else none

/-- Keys passed by the client lie within the key table, whether in use or not. -/
def TableKey (heap : HeapT α) : HeapOp α → Prop
  | .erase key => 0 ≤ key ∧ key < heap.cap
  | .update key _ => 0 ≤ key ∧ key < heap.cap
  | _ => True

instance (heap : HeapT α) (op : HeapOp α) : Decidable (TableKey heap op) := by
  unfold TableKey
  split <;> infer_instance

/-- What an operation does to the map from keys to elements. -/
def KeyStep (m : Int → Option α) : HeapOp α → HeapResult α → (Int → Option α) → Prop
  | .insert mem data, r, m' =>
      (r = .key (-1) ∧ m' = m ∧ (data = none ∨ mem = false)) ∨
      ∃ k d, data = some d ∧ r = .key k ∧ 0 ≤ k ∧ m k = none ∧ m' = Function.update m k (some d)
  | .erase key, r, m' => r = .data (m key) ∧ m' = Function.update m key none
  | .update key data, r, m' =>
      r = .done ∧ m' = if data.isSome ∧ (m key).isSome then Function.update m key data else m
  | .pop, r, m' =>
      (r = .data none ∧ m' = m ∧ ∀ k, m k = none) ∨
      ∃ k d, m k = some d ∧ r = .data (some d) ∧ m' = Function.update m k none

/-- The operation does not pop an element. -/
def NoPop (heap : HeapT α) : HeapOp α → Prop
  | .pop => heap.size = 0
  | _ => True

/-- The operation keeps the keys consistent and moves the key map as it should. -/
def KeepsKeys (cmp : α → α → Int) : HeapT α → HeapOp α → Prop :=
  Does (heapStep cmp) fun h op r h' =>
    KeyConsistent h' ∧ KeyStep h.addressed op r h'.addressed

section Keys

variable {heap : HeapT α}

theorem keyConsistent_of_live (hLive : Live heap)
    (hFree : ∀ k : Nat, k < heap.cap → ¬ heap.HasKey k → heap.keyTable k = -1)
    (hNext : (∃ k : Nat, heap.nextKey = k ∧ k < heap.cap ∧ ¬ heap.HasKey k) ∨
      (heap.nextKey = heap.cap ∧ heap.size = heap.cap)) : KeyConsistent heap where
  size_le := hLive.size_le
  below := hLive.key
  distinct := fun _ hi _ hj hKey => hLive.key_inj hi hj (by rw [hKey])
  inverse := hLive.pos
  free := hFree
  next := hNext

/-- A key addresses an element exactly when the heap holds the node of both. -/
theorem addressed_iff (hLive : Live heap) (hKeys : KeyConsistent heap) {k : Int} {d : α} :
    heap.addressed k = some d ↔ { data := some d, heapKey := k } ∈ heap.entries := by
  constructor
  · intro h
    unfold HeapT.addressed at h
    split at h
    · next hIn =>
        obtain ⟨h0, hCap, hPos⟩ := hIn
        have hHas : heap.HasKey k := by
          by_contra hNot
          have hMinus := hKeys.free k.toNat (by omega) (by rwa [Int.toNat_of_nonneg h0])
          omega
        obtain ⟨i, hi, hKey⟩ := hHas
        have hInv := hLive.pos i hi
        rw [hKey] at hInv
        rw [hInv, Int.toNat_natCast] at h
        refine mem_entries.mpr ⟨i, hi, ?_⟩
        rw [← h, ← hKey]
    · cases h
  · intro h
    obtain ⟨i, hi, hNode⟩ := mem_entries.mp h
    have hKey := hLive.key i hi
    have hInv := hLive.pos i hi
    rw [hNode] at hKey hInv
    simp only at hKey hInv
    rw [HeapT.addressed, if_pos ⟨hKey.1, hKey.2, by omega⟩, hInv, Int.toNat_natCast, hNode]

/-- A key of the heap addresses the data of its node. -/
theorem addressed_array (hLive : Live heap) (hKeys : KeyConsistent heap) {i : Nat}
    (hi : i < heap.size) : heap.addressed (heap.array i).heapKey = (heap.array i).data := by
  obtain ⟨d, hd⟩ := hLive.data i hi
  rw [hd, addressed_iff hLive hKeys, ← hd]
  exact array_mem_entries hi

theorem addressed_none (hLive : Live heap) (hKeys : KeyConsistent heap) {k : Int}
    (hNot : ¬ heap.HasKey k) : heap.addressed k = none := by
  cases h : heap.addressed k with
  | none => rfl
  | some d =>
      have hMem := (addressed_iff hLive hKeys).mp h
      exact absurd (hasKey_iff_entries.mpr ⟨_, hMem, rfl⟩) hNot

/-- Two key maps with the same nodes behind them are equal. -/
theorem optionMap_ext {m m' : Int → Option α} (h : ∀ k d, m k = some d ↔ m' k = some d) :
    m = m' := by
  funext k
  cases hk : m k with
  | none =>
      cases hk' : m' k with
      | none => rfl
      | some d => rw [(h k d).mpr hk'] at hk; cases hk
  | some d => exact ((h k d).mp hk).symm

/-- The key map after a node was added. -/
theorem addressed_add {heap' : HeapT α} (hLive : Live heap) (hKeys : KeyConsistent heap)
    (hLive' : Live heap') (hKeys' : KeyConsistent heap') {k : Int} {d : α}
    (hEntries : heap'.entries = { data := some d, heapKey := k } ::ₘ heap.entries)
    (hNew : ¬ heap.HasKey k) :
    heap'.addressed = Function.update heap.addressed k (some d) := by
  refine optionMap_ext ?_
  intro j e
  rw [addressed_iff hLive' hKeys', hEntries, Multiset.mem_cons, Function.update_apply]
  by_cases hjk : j = k
  · subst hjk
    have hNot : { data := some e, heapKey := j } ∉ heap.entries :=
      fun hMem => hNew (hasKey_iff_entries.mpr ⟨_, hMem, rfl⟩)
    simp [hNot, eq_comm]
  · rw [if_neg hjk, addressed_iff hLive hKeys]
    simp [hjk]

/-- The key map after the node at `i` was taken out. -/
theorem addressed_remove {heap' : HeapT α} (hLive : Live heap) (hKeys : KeyConsistent heap)
    (hLive' : Live heap') (hKeys' : KeyConsistent heap') {i : Nat}
    (hEntries : heap.entries = heap.array i ::ₘ heap'.entries)
    (hGone : ¬ heap'.HasKey (heap.array i).heapKey) :
    heap'.addressed = Function.update heap.addressed (heap.array i).heapKey none := by
  refine optionMap_ext ?_
  intro j e
  rw [addressed_iff hLive' hKeys', Function.update_apply]
  by_cases hjk : j = (heap.array i).heapKey
  · subst hjk
    rw [if_pos rfl]
    refine iff_of_false (fun hMem => hGone (hasKey_iff_entries.mpr ⟨_, hMem, rfl⟩)) (by simp)
  · rw [if_neg hjk, addressed_iff hLive hKeys, hEntries, Multiset.mem_cons]
    constructor
    · exact Or.inr
    · rintro (hEq | hMem)
      · exact absurd (congrArg NodeT.heapKey hEq) hjk
      · exact hMem

/-- The key map after the node at `i` got new data. -/
theorem addressed_replace {heap' : HeapT α} (hLive : Live heap) (hKeys : KeyConsistent heap)
    (hLive' : Live heap') (hKeys' : KeyConsistent heap') {i : Nat} {d : α}
    {rest : Multiset (NodeT α)} (hOld : heap.entries = heap.array i ::ₘ rest)
    (hNew : heap'.entries = { heap.array i with data := some d } ::ₘ rest) :
    heap'.addressed = Function.update heap.addressed (heap.array i).heapKey (some d) := by
  have hRest : ∀ n ∈ rest, n.heapKey ≠ (heap.array i).heapKey := by
    intro n hn hEq
    have hNodup := hLive.keys_nodup
    rw [hOld, Multiset.map_cons, Multiset.nodup_cons] at hNodup
    exact hNodup.1 (Multiset.mem_map.mpr ⟨n, hn, hEq⟩)
  refine optionMap_ext ?_
  intro k e
  rw [addressed_iff hLive' hKeys', hNew, Multiset.mem_cons, Function.update_apply]
  by_cases hk : k = (heap.array i).heapKey
  · have hNot : { data := some e, heapKey := k } ∉ rest := fun hMem => hRest _ hMem hk
    subst hk
    simp [hNot, eq_comm]
  · rw [if_neg hk, addressed_iff hLive hKeys, hOld, Multiset.mem_cons]
    refine or_congr_left (iff_of_false ?_ ?_)
    · exact fun hEq => hk (congrArg NodeT.heapKey hEq)
    · exact fun hEq => hk (congrArg NodeT.heapKey hEq)

/-- If every key of the table is in use, the heap is full. -/
theorem full_of_all_keys (hAll : ∀ k : Nat, k < heap.cap → heap.HasKey k) :
    heap.cap ≤ heap.size := by
  have hSub : Finset.range heap.cap ⊆
      (Finset.range heap.size).image fun i => (heap.array i).heapKey.toNat := by
    intro k hk
    obtain ⟨i, hi, hKey⟩ := hAll k (Finset.mem_range.mp hk)
    exact Finset.mem_image.mpr ⟨i, Finset.mem_range.mpr hi, by simp [hKey]⟩
  have hCard := (Finset.card_le_card hSub).trans Finset.card_image_le
  simpa using hCard

theorem Live.not_hasKey_iff (hLive : Live heap) {k : Nat} :
    ¬ heap.HasKey k ↔ ∀ i < heap.size, (heap.array i).heapKey.toNat ≠ k := by
  constructor
  · intro h i hi hKey
    have hRange := hLive.key i hi
    exact h ⟨i, hi, by omega⟩
  · rintro h ⟨i, hi, hKey⟩
    exact h i hi (by rw [hKey]; rfl)

/-- Unused keys stay free when the nodes are rearranged. -/
theorem free_of_rearranged {heap' : HeapT α} (hLive : Live heap) (hRe : Rearranged heap heap')
    {k : Nat} (hNot : ¬ heap'.HasKey k) : heap'.keyTable k = heap.keyTable k :=
  hRe.idle k (hLive.not_hasKey_iff.mp fun h => hNot (hRe.hasKey_iff.mpr h))

end Keys

theorem heapCreate_keys : KeyConsistent (heapCreate : HeapT α) := by
  refine keyConsistent_of_live heapCreate_usable.live (fun _ _ _ => rfl) (Or.inl ⟨0, rfl, ?_, ?_⟩)
  · exact Nat.zero_lt_succ 15
  · rintro ⟨i, hi, -⟩
    exact absurd hi (Nat.not_lt_zero i)

/-! ## The operations and the keys -/

section KeyOps

variable {heap : HeapT α}

theorem KeyConsistent.keyAtHand (hKeys : KeyConsistent heap) : KeyAtHand heap := by
  intro hRoom
  rcases hKeys.next with ⟨k, hk, hkc, -⟩ | ⟨-, hFull⟩
  · omega
  · omega

/-- What the grown table says about a key: what it said before, or nothing for a new key. -/
theorem roomy_keyTable {k : Nat} (hk : k < heap.roomy.cap) :
    heap.roomy.keyTable k = if k < heap.cap then heap.keyTable k else -1 := by
  by_cases hFull : heap.cap = heap.size
  · have hRoomy : heap.roomy = heap.grown := if_pos hFull
    rw [hRoomy]
    rfl
  · have hRoomy : heap.roomy = heap := if_neg hFull
    rw [hRoomy] at hk ⊢
    rw [if_pos hk]

/-- The keys the grown heap has free are the free ones and the new ones. -/
theorem roomy_free (hKeys : KeyConsistent heap) {k : Nat}
    (hk : k < heap.roomy.cap) (hNot : ¬ heap.HasKey k) : heap.roomy.keyTable k = -1 := by
  rw [roomy_keyTable hk]
  split
  · next hkc => exact hKeys.free k hkc hNot
  · rfl

/-- An insertion takes the next key, and does not touch the table entries of other keys that are
not in use. -/
theorem heapInsert_table (cmp : α → α → Int) {mem : Bool} (hU : Usable heap)
    (hKey : KeyAtHand heap) (d : α) (hMem : heap.cap = heap.size → mem = true) {r : Int}
    {heap' : HeapT α} (hRun : heapInsert cmp mem heap (some d) = some (r, heap')) :
    heap'.cap = heap.roomy.cap ∧ (∀ k, heap'.HasKey k ↔ k = heap.nextKey ∨ heap.HasKey k) ∧
      ∀ k : Nat, ¬ heap'.HasKey k → heap'.keyTable k = heap.roomy.keyTable k := by
  obtain ⟨next, hNext, hLt, hFree, hRoom⟩ := hU.freeKey hKey
  obtain ⟨key, heap₁, hRun₁, -, hRe, -⟩ :=
    heapInsert_spec cmp hU.live hNext hLt hFree hRoom d hMem
  rw [hRun] at hRun₁
  obtain rfl := (Prod.mk.inj (Option.some.inj hRun₁)).2
  have hNextR : heap.roomy.nextKey = next := by rw [roomy_nextKey, hNext]
  have hLiveP := placed_live (roomy_live hU.live) hNextR hLt (by rw [roomy_size]; exact hRoom)
    hFree d key
  have hHas : ∀ k, heap'.HasKey k ↔ k = heap.nextKey ∨ heap.HasKey k := by
    intro k
    rw [hRe.hasKey_iff, hasKey_iff_entries, placed_entries, roomy_entries hU.live,
      hasKey_iff_entries, roomy_nextKey]
    simp only [Multiset.mem_cons, exists_eq_or_imp]
    exact or_congr_left eq_comm
  refine ⟨hRe.cap, hHas, ?_⟩
  intro k hNot
  have hne : k ≠ next := by
    rintro rfl
    exact hNot ((hHas k).mpr (Or.inl hNext.symm))
  rw [free_of_rearranged hLiveP hRe hNot]
  simp [HeapT.placed, hNext, hne]

theorem heapInsert_keys (cmp : α → α → Int) {mem : Bool} (hU : Usable heap)
    (hKeys : KeyConsistent heap) (d : α) (hMem : heap.cap = heap.size → mem = true) :
    ∃ heap', heapInsert cmp mem heap (some d) = some (heap.nextKey, heap') ∧
      KeyConsistent heap' := by
  obtain ⟨next, hNext, hLt, hFree, hRoom⟩ := hU.freeKey hKeys.keyAtHand
  obtain ⟨key, heap', hRun, hLive', hRe, hNextKey, -⟩ :=
    heapInsert_spec cmp hU.live hNext hLt hFree hRoom d hMem
  rw [← hNext] at hRun
  obtain ⟨-, hHasKey, hTable⟩ := heapInsert_table cmp hU hKeys.keyAtHand d hMem hRun
  have hHas : ∀ k : Nat, heap'.HasKey k ↔ k = next ∨ heap.HasKey k := by
    intro k
    rw [hHasKey, hNext, Int.natCast_inj]
  refine ⟨heap', hRun, keyConsistent_of_live hLive' ?_ ?_⟩
  · intro k hk hNot
    rw [hRe.cap] at hk
    rw [hTable k hNot]
    exact roomy_free hKeys hk fun h => hNot ((hHas k).mpr (Or.inr h))
  · have hCap : heap'.cap = heap.roomy.cap := hRe.cap
    have hSize : heap'.size = heap.size + 1 := by
      rw [hRe.size]
      change heap.roomy.size + 1 = _
      rw [roomy_size]
    rw [show heap'.nextKey = key from hRe.nextKey, hCap]
    rcases hNextKey with ⟨k, hk, hkc, hne, hkf⟩ | ⟨hkc, hUsed⟩
    · refine Or.inl ⟨k, hk, hkc, ?_⟩
      rw [hHas, not_or]
      refine ⟨hne, ?_⟩
      rw [hasKey_iff_entries, ← roomy_entries hU.live, ← hasKey_iff_entries]
      exact (roomy_live hU.live).not_hasKey_iff.mpr ((roomy_live hU.live).not_hasKey hkf)
    · refine Or.inr ⟨hkc, ?_⟩
      have hAll : heap'.cap ≤ heap'.size := by
        refine full_of_all_keys ?_
        intro k hk
        rw [hCap] at hk
        rw [hHas]
        by_contra hNot
        rw [not_or] at hNot
        have hFree' := roomy_free hKeys hk hNot.2
        have hPos := hUsed k hk hNot.1
        omega
      have hLe := hLive'.size_le
      omega

/-- The keys in use after the node at `i` was taken out. -/
theorem hasKey_of_removed {heap' : HeapT α} (hLive : Live heap) {i : Nat}
    (hEntries : heap.entries = heap.array i ::ₘ heap'.entries) (k : Int) :
    heap'.HasKey k ↔ k ≠ (heap.array i).heapKey ∧ heap.HasKey k := by
  have hNodup := hLive.keys_nodup
  rw [hEntries, Multiset.map_cons, Multiset.nodup_cons] at hNodup
  rw [hasKey_iff_entries, hasKey_iff_entries, hEntries]
  simp only [Multiset.mem_cons, exists_eq_or_imp]
  constructor
  · rintro ⟨n, hn, rfl⟩
    refine ⟨?_, Or.inr ⟨n, hn, rfl⟩⟩
    intro hEq
    exact hNodup.1 (hEq ▸ Multiset.mem_map_of_mem NodeT.heapKey hn)
  · rintro ⟨hne, hEq | hIn⟩
    · exact absurd hEq.symm hne
    · exact hIn

/-- An erasure frees the key in the table, and does not touch the entries of other keys that are
not in use. -/
theorem heapErase_table (cmp : α → α → Int) (hU : Usable heap) {i : Nat} (hi : i < heap.size)
    {key : Int} (hKey : (heap.array i).heapKey = key) {r : Option α} {heap' : HeapT α}
    (hRun : heapErase cmp heap key = some (r, heap')) :
    heap'.cap = heap.cap ∧ (∀ k, heap'.HasKey k ↔ k ≠ key ∧ heap.HasKey k) ∧
      heap'.keyTable key.toNat = -1 ∧
      ∀ k : Nat, (k : Int) ≠ key → ¬ heap'.HasKey k → heap'.keyTable k = heap.keyTable k := by
  obtain ⟨heap₁, -, -, hRe, hRun₁⟩ := heapErase_spec cmp hU.live hi hKey
  obtain ⟨heap₂, hRun₂, -, hEntries, -⟩ := heapErase_usable cmp hU hi hKey
  rw [hRun] at hRun₁ hRun₂
  obtain rfl := (Prod.mk.inj (Option.some.inj hRun₂)).2
  obtain rfl := (Prod.mk.inj (Option.some.inj hRun₁)).2
  have hLive₀ := released_live hU.live key
  have hLiveR : Live ((heap.released key).removed i) := removed_live hLive₀ hi
  have hHas : ∀ k, (heap₁.cleared key).HasKey k ↔ k ≠ key ∧ heap.HasKey k := by
    rw [← hKey]
    exact hasKey_of_removed hU.live (by rw [hKey]; exact hEntries)
  refine ⟨hRe.cap, hHas, if_pos rfl, ?_⟩
  intro k hne hNot
  have hRange := hU.live.key i hi
  rw [hKey] at hRange
  have hNotOld : ¬ heap.HasKey k := fun h => hNot ((hHas k).mpr ⟨hne, h⟩)
  have hNot₁ : ¬ heap₁.HasKey k := hNot
  have hFar : k ≠ key.toNat := by omega
  rw [HeapT.cleared]
  simp only [if_neg hFar]
  rw [free_of_rearranged hLiveR hRe hNot₁,
    @removed_idle α (heap.released key) i hi k (hLive₀.not_hasKey_iff.mp hNotOld)]
  rfl

/-- A pop leaves the key of the popped node in the table, and does not touch the entries of other
keys that are not in use. -/
theorem heapPop_table (cmp : α → α → Int) (hLive : Live heap) (hSize : 0 < heap.size)
    {r : Option α} {heap' : HeapT α} (hRun : heapPop cmp heap = some (r, heap')) :
    heap'.cap = heap.cap ∧
      (∀ k, heap'.HasKey k ↔ k ≠ (heap.array 0).heapKey ∧ heap.HasKey k) ∧
      heap'.keyTable (heap.array 0).heapKey.toNat = (heap.size - 1 : Nat) ∧
      ∀ k : Nat, (k : Int) ≠ (heap.array 0).heapKey → ¬ heap'.HasKey k →
        heap'.keyTable k = heap.keyTable k := by
  obtain ⟨heap₁, -, -, hRe, hRun₁⟩ := heapPop_spec cmp hLive hSize
  rw [hRun] at hRun₁
  obtain rfl := (Prod.mk.inj (Option.some.inj hRun₁)).2
  have hLiveR := removed_live hLive hSize
  obtain ⟨hGone, hEntry⟩ := removed_key hLive hSize
  have hHas : ∀ k, heap'.HasKey k ↔ k ≠ (heap.array 0).heapKey ∧ heap.HasKey k := by
    apply hasKey_of_removed hLive
    rw [hRe.entries]
    exact removed_entries hSize
  refine ⟨hRe.cap, hHas, by rw [hRe.idle _ hGone, hEntry], ?_⟩
  intro k hne hNot
  have hNotOld : ¬ heap.HasKey k := fun h => hNot ((hHas k).mpr ⟨hne, h⟩)
  rw [free_of_rearranged hLiveR hRe hNot, removed_idle hSize (hLive.not_hasKey_iff.mp hNotOld)]

private theorem heapErase_keys (cmp : α → α → Int) (hU : Usable heap) (hKeys : KeyConsistent heap)
    {i : Nat} (hi : i < heap.size) {key : Int} (hKey : (heap.array i).heapKey = key) :
    ∃ heap', heapErase cmp heap key = some ((heap.array i).data, heap') ∧
      KeyConsistent heap' ∧ ¬ heap'.HasKey key := by
  obtain ⟨heap', hRun, hU', -⟩ := heapErase_usable cmp hU hi hKey
  obtain ⟨heap₁, -, -, hRe, hRun₁⟩ := heapErase_spec cmp hU.live hi hKey
  obtain rfl : heap₁.cleared key = heap' := by
    rw [hRun] at hRun₁
    exact (Prod.mk.inj (Option.some.inj hRun₁)).2.symm
  obtain ⟨hCap, hHas, hFreed, hTable⟩ := heapErase_table cmp hU hi hKey hRun
  have hRange := hU.live.key i hi
  rw [hKey] at hRange
  have hGone : ¬ (heap₁.cleared key).HasKey key := fun h => ((hHas key).mp h).1 rfl
  refine ⟨heap₁.cleared key, hRun, keyConsistent_of_live hU'.live ?_ ?_, hGone⟩
  · intro k hk hNot
    by_cases hne : (k : Int) = key
    · have hToNat : key.toNat = k := by omega
      rwa [hToNat] at hFreed
    · rw [hTable k hne hNot]
      rw [hCap] at hk
      exact hKeys.free k hk fun h => hNot ((hHas k).mpr ⟨hne, h⟩)
  · have hNext : heap₁.nextKey = if heap.nextKey = heap.cap then key else heap.nextKey :=
      hRe.nextKey
    refine Or.inl ?_
    change ∃ k : Nat, heap₁.nextKey = k ∧ k < (heap₁.cleared key).cap ∧ _
    rw [hCap]
    by_cases hEnd : heap.nextKey = heap.cap
    · refine ⟨key.toNat, by rw [hNext, if_pos hEnd]; omega, by omega, ?_⟩
      rwa [Int.toNat_of_nonneg hRange.1]
    · rcases hKeys.next with ⟨k, hk, hkc, hNot⟩ | ⟨h, -⟩
      · exact ⟨k, by rw [hNext, if_neg hEnd, hk], hkc, fun h => hNot ((hHas k).mp h).2⟩
      · exact absurd h hEnd

private theorem heapUpdate_keys (cmp : α → α → Int) (hU : Usable heap) (hKeys : KeyConsistent heap)
    {i : Nat} (hi : i < heap.size) (d : α) :
    ∃ heap', heapUpdate cmp heap (heap.array i).heapKey (some d) = some heap' ∧
      KeyConsistent heap' := by
  obtain ⟨heap', hRot, hLive', hRe, hRun⟩ := heapUpdate_spec cmp hU.live hi d
  have hLiveR := replaced_live hU.live i d
  have hHas : ∀ k, heap'.HasKey k ↔ heap.HasKey k := by
    intro k
    rw [hRe.hasKey_iff]
    refine exists_congr fun j => and_congr_right fun hj => ?_
    by_cases hji : j = i
    · rw [hji, replaced_array_self]
    · rw [replaced_array_of_ne d hji]
  refine ⟨heap', hRun, keyConsistent_of_live hLive' ?_ ?_⟩
  · intro k hk hNot
    rw [free_of_rearranged hLiveR hRe hNot]
    rw [show heap'.cap = heap.cap from hRe.cap] at hk
    exact hKeys.free k hk fun h => hNot ((hHas k).mpr h)
  · rw [show heap'.nextKey = heap.nextKey from hRe.nextKey,
      show heap'.cap = heap.cap from hRe.cap, show heap'.size = heap.size from hRe.size]
    rcases hKeys.next with ⟨k, hk, hkc, hNot⟩ | h
    · exact Or.inl ⟨k, hk, hkc, fun h => hNot ((hHas k).mp h)⟩
    · exact Or.inr h

/-- After popping an element its key is unused, but its table entry is not cleared. -/
theorem heapPop_keeps_key (cmp : α → α → Int) (hU : Usable heap) (hSize : 0 < heap.size)
    {r : Option α} {heap' : HeapT α} (hRun : heapPop cmp heap = some (r, heap')) :
    ¬ KeyConsistent heap' := by
  intro hKeys'
  obtain ⟨hCap, hHas, hEntry, -⟩ := heapPop_table cmp hU.live hSize hRun
  have hRange := hU.live.key 0 hSize
  have hToNat := Int.toNat_of_nonneg hRange.1
  have hNot : ¬ heap'.HasKey (heap.array 0).heapKey.toNat := by
    rw [hToNat]
    exact fun h => ((hHas _).mp h).1 rfl
  have hMinus := hKeys'.free _ (by omega) hNot
  rw [hEntry] at hMinus
  omega

/-- A key of the table that is not in use addresses nothing: the operation changes
nothing. -/
theorem heapStep_unusedKey (cmp : α → α → Int) (hLive : Live heap) (hKeys : KeyConsistent heap)
    {op : HeapOp α} (hTable : TableKey heap op) (hNot : ¬ LiveKey heap op) :
    (∃ r, heapStep cmp heap op = some (r, heap)) ∧ KeepsKeys cmp heap op := by
  have hPos : ∀ {key : Int}, 0 ≤ key ∧ key < heap.cap → ¬ heap.HasKey key →
      heap.keyPos key = some (-1) := by
    intro key hRange hUnused
    have hMinus : heap.keyTable key.toNat = -1 := by
      apply hKeys.free key.toNat (by omega)
      rwa [Int.toNat_of_nonneg hRange.1]
    rw [HeapT.keyPos, if_pos hRange, hMinus]
  cases op with
  | insert mem data => exact absurd trivial hNot
  | erase key =>
      have hStep : heapStep cmp heap (.erase key) = some (.data none, heap) := by
        simp [heapStep, heapErase, hPos hTable hNot]
      have hNone := addressed_none hLive hKeys hNot
      refine ⟨⟨_, hStep⟩, _, heap, hStep, hKeys, by rw [hNone], ?_⟩
      rw [Function.update_eq_self_iff.mpr hNone.symm]
  | update key data =>
      have hStep : heapStep cmp heap (.update key data) = some (.done, heap) := by
        simp [heapStep, heapUpdate, hPos hTable hNot]
      have hNone := addressed_none hLive hKeys hNot
      exact ⟨⟨_, hStep⟩, _, heap, hStep, hKeys, rfl, by simp [hNone]⟩
  | pop => exact absurd trivial hNot

/-- One operation on a heap with consistent keys keeps them exactly when it does not pop
an element. -/
theorem heapStep_keys_iff (cmp : α → α → Int) (hU : Usable heap) (hKeys : KeyConsistent heap)
    {op : HeapOp α} (hLegal : LiveKey heap op) :
    KeepsKeys cmp heap op ↔ NoPop heap op := by
  cases op with
  | insert mem data =>
      refine iff_of_true ?_ trivial
      cases data with
      | none =>
          exact ⟨.key (-1), heap, by simp [heapStep, heapInsert_null], hKeys,
            Or.inl ⟨rfl, rfl, Or.inl rfl⟩⟩
      | some d =>
          by_cases hMem : heap.cap = heap.size → mem = true
          · obtain ⟨heap', hRun, hKeys'⟩ := heapInsert_keys cmp hU hKeys d hMem
            obtain ⟨heap'', hRun', hU', hEntries, hNew, -⟩ :=
              heapInsert_usable cmp hU hKeys.keyAtHand d hMem
            obtain rfl : heap' = heap'' := by
              rw [hRun] at hRun'
              exact (Prod.mk.inj (Option.some.inj hRun')).2
            obtain ⟨next, hNext, -⟩ := hU.freeKey hKeys.keyAtHand
            exact ⟨.key heap.nextKey, heap', by simp [heapStep, hRun], hKeys',
              Or.inr ⟨heap.nextKey, d, rfl, rfl, by omega, addressed_none hU.live hKeys hNew,
                addressed_add hU.live hKeys hU'.live hKeys' hEntries hNew⟩⟩
          · simp only [Classical.not_imp, Bool.not_eq_true] at hMem
            obtain ⟨hFull, rfl⟩ := hMem
            exact ⟨.key (-1), heap, by simp [heapStep, heapInsert_noMem cmp hFull], hKeys,
              Or.inl ⟨rfl, rfl, Or.inr rfl⟩⟩
  | erase key =>
      refine iff_of_true ?_ trivial
      obtain ⟨i, hi, rfl⟩ := hLegal
      obtain ⟨heap', hRun, hKeys', hGone⟩ := heapErase_keys cmp hU hKeys hi rfl
      obtain ⟨heap'', hRun', hU', hEntries, -⟩ := heapErase_usable cmp hU hi rfl
      obtain rfl : heap' = heap'' := by
        rw [hRun] at hRun'
        exact (Prod.mk.inj (Option.some.inj hRun')).2
      exact ⟨.data (heap.array i).data, heap', by simp [heapStep, hRun], hKeys',
        by rw [addressed_array hU.live hKeys hi],
        addressed_remove hU.live hKeys hU'.live hKeys' hEntries hGone⟩
  | update key data =>
      refine iff_of_true ?_ trivial
      cases data with
      | none =>
          exact ⟨.done, heap, by simp [heapStep, heapUpdate_null], hKeys, rfl, by simp⟩
      | some d =>
          obtain ⟨i, hi, rfl⟩ := hLegal
          obtain ⟨heap', hRun, hKeys'⟩ := heapUpdate_keys cmp hU hKeys hi d
          obtain ⟨heap'', rest, hRun', hU', hOld, hNew, -⟩ := heapUpdate_usable cmp hU hi rfl d
          obtain rfl : heap' = heap'' := by
            rw [hRun] at hRun'
            exact Option.some.inj hRun'
          refine ⟨.done, heap', by simp [heapStep, hRun], hKeys', rfl, ?_⟩
          rw [addressed_array hU.live hKeys hi,
            if_pos ⟨Option.isSome_some, Option.isSome_iff_exists.mpr (hU.live.data i hi)⟩]
          exact addressed_replace hU.live hKeys hU'.live hKeys' hOld hNew
  | pop =>
      rcases Nat.eq_zero_or_pos heap.size with hSize | hSize
      · refine iff_of_true ?_ hSize
        refine ⟨.data none, heap, by simp [heapStep, heapPop_empty cmp hSize], hKeys,
          Or.inl ⟨rfl, rfl, ?_⟩⟩
        intro k
        refine addressed_none hU.live hKeys ?_
        rintro ⟨i, hi, -⟩
        omega
      · refine iff_of_false ?_ (by simp only [NoPop]; omega)
        rintro ⟨r, heap', hStep, hKeys', -⟩
        obtain ⟨heap'', hRun, -⟩ := heapPop_usable cmp hU hSize
        rw [heapStep, hRun] at hStep
        cases hStep
        exact heapPop_keeps_key cmp hU hSize hRun hKeys'

end KeyOps

/-- In every run of a fresh heap, the key table stays consistent with the array and keys
address exactly their own elements if and only if the run never pops an element. -/
theorem heap_keys_iff (cmp : α → α → Int) (ops : List (HeapOp α))
    (hLegal : Along (heapStep cmp) TableKey heapCreate ops) :
    Along (heapStep cmp) (KeepsKeys cmp) heapCreate ops ↔
      Along (heapStep cmp) NoPop heapCreate ops := by
  refine along_iff_of_inv (fun h => Usable h ∧ KeyConsistent h) ?_ ?_
    ⟨heapCreate_usable, heapCreate_keys⟩ hLegal
  · rintro h op ⟨hU, hKeys⟩ hTable
    by_cases hLive : LiveKey h op
    · exact heapStep_keys_iff cmp hU hKeys hLive
    · refine iff_of_true (heapStep_unusedKey cmp hU.live hKeys hTable hLive).2 ?_
      cases op with
      | pop => exact absurd trivial hLive
      | _ => trivial
  · rintro h op r h' ⟨hU, hKeys⟩ hTable ⟨r₁, h₁, hStep₁, hKeys₁, -⟩ hStep
    rw [hStep] at hStep₁
    cases hStep₁
    by_cases hLive : LiveKey h op
    · rcases heapStep_usable cmp hU hLive with ⟨hNone, -⟩ | ⟨r₂, h₂, hStep₂, hU₂, -⟩
      · rw [hNone] at hStep
        cases hStep
      · rw [hStep] at hStep₂
        cases hStep₂
        exact ⟨hU₂, hKeys₁⟩
    · obtain ⟨⟨r₂, hStep₂⟩, -⟩ := heapStep_unusedKey cmp hU.live hKeys hTable hLive
      rw [hStep] at hStep₂
      cases hStep₂
      exact ⟨hU, hKeys⟩

instance (heap : HeapT α) (op : HeapOp α) : Decidable (NoPop heap op) := by
  unfold NoPop
  split <;> infer_instance

/-- A run without pops, over a reallocation and a reused key. -/
theorem heap_keys_iff_no_pop :
    Along (heapStep natCmp) (KeepsKeys natCmp) heapCreate
      [.insert true (some 3), .insert true (some 1), .erase 0, .update 1 (some 7),
        .insert true (some 2), .insert false none, .erase 9] :=
  (heap_keys_iff natCmp _ (by decide)).mpr (by decide)

/-- The table entry of key 0 after one element was inserted and popped, and a run of
seventeen such pairs, which ends outside the table. -/
theorem heap_pop_leaks_key :
    (run (heapStep natCmp) heapCreate [.insert true (some 5), .pop]).map
        (fun r => (r.2.size, r.2.keyTable 0)) = some (0, 0) ∧
      Along (heapStep natCmp) TableKey heapCreate [.insert true (some 5), .pop] ∧
      ¬ Along (heapStep natCmp) (KeepsKeys natCmp) heapCreate [.insert true (some 5), .pop] ∧
      run (heapStep natCmp) heapCreate
        ((List.replicate 17 [HeapOp.insert true (some 5), HeapOp.pop]).flatten) = none := by
  refine ⟨by decide, by decide, ?_, ?_⟩
  · intro hAlong
    obtain ⟨_, h₁, hStep₁, hKeys₁, -⟩ := hAlong.head
    have hSize : ((heapStep natCmp heapCreate (.insert true (some 5))).map fun r => r.2.size) =
        some 1 := by decide
    rcases heapStep_usable natCmp heapCreate_usable
        (show LiveKey heapCreate (.insert true (some 5)) from trivial) with
      ⟨hNone, -⟩ | ⟨_, h₂, hStep₂, hU, -⟩
    · rw [hNone] at hStep₁
      cases hStep₁
    · rw [hStep₁] at hStep₂ hSize
      cases hStep₂
      have hEmpty : h₁.size = 0 :=
        (heapStep_keys_iff natCmp hU hKeys₁ (show LiveKey h₁ .pop from trivial)).mp
          (hAlong.tail hStep₁).head
      have hOne : h₁.size = 1 := Option.some.inj hSize
      omega
  · decide

end Gbase.Base.Heap
