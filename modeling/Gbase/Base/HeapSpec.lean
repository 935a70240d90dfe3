import Gbase.Base.Heap
import Gbase.Lib.Comparator

/-!
# The loops of the heap

`Live` is the part of the heap's consistency that every access relies on: stored nodes
have data, keys below `cap`, and the key table leads back to them.

Both loops move one node and shift the ones it passes, so their invariant is about an array with one
wrong place.  The general part of it, about arrays that are heaps but for one place, is in the
library; what is added here is that the key table follows every move.

## Main results

* `rotdownLoop_spec`, `rotupLoop_spec`: the two sifts end, rearrange the nodes and restore
  the order when only the sifted node was wrong.
* `heapSetNextKey_spec`: the key chosen next is free, or every other key is in use.
-/

namespace Gbase.Base.Heap

open Gbase.Lib.Comparator
open Gbase.Lib.ImplicitHeap

variable {α : Type}

/-! ## The nodes of the heap -/

/-- The nodes the heap holds. -/
def HeapT.entries (heap : HeapT α) : Multiset (NodeT α) :=
  (Multiset.range heap.size).map heap.array

theorem mem_entries {heap : HeapT α} {n : NodeT α} :
    n ∈ heap.entries ↔ ∃ i, i < heap.size ∧ heap.array i = n := by
  simp [HeapT.entries]

theorem array_mem_entries {heap : HeapT α} {i : Nat} (hi : i < heap.size) :
    heap.array i ∈ heap.entries :=
  mem_entries.mpr ⟨i, hi, rfl⟩

/-- Every node in the heap has data and a key below `cap`, and the key table gives its
position. -/
structure Live (heap : HeapT α) : Prop where
  size_le : heap.size ≤ heap.cap
  data : ∀ i < heap.size, ∃ d, (heap.array i).data = some d
  key : ∀ i < heap.size, 0 ≤ (heap.array i).heapKey ∧ (heap.array i).heapKey < heap.cap
  pos : ∀ i < heap.size, heap.keyTable (heap.array i).heapKey.toNat = i

/-- `k` is the key of a node in the heap. -/
def HeapT.HasKey (heap : HeapT α) (k : Int) : Prop :=
  ∃ i, i < heap.size ∧ (heap.array i).heapKey = k

instance (heap : HeapT α) (k : Int) : Decidable (heap.HasKey k) :=
  inferInstanceAs (Decidable (∃ i, i < heap.size ∧ (heap.array i).heapKey = k))

theorem hasKey_iff_entries {heap : HeapT α} {k : Int} :
    heap.HasKey k ↔ ∃ n ∈ heap.entries, n.heapKey = k := by
  simp [HeapT.HasKey, mem_entries]

/-- Order on nodes by their data; a node without data comes first. -/
def nodeLe (cmp : α → α → Int) (a b : NodeT α) : Prop :=
  match a.data, b.data with
  | some x, some y => cmp x y ≤ 0
  | some _, none => False
  | none, _ => True

instance (cmp : α → α → Int) (a b : NodeT α) : Decidable (nodeLe cmp a b) := by
  unfold nodeLe
  split <;> infer_instance

theorem nodeLe_refl {cmp : α → α → Int} (hCmp : TotalPreorder cmp) (a : NodeT α) :
    nodeLe cmp a a := by
  unfold nodeLe
  cases ha : a.data with
  | none => trivial
  | some x => exact hCmp.le_refl x

theorem nodeLe_trans {cmp : α → α → Int} (hCmp : TotalPreorder cmp) (a b c : NodeT α)
    (hab : nodeLe cmp a b) (hbc : nodeLe cmp b c) : nodeLe cmp a c := by
  unfold nodeLe at *
  cases ha : a.data with
  | none => trivial
  | some x =>
      cases hb : b.data with
      | none => simp [ha, hb] at hab
      | some y =>
          cases hc : c.data with
          | none => simp [hb, hc] at hbc
          | some z =>
              simp only [ha, hb, hc] at hab hbc ⊢
              exact hCmp.le_trans x y z hab hbc

/-- No parent is behind its child: the heap order of the stored nodes. -/
def HeapOrdered (cmp : α → α → Int) (heap : HeapT α) : Prop :=
  Ordered (nodeLe cmp) heap.array heap.size

/-- `heap'` holds the nodes of `heap`, possibly at other positions, and the table entries
of keys that no node has are the same. -/
structure Rearranged (heap heap' : HeapT α) : Prop where
  cap : heap'.cap = heap.cap
  size : heap'.size = heap.size
  nextKey : heap'.nextKey = heap.nextKey
  entries : heap'.entries = heap.entries
  idle : ∀ k : Nat, (∀ i < heap.size, (heap.array i).heapKey.toNat ≠ k) →
    heap'.keyTable k = heap.keyTable k

theorem Rearranged.refl (heap : HeapT α) : Rearranged heap heap :=
  ⟨rfl, rfl, rfl, rfl, fun _ _ => rfl⟩

theorem Rearranged.hasKey_iff {heap heap' : HeapT α} (h : Rearranged heap heap') {k : Int} :
    heap'.HasKey k ↔ heap.HasKey k := by
  rw [hasKey_iff_entries, hasKey_iff_entries, h.entries]

theorem Rearranged.trans {a b c : HeapT α} (hab : Rearranged a b) (hbc : Rearranged b c) :
    Rearranged a c where
  cap := hbc.cap.trans hab.cap
  size := hbc.size.trans hab.size
  nextKey := hbc.nextKey.trans hab.nextKey
  entries := hbc.entries.trans hab.entries
  idle := by
    intro k hk
    rw [hbc.idle k, hab.idle k hk]
    intro i hi hEq
    have hMem : b.array i ∈ a.entries := by
      rw [← hab.entries]
      exact array_mem_entries hi
    obtain ⟨j, hj, hji⟩ := mem_entries.mp hMem
    exact hk j hj (by rw [hji]; exact hEq)

/-! ## Accesses in bounds -/

section Access

variable {heap : HeapT α}

theorem node_eq {pos : Nat} (h : pos < heap.cap) : heap.node pos = some (heap.array pos) :=
  if_pos h

theorem keyPos_eq {key : Int} (h0 : 0 ≤ key) (h : key < heap.cap) :
    heap.keyPos key = some (heap.keyTable key.toNat) :=
  if_pos ⟨h0, h⟩

theorem Live.node (hLive : Live heap) {i : Nat} (hi : i < heap.size) :
    heap.node i = some (heap.array i) :=
  node_eq (Nat.lt_of_lt_of_le hi hLive.size_le)

/-- Nodes at different positions have different keys. -/
theorem Live.key_inj (hLive : Live heap) {i j : Nat} (hi : i < heap.size) (hj : j < heap.size)
    (hKey : (heap.array i).heapKey.toNat = (heap.array j).heapKey.toNat) : i = j := by
  have hI := hLive.pos i hi
  rw [hKey, hLive.pos j hj] at hI
  exact_mod_cast hI.symm

theorem Live.keys_nodup (hLive : Live heap) : (heap.entries.map NodeT.heapKey).Nodup := by
  rw [HeapT.entries, Multiset.map_map]
  refine Multiset.Nodup.map_on ?_ (Multiset.nodup_range heap.size)
  intro i hi j hj hKey
  refine hLive.key_inj (Multiset.mem_range.mp hi) (Multiset.mem_range.mp hj) ?_
  exact congrArg Int.toNat hKey

/-- Comparing two stored nodes is defined, and its sign is the order of the nodes. -/
theorem Live.heapCmp (hLive : Live heap) (cmp : α → α → Int) {p q : Nat}
    (hp : p < heap.size) (hq : q < heap.size) :
    ∃ c, heapCmp cmp heap p q = some c ∧
      (c < 0 → nodeLe cmp (heap.array p) (heap.array q)) ∧
      (TotalPreorder cmp → (c < 0 ↔ ¬ nodeLe cmp (heap.array q) (heap.array p))) := by
  obtain ⟨x, hx⟩ := hLive.data p hp
  obtain ⟨y, hy⟩ := hLive.data q hq
  refine ⟨cmp x y, ?_, ?_, ?_⟩
  · simp [Heap.heapCmp, hLive.node hp, hLive.node hq, hx, hy]
  · intro hc
    simp only [nodeLe, hx, hy]
    omega
  · intro hCmp
    simp only [nodeLe, hx, hy]
    have hSwap := hCmp.swap y x
    omega

end Access

/-! ## `_heap_swap` -/

/-- What `_heap_swap` leaves. -/
def HeapT.swapped (heap : HeapT α) (p q : Nat) : HeapT α :=
  { heap with
    array := swapAt heap.array p q
    keyTable := fun k =>
      if k = (heap.array q).heapKey.toNat then p
      else if k = (heap.array p).heapKey.toNat then q
      else heap.keyTable k }

theorem heapSwap_eq {heap : HeapT α} (hLive : Live heap) {p q : Nat}
    (hp : p < heap.size) (hq : q < heap.size) :
    heapSwap heap p q = some (heap.swapped p q) := by
  have hpc := Nat.lt_of_lt_of_le hp hLive.size_le
  have hqc := Nat.lt_of_lt_of_le hq hLive.size_le
  have hArray : (fun i => if i = q then heap.array p else if i = p then heap.array q
      else heap.array i) = swapAt heap.array p q := by
    funext i
    unfold swapAt
    by_cases hip : i = p
    · by_cases hiq : i = q
      · simp [hip, ← hiq]
      · simp [hip, hip ▸ hiq]
    · simp [hip]
  simp only [heapSwap, hLive.node hp, hLive.node hq, Option.bind_eq_bind, Option.bind_some,
    HeapT.setKeyPos, hLive.key p hp, hLive.key q hq, and_self, if_true, HeapT.setNode, hpc, hqc,
    hArray]
  rfl

theorem swapped_live {heap : HeapT α} (hLive : Live heap) {p q : Nat}
    (hp : p < heap.size) (hq : q < heap.size) : Live (heap.swapped p q) := by
  -- every position of the new array shows a node of the old one
  have hOld : ∀ i < heap.size, ∃ j < heap.size, (heap.swapped p q).array i = heap.array j ∧
      (i = p ∧ j = q ∨ i ≠ p ∧ i = q ∧ j = p ∨ i ≠ p ∧ i ≠ q ∧ j = i) := by
    intro i hi
    by_cases hip : i = p
    · exact ⟨q, hq, by simp [HeapT.swapped, hip], by simp [hip]⟩
    · by_cases hiq : i = q
      · exact ⟨p, hp, by simp [HeapT.swapped, hiq], by simp [hiq]; grind⟩
      · exact ⟨i, hi, swapAt_of_ne _ hip hiq, by simp [hip, hiq]⟩
  refine ⟨hLive.size_le, ?_, ?_, ?_⟩
  · intro i hi
    obtain ⟨j, hj, hEq, -⟩ := hOld i hi
    rw [hEq]
    exact hLive.data j hj
  · intro i hi
    obtain ⟨j, hj, hEq, -⟩ := hOld i hi
    rw [hEq]
    exact hLive.key j hj
  · intro i hi
    obtain ⟨j, hj, hEq, hCase⟩ := hOld i hi
    rw [hEq]
    simp only [HeapT.swapped]
    rcases hCase with ⟨rfl, rfl⟩ | ⟨hip, rfl, rfl⟩ | ⟨hip, hiq, rfl⟩
    · simp
    · rw [if_neg fun hKey => hip (hLive.key_inj hi hj hKey.symm), if_pos rfl]
    · rw [if_neg fun hKey => hiq (hLive.key_inj hi hq hKey),
        if_neg fun hKey => hip (hLive.key_inj hi hp hKey)]
      exact hLive.pos j hi

theorem swapped_rearranged (heap : HeapT α) {p q : Nat}
    (hp : p < heap.size) (hq : q < heap.size) : Rearranged heap (heap.swapped p q) where
  cap := rfl
  size := rfl
  nextKey := rfl
  entries := map_swapAt_range heap.array hp hq
  idle := by
    intro k hk
    simp only [HeapT.swapped]
    rw [if_neg fun h => hk q hq h.symm, if_neg fun h => hk p hp h.symm]

/-! ## The two sifts -/

/-- One round of `_heap_rotdown` at a node with a child: the smaller child is compared
with the node, and exchanged with it when it is smaller. -/
theorem rotdownLoop_step {heap : HeapT α} (hLive : Live heap) (cmp : α → α → Int)
    {pos : Nat} (fuel : Nat) (hLeft : 2 * pos + 1 < heap.size) :
    ∃ child c, child < heap.size ∧ 0 < child ∧ parent child = pos ∧
      heapCmp cmp heap child pos = some c ∧
      rotdownLoop cmp (fuel + 1) heap pos =
        (if c < 0 then rotdownLoop cmp fuel (heap.swapped pos child) child else some heap) ∧
      (TotalPreorder cmp → ∀ s, 0 < s → s < heap.size → parent s = pos →
        nodeLe cmp (heap.array child) (heap.array s)) := by
  have hPos : pos < heap.size := by omega
  have hStep : ∀ child, child < heap.size → ∀ c : Int,
      (if c < 0 then (heapSwap heap pos child).bind (fun h => rotdownLoop cmp fuel h child)
        else some heap) =
      (if c < 0 then rotdownLoop cmp fuel (heap.swapped pos child) child else some heap) := by
    intro child hChild c
    rw [heapSwap_eq hLive hPos hChild]
    rfl
  by_cases hRight : 2 * pos + 2 < heap.size
  · obtain ⟨c, hc, hLess, hIff⟩ := hLive.heapCmp cmp hLeft hRight
    have hChild : (if c < 0 then 2 * pos + 1 else 2 * pos + 2) < heap.size := by
      split <;> omega
    obtain ⟨c', hc', -, -⟩ := hLive.heapCmp cmp hChild hPos
    refine ⟨if c < 0 then 2 * pos + 1 else 2 * pos + 2, c', hChild, by split <;> omega,
      by unfold parent; split <;> omega, hc', ?_, ?_⟩
    · rw [← hStep _ hChild c']
      simp [rotdownLoop, hPos, hLeft, hRight, hc, hc', Nat.not_le_of_lt]
    · intro hCmp s hs hsn hsp
      rcases (parent_eq_iff hs).mp hsp with rfl | rfl
      · split
        · exact nodeLe_refl hCmp _
        · next hn => exact Classical.not_not.mp fun h => hn ((hIff hCmp).mpr h)
      · split
        · next hl => exact hLess hl
        · exact nodeLe_refl hCmp _
  · obtain ⟨c, hc, -, -⟩ := hLive.heapCmp cmp hLeft hPos
    refine ⟨2 * pos + 1, c, hLeft, by omega, by unfold parent; omega, hc, ?_, ?_⟩
    · rw [← hStep _ hLeft c]
      have hNoRight : heap.size ≤ 2 * pos + 2 := by omega
      simp [rotdownLoop, hPos, hLeft, hNoRight, hc, Nat.not_le_of_lt]
    · intro hCmp s hs hsn hsp
      rcases (parent_eq_iff hs).mp hsp with rfl | rfl
      · exact nodeLe_refl hCmp _
      · omega

/-- A node without children stops the loop. -/
theorem rotdownLoop_leaf {heap : HeapT α} (cmp : α → α → Int) {pos : Nat} (fuel : Nat)
    (hLeaf : heap.size ≤ 2 * pos + 1) : rotdownLoop cmp (fuel + 1) heap pos = some heap := by
  simp only [rotdownLoop, hLeaf, if_true]
  split <;> rfl

/-- `_heap_rotdown` ends, rearranges the nodes, and orders the heap when only the node at
`pos` was too large. -/
theorem rotdownLoop_spec (cmp : α → α → Int) (fuel : Nat) :
    ∀ {heap : HeapT α} {pos : Nat}, Live heap → 0 < fuel → heap.size < pos + fuel →
      ∃ heap', rotdownLoop cmp fuel heap pos = some heap' ∧ Live heap' ∧
        Rearranged heap heap' ∧
        (TotalPreorder cmp → SiftDownInv (nodeLe cmp) heap.array heap.size pos →
          HeapOrdered cmp heap') := by
  induction fuel with
  | zero =>
      intro heap pos _ h0
      omega
  | succ fuel ih =>
      intro heap pos hLive _ hFuel
      by_cases hLeaf : heap.size ≤ 2 * pos + 1
      · refine ⟨heap, rotdownLoop_leaf cmp fuel hLeaf, hLive, Rearranged.refl heap, ?_⟩
        intro _ hInv
        refine hInv.finish ?_
        intro c hc hcn hcp
        rcases (parent_eq_iff hc).mp hcp with rfl | rfl <;> omega
      · obtain ⟨child, c, hChild, hPos, hParent, hCmp, hLoop, hMin⟩ :=
          rotdownLoop_step hLive cmp fuel (by omega : 2 * pos + 1 < heap.size)
        have hUp := parent_lt hPos
        have hp : pos < heap.size := by omega
        obtain ⟨c', hc', hLess, hIff⟩ := hLive.heapCmp cmp hChild hp
        obtain rfl : c = c' := by simpa [hCmp] using hc'
        rw [hLoop]
        by_cases hc : c < 0
        · rw [if_pos hc]
          obtain ⟨heap', hRun, hLive', hRe, hOrd⟩ :=
            @ih _ child (swapped_live hLive hp hChild) (by omega)
              (by simp only [HeapT.swapped]; omega)
          refine ⟨heap', hRun, hLive', (swapped_rearranged heap hp hChild).trans hRe, ?_⟩
          intro hPre hInv
          exact hOrd hPre (hInv.swap hPos hChild hParent (hLess hc) (hMin hPre))
        · rw [if_neg hc]
          refine ⟨heap, rfl, hLive, Rearranged.refl heap, ?_⟩
          intro hPre hInv
          refine hInv.finish ?_
          intro s hs hsn hsp
          have hLe : nodeLe cmp (heap.array pos) (heap.array child) :=
            Classical.not_not.mp fun h => hc ((hIff hPre).mpr h)
          exact nodeLe_trans hPre _ _ _ hLe (hMin hPre s hs hsn hsp)

/-- `_heap_rotdown` does nothing at a node that is not behind its children. -/
theorem rotdownLoop_stay {heap : HeapT α} (hLive : Live heap) {cmp : α → α → Int}
    (hPre : TotalPreorder cmp) {pos : Nat} (fuel : Nat)
    (hLe : ∀ s, 0 < s → s < heap.size → parent s = pos →
      nodeLe cmp (heap.array pos) (heap.array s)) :
    rotdownLoop cmp (fuel + 1) heap pos = some heap := by
  by_cases hLeaf : heap.size ≤ 2 * pos + 1
  · exact rotdownLoop_leaf cmp fuel hLeaf
  · obtain ⟨child, c, hChild, hPos, hParent, hCmp, hLoop, -⟩ :=
      rotdownLoop_step hLive cmp fuel (by omega : 2 * pos + 1 < heap.size)
    obtain ⟨c', hc', -, hIff⟩ := hLive.heapCmp cmp hChild (by omega : pos < heap.size)
    obtain rfl : c = c' := by simpa [hCmp] using hc'
    rw [hLoop, if_neg]
    intro hc
    exact (hIff hPre).mp hc (hLe child hPos hChild hParent)

theorem heapRotdown_spec (cmp : α → α → Int) {heap : HeapT α} (hLive : Live heap) (pos : Nat) :
    ∃ heap', heapRotdown cmp heap pos = some heap' ∧ Live heap' ∧ Rearranged heap heap' ∧
      (TotalPreorder cmp → SiftDownInv (nodeLe cmp) heap.array heap.size pos →
        HeapOrdered cmp heap') :=
  rotdownLoop_spec cmp (heap.size + 1) hLive (by omega) (by omega)

/-- The upward loop of `heap_insert` ends, rearranges the nodes, and orders the heap when
only the node at `pos` was too small. -/
theorem rotupLoop_spec (cmp : α → α → Int) (fuel : Nat) :
    ∀ {heap : HeapT α} {pos : Nat}, Live heap → pos < heap.size → pos < fuel →
      ∃ heap', rotupLoop cmp fuel heap pos = some heap' ∧ Live heap' ∧
        Rearranged heap heap' ∧
        (TotalPreorder cmp → SiftUpInv (nodeLe cmp) heap.array heap.size pos →
          HeapOrdered cmp heap') := by
  induction fuel with
  | zero =>
      intro heap pos _ _ h0
      omega
  | succ fuel ih =>
      intro heap pos hLive hp hFuel
      by_cases hPos : 0 < pos
      · have hUp := parent_lt hPos
        have hUpLt : parent pos < heap.size := by omega
        obtain ⟨c, hc, hLess, hIff⟩ := hLive.heapCmp cmp hp hUpLt
        by_cases hStop : 0 ≤ c
        · refine ⟨heap, by simp [rotupLoop, hPos, hc, hStop], hLive, Rearranged.refl heap, ?_⟩
          intro hPre hInv
          refine hInv.finish ?_
          intro _ _
          exact Classical.not_not.mp fun h => by have := (hIff hPre).mpr h; omega
        · obtain ⟨heap', hRun, hLive', hRe, hOrd⟩ :=
            @ih _ (parent pos) (swapped_live hLive hp hUpLt) hUpLt (by omega)
          refine ⟨heap', ?_, hLive', (swapped_rearranged heap hp hUpLt).trans hRe, ?_⟩
          · simp [rotupLoop, hPos, hc, hStop, heapSwap_eq hLive hp hUpLt, hRun]
          · intro hPre hInv
            exact hOrd hPre
              (hInv.swap (nodeLe_trans hPre) hPos hp (hLess (by omega)))
      · refine ⟨heap, by simp [rotupLoop, hPos], hLive, Rearranged.refl heap, ?_⟩
        intro _ hInv
        exact hInv.finish fun h => absurd h hPos

/-! ## `_heap_set_next_key` -/

/-- The loop visits the keys after `next_key` round the table; it stops at the first free
one, or comes back to `next_key` after finding all others in use. -/
theorem nextKeyLoop_spec {heap : HeapT α} {next : Nat} (hNext : heap.nextKey = next)
    (hLt : next < heap.cap) :
    ∀ (fuel t : Nat), 0 < t → t ≤ heap.cap → heap.cap < t + fuel →
      (∀ u, 0 < u → u < t → 0 ≤ heap.keyTable ((next + u) % heap.cap)) →
      ∃ key : Int, nextKeyLoop heap fuel ((next + t) % heap.cap) = some key ∧
        ((∃ k : Nat, key = k ∧ k < heap.cap ∧ k ≠ next ∧ heap.keyTable k < 0) ∨
          (key = heap.cap ∧ ∀ k, k < heap.cap → k ≠ next → 0 ≤ heap.keyTable k)) := by
  intro fuel
  induction fuel with
  | zero =>
      intro t _ _ h
      omega
  | succ fuel ih =>
      intro t ht htc hFuel hSeen
      have hCap : 0 < heap.cap := by omega
      have hInt : (((next + t) % heap.cap : Nat) : Int) = heap.nextKey ↔
          (next + t) % heap.cap = next := by
        rw [hNext]
        exact Int.ofNat_inj
      rw [nextKeyLoop]
      by_cases hBack : (next + t) % heap.cap = next
      · rw [if_pos (hInt.mpr hBack)]
        refine ⟨_, rfl, Or.inr ⟨rfl, ?_⟩⟩
        intro k hk hne
        -- every other key was passed on the way round
        have hEnd : t = heap.cap := by
          by_contra hNe
          by_cases h : next + t < heap.cap
          · rw [Nat.mod_eq_of_lt h] at hBack
            omega
          · rw [Nat.mod_eq_sub_mod (by omega), Nat.mod_eq_of_lt (by omega)] at hBack
            omega
        rcases Nat.lt_or_gt_of_ne hne with h | h
        · have hu := hSeen (k + heap.cap - next) (by omega) (by omega)
          rwa [show next + (k + heap.cap - next) = k + heap.cap by omega,
            Nat.add_mod_right, Nat.mod_eq_of_lt hk] at hu
        · have hu := hSeen (k - next) (by omega) (by omega)
          rwa [show next + (k - next) = k by omega, Nat.mod_eq_of_lt hk] at hu
      · rw [if_neg fun h => hBack (hInt.mp h)]
        by_cases hFree : heap.keyTable ((next + t) % heap.cap) < 0
        · rw [if_pos hFree]
          exact ⟨_, rfl, Or.inl ⟨_, rfl, Nat.mod_lt _ hCap, hBack, hFree⟩⟩
        · rw [if_neg hFree]
          have hNe : t ≠ heap.cap := by
            intro h
            rw [h, Nat.add_mod_right, Nat.mod_eq_of_lt hLt] at hBack
            exact hBack rfl
          have hRound : ((next + t) % heap.cap + 1) % heap.cap = (next + (t + 1)) % heap.cap := by
            rw [Nat.mod_add_mod, Nat.add_assoc]
          rw [hRound]
          refine ih (t + 1) (by omega) (by omega) (by omega) ?_
          intro u hu hut
          rcases Nat.lt_or_ge u t with h | h
          · exact hSeen u hu h
          · rw [show u = t by omega]
            omega

/-- What `_heap_set_next_key` leaves in `next_key`, when it held a key of the table. -/
theorem heapSetNextKey_spec {heap : HeapT α} {next : Nat} (hNext : heap.nextKey = next)
    (hLt : next < heap.cap) :
    ∃ key : Int, heapSetNextKey heap = some { heap with nextKey := key } ∧
      ((∃ k : Nat, key = k ∧ k < heap.cap ∧ k ≠ next ∧ heap.keyTable k < 0) ∨
        (key = heap.cap ∧ ∀ k, k < heap.cap → k ≠ next → 0 ≤ heap.keyTable k)) := by
  obtain ⟨key, hRun, hKey⟩ := nextKeyLoop_spec hNext hLt (heap.cap + 1) 1 (by omega) (by omega)
    (by omega) (fun u h0 h1 => by omega)
  refine ⟨key, ?_, hKey⟩
  simp [heapSetNextKey, hNext, hRun]

end Gbase.Base.Heap
