import Mathlib.Data.Multiset.MapFold
import Mathlib.Data.Multiset.Range
import Mathlib.Logic.Equiv.Basic

/-!
# Implicit binary heaps

A binary heap stored in an array: position `i` has parent `(i - 1) / 2`.  The order is
given by a relation `le` on the stored values, assumed transitive where it matters.  A
sift moves one value, the hole, along a path by swaps; `SiftUpInv` and `SiftDownInv` are the
invariants of the two sifts, each with a lemma for one swap and one for the end.

## Main results

* `SiftUpInv.swap`, `SiftUpInv.finish`: sifting up restores the order.
* `SiftDownInv.swap`, `SiftDownInv.finish`: sifting down restores the order.
* `Ordered.top_le`: the first value is a minimum.
-/

namespace Gbase.Lib.ImplicitHeap

universe u

variable {β : Type u}

/-- The position above `i`. -/
def parent (i : Nat) : Nat := (i - 1) / 2

theorem parent_lt {i : Nat} (hi : 0 < i) : parent i < i := by
  unfold parent; omega

theorem parent_eq_iff {i p : Nat} (hi : 0 < i) :
    parent i = p ↔ i = 2 * p + 1 ∨ i = 2 * p + 2 := by
  unfold parent; omega

/-- The values after positions `p` and `q` are exchanged. -/
def swapAt (v : Nat → β) (p q : Nat) : Nat → β :=
  fun i => if i = p then v q else if i = q then v p else v i

@[simp] theorem swapAt_left (v : Nat → β) (p q : Nat) : swapAt v p q p = v q := by
  simp [swapAt]

@[simp] theorem swapAt_right (v : Nat → β) (p q : Nat) : swapAt v p q q = v p := by
  unfold swapAt
  split
  · next h => rw [h]
  · simp

theorem swapAt_of_ne (v : Nat → β) {p q i : Nat} (hp : i ≠ p) (hq : i ≠ q) :
    swapAt v p q i = v i := by
  simp [swapAt, hp, hq]

private theorem swapAt_eq_comp (v : Nat → β) (p q : Nat) :
    swapAt v p q = v ∘ Equiv.swap p q := by
  funext i
  simp only [swapAt, Function.comp_apply, Equiv.swap_apply_def]
  split
  · rfl
  · split <;> rfl

/-- An exchange within the first `n` positions keeps the collection of values there. -/
theorem map_swapAt_range (v : Nat → β) {p q n : Nat} (hp : p < n) (hq : q < n) :
    (Multiset.range n).map (swapAt v p q) = (Multiset.range n).map v := by
  have hRange : (Multiset.range n).map (Equiv.swap p q) = Multiset.range n := by
    refine (Multiset.Nodup.ext ?_ (Multiset.nodup_range n)).mpr ?_
    · exact (Multiset.nodup_range n).map (Equiv.swap p q).injective
    · intro a
      simp only [Multiset.mem_map, Multiset.mem_range]
      constructor
      · rintro ⟨b, hb, rfl⟩
        rw [Equiv.swap_apply_def]
        split
        · exact hq
        · split <;> assumption
      · intro ha
        refine ⟨Equiv.swap p q a, ?_, Equiv.swap_apply_self p q a⟩
        rw [Equiv.swap_apply_def]
        split
        · exact hq
        · split <;> assumption
  rw [swapAt_eq_comp, ← Multiset.map_map, hRange]

/-- No value among the first `n` is before its parent. -/
def Ordered (le : β → β → Prop) (v : Nat → β) (n : Nat) : Prop :=
  ∀ i, 0 < i → i < n → le (v (parent i)) (v i)

/-- The invariant of a sift up with the moving value at `hole`: only the pair of the hole
and its parent may be out of order. -/
structure SiftUpInv (le : β → β → Prop) (v : Nat → β) (n hole : Nat) : Prop where
  off : ∀ i, 0 < i → i < n → i ≠ hole → le (v (parent i)) (v i)
  grand : 0 < hole → ∀ i, 0 < i → i < n → parent i = hole → le (v (parent hole)) (v i)

/-- The invariant of a sift down with the moving value at `hole`: only the pairs of the
hole and its children may be out of order. -/
structure SiftDownInv (le : β → β → Prop) (v : Nat → β) (n hole : Nat) : Prop where
  off : ∀ i, 0 < i → i < n → parent i ≠ hole → le (v (parent i)) (v i)
  grand : 0 < hole → ∀ i, 0 < i → i < n → parent i = hole → le (v (parent hole)) (v i)

section

variable {le : β → β → Prop} {v : Nat → β} {n hole : Nat}

theorem Ordered.top_le (hRefl : ∀ a, le a a)
    (hTrans : ∀ a b c, le a b → le b c → le a c) (h : Ordered le v n) :
    ∀ i, i < n → le (v 0) (v i) := by
  intro i
  induction i using Nat.strongRecOn with
  | ind i ih =>
      intro hi
      rcases Nat.eq_zero_or_pos i with rfl | hPos
      · exact hRefl _
      · have hUp := parent_lt hPos
        exact hTrans _ _ _ (ih (parent i) hUp (by omega)) (h i hPos hi)

theorem SiftUpInv.swap (hTrans : ∀ a b c, le a b → le b c → le a c)
    (h : SiftUpInv le v n hole) (hPos : 0 < hole) (hLt : hole < n)
    (hLe : le (v hole) (v (parent hole))) :
    SiftUpInv le (swapAt v hole (parent hole)) n (parent hole) := by
  have hUp := parent_lt hPos
  constructor
  · intro i hi hin hne
    by_cases hih : i = hole
    · rw [hih, swapAt_left, swapAt_right]
      exact hLe
    · rw [swapAt_of_ne v hih hne]
      by_cases hph : parent i = hole
      · rw [hph, swapAt_left]
        exact h.grand hPos i hi hin hph
      · by_cases hpp : parent i = parent hole
        · have hSib := h.off i hi hin hih
          rw [hpp] at hSib
          rw [hpp, swapAt_right]
          exact hTrans _ _ _ hLe hSib
        · rw [swapAt_of_ne v hph hpp]
          exact h.off i hi hin hih
  · intro hPos' i hi hin hpi
    have hTop := h.off (parent hole) hPos' (by omega) (by omega)
    have hUp' := parent_lt hPos'
    rw [swapAt_of_ne v (by omega) (by omega)]
    by_cases hih : i = hole
    · rw [hih, swapAt_left]
      exact hTop
    · have hiUp := parent_lt hi
      have hSib := h.off i hi hin hih
      rw [hpi] at hSib
      rw [swapAt_of_ne v hih (by omega)]
      exact hTrans _ _ _ hTop hSib

theorem SiftUpInv.finish (h : SiftUpInv le v n hole)
    (hStop : 0 < hole → hole < n → le (v (parent hole)) (v hole)) : Ordered le v n := by
  intro i hi hin
  by_cases hih : i = hole
  · subst hih
    exact hStop hi hin
  · exact h.off i hi hin hih

theorem SiftDownInv.swap (h : SiftDownInv le v n hole) {c : Nat} (hPos : 0 < c) (hLt : c < n)
    (hChild : parent c = hole) (hLe : le (v c) (v hole))
    (hMin : ∀ s, 0 < s → s < n → parent s = hole → le (v c) (v s)) :
    SiftDownInv le (swapAt v hole c) n c := by
  have hUp := parent_lt hPos
  constructor
  · intro i hi hin hne
    have hiUp := parent_lt hi
    by_cases hic : i = c
    · rw [hic, hChild, swapAt_left, swapAt_right]
      exact hLe
    · by_cases hph : parent i = hole
      · rw [hph, swapAt_left, swapAt_of_ne v (by omega) hic]
        exact hMin i hi hin hph
      · rw [swapAt_of_ne v hph hne]
        by_cases hih : i = hole
        · subst hih
          rw [swapAt_left]
          exact h.grand hi c hPos hLt hChild
        · rw [swapAt_of_ne v hih hic]
          exact h.off i hi hin hph
  · intro _ i hi hin hpi
    have hiUp := parent_lt hi
    have hOff := h.off i hi hin (by omega)
    rw [hpi] at hOff
    rw [hChild, swapAt_left, swapAt_of_ne v (by omega) (by omega)]
    exact hOff

theorem SiftDownInv.finish (h : SiftDownInv le v n hole)
    (hStop : ∀ c, 0 < c → c < n → parent c = hole → le (v hole) (v c)) : Ordered le v n := by
  intro i hi hin
  by_cases hph : parent i = hole
  · rw [hph]
    exact hStop i hi hin hph
  · exact h.off i hi hin hph

end

end Gbase.Lib.ImplicitHeap
