/-!
# Three-way comparators

The containers order their elements through a function that returns a negative
number, zero or a positive number.  `TotalPreorder cmp` says that `cmp` comes from
a total preorder; elements may compare equal without being the same.

Elements that compare equal stay different elements, and which of them a search finds is part of
what has to be proved.  The lemmas give the rules of an order under the names that proofs about
searches need: transitivity in its strict and mixed forms, and the change of sides.
-/

namespace Gbase.Lib.Comparator

universe u v

variable {α : Type u}

/-- `cmp` is the three-way comparison of a total preorder. -/
structure TotalPreorder (cmp : α → α → Int) : Prop where
  swap : ∀ a b, 0 < cmp a b ↔ cmp b a < 0
  le_trans : ∀ a b c, cmp a b ≤ 0 → cmp b c ≤ 0 → cmp a c ≤ 0

namespace TotalPreorder

variable {cmp : α → α → Int} (h : TotalPreorder cmp)

include h

theorem refl (a : α) : cmp a a = 0 := by
  have hs := h.swap a a
  omega

theorem le_refl (a : α) : cmp a a ≤ 0 := by
  have hr := h.refl a
  omega

theorem le_of_lt_swap {a b : α} (hab : ¬ cmp a b ≤ 0) : cmp b a < 0 :=
  (h.swap a b).mp (by omega)

theorem eq_swap {a b : α} : cmp a b = 0 ↔ cmp b a = 0 := by
  have hs := h.swap a b
  have ht := h.swap b a
  omega

theorem lt_of_lt_of_le {a b c : α} (hab : cmp a b < 0) (hbc : cmp b c ≤ 0) : cmp a c < 0 := by
  have hac : cmp a c ≤ 0 := h.le_trans a b c (by omega) hbc
  have hne : cmp a c ≠ 0 := by
    intro he
    have hca : cmp c a ≤ 0 := by have := h.eq_swap.mp he; omega
    have hba := h.le_trans b c a hbc hca
    have := (h.swap b a).mpr hab
    omega
  omega

theorem lt_of_le_of_lt {a b c : α} (hab : cmp a b ≤ 0) (hbc : cmp b c < 0) : cmp a c < 0 := by
  have hac : cmp a c ≤ 0 := h.le_trans a b c hab (by omega)
  have hne : cmp a c ≠ 0 := by
    intro he
    have hca : cmp c a ≤ 0 := by have := h.eq_swap.mp he; omega
    have hcb := h.le_trans c a b hca hab
    have := (h.swap c b).mpr hbc
    omega
  omega

theorem lt_trans {a b c : α} (hab : cmp a b < 0) (hbc : cmp b c < 0) : cmp a c < 0 :=
  h.lt_of_lt_of_le hab (by omega)

/-- Comparing by a part of the value. -/
theorem comap {β : Type v} (f : β → α) : TotalPreorder fun a b => cmp (f a) (f b) where
  swap := fun a b => h.swap (f a) (f b)
  le_trans := fun a b c => h.le_trans (f a) (f b) (f c)

end TotalPreorder

/-- Numbers compared by value. -/
def natCmp (a b : Nat) : Int := (a : Int) - b

theorem natCmp_totalPreorder : TotalPreorder natCmp where
  swap := by
    intro a b
    unfold natCmp
    omega
  le_trans := by
    intro a b c
    unfold natCmp
    omega

end Gbase.Lib.Comparator
