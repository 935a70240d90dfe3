import Mathlib.Order.Basic
import Mathlib.Data.Set.Function
import Mathlib.Data.Set.Insert

/-!
# Consistent hashing

Nodes are points of a linear order that is thought of as a ring.  A point is owned by the first
node at or behind it, or by the first node of all where none is behind it.  Seen from the point,
going around the ring is a linear order too, and the owner is the least node in it; so a node that
comes or goes changes the owner of those points only that it owns.

## Main results

* `Owner.unique`: a point has one owner.
* `Owner.of_insert`, `Owner.erase`: what a node that comes, or goes, changes.
-/

namespace Gbase.Lib.HashRing

universe u v

variable {α : Type u} {β : Type v} [LinearOrder β]

/-- Going around the ring from `h`, one meets `a` not later than `b`. -/
def Before (h a b : β) : Prop := (h ≤ a ∧ (h ≤ b → a ≤ b)) ∨ (a < h ∧ b < h ∧ a ≤ b)

/-- Of the nodes, `x` is the first one at or behind `h`, or the first one of all where none is. -/
def Owner (hash : α → β) (nodes : Set α) (h : β) (x : α) : Prop :=
  x ∈ nodes ∧ ((h ≤ hash x ∧ ∀ y ∈ nodes, h ≤ hash y → hash x ≤ hash y) ∨
    ((∀ y ∈ nodes, hash y < h) ∧ ∀ y ∈ nodes, hash x ≤ hash y))

section

variable {hash : α → β} {nodes : Set α} {h a b : β} {x y z : α}

theorem Before.antisymm (hab : Before h a b) (hba : Before h b a) : a = b := by
  rcases hab with ⟨ha, hLe⟩ | ⟨ha, hb, hLe⟩
  · rcases hba with ⟨hb, hGe⟩ | ⟨-, hLow, -⟩
    · exact le_antisymm (hLe hb) (hGe ha)
    · exact absurd ha (not_le_of_gt hLow)
  · rcases hba with ⟨hUp, -⟩ | ⟨-, -, hGe⟩
    · exact absurd hUp (not_le_of_gt hb)
    · exact le_antisymm hLe hGe

/-- The owner is the node one meets first. -/
theorem owner_iff :
    Owner hash nodes h x ↔ x ∈ nodes ∧ ∀ y ∈ nodes, Before h (hash x) (hash y) := by
  rw [Owner]
  apply and_congr_right
  intro hx
  constructor
  · rintro (⟨hUp, hLeast⟩ | ⟨hNone, hLeast⟩) y hy
    · exact Or.inl ⟨hUp, hLeast y hy⟩
    · exact Or.inr ⟨hNone x hx, hNone y hy, hLeast y hy⟩
  · intro hFirst
    by_cases hUp : h ≤ hash x
    · refine Or.inl ⟨hUp, fun y hy hBehind => ?_⟩
      rcases hFirst y hy with ⟨-, hLe⟩ | ⟨hLow, -⟩
      · exact hLe hBehind
      · exact absurd hUp (not_le_of_gt hLow)
    · refine Or.inr ⟨fun y hy => ?_, fun y hy => ?_⟩
      · rcases hFirst y hy with ⟨hAt, -⟩ | ⟨-, hLow, -⟩
        · exact absurd hAt hUp
        · exact hLow
      · rcases hFirst y hy with ⟨hAt, -⟩ | ⟨-, -, hLe⟩
        · exact absurd hAt hUp
        · exact hLe

/-- A point has one owner, where no two nodes are at the same place. -/
theorem Owner.unique (hInj : Set.InjOn hash nodes) (hx : Owner hash nodes h x)
    (hy : Owner hash nodes h y) : x = y := by
  rw [owner_iff] at hx hy
  exact hInj hx.1 hy.1 ((hx.2 y hy.1).antisymm (hy.2 x hx.1))

/-- With one node more, a point is owned by it or by whom it was. -/
theorem Owner.of_insert (hz : Owner hash (insert x nodes) h z) :
    z = x ∨ Owner hash nodes h z := by
  rw [owner_iff] at hz ⊢
  exact hz.1.imp_right fun hIn => ⟨hIn, fun y hy => hz.2 y (Set.mem_insert_of_mem x hy)⟩

/-- With one node less, a point that another one owned is owned by it still. -/
theorem Owner.erase (hz : Owner hash nodes h z) (hNe : z ≠ x) :
    Owner hash (nodes \ {x}) h z := by
  rw [owner_iff] at hz ⊢
  exact ⟨⟨hz.1, hNe⟩, fun y hy => hz.2 y hy.1⟩

end

end Gbase.Lib.HashRing
