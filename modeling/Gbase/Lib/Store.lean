import Mathlib.Data.Multiset.MapFold
import Mathlib.Data.Multiset.UnionInter
import Mathlib.Logic.Function.Basic
import Mathlib.Algebra.Order.Group.Multiset

/-!
# A store of cells

A store maps addresses to the values in them, and `none` is an address that is not in use.
`Holds s m` says that the cells in use are exactly those of the multiset `m`, no address
twice; so adding two multisets puts two disjoint parts of the store next to each other, and
a statement with an arbitrary rest `m` is one about a part of the store.

## Main results

* `Holds.read`, `Holds.write`, `Holds.free`, `Holds.alloc`: the four accesses change one
  cell and keep the rest.
-/

namespace Gbase.Lib.Store

universe u v

variable {ι : Type u} {ν : Type v}

/-- The cells in use, with their values, are those of `m`. -/
structure Holds (s : ι → Option ν) (m : Multiset (ι × ν)) : Prop where
  nodup : (m.map Prod.fst).Nodup
  cells : ∀ a v, s a = some v ↔ (a, v) ∈ m

section

variable {s : ι → Option ν} {m : Multiset (ι × ν)} {a b : ι} {v w : ν}

theorem holds_empty : Holds (fun _ : ι => (none : Option ν)) 0 where
  nodup := Multiset.nodup_zero
  cells := by
    intro a v
    simp

theorem Holds.read (h : Holds s m) (hIn : (a, v) ∈ m) : s a = some v :=
  (h.cells a v).mpr hIn

theorem Holds.not_mem_of_none (h : Holds s m) (hNone : s a = none) : a ∉ m.map Prod.fst := by
  intro hIn
  obtain ⟨⟨b, v⟩, hMem, rfl⟩ := Multiset.mem_map.mp hIn
  rw [h.read hMem] at hNone
  cases hNone

/-- A cell is not part of the rest. -/
theorem Holds.not_mem_rest (h : Holds s ({(a, v)} + m)) : a ∉ m.map Prod.fst := by
  have hNodup := h.nodup
  rw [Multiset.map_add, Multiset.map_singleton, Multiset.singleton_add,
    Multiset.nodup_cons] at hNodup
  exact hNodup.1

/-- Two cells next to each other have different addresses. -/
theorem Holds.ne (h : Holds s ({(a, v)} + m)) (hIn : (b, w) ∈ m) : a ≠ b := by
  rintro rfl
  exact h.not_mem_rest (Multiset.mem_map_of_mem Prod.fst hIn)

section

variable [DecidableEq ι]

/-- A new cell at an address that is not in use. -/
theorem Holds.alloc (h : Holds s m) (hNone : s a = none) (v : ν) :
    Holds (Function.update s a (some v)) ({(a, v)} + m) where
  nodup := by
    rw [Multiset.map_add, Multiset.map_singleton, Multiset.singleton_add, Multiset.nodup_cons]
    exact ⟨h.not_mem_of_none hNone, h.nodup⟩
  cells := by
    intro b w
    rw [Multiset.singleton_add, Multiset.mem_cons, Prod.mk.injEq]
    by_cases hba : b = a
    · subst hba
      have hNot : (b, w) ∉ m := fun hIn => by
        rw [h.read hIn] at hNone
        cases hNone
      simp [hNot, eq_comm]
    · rw [Function.update_of_ne hba, h.cells b w]
      simp [hba]

/-- A cell that is given back. -/
theorem Holds.free (h : Holds s ({(a, v)} + m)) : Holds (Function.update s a none) m where
  nodup := by
    have hNodup := h.nodup
    rw [Multiset.map_add, Multiset.map_singleton, Multiset.singleton_add,
      Multiset.nodup_cons] at hNodup
    exact hNodup.2
  cells := by
    intro b w
    by_cases hba : b = a
    · subst hba
      have hNot : (b, w) ∉ m := fun hIn => h.ne hIn rfl
      simp [hNot]
    · rw [Function.update_of_ne hba, h.cells b w, Multiset.singleton_add, Multiset.mem_cons,
        Prod.mk.injEq]
      simp [hba]

/-- A new value in a cell. -/
theorem Holds.write (h : Holds s ({(a, v)} + m)) (w : ν) :
    Holds (Function.update s a (some w)) ({(a, w)} + m) := by
  have hDone := h.free.alloc (Function.update_self a none s) w
  rwa [Function.update_idem] at hDone

end

end

end Gbase.Lib.Store
