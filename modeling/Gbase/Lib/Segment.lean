import Gbase.Lib.Store

/-!
# Segments of singly linked cells

The cells of a list that is linked forwards, up to what follows its last cell.  A segment is
the list of its addresses and what they carry; `mk` makes the value of a cell from its link and
what it carries.  A segment can be cut anywhere, so what is written at a cut is a statement
about the store and the two parts.

## Main results

* `cells_append`: cutting a segment.
* `relink`: the last cell of a segment is linked to something else.
-/

namespace Gbase.Lib.Segment

open Gbase.Lib.Store

universe u v w

variable {ι : Type u} {δ : Type v} {ν : Type w}

/-- Where a segment starts that `q` follows. -/
def start : List (ι × δ) → Option ι → Option ι
  | [], q => q
  | c :: _, _ => some c.1

/-- The cells of a segment that `q` follows. -/
def cells (mk : Option ι → δ → ν) : List (ι × δ) → Option ι → Multiset (ι × ν)
  | [], _ => 0
  | c :: cs, q => {(c.1, mk (start cs q) c.2)} + cells mk cs q

/-- The last address of a segment, or `p` when it is empty. -/
def lastOr (p : Option ι) : List (ι × δ) → Option ι
  | [] => p
  | c :: cs => lastOr (some c.1) cs

section

variable {mk : Option ι → δ → ν} {cs ds : List (ι × δ)} {c : ι × δ} {p q : Option ι}

@[simp] theorem start_nil : start ([] : List (ι × δ)) q = q := rfl

@[simp] theorem start_cons : start (c :: cs) q = some c.1 := rfl

theorem start_append : start (cs ++ ds) q = start cs (start ds q) := by
  cases cs <;> rfl

@[simp] theorem cells_nil : cells mk [] q = 0 := rfl

theorem cells_cons : cells mk (c :: cs) q = {(c.1, mk (start cs q) c.2)} + cells mk cs q := rfl

theorem cells_append : cells mk (cs ++ ds) q = cells mk cs (start ds q) + cells mk ds q := by
  induction cs with
  | nil => simp
  | cons c cs ih =>
      rw [List.cons_append, cells_cons, cells_cons, ih, start_append, Multiset.add_assoc]

@[simp] theorem lastOr_nil : lastOr p ([] : List (ι × δ)) = p := rfl

@[simp] theorem lastOr_cons : lastOr p (c :: cs) = lastOr (some c.1) cs := rfl

theorem lastOr_append_singleton : lastOr p (cs ++ [c]) = some c.1 := by
  induction cs generalizing p with
  | nil => rfl
  | cons b cs ih => exact ih

/-- The last cell of a segment is linked to something else. -/
theorem relink [DecidableEq ι] {s : ι → Option ν} {rest : Multiset (ι × ν)}
    (h : Holds s (cells mk (cs ++ [c]) p + rest)) (q : Option ι) :
    s c.1 = some (mk p c.2) ∧
      Holds (Function.update s c.1 (some (mk q c.2))) (cells mk (cs ++ [c]) q + rest) := by
  have hCut : ∀ q, cells mk (cs ++ [c]) q + rest =
      {(c.1, mk q c.2)} + (cells mk cs (some c.1) + rest) := by
    intro q
    rw [cells_append, cells_cons, cells_nil, Multiset.add_zero, start_cons, start_nil,
      Multiset.add_comm (cells mk cs _), Multiset.add_assoc]
  rw [hCut] at h ⊢
  refine ⟨h.read ?_, h.write (mk q c.2)⟩
  exact Multiset.mem_add.mpr (Or.inl (Multiset.mem_singleton_self _))

end

end Gbase.Lib.Segment
