import Gbase.Lib.Run

/-!
# Two runs in lockstep

Two states that differ only in what nobody can see give the same results: each operation from
them is defined on both sides or on neither, has one result, and leads to two such states again.

This is the simplest form of a simulation: both sides run the same program.  It is what one needs to
show that some part of a state, such as the bytes outside of the used part of a buffer, makes no
difference to anything that comes later.

## Main results

* `rel_bind`: related computations, one after the other.
* `InStep.outputs`: the runs of the same operations from related states have the same results.
-/

namespace Gbase.Lib.Lockstep

open Gbase.Lib.Run

universe u v w

/-- One result, and related states. -/
def Both {ο : Type w} {σ : Type u} (R : σ → σ → Prop) (x y : ο × σ) : Prop := x.1 = y.1 ∧ R x.2 y.2

/-- Every operation keeps the relation and shows nothing of the difference. -/
def InStep {σ : Type u} {ι : Type v} {ο : Type w} (step : Step σ ι ο) (R : σ → σ → Prop) : Prop :=
  ∀ s t i, R s t → Option.Rel (Both R) (step s i) (step t i)

section

variable {α β γ δ : Type u} {r : α → β → Prop} {q : γ → δ → Prop}

theorem rel_bind {x : Option α} {y : Option β} {f : α → Option γ} {g : β → Option δ}
    (h : Option.Rel r x y) (hNext : ∀ a b, r a b → Option.Rel q (f a) (g b)) :
    Option.Rel q (x >>= f) (y >>= g) := by
  cases h with
  | some hr => exact hNext _ _ hr
  | none => exact .none

/-- What comes first looks at nothing that differs. -/
theorem rel_bind_self (x : Option α) {f : α → Option γ} {g : α → Option δ}
    (hNext : ∀ a, Option.Rel q (f a) (g a)) : Option.Rel q (x >>= f) (x >>= g) := by
  cases x with
  | some a => exact hNext a
  | none => exact .none

theorem rel_map {x : Option α} {y : Option β} {f : α → γ} {g : β → δ} (h : Option.Rel r x y)
    (hNext : ∀ a b, r a b → q (f a) (g b)) : Option.Rel q (x.map f) (y.map g) := by
  cases h with
  | some hr => exact .some (hNext _ _ hr)
  | none => exact .none

end

section

variable {σ : Type u} {ι : Type v} {ο : Type w} {step : Step σ ι ο} {R : σ → σ → Prop} {s t : σ}

theorem InStep.run (h : InStep step R) (hR : R s t) (is : List ι) :
    Option.Rel (Both R) (run step s is) (run step t is) := by
  induction is generalizing s t with
  | nil => exact .some ⟨rfl, hR⟩
  | cons i is ih =>
    have hStep := h s t i hR
    rw [Run.run, Run.run]
    generalize step s i = x at hStep
    generalize step t i = y at hStep
    cases hStep with
    | none => exact .none
    | @some x y hBoth =>
      obtain ⟨o, s'⟩ := x
      obtain ⟨o', t'⟩ := y
      have hOut : o = o' := hBoth.1
      have hRest := ih hBoth.2
      simp only
      generalize Run.run step s' is = x at hRest
      generalize Run.run step t' is = y at hRest
      cases hRest with
      | none => exact .none
      | @some x y hAll =>
        have hOuts : o :: x.1 = o' :: y.1 := by rw [hOut, hAll.1]
        exact .some ⟨hOuts, hAll.2⟩

/-- The results of the two runs. -/
theorem InStep.outputs (h : InStep step R) (hR : R s t) (is : List ι) :
    (Run.run step s is).map Prod.fst = (Run.run step t is).map Prod.fst := by
  have hRun := h.run hR is
  generalize Run.run step s is = x at hRun
  generalize Run.run step t is = y at hRun
  cases hRun with
  | some hBoth => exact congrArg some hBoth.1
  | none => rfl

end

end Gbase.Lib.Lockstep
