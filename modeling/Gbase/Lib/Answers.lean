import Gbase.Lib.Run

/-!
# Components that answer as specified

A specification has an answer to every call.  A component represents the states of the
specification by its own, and does nothing undefined.

The answers need not be equal: the caller of a component may see less than the specification says,
or see it in another form, and a relation between both takes the place of equality.

## Main results

* `Implements.run`: what holds of one call from states that represent each other holds of all calls
  of a run.
-/

namespace Gbase.Lib.Answers

open Gbase.Lib.Run

universe u v w x

variable {σ : Type u} {τ : Type x} {ι : Type v} {ο : Type w}

/-- The answers of a specification to calls one after the other. -/
def answers (spec : τ → ι → ο × τ) : τ → List ι → List ο
  | _, [] => []
  | t, i :: is => (spec t i).1 :: answers spec (spec t i).2 is

/-- Every call from states that represent each other is answered as specified, and leads to such
states again. -/
def Implements (step : Step σ ι ο) (spec : τ → ι → ο × τ) (Represents : σ → τ → Prop) : Prop :=
  ∀ s t i, Represents s t →
    ∃ s', step s i = some ((spec t i).1, s') ∧ Represents s' (spec t i).2

/-- A run is defined, with the answers of the specification. -/
theorem Implements.run {step : Step σ ι ο} {spec : τ → ι → ο × τ} {Represents : σ → τ → Prop}
    (h : Implements step spec Represents) {s : σ} {t : τ} (hStart : Represents s t) (is : List ι) :
    ∃ s', run step s is = some (answers spec t is, s') := by
  induction is generalizing s t with
  | nil => exact ⟨s, rfl⟩
  | cons i is ih =>
      obtain ⟨next, hStep, hNext⟩ := h s t i hStart
      obtain ⟨last, hRun⟩ := ih hNext
      exact ⟨last, run_cons hStep hRun⟩

end Gbase.Lib.Answers
