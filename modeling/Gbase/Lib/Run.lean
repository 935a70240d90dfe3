/-!
# Runs of a partial step function

A stateful component is given by one function: a state and an operation go to a
result and the next state, or to `none` when the operation is undefined (an
access outside an array, a dereferenced null pointer, a failed assertion, a loop
that does not end).  This module holds the induction over whole runs of such a
function, once.

## Main results

* `run_of_inv`: an invariant that every legal operation keeps holds at the end of
  every run of legal operations, and such a run is defined.
* `along_of_inv`: a property of single operations that follows from an invariant
  holds at every operation of a run.
* `along_of_spec`: what every legal operation does under an invariant that it keeps,
  every operation of a run does.
* `along_iff_of_inv`: when, under an invariant, the wanted behaviour of an operation
  is equivalent to a condition on the state before it, the two are equivalent over
  whole runs.
-/

namespace Gbase.Lib.Run

universe u v w

/-- One operation: from a state and an operation to a result and the next state. -/
abbrev Step (σ : Type u) (ι : Type v) (ο : Type w) := σ → ι → Option (ο × σ)

section

variable {σ : Type u} {ι : Type v} {ο : Type w}

/-- A whole run: the results of all operations and the last state. -/
def run (step : Step σ ι ο) : σ → List ι → Option (List ο × σ)
  | s, [] => some ([], s)
  | s, i :: is =>
      match step s i with
      | none => none
      | some (o, t) =>
          match run step t is with
          | none => none
          | some (os, u) => some (o :: os, u)

/-- `good` holds at every operation of the run of `is` from `s`, as long as the
run is defined. -/
def Along (step : Step σ ι ο) (good : σ → ι → Prop) : σ → List ι → Prop
  | _, [] => True
  | s, i :: is => good s i ∧ ∀ o t, step s i = some (o, t) → Along step good t is

/-- The operation is defined, and its result and next state are as `post` says. -/
def Does (step : Step σ ι ο) (post : σ → ι → ο → σ → Prop) (s : σ) (i : ι) : Prop :=
  ∃ o t, step s i = some (o, t) ∧ post s i o t

variable {step : Step σ ι ο} {legal good cond : σ → ι → Prop}

@[simp] theorem run_nil (s : σ) : run step s [] = some ([], s) := rfl

@[simp] theorem along_nil (s : σ) : Along step good s [] := trivial

theorem along_true (s : σ) (is : List ι) : Along step (fun _ _ => True) s is := by
  induction is generalizing s with
  | nil => trivial
  | cons i is ih => exact ⟨trivial, fun _ t _ => ih t⟩

/-- A property of all operations holds along every run of them. -/
theorem along_of_forall {p : ι → Prop} {s : σ} {is : List ι} (h : ∀ i, i ∈ is → p i) :
    Along step (fun _ i => p i) s is := by
  induction is generalizing s with
  | nil => trivial
  | cons i is ih =>
      refine ⟨h i List.mem_cons_self, ?_⟩
      intro _ t _
      exact ih fun j hj => h j (List.mem_cons_of_mem i hj)

theorem run_cons {s t u : σ} {i : ι} {is : List ι} {o : ο} {os : List ο}
    (hStep : step s i = some (o, t)) (hRun : run step t is = some (os, u)) :
    run step s (i :: is) = some (o :: os, u) := by
  simp [run, hStep, hRun]

/-- A run that is defined is so at its first operation and behind it. -/
theorem run_cons_split {s t : σ} {i : ι} {is : List ι} {os : List ο}
    (hRun : run step s (i :: is) = some (os, t)) :
    ∃ o u os', step s i = some (o, u) ∧ run step u is = some (os', t) ∧ os = o :: os' := by
  rw [run] at hRun
  cases hStep : step s i with
  | none =>
      rw [hStep] at hRun
      cases hRun
  | some p =>
      obtain ⟨o, u⟩ := p
      cases hRest : run step u is with
      | none =>
          simp only [hStep, hRest] at hRun
          cases hRun
      | some q =>
          simp only [hStep, hRest] at hRun
          cases hRun
          exact ⟨o, u, q.1, rfl, hRest, rfl⟩

/-- Along a concrete run a decidable property can be evaluated. -/
instance Along.decidable [∀ s i, Decidable (good s i)] :
    ∀ s is, Decidable (Along step good s is)
  | _, [] => isTrue trivial
  | s, i :: is =>
      match hStep : step s i with
      | none =>
          decidable_of_iff (good s i) ⟨fun h => ⟨h, fun o t h' => by rw [hStep] at h'; cases h'⟩,
            fun h => h.1⟩
      | some (_, t) =>
          have := Along.decidable t is
          decidable_of_iff (good s i ∧ Along step good t is)
            ⟨fun h => ⟨h.1, fun o t' h' => by rw [hStep] at h'; cases h'; exact h.2⟩,
              fun h => ⟨h.1, h.2 _ t hStep⟩⟩

/-- An operation with a known result does what that result says. -/
theorem does_iff {post : σ → ι → ο → σ → Prop} {s t : σ} {i : ι} {o : ο}
    (hStep : step s i = some (o, t)) : Does step post s i ↔ post s i o t := by
  constructor
  · rintro ⟨o₁, t₁, hStep₁, hPost⟩
    rw [hStep] at hStep₁
    cases hStep₁
    exact hPost
  · intro hPost
    exact ⟨o, t, hStep, hPost⟩

/-- An operation that is undefined does nothing. -/
theorem not_does {post : σ → ι → ο → σ → Prop} {s : σ} {i : ι} (hStep : step s i = none) :
    ¬ Does step post s i := by
  rintro ⟨o, t, hStep', -⟩
  rw [hStep] at hStep'
  cases hStep'

theorem Along.head {s : σ} {i : ι} {is : List ι}
    (h : Along step good s (i :: is)) : good s i := h.1

theorem Along.tail {s t : σ} {i : ι} {is : List ι} {o : ο}
    (h : Along step good s (i :: is)) (hStep : step s i = some (o, t)) :
    Along step good t is := h.2 o t hStep

/-- What holds along a run that starts with a known step. -/
theorem along_cons {s t : σ} {i : ι} {is : List ι} {o : ο} (hStep : step s i = some (o, t)) :
    Along step good s (i :: is) ↔ good s i ∧ Along step good t is := by
  constructor
  · intro h
    exact ⟨h.head, h.tail hStep⟩
  · rintro ⟨hHead, hTail⟩
    refine ⟨hHead, ?_⟩
    intro o₁ t₁ hStep₁
    rw [hStep] at hStep₁
    cases hStep₁
    exact hTail

theorem Along.and {s : σ} {is : List ι} (hGood : Along step good s is)
    (hCond : Along step cond s is) : Along step (fun s i => good s i ∧ cond s i) s is := by
  induction is generalizing s with
  | nil => trivial
  | cons i is ih =>
      refine ⟨⟨hGood.head, hCond.head⟩, ?_⟩
      intro o t hStep
      exact ih (hGood.tail hStep) (hCond.tail hStep)

theorem Along.imp {s : σ} {is : List ι} (hGood : Along step good s is)
    (h : ∀ s i, good s i → cond s i) : Along step cond s is := by
  induction is generalizing s with
  | nil => trivial
  | cons i is ih =>
      refine ⟨h s i hGood.head, ?_⟩
      intro o t hStep
      exact ih (hGood.tail hStep)

/-- What holds along a run holds along its front. -/
theorem Along.front {s : σ} {is js : List ι} (h : Along step good s (is ++ js)) :
    Along step good s is := by
  induction is generalizing s with
  | nil => trivial
  | cons i is ih =>
      refine ⟨h.head, ?_⟩
      intro o t hStep
      exact ih (h.tail hStep)

/-- And along what is left behind its front. -/
theorem Along.behind {s t : σ} {is js : List ι} {os : List ο}
    (h : Along step good s (is ++ js)) (hRun : run step s is = some (os, t)) :
    Along step good t js := by
  induction is generalizing s os with
  | nil =>
      cases hRun
      exact h
  | cons i is ih =>
      obtain ⟨o, u, os', hStep, hRest, -⟩ := run_cons_split hRun
      exact ih (h.tail hStep) hRest

/-- What every operation of a run does, the last one did at the end. -/
theorem last_of_along {post : σ → ι → ο → σ → Prop} {s t : σ} {i : ι} {is : List ι}
    {os : List ο} (h : Along step (Does step post) s (i :: is))
    (hRun : run step s (i :: is) = some (os, t)) :
    ∃ s₁ o, post s₁ ((i :: is).getLast (List.cons_ne_nil i is)) o t := by
  induction is generalizing s i os with
  | nil =>
      obtain ⟨o, u, hStep, hPost⟩ := h.head
      rw [run_cons hStep (run_nil u)] at hRun
      cases hRun
      exact ⟨s, o, hPost⟩
  | cons j js ih =>
      obtain ⟨o, u, os', hStep, hRest, -⟩ := run_cons_split hRun
      exact ih (h.tail hStep) hRest

/-- Runs of legal operations are defined and end in the invariant. -/
theorem run_of_inv (Inv : σ → Prop)
    (hKeep : ∀ s i, Inv s → legal s i → ∃ o t, step s i = some (o, t) ∧ Inv t)
    {s : σ} {is : List ι} (hInv : Inv s) (hLegal : Along step legal s is) :
    ∃ os t, run step s is = some (os, t) ∧ Inv t := by
  induction is generalizing s with
  | nil => exact ⟨[], s, rfl, hInv⟩
  | cons i is ih =>
      obtain ⟨o, t, hStep, hInvT⟩ := hKeep s i hInv hLegal.head
      obtain ⟨os, u, hRun, hInvU⟩ := ih hInvT (hLegal.tail hStep)
      exact ⟨o :: os, u, run_cons hStep hRun, hInvU⟩

/-- A run that is defined ends in an invariant of the steps. -/
theorem inv_of_run (Inv : σ → Prop) (hKeep : ∀ s i o t, Inv s → step s i = some (o, t) → Inv t)
    {s t : σ} {is : List ι} {os : List ο} (hInv : Inv s) (hRun : run step s is = some (os, t)) :
    Inv t := by
  induction is generalizing s os with
  | nil =>
      cases hRun
      exact hInv
  | cons i is ih =>
      obtain ⟨o, u, os', hStep, hRest, -⟩ := run_cons_split hRun
      exact ih (hKeep s i o u hInv hStep) hRest

/-- Under an invariant, a property of single legal operations holds along runs; the invariant may
mention how many operations there were, up to a bound on the length of the run. -/
theorem along_of_counted_inv (Inv : Nat → σ → Prop) {bound : Nat}
    (hGood : ∀ k s i, k < bound → Inv k s → legal s i → good s i)
    (hKeep : ∀ k s i o t, k < bound → Inv k s → legal s i → step s i = some (o, t) →
      Inv (k + 1) t)
    {k : Nat} {s : σ} {is : List ι} (hBound : k + is.length ≤ bound) (hInv : Inv k s)
    (hLegal : Along step legal s is) : Along step good s is := by
  induction is generalizing s k with
  | nil => trivial
  | cons i is ih =>
      rw [List.length_cons] at hBound
      refine ⟨hGood k s i (by omega) hInv hLegal.head, ?_⟩
      intro o t hStep
      apply ih (by omega : k + 1 + is.length ≤ bound) _ (hLegal.tail hStep)
      exact hKeep k s i o t (by omega) hInv hLegal.head hStep

/-- The same for an invariant of the states alone. -/
theorem along_of_inv (Inv : σ → Prop)
    (hGood : ∀ s i, Inv s → legal s i → good s i)
    (hKeep : ∀ s i o t, Inv s → legal s i → step s i = some (o, t) → Inv t)
    {s : σ} {is : List ι} (hInv : Inv s) (hLegal : Along step legal s is) :
    Along step good s is := by
  have hBound : 0 + is.length ≤ is.length := Nat.le_of_eq (Nat.zero_add is.length)
  exact along_of_counted_inv (fun _ => Inv) (fun _ s i _ => hGood s i)
    (fun _ s i o t _ => hKeep s i o t) hBound hInv hLegal

/-- What every legal operation does under an invariant that it keeps, every operation of a run
does. -/
theorem along_of_spec (Inv : σ → Prop) {post : σ → ι → ο → σ → Prop}
    (hSpec : ∀ s i, Inv s → legal s i → ∃ o t, step s i = some (o, t) ∧ post s i o t ∧ Inv t)
    {s : σ} {is : List ι} (hInv : Inv s) (hLegal : Along step legal s is) :
    Along step (Does step post) s is := by
  apply along_of_inv Inv _ _ hInv hLegal
  · intro s i hInv hLegal
    obtain ⟨o, t, hStep, hPost, -⟩ := hSpec s i hInv hLegal
    exact ⟨o, t, hStep, hPost⟩
  · intro s i o t hInv hLegal hStep
    obtain ⟨o₁, t₁, hStep₁, -, hInv'⟩ := hSpec s i hInv hLegal
    rw [hStep₁] at hStep
    cases hStep
    exact hInv'

/-- Under an invariant that good operations keep, being good all along a run is the same as
meeting the condition all along it; the invariant may mention how many operations there were, up
to a bound on the length of the run. -/
theorem along_iff_of_counted_inv (Inv : Nat → σ → Prop) {bound : Nat}
    (hIff : ∀ k s i, k < bound → Inv k s → legal s i → (good s i ↔ cond s i))
    (hKeep : ∀ k s i o t, k < bound → Inv k s → legal s i → good s i → step s i = some (o, t) →
      Inv (k + 1) t)
    {k : Nat} {s : σ} {is : List ι} (hBound : k + is.length ≤ bound) (hInv : Inv k s)
    (hLegal : Along step legal s is) : Along step good s is ↔ Along step cond s is := by
  induction is generalizing s k with
  | nil => exact Iff.rfl
  | cons i is ih =>
      rw [List.length_cons] at hBound
      have hHead := hIff k s i (by omega) hInv hLegal.head
      have hRest : ∀ o t, good s i → step s i = some (o, t) →
          (Along step good t is ↔ Along step cond t is) := by
        intro o t hGood hStep
        apply ih (by omega : k + 1 + is.length ≤ bound) _ (hLegal.tail hStep)
        exact hKeep k s i o t (by omega) hInv hLegal.head hGood hStep
      constructor
      · intro h
        refine ⟨hHead.mp h.head, ?_⟩
        intro o t hStep
        exact (hRest o t h.head hStep).mp (h.tail hStep)
      · intro h
        refine ⟨hHead.mpr h.head, ?_⟩
        intro o t hStep
        exact (hRest o t (hHead.mpr h.head) hStep).mpr (h.tail hStep)

/-- The same for an invariant of the states alone. -/
theorem along_iff_of_inv (Inv : σ → Prop)
    (hIff : ∀ s i, Inv s → legal s i → (good s i ↔ cond s i))
    (hKeep : ∀ s i o t, Inv s → legal s i → good s i → step s i = some (o, t) → Inv t)
    {s : σ} {is : List ι} (hInv : Inv s) (hLegal : Along step legal s is) :
    Along step good s is ↔ Along step cond s is := by
  have hBound : 0 + is.length ≤ is.length := Nat.le_of_eq (Nat.zero_add is.length)
  exact along_iff_of_counted_inv (fun _ => Inv) (fun _ s i _ => hIff s i)
    (fun _ s i o t _ => hKeep s i o t) hBound hInv hLegal

/-- A loop over the first numbers, by what holds after each turn. -/
theorem foldlM_range {f : σ → Nat → Option σ} (P : Nat → σ → Prop) {n : Nat} {s : σ}
    (hStart : P 0 s)
    (hTurn : ∀ i t, i < n → P i t → ∃ t', f t i = some t' ∧ P (i + 1) t') :
    ∃ t, (List.range n).foldlM f s = some t ∧ P n t := by
  induction n with
  | zero => exact ⟨s, rfl, hStart⟩
  | succ n ih =>
      obtain ⟨t, hLoop, hP⟩ := ih fun i t hi => hTurn i t (by omega)
      obtain ⟨t', hLast, hP'⟩ := hTurn n t (by omega) hP
      refine ⟨t', ?_, hP'⟩
      rw [List.range_succ, List.foldlM_append, hLoop]
      show [n].foldlM f t = some t'
      rw [List.foldlM_cons, hLast]
      rfl

end

end Gbase.Lib.Run
