import Gbase.Lib.Run
import Mathlib.Data.List.Count

/-!
# Atomic registers

A register holds one value, which threads set and compare-and-swap.  A run of a component is a list
of operations in the order in which they take effect, whichever threads they belong to, so it stands
for any interleaving of any number of threads.

## Main results

* `race_once`: of several operations that swap the value of a register for others, one at least,
  exactly one succeeds.
* `atomic_iff`: a component has an atomic register exactly if every step acts on it as it should.
-/

namespace Gbase.Lib.Register

open Gbase.Lib.Run

universe u v w

variable {σ : Type u} {ι : Type v} {α : Type w}

/-- What is asked of a register. -/
inductive Op (α : Type w) where
  | set (value : α)
  | cas (old new : α)

/-- What an operation is to return if the register holds `x`: a swap tells what it has found. -/
def Op.Returns (x out : α) : Op α → Prop
  | .set _ => True
  | .cas _ _ => out = x

variable [DecidableEq α]

/-- What an operation is to leave. -/
def Op.next (x : α) : Op α → α
  | .set value => value
  | .cas old new => if x = old then new else x

/-- A step of a component acts on its register as the operation that it stands for. -/
structure Acts (held : σ → α) (view : ι → Op α) (s : σ) (i : ι) (out : α) (t : σ) : Prop where
  next : held t = (view i).next (held s)
  returns : (view i).Returns (held s) out

/-- Operations that swap the value `x` for others, one at least. -/
structure Race (x : α) (ops : List (Op α)) : Prop where
  nonempty : ops ≠ []
  swaps : ∀ op, op ∈ ops → ∃ new, new ≠ x ∧ op = .cas x new

/-- In a run every step acts on the register as it should, and wherever there is a race, exactly one
of its operations succeeds: it alone has found the value that all of them look for. -/
structure Atomic (step : Step σ ι α) (held : σ → α) (view : ι → Op α) (s : σ) (is : List ι) :
    Prop where
  acts : Along step (Does step (Acts held view)) s is
  once : ∀ before race behind outs t, is = before ++ (race ++ behind) →
    run step s before = some (outs, t) → Race (held t) (race.map view) →
    ∃ outs' t', run step t race = some (outs', t') ∧ outs'.count (held t) = 1

section

variable {step : Step σ ι α} {held : σ → α} {view : ι → Op α} {s : σ} {is : List ι} {x : α}

/-- Swaps that look for another value than the one there all fail. -/
theorem run_lost (hActs : Along step (Does step (Acts held view)) s is) (hOther : held s ≠ x)
    (hSwaps : ∀ i, i ∈ is → ∃ new, view i = .cas x new) :
    ∃ outs t, run step s is = some (outs, t) ∧ x ∉ outs := by
  induction is generalizing s with
  | nil => exact ⟨[], s, rfl, List.not_mem_nil⟩
  | cons i is ih =>
      obtain ⟨out, t, hStep, hAct⟩ := hActs.head
      obtain ⟨new, hView⟩ := hSwaps i List.mem_cons_self
      have hNext := hAct.next
      have hReturns := hAct.returns
      rw [hView] at hNext hReturns
      have hSame : held t = held s := hNext.trans (if_neg hOther)
      have hOut : out = held s := hReturns
      obtain ⟨outs, u, hRun, hLost⟩ := ih (hActs.tail hStep) (by rwa [hSame])
        fun j hj => hSwaps j (List.mem_cons_of_mem i hj)
      refine ⟨out :: outs, u, run_cons hStep hRun, ?_⟩
      rw [List.mem_cons, hOut]
      rintro (hFound | hIn)
      · exact hOther hFound.symm
      · exact hLost hIn

/-- Of a race exactly one operation succeeds: the first one, which leaves another value. -/
theorem race_once (hActs : Along step (Does step (Acts held view)) s is)
    (hRace : Race (held s) (is.map view)) :
    ∃ outs t, run step s is = some (outs, t) ∧ outs.count (held s) = 1 := by
  cases is with
  | nil => exact absurd rfl hRace.nonempty
  | cons i is =>
      obtain ⟨out, t, hStep, hAct⟩ := hActs.head
      obtain ⟨new, hNew, hView⟩ := hRace.swaps (view i) List.mem_cons_self
      have hNext := hAct.next
      have hReturns := hAct.returns
      rw [hView] at hNext hReturns
      have hLeft : held t = new := hNext.trans (if_pos rfl)
      have hOut : out = held s := hReturns
      have hSwaps : ∀ j, j ∈ is → ∃ new, view j = .cas (held s) new := by
        intro j hj
        obtain ⟨new, -, hView⟩ := hRace.swaps (view j)
          (List.mem_cons_of_mem _ (List.mem_map_of_mem hj))
        exact ⟨new, hView⟩
      obtain ⟨outs, u, hRun, hLost⟩ := run_lost (hActs.tail hStep) (by rwa [hLeft]) hSwaps
      refine ⟨out :: outs, u, run_cons hStep hRun, ?_⟩
      rw [hOut, List.count_cons_self, List.count_eq_zero_of_not_mem hLost]

/-- What is asked about races follows from what is asked about steps. -/
theorem atomic_iff :
    Atomic step held view s is ↔ Along step (Does step (Acts held view)) s is := by
  constructor
  · exact fun h => h.acts
  · intro hActs
    refine ⟨hActs, ?_⟩
    rintro before race behind outs t rfl hRun hRace
    exact race_once (hActs.behind hRun).front hRace

end

end Gbase.Lib.Register
