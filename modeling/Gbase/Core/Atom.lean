import Gbase.Lib.Register
import Mathlib.Logic.Function.Basic

/-!
# Atomic pointers (`core/atom.c`)

Memory is what threads share, by its addresses, and a parameter in the frame of each thread.  Each
call is one step.  Pointers are values of any type, since they are only compared.

The builtin gets `&ap`, the address of the parameter that holds the address of the cell.  So a call
swaps its own copy of that address, and returns it.

## Main results

* `atomStep_spec`: every call returns the address of the cell, and leaves the cell as it is.
* `atom_ptr_atomic_iff`: the runs in which the cell is an atomic register.
-/

namespace Gbase.Core.Atom

open Gbase.Lib.Register
open Gbase.Lib.Run

universe u v

/-- Where a pointer lies. -/
inductive Loc (α : Type u) (τ : Type v) where
  | shared (address : α)
  /-- The parameter `ap` of the call that a thread is in. -/
  | frame (thread : τ)
deriving DecidableEq

abbrev Memory (α : Type u) (τ : Type v) := Loc α τ → α

variable {α : Type u} {τ : Type v} [DecidableEq α] [DecidableEq τ]

/-- `__sync_val_compare_and_swap` -/
def syncValCompareAndSwap (mem : Memory α τ) (ptr : Loc α τ) (oldval newval : α) :
    α × Memory α τ :=
  (mem ptr, if mem ptr = oldval then Function.update mem ptr newval else mem)

/-- A thread passes its argument. -/
def pass (mem : Memory α τ) (thread : τ) (ap : α) : Memory α τ :=
  Function.update mem (.frame thread) ap

/-- `atom_ptr_set` -/
def atomPtrSet (mem : Memory α τ) (thread : τ) (ap data : α) : α × Memory α τ :=
  syncValCompareAndSwap (pass mem thread ap) (.frame thread) data data

/-- `atom_ptr_cas` -/
def atomPtrCas (mem : Memory α τ) (thread : τ) (ap cmp val : α) : α × Memory α τ :=
  syncValCompareAndSwap (pass mem thread ap) (.frame thread) cmp val

/-- A call of a thread on the cell at `p`. -/
def atomStep (p : α) : Step (Memory α τ) (τ × Op α) α
  | mem, (thread, .set data) => some (atomPtrSet mem thread p data)
  | mem, (thread, .cas cmp val) => some (atomPtrCas mem thread p cmp val)

/-- What the cell at `p` holds. -/
def cell (p : α) (mem : Memory α τ) : α := mem (.shared p)

/-- Calls whose fault does not show, on a cell that holds `x`: a set of what it holds anyway, and,
if the cell holds its own address, a swap that fails or leaves what it has found. -/
def Harmless (p x : α) : Op α → Prop
  | .set data => data = x
  | .cas cmp val => p = x ∧ (cmp = x → val = x)

section

variable {p : α} {mem : Memory α τ} {calls : List (τ × Op α)}

/-- The builtin on a parameter returns the parameter, and does not reach shared memory. -/
theorem swap_frame (mem : Memory α τ) (thread : τ) (ap oldval newval : α) :
    ∃ mem', syncValCompareAndSwap (pass mem thread ap) (.frame thread) oldval newval = (ap, mem') ∧
      ∀ address, mem' (.shared address) = mem (.shared address) := by
  have hParam : pass mem thread ap (.frame thread) = ap := Function.update_self _ _ _
  have hShared : ∀ (mem : Memory α τ) value address,
      Function.update mem (.frame thread) value (.shared address) = mem (.shared address) :=
    fun mem value address => Function.update_of_ne (by simp) value mem
  refine ⟨_, Prod.ext hParam rfl, ?_⟩
  intro address
  unfold syncValCompareAndSwap
  split_ifs
  · exact (hShared _ newval address).trans (hShared mem ap address)
  · exact hShared mem ap address

/-- Every call returns the address of the cell, and leaves the cell as it is. -/
theorem atomStep_spec (p : α) (mem : Memory α τ) (call : τ × Op α) :
    ∃ mem', atomStep p mem call = some (p, mem') ∧ cell p mem' = cell p mem := by
  obtain ⟨thread, op⟩ := call
  cases op with
  | set data =>
      obtain ⟨mem', hSwap, hShared⟩ := swap_frame mem thread p data data
      exact ⟨mem', congrArg some hSwap, hShared p⟩
  | cas cmp val =>
      obtain ⟨mem', hSwap, hShared⟩ := swap_frame mem thread p cmp val
      exact ⟨mem', congrArg some hSwap, hShared p⟩

/-- A call acts on the cell as it should exactly if its fault does not show. -/
theorem acts_iff (call : τ × Op α) :
    Does (atomStep p) (Acts (cell p) Prod.snd) mem call ↔ Harmless p (cell p mem) call.2 := by
  obtain ⟨mem', hStep, hCell⟩ := atomStep_spec p mem call
  rw [does_iff hStep]
  obtain ⟨thread, op⟩ := call
  cases op with
  | set data =>
      constructor
      · intro hActs
        exact hActs.next.symm.trans hCell
      · intro hSame
        exact ⟨hCell.trans hSame.symm, trivial⟩
  | cas cmp val =>
      constructor
      · intro hActs
        refine ⟨hActs.returns, ?_⟩
        intro hFound
        have hNext : cell p mem' = if cell p mem = cmp then val else cell p mem := hActs.next
        rw [if_pos hFound.symm, hCell] at hNext
        exact hNext.symm
      · rintro ⟨hReturns, hKeeps⟩
        refine ⟨?_, hReturns⟩
        show cell p mem' = if cell p mem = cmp then val else cell p mem
        split_ifs with hFound
        · rw [hCell, hKeeps hFound.symm]
        · exact hCell

/-- The same for every call of a run, by what the cell holds at its start. -/
theorem along_acts_iff :
    Along (atomStep p) (Does (atomStep p) (Acts (cell p) Prod.snd)) mem calls ↔
      ∀ call, call ∈ calls → Harmless p (cell p mem) call.2 := by
  induction calls generalizing mem with
  | nil => exact iff_of_true trivial fun call hIn => absurd hIn List.not_mem_nil
  | cons call calls ih =>
      obtain ⟨mem', hStep, hCell⟩ := atomStep_spec p mem call
      rw [along_cons hStep, acts_iff, ih, hCell, List.forall_mem_cons]

end

/-- For any number of threads and any interleaving of their calls, the cell is an atomic register
exactly if every set stores what the cell holds from the start and, where there is a swap, the cell
holds its own address and no swap is to change that. -/
theorem atom_ptr_atomic_iff (p : α) (mem : Memory α τ) (calls : List (τ × Op α)) :
    Atomic (atomStep p) (cell p) Prod.snd mem calls ↔
      ∀ call, call ∈ calls → Harmless p (cell p mem) call.2 :=
  atomic_iff.trans along_acts_iff

/-- Two threads, numbered, and null pointers in all of memory. -/
def nullMemory : Memory UInt64 Nat := fun _ => 0

/-- Two threads swap a null pointer for theirs, and another one sets the pointer: all calls return
the address of the cell, so no swap succeeds, and the cell still holds a null pointer. -/
theorem atom_ptr_lost :
    (∃ mem, run (atomStep 0x1000) nullMemory
        [(1, .cas 0 0x2000), (2, .cas 0 0x3000), (3, .set 0x4000)] =
          some ([0x1000, 0x1000, 0x1000], mem) ∧ cell 0x1000 mem = 0) ∧
      ¬ Atomic (atomStep 0x1000) (cell 0x1000) Prod.snd nullMemory
        [(1, .cas 0 0x2000), (2, .cas 0 0x3000), (3, .set 0x4000)] ∧
      ¬ Atomic (atomStep 0x1000) (cell 0x1000) Prod.snd nullMemory [(3, .set 0x4000)] := by
  refine ⟨⟨_, rfl, rfl⟩, ?_, ?_⟩
  · intro hAtomic
    have hOwn : (0x1000 : UInt64) = 0 := ((acts_iff _).mp hAtomic.acts.head).1
    exact absurd hOwn (by decide)
  · intro hAtomic
    have hSame : (0x4000 : UInt64) = 0 := (acts_iff _).mp hAtomic.acts.head
    exact absurd hSame (by decide)

end Gbase.Core.Atom
