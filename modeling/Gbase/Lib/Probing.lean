import Mathlib.Data.List.Basic
import Mathlib.Data.Nat.ModEq

/-!
# Walks around a ring of slots

Open addressing looks for a slot from the one a key is hashed to, around a ring of `n` slots,
until it is back where it started.  `gap n h i` is how many slots the walk from `h` passes
before it comes to `i`.

Deletion is what makes such tables delicate: a walk that stops at the first empty slot misses what
lies behind a slot that was emptied.  The lemmas say what a walk sees, and leave open why a slot
ends it.

## Main results

* `doWhile_spec`: the loop ends within `n` turns, at the first slot where its body ends it.
* `scan_eq_some`, `scan_eq_none`: where a walk stops.
-/

namespace Gbase.Lib.Probing

universe u

/-- How far `i` is behind `h` on the ring. -/
def gap (n h i : Nat) : Nat := (i + (n - h)) % n

/-- The first slot, from `h` on, where the walk stops. -/
def scan (n : Nat) (stop : Nat → Bool) (h : Nat) : Option Nat :=
  ((List.range n).map fun k => (h + k) % n).find? stop

/-- `do { body(i); i = (i + 1) % n; } while (index != i)`, of at most `turns` turns; a body that
gives a result ends it. -/
def doWhile {ρ : Type u} (n : Nat) (body : Nat → Option ρ) (index : Nat) :
    Nat → Nat → Option (Option ρ)
  | 0, _ => none
  | turns + 1, i =>
      match body i with
      | some r => some (some r)
      | none =>
          if index = (i + 1) % n then some none
          else doWhile n body index turns ((i + 1) % n)

section

variable {ρ : Type u} {n h i : Nat} {stop : Nat → Bool}

theorem gap_lt (hn : 0 < n) (h i : Nat) : gap n h i < n := Nat.mod_lt _ hn

theorem gap_step {k : Nat} (hh : h < n) (hk : k < n) : gap n h ((h + k) % n) = k := by
  rw [gap, Nat.mod_add_mod, show h + k + (n - h) = k + n by omega, Nat.add_mod_right,
    Nat.mod_eq_of_lt hk]

theorem step_gap (hh : h < n) (hi : i < n) : (h + gap n h i) % n = i := by
  rw [gap, Nat.add_mod_mod, show h + (i + (n - h)) = i + n by omega, Nat.add_mod_right,
    Nat.mod_eq_of_lt hi]

theorem gap_inj {j : Nat} (hh : h < n) (hi : i < n) (hj : j < n) (hEq : gap n h i = gap n h j) :
    i = j := by
  rw [← step_gap hh hi, hEq, step_gap hh hj]

/-- Where a walk stops: no slot before it is one to stop at. -/
theorem scan_eq_some (hh : h < n) :
    scan n stop h = some i ↔
      i < n ∧ stop i = true ∧ ∀ j, j < n → gap n h j < gap n h i → stop j = false := by
  rw [scan, List.find?_map, Option.map_eq_some_iff]
  constructor
  · rintro ⟨k, hFind, rfl⟩
    obtain ⟨hStop, as, bs, hSplit, hBefore⟩ := List.find?_eq_some_iff_append.mp hFind
    have hk : k < n := by
      have hIn : k ∈ List.range n := by rw [hSplit]; simp
      exact List.mem_range.mp hIn
    refine ⟨Nat.mod_lt _ (by omega), hStop, ?_⟩
    intro j hj hLess
    rw [gap_step hh hk] at hLess
    have hIn : gap n h j ∈ as := by
      have hMem : gap n h j ∈ as ++ k :: bs := by
        rw [← hSplit]
        exact List.mem_range.mpr (gap_lt (by omega) h j)
      have hSorted : (as ++ k :: bs).Pairwise (· < ·) := by
        rw [← hSplit]
        exact List.pairwise_lt_range
      rw [List.pairwise_append, List.pairwise_cons] at hSorted
      rw [List.mem_append, List.mem_cons] at hMem
      rcases hMem with hBefore | hHere | hBehind
      · exact hBefore
      · omega
      · have hMore := hSorted.2.1.1 _ hBehind
        omega
    have hNot := hBefore _ hIn
    rwa [Function.comp_apply, step_gap hh hj, Bool.not_eq_true'] at hNot
  · rintro ⟨hi, hStop, hBefore⟩
    refine ⟨gap n h i, ?_, step_gap hh hi⟩
    have hGap : gap n h i < n := gap_lt (by omega) h i
    rw [List.find?_eq_some_iff_append]
    refine ⟨by rwa [Function.comp_apply, step_gap hh hi], List.range (gap n h i),
      (List.range' (gap n h i + 1) (n - gap n h i - 1)), ?_, ?_⟩
    · rw [List.range_eq_range', List.range_eq_range', ← List.range'_succ,
        show n - gap n h i - 1 + 1 = n - gap n h i by omega]
      rw [show List.range' 0 n = List.range' 0 (gap n h i + (n - gap n h i)) by congr 1; omega,
        ← List.range'_append]
      simp
    · intro k hk
      rw [List.mem_range] at hk
      have hNot := hBefore ((h + k) % n) (Nat.mod_lt _ (by omega))
        (by rw [gap_step hh (by omega)]; exact hk)
      rw [Function.comp_apply, hNot]
      rfl

theorem scan_eq_none (hh : h < n) :
    scan n stop h = none ↔ ∀ j, j < n → stop j = false := by
  rw [scan, List.find?_eq_none]
  simp only [List.mem_map, List.mem_range, forall_exists_index, and_imp,
    forall_apply_eq_imp_iff₂, Bool.not_eq_true]
  constructor
  · intro hAll j hj
    have hNot := hAll (gap n h j) (gap_lt (by omega) h j)
    rwa [step_gap hh hj] at hNot
  · intro hAll k hk
    exact hAll _ (Nat.mod_lt _ (by omega))

/-- The loop from slot number `k` of the walk on. -/
theorem doWhile_from (hh : h < n) (body : Nat → Option ρ) {turns k : Nat} (hk : k + turns = n)
    (hTurns : 0 < turns) :
    doWhile n body h turns ((h + k) % n) =
      some ((((List.range' k turns).map fun k => (h + k) % n).find?
        fun i => (body i).isSome).bind body) := by
  induction turns generalizing k with
  | zero => omega
  | succ turns ih =>
      rw [doWhile, List.range'_succ, List.map_cons, List.find?_cons]
      cases hBody : body ((h + k) % n) with
      | some r => simp [hBody]
      | none =>
          simp only [Option.isSome_none]
          have hNext : ((h + k) % n + 1) % n = (h + (k + 1)) % n := by
            rw [Nat.mod_add_mod, Nat.add_assoc]
          rw [hNext]
          cases turns with
          | zero =>
              have hBack : (h + (k + 1)) % n = h := by
                rw [show k + 1 = n by omega, Nat.add_mod_right, Nat.mod_eq_of_lt hh]
              rw [if_pos hBack.symm]
              rfl
          | succ turns =>
              have hOn : h ≠ (h + (k + 1)) % n := by
                intro hEq
                have hGap := @gap_step n h (k + 1) hh (by omega)
                rw [← hEq, gap, show h + (n - h) = n by omega, Nat.mod_self] at hGap
                omega
              rw [if_neg hOn]
              exact ih (by omega) (by omega)

/-- The loop ends within `n` turns, where the walk stops. -/
theorem doWhile_spec (hh : h < n) (body : Nat → Option ρ) :
    doWhile n body h n h = some ((scan n (fun i => (body i).isSome) h).bind body) := by
  have hFrom := doWhile_from hh body (k := 0) (by omega) (by omega : 0 < n)
  rw [Nat.add_zero, Nat.mod_eq_of_lt hh] at hFrom
  rw [hFrom, scan, List.range_eq_range']

end

end Gbase.Lib.Probing
