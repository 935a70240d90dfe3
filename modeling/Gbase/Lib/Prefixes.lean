import Mathlib.Data.List.Infix
import Mathlib.Data.List.Nodup
import Mathlib.Data.List.Perm.Subperm
import Mathlib.Data.Set.Defs

/-!
# Longest prefixes

A set of sequences that holds, with each sequence, all its prefixes can be searched step by step:
from a sequence of the set one goes on as long as the next element stays in the set, and what one
then has is the longest prefix in the set.

The tree of a dictionary of words is such a set, and how far it branches is bounded by the number of
words.  The search never has to go back.

## Main results

* `longest_of_stuck`: where the search stops.
* `Longest.unique`: there is one longest prefix only.
-/

namespace Gbase.Lib.Prefixes

universe u

variable {α : Type u}

/-- The prefixes of some sequences. -/
def prefixes (seqs : List (List α)) : Set (List α) := {p | ∃ s, s ∈ seqs ∧ p <+: s}

/-- With a sequence its prefixes are in the set. -/
def Closed (S : Set (List α)) : Prop := ∀ p q, p <+: q → q ∈ S → p ∈ S

/-- At most `n` elements follow a sequence in the set. -/
def Narrow (n : Nat) (S : Set (List α)) : Prop :=
  ∀ p (xs : List α), xs.Nodup → (∀ x, x ∈ xs → p ++ [x] ∈ S) → xs.length ≤ n

/-- `p` is the longest prefix of `xs` in the set. -/
structure Longest (S : Set (List α)) (xs p : List α) : Prop where
  mem : p ∈ S
  start : p <+: xs
  most : ∀ q, q ∈ S → q <+: xs → q.length ≤ p.length

section

variable {S : Set (List α)} {seqs : List (List α)} {s p q xs rest : List α}

theorem closed_prefixes (seqs : List (List α)) : Closed (prefixes seqs) := by
  rintro p q hStart ⟨s, hs, hOf⟩
  exact ⟨s, hs, hStart.trans hOf⟩

theorem mem_prefixes_concat : p ∈ prefixes (seqs ++ [s]) ↔ p ∈ prefixes seqs ∨ p <+: s := by
  constructor
  · rintro ⟨t, ht, hOf⟩
    cases List.mem_append.mp ht with
    | inl hOld => exact Or.inl ⟨t, hOld, hOf⟩
    | inr hNew =>
        rw [List.mem_singleton.mp hNew] at hOf
        exact Or.inr hOf
  · rintro (⟨t, ht, hOf⟩ | hOf)
    · exact ⟨t, List.mem_append_left [s] ht, hOf⟩
    · exact ⟨s, List.mem_append_right seqs (List.mem_singleton_self s), hOf⟩

/-- Not more elements follow one another than there are sequences. -/
theorem narrow_prefixes {n : Nat} (hCount : seqs.length ≤ n) : Narrow n (prefixes seqs) := by
  intro p xs hNodup hAll
  have hSub : xs ⊆ seqs.filterMap fun s => s[p.length]? := by
    intro x hx
    obtain ⟨s, hs, more, hMore⟩ := hAll x hx
    refine List.mem_filterMap.mpr ⟨s, hs, ?_⟩
    rw [← hMore, List.append_assoc, List.getElem?_append_right (Nat.le_refl _), Nat.sub_self]
    rfl
  have hLength := (hNodup.subperm hSub).length_le
  have hFew := List.length_filterMap_le (fun s : List α => s[p.length]?) seqs
  omega

theorem Longest.unique (hp : Longest S xs p) (hq : Longest S xs q) : p = q := by
  have hSame : p.length = q.length :=
    Nat.le_antisymm (hq.most p hp.mem hp.start) (hp.most q hq.mem hq.start)
  exact (List.prefix_of_prefix_length_le hp.start hq.start (by omega)).eq_of_length hSame

/-- A prefix that the next element does not prolong in the set is the longest one. -/
theorem longest_of_stuck (hClosed : Closed S) (hMem : p ∈ S)
    (hStuck : ∀ x, rest.head? = some x → p ++ [x] ∉ S) : Longest S (p ++ rest) p := by
  refine ⟨hMem, List.prefix_append p rest, ?_⟩
  intro q hIn hStart
  by_contra hLonger
  have hOf : p <+: q :=
    List.prefix_of_prefix_length_le (List.prefix_append p rest) hStart (by omega)
  obtain ⟨more, rfl⟩ := hOf
  cases more with
  | nil =>
      rw [List.append_nil] at hLonger
      omega
  | cons x more =>
      have hRest : x :: more <+: rest := (List.prefix_append_right_inj p).mp hStart
      obtain ⟨others, rfl⟩ := hRest
      apply hStuck x rfl
      apply hClosed (p ++ [x]) (p ++ x :: more) _ hIn
      exact ⟨more, by rw [List.append_assoc]; rfl⟩

end

end Gbase.Lib.Prefixes
