import Mathlib.Algebra.BigOperators.Group.Finset.Basic
import Mathlib.Data.Fintype.BigOperators
import Mathlib.Data.Fintype.Pi
import Mathlib.Data.List.Permutation
import Mathlib.Data.Nat.GCD.Basic

/-!
# Shuffling (`util/random.c`)

An `int` is a word of 32 bits.  The values of `rand_gen` are a sequence, and reading or writing
outside the array is undefined, `none`.

The swap of two elements is made with exclusive or, which would lose an element that is swapped with
itself, and the source looks for this case.  For fairness the sequences of indices are counted: they
can be shared out evenly among the permutations only if the number of permutations divides theirs.

## Main results

* `rand_shuffle_permutes`: whatever `rand_gen` returns, a shuffle permutes the array.
* `rand_shuffle_fair_iff`: all permutations come from equally many index sequences exactly for
  arrays of at most two elements.
-/

namespace Gbase.Util.Random

/-- `src[i] ^= src[j]` -/
def xorTo (src : List (BitVec 32)) (i j : Nat) : Option (List (BitVec 32)) := do
  let a ← src[i]?
  let b ← src[j]?
  return src.set i (a ^^^ b)

/-- One turn of the loop of `rand_shuffle`. -/
def swapTo (src : List (BitVec 32)) (i index : Nat) : Option (List (BitVec 32)) :=
  if index ≠ i then do
    let src ← xorTo src i index
    let src ← xorTo src index i
    xorTo src i index
  else some src

/-- The loop of `rand_shuffle` below `i`, after so many turns; `index` gives the index of each
turn. -/
def shuffleLoop (index : Nat → Nat) :
    Nat → Nat → List (BitVec 32) → Option (List (BitVec 32))
  | 0, _, src => some src
  | i + 1, turns, src => do
      let src ← swapTo src i (index turns)
      shuffleLoop index i (turns + 1) src

/-- `rand_shuffle`; where an index is taken, `sz` is positive and stays what it is as an unsigned
number. -/
def randShuffle (randGen : Nat → UInt32) (src : List (BitVec 32)) (sz : Int) :
    Option (List (BitVec 32)) :=
  shuffleLoop (fun turn => (randGen turn).toNat % sz.toNat) sz.toNat 0 src

/-! ## Permutations -/

section

variable {src : List (BitVec 32)} {i index turns : Nat}

theorem xorTo_eq {j : Nat} (hi : i < src.length) (hj : j < src.length) :
    xorTo src i j = some (src.set i (src[i] ^^^ src[j])) := by
  simp [xorTo, List.getElem?_eq_getElem hi, List.getElem?_eq_getElem hj]

/-- Three exclusive ors exchange two elements at different places. -/
theorem swapTo_eq (hi : i < src.length) (hIndex : index < src.length) (hNe : index ≠ i) :
    swapTo src i index = some ((src.set i src[index]).set index src[i]) := by
  have hFirst := xorTo_eq hi hIndex
  have hSecond := @xorTo_eq (src.set i (src[i] ^^^ src[index])) index i (by simpa) (by simpa)
  have hThird := @xorTo_eq ((src.set i (src[i] ^^^ src[index])).set index src[i]) i index
    (by simpa) (by simpa)
  have hBack : src[index] ^^^ (src[i] ^^^ src[index]) = src[i] := by
    rw [BitVec.xor_comm, BitVec.xor_assoc, BitVec.xor_self, BitVec.xor_zero]
  have hFront : src[i] ^^^ src[index] ^^^ src[i] = src[index] := by
    rw [BitVec.xor_comm, ← BitVec.xor_assoc, BitVec.xor_self, BitVec.zero_xor]
  rw [List.getElem_set_ne hNe.symm, List.getElem_set_self, hBack] at hSecond
  rw [List.getElem_set_ne hNe, List.getElem_set_self, List.getElem_set_self, hFront] at hThird
  rw [swapTo, if_pos hNe, hFirst]
  simp only [Option.bind_eq_bind, Option.bind_some, hSecond, hThird]
  rw [List.set_comm _ _ hNe, List.set_set]

/-- A turn permutes the array. -/
theorem swapTo_perm (hi : i < src.length) (hIndex : index < src.length) :
    ∃ out, swapTo src i index = some out ∧ out.Perm src := by
  by_cases hNe : index ≠ i
  · exact ⟨_, swapTo_eq hi hIndex hNe, List.set_set_perm hi hIndex⟩
  · exact ⟨src, if_neg hNe, List.Perm.refl src⟩

/-- So does the loop, for indices in the array. -/
theorem shuffleLoop_perm {indices : Nat → Nat} (hi : i ≤ src.length)
    (hIndices : ∀ turn, indices turn < src.length ∨ src = []) :
    ∃ out, shuffleLoop indices i turns src = some out ∧ out.Perm src := by
  induction i generalizing src turns with
  | zero => exact ⟨src, rfl, List.Perm.refl src⟩
  | succ i ih =>
      have hIndex : indices turns < src.length := by
        rcases hIndices turns with hLt | rfl
        · exact hLt
        · cases hi
      obtain ⟨next, hSwap, hPerm⟩ := swapTo_perm hi hIndex
      have hLen := hPerm.length_eq
      obtain ⟨out, hLoop, hOut⟩ := @ih next (turns + 1) (by omega) fun turn => by
        rcases hIndices turn with hLt | rfl
        · exact Or.inl (by omega)
        · cases hi
      refine ⟨out, ?_, hOut.trans hPerm⟩
      rw [shuffleLoop, hSwap]
      exact hLoop

end

/-- Whatever `rand_gen` returns, `rand_shuffle` leaves a permutation of the array and stays in it;
elements may be equal, and the array may be empty. -/
theorem rand_shuffle_permutes (randGen : Nat → UInt32) (src : List (BitVec 32)) :
    ∃ out, randShuffle randGen src src.length = some out ∧ out.Perm src := by
  apply shuffleLoop_perm (Nat.le_of_eq (Int.toNat_natCast src.length))
  intro turn
  cases src with
  | nil => exact Or.inr rfl
  | cons a src => exact Or.inl (Nat.mod_lt _ (Nat.succ_pos _))

/-! ## Fairness -/

/-- The shuffle whose turns draw the given indices, each from the range that the code draws from. -/
def produced (src : List (BitVec 32)) (indices : Fin src.length → Fin src.length) :
    Option (List (BitVec 32)) :=
  shuffleLoop (fun turn => if h : turn < src.length then indices ⟨turn, h⟩ else 0) src.length 0 src

/-- How many index sequences produce a permutation. -/
def ways (src out : List (BitVec 32)) : Nat :=
  (Finset.univ.filter fun indices => produced src indices = some out).card

/-- All permutations are produced by the same number of index sequences. -/
def Fair (src : List (BitVec 32)) : Prop :=
  ∀ p q, p.Perm src → q.Perm src → ways src p = ways src q

section

variable {src : List (BitVec 32)}

private theorem produced_perm (indices : Fin src.length → Fin src.length) :
    ∃ out, produced src indices = some out ∧ out.Perm src := by
  apply shuffleLoop_perm le_rfl
  intro turn
  by_cases hTurn : turn < src.length
  · rw [dif_pos hTurn]
    exact Or.inl (indices ⟨turn, hTurn⟩).isLt
  · rw [dif_neg hTurn]
    rcases Nat.eq_zero_or_pos src.length with hNil | hPos
    · exact Or.inr (List.length_eq_zero_iff.mp hNil)
    · exact Or.inl hPos

/-- All index sequences together. -/
theorem sum_ways (src : List (BitVec 32)) :
    src.length ^ src.length = ∑ p ∈ src.permutations.toFinset, ways src p := by
  have hMaps : ∀ indices, indices ∈ (Finset.univ : Finset (Fin src.length → Fin src.length)) →
      produced src indices ∈ src.permutations.toFinset.map Function.Embedding.some := by
    intro indices _
    obtain ⟨out, hOut, hPerm⟩ := produced_perm indices
    rw [hOut, Finset.mem_map]
    exact ⟨out, List.mem_toFinset.mpr (List.mem_permutations.mpr hPerm), rfl⟩
  have hCard := Finset.card_eq_sum_card_fiberwise hMaps
  rw [Finset.sum_map, Finset.card_univ, Fintype.card_fun, Fintype.card_fin] at hCard
  exact hCard

/-- A fair shuffle has a multiple of as many index sequences as there are permutations. -/
theorem factorial_dvd (hNodup : src.Nodup) (hFair : Fair src) :
    Nat.factorial src.length ∣ src.length ^ src.length := by
  have hSame : ∀ p, p ∈ src.permutations.toFinset → ways src p = ways src src := by
    intro p hp
    exact hFair p src (List.mem_permutations.mp (List.mem_toFinset.mp hp)) (List.Perm.refl src)
  have hCard : src.permutations.toFinset.card = Nat.factorial src.length := by
    rw [List.toFinset_card_of_nodup (List.nodup_permutations src hNodup), List.length_permutations]
  rw [sum_ways src, Finset.sum_const_nat hSame, hCard]
  exact Dvd.intro _ rfl

/-- From three elements on, one less than their number divides the number of permutations, and not
the number of index sequences. -/
theorem length_le_of_fair (hNodup : src.Nodup) (hFair : Fair src) : src.length ≤ 2 := by
  by_contra hLong
  have hDvd := factorial_dvd hNodup hFair
  obtain ⟨n, hn⟩ : ∃ n, src.length = n + 1 := ⟨src.length - 1, by omega⟩
  rw [hn] at hDvd hLong
  have hFactor : n ∣ (n + 1) ^ (n + 1) :=
    (Nat.dvd_factorial (by omega) (Nat.le_succ n)).trans hDvd
  have hCoprime : Nat.Coprime n ((n + 1) ^ (n + 1)) := by
    apply Nat.Coprime.pow_right
    exact Nat.coprime_self_add_right.mpr (Nat.coprime_one_right n)
  have hOne := Nat.Coprime.eq_one_of_dvd hCoprime hFactor
  omega

/-- Two elements are exchanged by a first index of 0 and by a second one of 1. -/
theorem produced_two (a b : BitVec 32) (indices : Fin 2 → Fin 2) :
    produced [a, b] indices =
      some (if (indices 0 = 0 ↔ indices 1 = 1) then [a, b] else [b, a]) := by
  have hFirst : swapTo [a, b] 1 0 = some [b, a] :=
    @swapTo_eq [a, b] 1 0 (Nat.lt_succ_self 1) Nat.two_pos Nat.zero_ne_one
  have hSecond : ∀ x y : BitVec 32, swapTo [x, y] 0 1 = some [y, x] := fun x y =>
    @swapTo_eq [x, y] 0 1 Nat.two_pos (Nat.lt_succ_self 1) Nat.one_ne_zero
  have hStay : ∀ (x y : BitVec 32) i, swapTo [x, y] i i = some [x, y] := fun x y i =>
    if_neg fun hNe => hNe rfl
  have hCases : ∀ i : Fin 2, i = 0 ∨ i = 1 := by decide
  rcases hCases (indices 0) with h0 | h0 <;> rcases hCases (indices 1) with h1 | h1 <;>
    simp [produced, shuffleLoop, h0, h1, hFirst, hSecond, hStay]

/-- Each order of two elements is produced in two ways. -/
theorem fair_two {a b : BitVec 32} (hNe : a ≠ b) : Fair [a, b] := by
  have hCount : ∀ kept : Bool, (Finset.univ.filter fun indices : Fin 2 → Fin 2 =>
      decide (indices 0 = 0 ↔ indices 1 = 1) = kept).card = 2 := by decide
  have hWays : ∀ p, p.Perm [a, b] → ways [a, b] p = 2 := by
    intro p hPerm
    have hKept : ∃ kept : Bool, ∀ indices : Fin 2 → Fin 2,
        produced [a, b] indices = some p ↔
          decide (indices 0 = 0 ↔ indices 1 = 1) = kept := by
      rcases List.perm_pair.mp hPerm with rfl | rfl
      · refine ⟨true, fun indices => ?_⟩
        rw [produced_two]
        split_ifs with hSame <;> simp [hSame, hNe.symm]
      · refine ⟨false, fun indices => ?_⟩
        rw [produced_two]
        split_ifs with hSame <;> simp [hSame, hNe]
    obtain ⟨kept, hIff⟩ := hKept
    rw [← hCount kept]
    exact congrArg Finset.card (Finset.filter_congr fun indices _ => hIff indices)
  intro p q hp hq
  rw [hWays p hp, hWays q hq]

end

/-- `rand_shuffle` is fair exactly for at most two elements: every permutation comes from equally
many of the index sequences that the code can draw.  All turns draw from the whole array, the last
one too, so that there are too many sequences to be shared out for three elements or more. -/
theorem rand_shuffle_fair_iff {src : List (BitVec 32)} (hNodup : src.Nodup)
    (hPos : 1 ≤ src.length) : Fair src ↔ src.length ≤ 2 := by
  constructor
  · exact length_le_of_fair hNodup
  · intro hShort
    match src, hPos, hShort with
    | [a], _, _ =>
        intro p q hp hq
        rw [List.perm_singleton.mp hp, List.perm_singleton.mp hq]
    | [a, b], _, _ => exact fair_two (by simpa using hNodup)

/-- Three cards, and two. -/
theorem rand_shuffle_fair_three : (Fair [1, 2, 3] ↔ 3 ≤ 2) ∧ Fair [1, 2] :=
  ⟨rand_shuffle_fair_iff (by decide) (by decide),
    (rand_shuffle_fair_iff (by decide) (by decide)).mpr (by decide)⟩

/-- Of the 27 index sequences, four leave three cards in order and five exchange the first two. -/
theorem rand_shuffle_unfair : ways [1, 2, 3] [1, 2, 3] = 4 ∧ ways [1, 2, 3] [2, 1, 3] = 5 ∧
    ¬ Fair [1, 2, 3] := by
  have hOrder : ways [1, 2, 3] [1, 2, 3] = 4 := by decide +kernel
  have hFirst : ways [1, 2, 3] [2, 1, 3] = 5 := by decide +kernel
  refine ⟨hOrder, hFirst, ?_⟩
  intro hFair
  have hSame := hFair [1, 2, 3] [2, 1, 3] (by decide) (by decide)
  rw [hOrder, hFirst] at hSame
  cases hSame

end Gbase.Util.Random
