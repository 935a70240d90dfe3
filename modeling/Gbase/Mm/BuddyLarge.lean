import Gbase.Mm.BuddyCanon
import Mathlib.Algebra.Group.Int.Defs
import Mathlib.Algebra.Group.Nat.Defs

/-!
# Requests that are larger than the pool

`buddy_alloc` compares the request with the pool as an `int`, and rounds it up with the shift of
an `int`.  From `2 ^ 31` on the first comparison can pass and the second number can be anything,
so that a small block is returned for a large request, or the search goes around at the root for
ever.

## Main results

* `mallocSize_spec`: what is searched is a power of two, not below the minimum.
* `Exact.alloc_large`: `buddy_alloc` of a request that is larger than the pool.
* `buddy_alloc_fits_iff`: along a run the blocks are large enough and requests larger than the pool
  fail if and only if no such request finds a place.
-/

namespace Gbase.Mm.Buddy

open Gbase.Core.OsDef
open Gbase.Lib.BuddyTree
open Gbase.Lib.BuddyTree.Blocks
open Gbase.Lib.Run

/-! ## The size that is searched -/

/-- `malloc_size`, as the search has it. -/
def mallocSize (buddy : BuddyT) (nbytes : Nat) : Nat :=
  let mallocSize := toSize (roundup nbytes)
  if toInt mallocSize < buddy.minSize then buddy.minSize else mallocSize

theorem buddyAlloc_eq {buddy : BuddyT} {nbytes : Nat} (h : ¬ toInt nbytes > buddy.poolSize) :
    buddyAlloc buddy nbytes =
      allocLoop (mallocSize buddy nbytes) buddy.treeSize buddy 1 := by
  rw [buddyAlloc]
  exact if_neg h

section Large

variable {buddy : BuddyT} {M H : Nat} {t : Blocks}

/-- It is a power of two and at least the minimum, also for a request of any size. -/
theorem mallocSize_spec (hShape : Shape buddy M H) (nbytes : Nat) :
    ∃ k, mallocSize buddy nbytes = 2 ^ (M + k) := by
  have hBound := hShape.bound
  have hMin : 2 ^ M < 2 ^ 30 := Nat.pow_lt_pow_right (by decide) (by omega)
  rw [mallocSize, hShape.minSize]
  rcases roundup_pow nbytes with hRound | ⟨r, hr, hRound⟩
  · have hLow : toInt (toSize (-2 ^ 31) : Nat) = -2 ^ 31 := by decide
    refine ⟨0, ?_⟩
    rw [hRound, hLow]
    simp only [Nat.add_zero]
    rw [if_pos]
    exact Int.lt_of_lt_of_le (by decide) (Int.natCast_nonneg (2 ^ M))
  · have hPow : 2 ^ r ≤ 2 ^ 30 := Nat.pow_le_pow_right (by decide) hr
    have hSize : toSize (2 ^ r) = 2 ^ r := by
      exact_mod_cast @toSize_eq (2 ^ r) (by omega)
    have hInt : toInt ((2 ^ r : Nat) : Int) = ((2 ^ r : Nat) : Int) := toInt_eq (by omega)
    rw [hRound, hSize, hInt]
    by_cases hLess : 2 ^ r < 2 ^ M
    · exact ⟨0, if_pos (by exact_mod_cast hLess)⟩
    · have hLe : M ≤ r := (Nat.pow_le_pow_iff_right (by decide)).mp (Nat.not_lt.mp hLess)
      obtain ⟨k, rfl⟩ := Nat.exists_eq_add_of_le hLe
      exact ⟨k, if_neg (by exact_mod_cast hLess)⟩

/-- A search for more than the pool has ends at a root that is in use, and goes around at one that
is not. -/
theorem Pool.allocLoop_above (hPool : Pool buddy M H t) {k : Nat} (hk : H < k) :
    (t ≠ .unused → Buddy.allocLoop (2 ^ (M + k)) buddy.treeSize buddy 1 = some (none, buddy)) ∧
      (t = .unused → ∀ fuel, Buddy.allocLoop (2 ^ (M + k)) fuel buddy 1 = none) := by
  have hRoot : 1 < buddy.treeSize := by
    rw [hPool.shape.treeSize]
    exact Nat.one_lt_two_pow (Nat.succ_ne_zero H)
  have hTag : buddy.tag 1 = some (tagOf t) := tag_spec hPool.holds (mem_cells H 1 t)
  have hSize : sizeFromIndex buddy 1 = 2 ^ (M + H) :=
    @sizeFromIndex_spec buddy M H [] hPool.shape
  have hLess : 2 ^ (M + H) < 2 ^ (M + k) := Nat.pow_lt_pow_right (by decide) (by omega)
  constructor
  · intro hUsed
    have hNot : tagOf t ≠ .unused := fun hTag => hUsed ((tagOf_unused t).mp hTag)
    obtain ⟨fuel, hFuel⟩ := Nat.exists_eq_succ_of_ne_zero (by omega : buddy.treeSize ≠ 0)
    rw [hFuel, Buddy.allocLoop, if_pos hRoot, hTag, Option.bind_eq_bind, Option.bind_some]
    cases hCase : tagOf t with
    | unused => exact absurd hCase hNot
    | used => simp [climb_one]
    | full => simp [climb_one]
    | split => simp [climb_one, hSize, hLess.le]
  · rintro rfl fuel
    induction fuel with
    | zero => rfl
    | succ fuel ih =>
        have hBack : climb (1 / 2) = 0 := by decide
        rw [Buddy.allocLoop, if_pos hRoot, hTag, Option.bind_eq_bind, Option.bind_some]
        simp only [tagOf, hSize, if_neg hLess.ne, if_neg hLess.not_gt, hBack, Nat.zero_ne_one,
          if_false, Nat.zero_add]
        exact ih

end Large

/-! ## One call -/

/-- The request fits into the pool, or is seen not to, or there is no place for what is searched
in its stead. -/
def Answerable (s : State) (nbytes : Nat) : Prop :=
  nbytes ≤ s.buddy.poolSize ∨ toInt nbytes > s.buddy.poolSize ∨
    ∀ p, ¬ Place s (min (mallocSize s.buddy nbytes) s.buddy.poolSize) p

/-- The block that a call returns has the size of the request, and a request that is larger than
the pool gets none. -/
def Fits (s : State) (op : BuddyOp) (mem : Option Nat) (s' : State) : Prop :=
  match op with
  | .alloc nbytes | .realloc _ nbytes =>
      (s.buddy.poolSize < nbytes → mem = none) ∧
        ∀ p, mem = some p → ∃ index, search s'.buddy p = some (index, p) ∧
          nbytes ≤ sizeFromIndex s'.buddy index
  | .free _ => True

/-- Every request of the call is answerable. -/
def AnswerableOp (s : State) : BuddyOp → Prop
  | .alloc nbytes => Answerable s nbytes
  | .realloc _ nbytes => Answerable s nbytes
  | .free _ => True

/-- Calls with sizes that a `size_t` can have, and with live pointers. -/
def AnySize (s : State) : BuddyOp → Prop
  | .alloc nbytes => 1 ≤ nbytes ∧ nbytes < 2 ^ 64
  | .realloc mem nbytes => IsLive s mem ∧ (mem = none → 1 ≤ nbytes) ∧ nbytes < 2 ^ 64
  | .free mem => IsLive s mem

instance (s : State) : ∀ op, Decidable (AnySize s op)
  | .alloc nbytes => inferInstanceAs (Decidable (1 ≤ nbytes ∧ nbytes < 2 ^ 64))
  | .realloc mem nbytes =>
      inferInstanceAs (Decidable (IsLive s mem ∧ (mem = none → 1 ≤ nbytes) ∧ nbytes < 2 ^ 64))
  | .free mem => inferInstanceAs (Decidable (IsLive s mem))

section Calls

variable {s : State} {M H : Nat} {t : Blocks}

/-- A request that is larger than the pool fails and changes nothing, if it is answerable.
Otherwise it gets a block, or the search does not end. -/
theorem Exact.alloc_large (h : Exact M H t s) {nbytes : Nat}
    (hLarge : s.buddy.poolSize < nbytes) :
    (Answerable s nbytes → buddyAlloc s.buddy nbytes = some (none, s.buddy)) ∧
      ∀ buddy, buddyAlloc s.buddy nbytes = some (none, buddy) → Answerable s nbytes := by
  by_cases hSeen : toInt nbytes > s.buddy.poolSize
  · refine ⟨?_, fun _ _ => Or.inr (Or.inl hSeen)⟩
    intro _
    rw [buddyAlloc]
    exact if_pos hSeen
  · obtain ⟨k, hSize⟩ := mallocSize_spec h.pool.shape nbytes
    have hIff : Answerable s nbytes ↔
        ∀ p, ¬ Place s (min (2 ^ (M + k)) (2 ^ (M + H))) p := by
      rw [Answerable, hSize, h.pool.shape.poolSize] at *
      constructor
      · intro hCases
        exact (hCases.resolve_left (by omega)).resolve_left hSeen
      · intro hNone
        exact Or.inr (Or.inr hNone)
    rw [hIff, buddyAlloc_eq hSeen, hSize]
    by_cases hk : k ≤ H
    · have hMin : min (2 ^ (M + k)) (2 ^ (M + H)) = 2 ^ (M + k) :=
        Nat.min_eq_left (Nat.pow_le_pow_right (by decide) (by omega))
      rw [hMin, ← h.alloc_none_iff hk]
      rcases h.pool.allocLoop hk with ⟨hNone, hRun⟩ | ⟨o, t', tree, hSome, hRun, -⟩
      · exact ⟨fun _ => hRun, fun _ _ => hNone⟩
      · refine ⟨?_, ?_⟩
        · intro hNone
          rw [hSome] at hNone
          cases hNone
        · intro buddy hNull
          rw [hRun] at hNull
          cases hNull
    · have hMin : min (2 ^ (M + k)) (2 ^ (M + H)) = 2 ^ (M + H) :=
        Nat.min_eq_right (Nat.pow_le_pow_right (by decide) (by omega))
      obtain ⟨hUsed, hUnused⟩ := h.pool.allocLoop_above (Nat.lt_of_not_le hk)
      rw [hMin, ← h.alloc_none_iff (Nat.le_refl H), alloc_whole]
      refine ⟨hUsed, ?_⟩
      intro buddy hNull hFree
      rw [hUnused hFree] at hNull
      cases hNull

/-- `buddy_realloc` returns what the allocation in it returned. -/
theorem buddyRealloc_result {buddy buddy' : BuddyT} {p nbytes : Nat} {mem : Option Nat}
    (hZero : nbytes ≠ 0) (hRun : buddyRealloc buddy (some p) nbytes = some (mem, buddy')) :
    ∃ buddy₁, buddyAlloc buddy nbytes = some (mem, buddy₁) := by
  simp only [buddyRealloc, if_neg hZero, Option.bind_eq_bind, Option.bind_eq_some_iff] at hRun
  obtain ⟨_, -, ⟨mem', buddy₁⟩, hAlloc, _, -, _, -, hEnd⟩ := hRun
  cases hEnd
  exact ⟨buddy₁, hAlloc⟩

/-- A pointer that was handed out has a block of its size. -/
theorem Canonical.fits (h : Canonical M H s) {p nbytes : Nat} (hIn : (p, nbytes) ∈ s.live) :
    ∃ index, search s.buddy p = some (index, p) ∧ nbytes ≤ sizeFromIndex s.buddy index := by
  obtain ⟨index, -, hSearch, -, hSize, -⟩ :=
    (sound_of_inv ((canonical_kept M H).inv s h)).block p nbytes hIn
  exact ⟨index, hSearch, hSize⟩

/-- A request within the pool. -/
theorem Canonical.fits_grant {buddy : BuddyT} {mem : Option Nat} {nbytes : Nat}
    {live : List (Nat × Nat)} (h : Canonical M H ⟨buddy, grant mem nbytes live⟩)
    (hLe : nbytes ≤ s.buddy.poolSize) :
    (s.buddy.poolSize < nbytes → mem = none) ∧
      ∀ p, mem = some p → ∃ index, search buddy p = some (index, p) ∧
        nbytes ≤ sizeFromIndex buddy index := by
  refine ⟨fun hMore => absurd hLe (Nat.not_le.mpr hMore), ?_⟩
  rintro p rfl
  exact h.fits List.mem_cons_self

/-- An answerable call returns what fits, and a call that does is answerable. -/
theorem Canonical.step (h : Canonical M H s) {op : BuddyOp} (hOp : AnySize s op) :
    (AnswerableOp s op → ∃ mem s', buddyStep s op = some (mem, s') ∧ Fits s op mem s' ∧
        Canonical M H s') ∧
      ∀ mem s', buddyStep s op = some (mem, s') → Fits s op mem s' → AnswerableOp s op := by
  have hKept := canonical_kept M H
  cases op with
  | alloc nbytes =>
      by_cases hLe : nbytes ≤ s.buddy.poolSize
      · refine ⟨fun _ => ?_, fun _ _ _ _ => Or.inl hLe⟩
        obtain ⟨mem, buddy, hRun, h'⟩ := hKept.alloc s nbytes h hOp.1 hLe
        refine ⟨mem, ⟨buddy, grant mem nbytes s.live⟩, ?_, h'.fits_grant hLe, h'⟩
        rw [buddyStep, hRun]
        rfl
      · obtain ⟨t, hExact⟩ := h
        obtain ⟨hNull, hOnly⟩ := hExact.alloc_large (Nat.lt_of_not_le hLe)
        constructor
        · intro hAnswerable
          refine ⟨none, s, ?_, ⟨fun _ => rfl, ?_⟩, t, hExact⟩
          · rw [buddyStep, hNull hAnswerable]
            rfl
          · intro p hp
            cases hp
        · intro mem s' hStep hFits
          rw [buddyStep, Option.map_eq_some_iff] at hStep
          obtain ⟨⟨mem', buddy⟩, hRun, hEnd⟩ := hStep
          cases hEnd
          have hNone : mem' = none := hFits.1 (Nat.lt_of_not_le hLe)
          rw [hNone] at hRun
          exact hOnly buddy hRun
  | realloc mem nbytes =>
      by_cases hLe : nbytes ≤ s.buddy.poolSize
      · refine ⟨fun _ => ?_, fun _ _ _ _ => Or.inl hLe⟩
        obtain ⟨mem', buddy, hRun, h'⟩ := hKept.realloc h hOp.1 hOp.2.1 hLe
        refine ⟨mem', ⟨buddy, grant mem' nbytes (revoke mem s.live)⟩, ?_, h'.fits_grant hLe, h'⟩
        rw [buddyStep, hRun]
        rfl
      · have hMore : s.buddy.poolSize < nbytes := Nat.lt_of_not_le hLe
        obtain ⟨t, hExact⟩ := h
        obtain ⟨hNull, hOnly⟩ := hExact.alloc_large hMore
        constructor
        · intro hAnswerable
          have hAlloc := hNull hAnswerable
          obtain ⟨buddy, hRun, h'⟩ : ∃ buddy,
              buddyRealloc s.buddy mem nbytes = some (none, buddy) ∧
                Canonical M H ⟨buddy, revoke mem s.live⟩ := by
            cases mem with
            | none => exact ⟨s.buddy, hAlloc, t, hExact⟩
            | some p =>
                obtain ⟨o, k, hIn, rfl⟩ := hExact.matching.mem hOp.1
                obtain ⟨gs, hSearch, -⟩ := hExact.pool.search hIn
                obtain ⟨buddy, hFree, h'⟩ := hKept.free s _ ⟨t, hExact⟩ hOp.1
                refine ⟨buddy, ?_, h'⟩
                simp only [buddyRealloc, if_neg (by omega : nbytes ≠ 0), hSearch, hAlloc, hFree,
                  Option.bind_eq_bind, Option.bind_some]
                rfl
          refine ⟨none, ⟨buddy, revoke mem s.live⟩, ?_, ⟨fun _ => rfl, ?_⟩, h'⟩
          · rw [buddyStep, hRun]
            rfl
          · intro p hp
            cases hp
        · intro mem' s' hStep hFits
          rw [buddyStep, Option.map_eq_some_iff] at hStep
          obtain ⟨⟨mem'', buddy⟩, hRun, hEnd⟩ := hStep
          cases hEnd
          have hNone : mem'' = none := hFits.1 hMore
          rw [hNone] at hRun
          cases mem with
          | none => exact hOnly buddy hRun
          | some p =>
              obtain ⟨buddy₁, hAlloc⟩ := buddyRealloc_result (by omega : nbytes ≠ 0) hRun
              exact hOnly buddy₁ hAlloc
  | free mem =>
      refine ⟨fun _ => ?_, fun _ _ _ _ => trivial⟩
      obtain ⟨buddy, hRun, h'⟩ := hKept.free s mem h hOp
      exact ⟨none, _, by rw [buddyStep, hRun]; rfl, trivial, h'⟩

end Calls

/-! ## Runs -/

/-- Along a run of calls with any sizes, every block that is returned is at least as large as the
request, and requests larger than the pool get `NULL`, if and only if every request fits into the
pool, or is seen not to, or finds no place for the size that it is mistaken for. -/
theorem buddy_alloc_fits_iff {pool : Nat → UInt8} {size minAllocSize : Nat} {buddy : BuddyT}
    (hInit : buddyInit pool size minAllocSize = some buddy) {ops : List BuddyOp}
    (hOps : Along buddyStep AnySize ⟨buddy, []⟩ ops) :
    Along buddyStep (Does buddyStep Fits) ⟨buddy, []⟩ ops ↔
      Along buddyStep AnswerableOp ⟨buddy, []⟩ ops := by
  obtain ⟨M, H, hNew⟩ := canonical_init hInit
  have hIff : ∀ s op, Canonical M H s → AnySize s op →
      (Does buddyStep Fits s op ↔ AnswerableOp s op) := by
    intro s op h hOp
    obtain ⟨hDoes, hOnly⟩ := h.step hOp
    constructor
    · rintro ⟨mem, s', hStep, hFits⟩
      exact hOnly mem s' hStep hFits
    · intro hAnswerable
      obtain ⟨mem, s', hStep, hFits, -⟩ := hDoes hAnswerable
      exact ⟨mem, s', hStep, hFits⟩
  have hKeep : ∀ s op mem s', Canonical M H s → AnySize s op → Does buddyStep Fits s op →
      buddyStep s op = some (mem, s') → Canonical M H s' := by
    intro s op mem s' h hOp hGood hStep
    obtain ⟨mem', t, hStep', -, h'⟩ := (h.step hOp).1 ((hIff s op h hOp).mp hGood)
    rw [hStep] at hStep'
    cases hStep'
    exact h'
  exact along_iff_of_inv (Canonical M H) hIff hKeep hNew hOps

/-- Requests within a pool of 32 bytes and above it.  The first two are answered as they should be,
and the third one is the question. -/
theorem buddy_alloc_fits_small :
    Along buddyStep (Does buddyStep Fits) ⟨smallPool, []⟩ [.alloc 5, .alloc 40] ∧
      (Along buddyStep (Does buddyStep Fits) ⟨smallPool, []⟩
          [.alloc 5, .alloc 40, .alloc 2147483648] ↔
        Along buddyStep AnswerableOp ⟨smallPool, []⟩
          [.alloc 5, .alloc 40, .alloc 2147483648]) := by
  refine ⟨(buddy_alloc_fits_iff (Option.some_get _).symm (by decide)).mpr ?_,
    buddy_alloc_fits_iff (Option.some_get _).symm (by decide)⟩
  refine ⟨Or.inl (by decide), fun _ _ hAlloc => ?_⟩
  cases hAlloc
  exact ⟨Or.inr (Or.inl (by decide)), fun _ _ _ => trivial⟩

/-- A request of `2 ^ 31` bytes gets a block of 8 bytes. -/
theorem buddy_alloc_wraps :
    ¬ Along buddyStep (Does buddyStep Fits) ⟨smallPool, []⟩ [.alloc 2147483648] := by
  intro hAlong
  obtain ⟨mem, s', hStep, hFits⟩ := hAlong.head
  have hBlock : (buddyStep ⟨smallPool, []⟩ (.alloc 2147483648)).map Prod.fst = some (some 0) := by
    decide
  rw [hStep, hFits.1 (by decide)] at hBlock
  cases hBlock

end Gbase.Mm.Buddy
