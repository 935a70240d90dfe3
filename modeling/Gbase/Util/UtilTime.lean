import Gbase.Lib.Comparator
import Mathlib.Tactic.SplitIfs

/-!
# Time values (`util/util_time.c`)

`struct timeval` is a pair of 64-bit integers, a `time_t` and a `long`, and a value of the
type below carries the proofs that its fields are in their range.  Comparing is field by
field, which is chronological for normalized values only.  Adding carries whole seconds out
of the microseconds while these exceed one second, so that exactly one second stays.  Signed
arithmetic that leaves the range is undefined, and so are the sums and differences here that
overflow on the way.

## Main results

* `utilTimeCompare_totalPreorder`: the comparison is a total preorder, on all values.
* `utilTimeCompare_lt_iff`: on normalized values it compares the total microseconds.
* `utilTimeAdd_eq`: what a sum is, and when it is defined.
* `utilTimeAdd_exact_iff`: a sum is normalized and stands for the sum of the instants exactly
  under `SumExact`.
* `utilTimeAdd_not_before`: adding a positive amount does not lead back in time.
* `utilTimeSub_add`: subtracting what was added leads back, on normalized values.
* `util_time_exact_iff`: sums are defined and normalized, and their comparison is right, exactly
  where no seconds overflow and no microseconds add up to one second.
-/

namespace Gbase.Util.UtilTime

open Gbase.Lib.Comparator

/-- The range of `time_t`, and of the `long` that holds the microseconds. -/
def InLong (n : Int) : Prop := -9223372036854775808 ≤ n ∧ n ≤ 9223372036854775807

instance (n : Int) : Decidable (InLong n) :=
  inferInstanceAs (Decidable (-9223372036854775808 ≤ n ∧ n ≤ 9223372036854775807))

/-- `struct timeval` -/
structure Timeval where
  tvSec : Int
  tvUsec : Int
  secInLong : InLong tvSec := by decide
  usecInLong : InLong tvUsec := by decide
  deriving DecidableEq

/-- A time whose fields 32 bits hold. -/
def Timeval.short (sec usec : UInt32) : Timeval where
  tvSec := sec.toNat
  tvUsec := usec.toNat
  secInLong := by
    have := sec.toNat_lt
    unfold InLong
    omega
  usecInLong := by
    have := usec.toNat_lt
    unfold InLong
    omega

/-- Both fields as computed; undefined if the computation of one of them overflows. -/
def timeval (sec usec : Int) : Option Timeval :=
  if hIn : InLong sec ∧ InLong usec then
    some { tvSec := sec, tvUsec := usec, secInLong := hIn.1, usecInLong := hIn.2 }
  else none

/-- `util_time_compare` -/
def utilTimeCompare (tv1 tv2 : Timeval) : Int :=
  if tv1.tvSec > tv2.tvSec then 1
  else if tv1.tvSec < tv2.tvSec then -1
  else if tv1.tvUsec > tv2.tvUsec then 1
  else if tv1.tvUsec < tv2.tvUsec then -1
  else 0

/-- The loop of `util_time_add`.  Each turn takes a million off `tv_usec`, so `fuel` turns
are enough when `tv_usec` is at most `fuel`. -/
def addLoop : Nat → Timeval → Option Timeval
  | 0, sum => some sum
  | fuel + 1, sum =>
      if sum.tvUsec > 1000000 then do
        let sum ← timeval (sum.tvSec + 1) (sum.tvUsec - 1000000)
        addLoop fuel sum
      else some sum

/-- `util_time_add` -/
def utilTimeAdd (tv1 tv2 : Timeval) : Option Timeval := do
  let sum ← timeval (tv1.tvSec + tv2.tvSec) (tv1.tvUsec + tv2.tvUsec)
  addLoop sum.tvUsec.toNat sum

/-- `util_time_sub`; undefined if the assertion fails or one of its operations overflows. -/
def utilTimeSub (tv1 tv2 : Timeval) : Option Timeval :=
  if utilTimeCompare tv1 tv2 > 0 then
    if InLong (tv1.tvSec - tv2.tvSec) then
      if tv1.tvUsec < tv2.tvUsec then
        if InLong (tv1.tvUsec + 1000000) then
          timeval (tv1.tvSec - tv2.tvSec - 1) (tv1.tvUsec + 1000000 - tv2.tvUsec)
        else none
      else timeval (tv1.tvSec - tv2.tvSec) (tv1.tvUsec - tv2.tvUsec)
    else none
  else none

/-- The instant in microseconds. -/
def Timeval.micros (tv : Timeval) : Int := tv.tvSec * 1000000 + tv.tvUsec

/-- Within one second, as the comparison expects. -/
def Timeval.Normalized (tv : Timeval) : Prop := 0 ≤ tv.tvUsec ∧ tv.tvUsec < 1000000

instance (tv : Timeval) : Decidable tv.Normalized :=
  inferInstanceAs (Decidable (0 ≤ tv.tvUsec ∧ tv.tvUsec < 1000000))

/-- How many seconds `util_time_add` carries over from the microseconds. -/
def carry (tv1 tv2 : Timeval) : Nat := ((tv1.tvUsec + tv2.tvUsec - 1) / 1000000).toNat

/-- No operation of `util_time_add` overflows. -/
def SumFits (tv1 tv2 : Timeval) : Prop :=
  InLong (tv1.tvSec + tv2.tvSec) ∧ InLong (tv1.tvUsec + tv2.tvUsec) ∧
    InLong (tv1.tvSec + tv2.tvSec + carry tv1 tv2)

instance (tv1 tv2 : Timeval) : Decidable (SumFits tv1 tv2) :=
  inferInstanceAs (Decidable (_ ∧ _ ∧ _))

/-- No operation overflows, and the microseconds are none, or not a whole number of seconds: the
last of these stays in `tv_usec`. -/
def SumExact (tv1 tv2 : Timeval) : Prop :=
  SumFits tv1 tv2 ∧ 0 ≤ tv1.tvUsec + tv2.tvUsec ∧
    (tv1.tvUsec + tv2.tvUsec = 0 ∨ (tv1.tvUsec + tv2.tvUsec) % 1000000 ≠ 0)

instance (tv1 tv2 : Timeval) : Decidable (SumExact tv1 tv2) :=
  inferInstanceAs (Decidable (_ ∧ _ ∧ (_ ∨ _)))

/-! ## Comparing -/

/-- The order of time values as pairs. -/
theorem utilTimeCompare_le_iff (a b : Timeval) :
    utilTimeCompare a b ≤ 0 ↔
      a.tvSec < b.tvSec ∨ (a.tvSec = b.tvSec ∧ a.tvUsec ≤ b.tvUsec) := by
  unfold utilTimeCompare
  split_ifs <;> omega

private theorem utilTimeCompare_neg_iff (a b : Timeval) :
    utilTimeCompare a b < 0 ↔
      a.tvSec < b.tvSec ∨ (a.tvSec = b.tvSec ∧ a.tvUsec < b.tvUsec) := by
  unfold utilTimeCompare
  split_ifs <;> omega

theorem utilTimeCompare_totalPreorder : TotalPreorder utilTimeCompare where
  swap := by
    intro a b
    unfold utilTimeCompare
    split_ifs <;> omega
  le_trans := by
    intro a b c hab hbc
    rw [utilTimeCompare_le_iff] at hab hbc ⊢
    omega

/-- Normalized values are compared by their instants. -/
theorem utilTimeCompare_lt_iff {a b : Timeval} (ha : a.Normalized) (hb : b.Normalized) :
    utilTimeCompare a b < 0 ↔ a.micros < b.micros := by
  rw [utilTimeCompare_neg_iff]
  unfold Timeval.Normalized at ha hb
  unfold Timeval.micros
  omega

private theorem utilTimeCompare_gt_iff {a b : Timeval} (ha : a.Normalized) (hb : b.Normalized) :
    utilTimeCompare a b > 0 ↔ a.micros > b.micros := by
  rw [gt_iff_lt, ← Int.not_le, utilTimeCompare_le_iff]
  unfold Timeval.Normalized at ha hb
  unfold Timeval.micros
  omega

/-! ## Adding -/

theorem timeval_eq_some {sec usec : Int} {tv : Timeval} :
    timeval sec usec = some tv ↔ tv.tvSec = sec ∧ tv.tvUsec = usec := by
  rw [timeval]
  constructor
  · intro h
    split at h
    · cases h
      exact ⟨rfl, rfl⟩
    · cases h
  · rintro ⟨rfl, rfl⟩
    exact dif_pos ⟨tv.secInLong, tv.usecInLong⟩

private theorem timeval_self (tv : Timeval) : timeval tv.tvSec tv.tvUsec = some tv :=
  timeval_eq_some.mpr ⟨rfl, rfl⟩

private theorem timeval_eq_none {sec usec : Int} (hOut : ¬ InLong sec ∨ ¬ InLong usec) :
    timeval sec usec = none := by
  apply dif_neg
  rintro ⟨hSec, hUsec⟩
  exact hOut.elim (· hSec) (· hUsec)

/-- The turns of the loop one after the other: only the seconds can overflow, and if they do not
at the end, they did not before. -/
theorem addLoop_eq (fuel : Nat) :
    ∀ sum : Timeval, sum.tvUsec ≤ fuel →
      addLoop fuel sum =
        timeval (sum.tvSec + ((sum.tvUsec - 1) / 1000000).toNat)
          (sum.tvUsec - 1000000 * ((sum.tvUsec - 1) / 1000000).toNat) := by
  induction fuel with
  | zero =>
      intro sum hFuel
      have hNone : ((sum.tvUsec - 1) / 1000000).toNat = 0 := by omega
      rw [addLoop, hNone, ← timeval_self sum]
      simp
  | succ fuel ih =>
      intro sum hFuel
      by_cases hMore : sum.tvUsec > 1000000
      · rw [addLoop, if_pos hMore]
        by_cases hIn : InLong (sum.tvSec + 1)
        · have hUsec := sum.usecInLong
          have hUsec' : InLong (sum.tvUsec - 1000000) := by
            unfold InLong at hUsec ⊢
            omega
          obtain ⟨next, hNext⟩ : ∃ next, timeval (sum.tvSec + 1) (sum.tvUsec - 1000000) =
              some next := ⟨_, dif_pos ⟨hIn, hUsec'⟩⟩
          obtain ⟨hSec, hLess⟩ := timeval_eq_some.mp hNext
          rw [hNext, Option.bind_eq_bind, Option.bind_some, ih next (by omega), hSec, hLess]
          congr 1 <;> omega
        · rw [timeval_eq_none (Or.inl hIn), timeval_eq_none (Or.inl ?_)]
          · rfl
          · have hSec := sum.secInLong
            unfold InLong at hIn hSec ⊢
            omega
      · have hNone : ((sum.tvUsec - 1) / 1000000).toNat = 0 := by omega
        rw [addLoop, if_neg hMore, hNone, ← timeval_self sum]
        simp

/-- What `util_time_add` carries over is taken from the microseconds. -/
theorem utilTimeAdd_eq {a b sum : Timeval} :
    utilTimeAdd a b = some sum ↔
      SumFits a b ∧ sum.tvSec = a.tvSec + b.tvSec + carry a b ∧
        sum.tvUsec = a.tvUsec + b.tvUsec - 1000000 * carry a b := by
  unfold utilTimeAdd SumFits carry
  by_cases hIn : InLong (a.tvSec + b.tvSec) ∧ InLong (a.tvUsec + b.tvUsec)
  · rw [timeval, dif_pos hIn, Option.bind_eq_bind, Option.bind_some,
      addLoop_eq _ _ (Int.self_le_toNat _), timeval_eq_some]
    constructor
    · rintro ⟨hSec, hUsec⟩
      refine ⟨⟨hIn.1, hIn.2, ?_⟩, hSec, hUsec⟩
      rw [← hSec]
      exact sum.secInLong
    · rintro ⟨-, hSec, hUsec⟩
      exact ⟨hSec, hUsec⟩
  · rw [timeval, dif_neg hIn]
    constructor
    · intro h
      cases h
    · rintro ⟨⟨hSec, hUsec, -⟩, -⟩
      exact absurd ⟨hSec, hUsec⟩ hIn

/-- The sum is defined where no operation overflows. -/
theorem utilTimeAdd_isSome_iff {a b : Timeval} :
    (∃ sum, utilTimeAdd a b = some sum) ↔ SumFits a b := by
  constructor
  · rintro ⟨sum, hSum⟩
    exact (utilTimeAdd_eq.mp hSum).1
  · intro hFits
    obtain ⟨hSec, hUsec, hCarry⟩ := hFits
    have hRest : InLong (a.tvUsec + b.tvUsec - 1000000 * carry a b) := by
      unfold carry
      unfold InLong at hUsec ⊢
      omega
    exact ⟨⟨_, _, hCarry, hRest⟩, utilTimeAdd_eq.mpr ⟨⟨hSec, hUsec, hCarry⟩, rfl, rfl⟩⟩

/-- The sum is the sum of the instants. -/
theorem utilTimeAdd_micros {a b sum : Timeval} (hSum : utilTimeAdd a b = some sum) :
    sum.micros = a.micros + b.micros := by
  obtain ⟨-, hSec, hUsec⟩ := utilTimeAdd_eq.mp hSum
  unfold Timeval.micros
  omega

/-- Adding a positive amount of seconds, or of microseconds alone, does not lead back. -/
theorem utilTimeAdd_not_before {now delta sum : Timeval} (hSum : utilTimeAdd now delta = some sum)
    (hSec : 0 ≤ delta.tvSec) (hPos : 0 < delta.tvSec ∨ 0 < delta.tvUsec) :
    ¬ utilTimeCompare sum now < 0 := by
  obtain ⟨-, hSumSec, hSumUsec⟩ := utilTimeAdd_eq.mp hSum
  rw [utilTimeCompare_neg_iff]
  omega

/-- A sum is defined, normalized and right exactly where nothing overflows and no whole second is
left in `tv_usec`. -/
theorem utilTimeAdd_exact_iff {a b : Timeval} :
    (∃ sum, utilTimeAdd a b = some sum ∧ sum.Normalized ∧ sum.micros = a.micros + b.micros) ↔
      SumExact a b := by
  unfold SumExact Timeval.Normalized
  constructor
  · rintro ⟨sum, hSum, hNorm, -⟩
    obtain ⟨hFits, -, hUsec⟩ := utilTimeAdd_eq.mp hSum
    refine ⟨hFits, ?_⟩
    rw [hUsec] at hNorm
    unfold carry at hNorm
    omega
  · rintro ⟨hFits, hTotal⟩
    obtain ⟨sum, hSum⟩ := utilTimeAdd_isSome_iff.mpr hFits
    obtain ⟨-, -, hUsec⟩ := utilTimeAdd_eq.mp hSum
    refine ⟨sum, hSum, ?_, utilTimeAdd_micros hSum⟩
    rw [hUsec]
    unfold carry
    omega

/-! ## Sums of normalized values -/

section

variable {a b c d : Timeval}

/-- Of normalized values only half a second twice, and its like, is not carried over. -/
theorem sumExact_iff (ha : a.Normalized) (hb : b.Normalized) :
    SumExact a b ↔ a.tvUsec + b.tvUsec ≠ 1000000 ∧ SumFits a b := by
  unfold SumExact
  unfold Timeval.Normalized at ha hb
  constructor
  · rintro ⟨hFits, hTotal⟩
    exact ⟨by omega, hFits⟩
  · rintro ⟨hTotal, hFits⟩
    exact ⟨hFits, by omega⟩

/-- Subtracting what was added leads back, where it may be subtracted. -/
theorem utilTimeSub_add (ha : a.Normalized) (hb : b.Normalized) {sum : Timeval}
    (hSum : utilTimeAdd a b = some sum)
    (hPos : utilTimeCompare b { tvSec := 0, tvUsec := 0 } > 0)
    (hAfter : utilTimeCompare sum b > 0) : utilTimeSub sum b = some a := by
  obtain ⟨-, hSec, hUsec⟩ := utilTimeAdd_eq.mp hSum
  rw [gt_iff_lt, ← Int.not_le, utilTimeCompare_le_iff] at hPos
  simp only at hPos
  have hA := a.secInLong
  have hB := b.secInLong
  have hIn := sum.secInLong
  unfold carry at hSec hUsec
  unfold Timeval.Normalized at ha hb
  unfold InLong at hA hB hIn
  have hDiff : InLong (sum.tvSec - b.tvSec) := by
    unfold InLong
    omega
  have hMillion : InLong (sum.tvUsec + 1000000) := by
    unfold InLong
    omega
  rw [utilTimeSub, if_pos hAfter, if_pos hDiff]
  split_ifs with hLess
  · rw [timeval_eq_some]
    omega
  · rw [timeval_eq_some]
    omega

/-- What two additions and a comparison of their results are to give. -/
structure Exact (a b c d ab cd : Timeval) : Prop where
  normalized : ab.Normalized ∧ cd.Normalized
  sums : ab.micros = a.micros + b.micros ∧ cd.micros = c.micros + d.micros
  before : utilTimeCompare ab cd < 0 ↔ ab.micros < cd.micros
  after : utilTimeCompare ab cd > 0 ↔ ab.micros > cd.micros
  back : utilTimeCompare b { tvSec := 0, tvUsec := 0 } > 0 →
    utilTimeCompare ab b > 0 → utilTimeSub ab b = some a

end

/-- Time arithmetic is defined and exact exactly where no seconds overflow and the microseconds of
no addition add up to one second. -/
theorem util_time_exact_iff {a b c d : Timeval} (ha : a.Normalized) (hb : b.Normalized)
    (hc : c.Normalized) (hd : d.Normalized) :
    (∃ ab cd, utilTimeAdd a b = some ab ∧ utilTimeAdd c d = some cd ∧ Exact a b c d ab cd) ↔
      (a.tvUsec + b.tvUsec ≠ 1000000 ∧ SumFits a b) ∧
        (c.tvUsec + d.tvUsec ≠ 1000000 ∧ SumFits c d) := by
  rw [← sumExact_iff ha hb, ← sumExact_iff hc hd, ← utilTimeAdd_exact_iff, ← utilTimeAdd_exact_iff]
  constructor
  · rintro ⟨ab, cd, hAb, hCd, hExact⟩
    exact ⟨⟨ab, hAb, hExact.normalized.1, hExact.sums.1⟩,
      ⟨cd, hCd, hExact.normalized.2, hExact.sums.2⟩⟩
  · rintro ⟨⟨ab, hAb, hNormAb, hSumAb⟩, cd, hCd, hNormCd, hSumCd⟩
    refine ⟨ab, cd, hAb, hCd, ?_⟩
    exact {
      normalized := ⟨hNormAb, hNormCd⟩
      sums := ⟨hSumAb, hSumCd⟩
      before := utilTimeCompare_lt_iff hNormAb hNormCd
      after := utilTimeCompare_gt_iff hNormAb hNormCd
      back := utilTimeSub_add ha hb hAb }

/-- A carry on one side and none on the other. -/
theorem util_time_exact_carry :
    ∃ ab cd, utilTimeAdd { tvSec := 1, tvUsec := 600000 } { tvSec := 0, tvUsec := 600000 } =
        some ab ∧
      utilTimeAdd { tvSec := 2, tvUsec := 100000 } { tvSec := 0, tvUsec := 100001 } = some cd ∧
      Exact { tvSec := 1, tvUsec := 600000 } { tvSec := 0, tvUsec := 600000 }
        { tvSec := 2, tvUsec := 100000 } { tvSec := 0, tvUsec := 100001 } ab cd :=
  (util_time_exact_iff (by decide) (by decide) (by decide) (by decide)).mpr (by decide)

/-- Half a second twice is left as no seconds and a million microseconds, and compares as before
one second; and one second after the last second there is no time. -/
theorem util_time_half_seconds :
    utilTimeAdd { tvSec := 0, tvUsec := 500000 } { tvSec := 0, tvUsec := 500000 } =
        some { tvSec := 0, tvUsec := 1000000 } ∧
      utilTimeCompare { tvSec := 0, tvUsec := 1000000 } { tvSec := 1, tvUsec := 0 } < 0 ∧
      (¬ ∃ ab cd, utilTimeAdd { tvSec := 0, tvUsec := 500000 } { tvSec := 0, tvUsec := 500000 } =
          some ab ∧
        utilTimeAdd { tvSec := 1, tvUsec := 0 } { tvSec := 0, tvUsec := 0 } = some cd ∧
        Exact { tvSec := 0, tvUsec := 500000 } { tvSec := 0, tvUsec := 500000 }
          { tvSec := 1, tvUsec := 0 } { tvSec := 0, tvUsec := 0 } ab cd) ∧
      utilTimeAdd { tvSec := 9223372036854775807, tvUsec := 0 } { tvSec := 1, tvUsec := 0 } =
        none := by
  have hHalf : utilTimeAdd { tvSec := 0, tvUsec := 500000 } { tvSec := 0, tvUsec := 500000 } =
      some { tvSec := 0, tvUsec := 1000000 } := utilTimeAdd_eq.mpr (by decide)
  refine ⟨hHalf, by decide, ?_, by decide⟩
  rintro ⟨ab, cd, hAb, -, hExact⟩
  rw [hHalf, Option.some.injEq] at hAb
  subst hAb
  exact absurd hExact.normalized.1 (by decide)

end Gbase.Util.UtilTime
