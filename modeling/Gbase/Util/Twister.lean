import Gbase.Lib.Run
import Gbase.Lib.XorShift

/-!
# The random numbers (`util/random.c`)

The generator keeps 624 words in an array and renews all of them in place when they are used up.
What it does is a recurrence on an endless sequence of words, `word`: the array is a window of it,
and a turn of the loops moves one place of the array from one window to the next.  The turn at place
`kk` reads the place behind it, which is still old, and a place 397 further on, which is old in the
first loop and new in the second one; at the last place, the next word is the first one of the new
window.  One lemma for a turn covers the three loops, with the places that it reads as parameters.

The sequence is defined without the code's masks and tables: two words are joined bit by bit, and
the tempering mixes a word with its shifts.  Both steps can be undone, so that as many numbers in a
row as the array has words tell the seed.

## Main results

* `masks_eq`, `tempering_eq`: the masks of the code join words, and its tempering is the one of the
  sequence.
* `Window.turn`, `twistAll_window`: a turn renews one place, and the three loops renew all of them.
* `randGen_eq`: a call gives the next word of the sequence, tempered.
* `rand_run`: so do the calls of every run, from the last seed on.
* `rand_gen_separates`: two seeds whose words agree 624 times in a row are the same.
-/

namespace Gbase.Util.Twister

open Gbase.Lib.Run
open Gbase.Lib.XorShift

/-- `N` -/
def n : Nat := 624

/-- `M` -/
def m : Nat := 397

/-- `UPPER_MASK` -/
def upperMask : BitVec 32 := 0x80000000

/-- `LOWER_MASK` -/
def lowerMask : BitVec 32 := 0x7fffffff

/-- `TEMPERING_MASK_B` -/
def temperingMaskB : BitVec 32 := 0x9d2c5680

/-- `TEMPERING_MASK_C` -/
def temperingMaskC : BitVec 32 := 0xefc60000

/-- `mag01` -/
def mag01 : List (BitVec 32) := [0x0, 0x9908b0df]

/-- `mt` and `mti` -/
structure RandT where
  mt : List (BitVec 32)
  mti : Nat

/-- The variables before the first call. -/
def randInit : RandT := ⟨List.replicate n 0, n + 1⟩

/-- `mt[i] = x` -/
def store (mt : List (BitVec 32)) (i : Nat) (x : BitVec 32) : Option (List (BitVec 32)) :=
  if i < mt.length then some (mt.set i x) else none

/-- One turn of the loop of `rand_seed`. -/
def seedTurn (mt : List (BitVec 32)) (i : Nat) : Option (List (BitVec 32)) := do
  let x ← mt[i]?
  store mt (i + 1) (69069 * x &&& 0xffffffff)

/-- `rand_seed` -/
def randSeed (r : RandT) (seed : BitVec 32) : Option RandT := do
  let mt ← store r.mt 0 seed
  let mt ← (List.range (n - 1)).foldlM seedTurn mt
  return ⟨mt, n⟩

/-- One turn of the loops of `rand_gen`, with the places that it reads. -/
def twistTurn (mt : List (BitVec 32)) (kk next far : Nat) : Option (List (BitVec 32)) := do
  let y := (← mt[kk]?) &&& upperMask ||| (← mt[next]?) &&& lowerMask
  let x ← mag01[(y &&& 0x1).toNat]?
  store mt kk ((← mt[far]?) ^^^ y >>> 1 ^^^ x)

/-- The words of `rand_gen`, renewed. -/
def twistAll (mt : List (BitVec 32)) : Option (List (BitVec 32)) := do
  let mt ← (List.range (n - m)).foldlM (fun mt kk => twistTurn mt kk (kk + 1) (kk + m)) mt
  let mt ← (List.range (m - 1)).foldlM
    (fun mt i => twistTurn mt (n - m + i) (n - m + i + 1) (n - m + i + m - n)) mt
  twistTurn mt (n - 1) 0 (m - 1)

/-- The tempering in `rand_gen`. -/
def tempering (y : BitVec 32) : BitVec 32 :=
  let y := y ^^^ y >>> 11
  let y := y ^^^ y <<< 7 &&& temperingMaskB
  let y := y ^^^ y <<< 15 &&& temperingMaskC
  y ^^^ y >>> 18

/-- The first part of `rand_gen`: where the words are used up, new ones. -/
def renew (r : RandT) : Option RandT :=
  if n ≤ r.mti then do
    let r ← if r.mti = n + 1 then randSeed r 4357 else some r
    return ⟨← twistAll r.mt, 0⟩
  else some r

/-- `rand_gen` -/
def randGen (r : RandT) : Option (BitVec 32 × RandT) := do
  let r ← renew r
  let y ← r.mt[r.mti]?
  return (tempering y, { r with mti := r.mti + 1 })

/-! ## The sequence -/

/-- The highest bit of a word before the other bits of the next one. -/
def joined (a b : BitVec 32) : BitVec 32 := a.extractLsb' 31 1 ++ b.extractLsb' 0 31

/-- What the recurrence makes from the first two words: the joined bits move down by one place, and
a constant is added where a one goes out at the bottom. -/
def twist (a b : BitVec 32) : BitVec 32 :=
  joined a b >>> 1 ^^^ if (joined a b).getLsbD 0 then 0x9908b0df else 0

/-- The words from a seed: a multiplication makes the first 624 of them, and each later one comes
from the two words 624 and 623 places before it and the word 227 places before it. -/
def word (seed : BitVec 32) (i : Nat) : BitVec 32 :=
  if i = 0 then seed
  else if i < 624 then 69069 * word seed (i - 1)
  else word seed (i - 227) ^^^ twist (word seed (i - 624)) (word seed (i - 623))
termination_by i
decreasing_by all_goals omega

/-- How a word of the sequence is given out: mixed with four of its shifts. -/
def tempered : BitVec 32 → BitVec 32 :=
  mixRight 18 ∘ mixLeft 15 0xefc60000 ∘ mixLeft 7 0x9d2c5680 ∘ mixRight 11

theorem getLsbD_joined (a b : BitVec 32) {i : Nat} (hi : i < 32) :
    (joined a b).getLsbD i = if i = 31 then a.getLsbD i else b.getLsbD i := by
  show (a.extractLsb' 31 1 ++ b.extractLsb' 0 31).getLsbD i = _
  rw [BitVec.getLsbD_append, BitVec.getLsbD_extractLsb', BitVec.getLsbD_extractLsb']
  by_cases hTop : i = 31
  · subst hTop
    simp
  · simp [hTop, show i < 31 by omega]

private theorem upperMask_bit : ∀ i, i < 32 → upperMask.getLsbD i = decide (i = 31) := by decide

private theorem lowerMask_bit : ∀ i, i < 32 → lowerMask.getLsbD i = decide (i < 31) := by decide

/-- The masks join the bits of two words. -/
theorem masks_eq (a b : BitVec 32) : a &&& upperMask ||| b &&& lowerMask = joined a b := by
  refine BitVec.eq_of_getLsbD_eq fun i hi => ?_
  rw [getLsbD_joined a b hi, BitVec.getLsbD_or, BitVec.getLsbD_and, BitVec.getLsbD_and,
    upperMask_bit i hi, lowerMask_bit i hi]
  by_cases hTop : i = 31
  · simp [hTop]
  · simp [hTop, show i < 31 by omega]

theorem tempering_eq (y : BitVec 32) : tempering y = tempered y := rfl

theorem word_zero (seed : BitVec 32) : word seed 0 = seed := by
  rw [word, if_pos rfl]

theorem word_succ (seed : BitVec 32) {i : Nat} (hi : i + 1 < n) :
    word seed (i + 1) = 69069 * word seed i := by
  rw [word, if_neg (Nat.succ_ne_zero i), if_pos (show i + 1 < 624 from hi), Nat.add_sub_cancel]

theorem word_add (seed : BitVec 32) (i : Nat) :
    word seed (i + n) = word seed (i + m) ^^^ twist (word seed i) (word seed (i + 1)) := by
  show word seed (i + 624) = word seed (i + 397) ^^^ _
  rw [word, if_neg (by omega), if_neg (by omega), show i + 624 - 227 = i + 397 by omega,
    show i + 624 - 624 = i by omega, show i + 624 - 623 = i + 1 by omega]

/-! ## The array as a window -/

/-- The places before `kk` hold the window of the words from `base + n` on, the others the one
before it. -/
structure Window (seed : BitVec 32) (base kk : Nat) (mt : List (BitVec 32)) : Prop where
  length : mt.length = n
  new : ∀ j, j < kk → mt[j]? = some (word seed (base + j + n))
  old : ∀ j, kk ≤ j → j < n → mt[j]? = some (word seed (base + j))

section
variable {seed : BitVec 32} {base kk : Nat} {mt : List (BitVec 32)}

theorem store_eq {i : Nat} (hi : i < mt.length) (x : BitVec 32) :
    store mt i x = some (mt.set i x) := if_pos hi

theorem mag01_eq (y : BitVec 32) :
    mag01[(y &&& 0x1).toNat]? = some (if y.getLsbD 0 then 0x9908b0df else 0) := by
  have hBit : (y &&& 0x1).toNat = (y.getLsbD 0).toNat := by
    rw [BitVec.toNat_and]
    show y.toNat &&& 1 = _
    rw [Nat.and_one_is_mod, BitVec.getLsbD, Nat.testBit_zero]
    have := Nat.mod_two_eq_zero_or_one y.toNat
    rcases this with h | h <;> simp [h]
  rw [hBit]
  cases y.getLsbD 0 <;> rfl

/-- A turn renews one place, whatever places the next word and the far word are in. -/
theorem Window.turn (h : Window seed base kk mt) (hkk : kk < n) {next far : Nat}
    (hNext : mt[next]? = some (word seed (base + kk + 1)))
    (hFar : mt[far]? = some (word seed (base + kk + m))) :
    ∃ mt', twistTurn mt kk next far = some mt' ∧ Window seed base (kk + 1) mt' := by
  have hHere := h.old kk (Nat.le_refl kk) hkk
  have hIn : kk < mt.length := by
    rw [h.length]
    exact hkk
  refine ⟨mt.set kk (word seed (base + kk + n)), ?_, by rw [List.length_set, h.length], ?_, ?_⟩
  · rw [twistTurn, word_add]
    simp only [hHere, hNext, hFar, Option.bind_eq_bind, Option.bind_some, mag01_eq,
      store_eq hIn, masks_eq, twist, BitVec.xor_assoc]
  · intro j hj
    by_cases hSame : kk = j
    · subst hSame
      rw [List.getElem?_set_self hIn]
    · rw [List.getElem?_set_ne hSame, h.new j (by omega)]
  · intro j hj hjn
    rw [List.getElem?_set_ne (by omega), h.old j (by omega) hjn]

/-- The three loops renew all places. -/
theorem twistAll_window (h : Window seed base 0 mt) :
    ∃ mt', twistAll mt = some mt' ∧ Window seed (base + n) 0 mt' := by
  obtain ⟨mt1, hFirst, h1⟩ := foldlM_range (s := mt) (n := n - m)
    (f := fun mt kk => twistTurn mt kk (kk + 1) (kk + m)) (Window seed base) h
    fun kk mt hkk h => by
      simp only [n, m] at hkk
      refine h.turn (by simp only [n]; omega) ?_ ?_
      · exact h.old (kk + 1) (by omega) (by simp only [n]; omega)
      · rw [Nat.add_assoc]
        exact h.old (kk + m) (by omega) (by simp only [n, m]; omega)
  obtain ⟨mt2, hSecond, h2⟩ := foldlM_range (s := mt1) (n := m - 1)
    (f := fun mt i => twistTurn mt (n - m + i) (n - m + i + 1) (n - m + i + m - n))
    (fun i => Window seed base (n - m + i)) h1 fun i mt hi h => by
      simp only [m] at hi
      refine h.turn (by simp only [n, m]; omega) ?_ ?_
      · exact h.old (n - m + i + 1) (by omega) (by simp only [n, m]; omega)
      · have hFar : base + (n - m + i) + m = base + (n - m + i + m - n) + n := by
          simp only [n, m]
          omega
        rw [hFar]
        exact h.new _ (by simp only [n, m]; omega)
  have hLast : n - m + (m - 1) = n - 1 := rfl
  rw [hLast] at h2
  have hNext : base + (n - 1) + 1 = base + 0 + n := by simp only [n]
  have hFar : base + (n - 1) + m = base + (m - 1) + n := by simp only [n, m]
  obtain ⟨mt3, hThird, h3⟩ := @Window.turn _ _ _ _ h2 (by decide) 0 (m - 1)
    (by rw [hNext]; exact h2.new 0 (by decide)) (by rw [hFar]; exact h2.new (m - 1) (by decide))
  refine ⟨mt3, ?_, h3.length, fun j hj => absurd hj (Nat.not_lt_zero j), fun j _ hj => ?_⟩
  · rw [twistAll, hFirst]
    simp only [Option.bind_eq_bind, Option.bind_some, hSecond, hThird]
  · rw [show base + n + j = base + j + n by omega]
    exact h3.new j (by simp only [n] at *; omega)

/-- `rand_seed` fills the first window. -/
theorem randSeed_window (r : RandT) (hr : r.mt.length = n) (seed : BitVec 32) :
    ∃ mt, randSeed r seed = some ⟨mt, n⟩ ∧ Window seed 0 0 mt := by
  have hStart : 0 < r.mt.length := by
    rw [hr]
    decide
  obtain ⟨mt, hLoop, hLength, hWords⟩ := foldlM_range (s := r.mt.set 0 seed) (n := n - 1)
    (f := seedTurn) (fun i mt => mt.length = n ∧ ∀ j, j ≤ i → mt[j]? = some (word seed j))
    ⟨by rw [List.length_set, hr], fun j hj => by
      rw [Nat.le_zero.mp hj, List.getElem?_set_self hStart, word_zero]⟩
    fun i mt hi h => by
      have hi' : i + 1 < n := by
        simp only [n] at *
        omega
      have hIn : i + 1 < mt.length := by
        rw [h.1]
        exact hi'
      refine ⟨mt.set (i + 1) (word seed (i + 1)), ?_, by rw [List.length_set, h.1], ?_⟩
      · have hAll : 69069 * word seed i &&& 0xffffffff = 69069 * word seed i :=
          BitVec.and_allOnes
        simp only [seedTurn, h.2 i (Nat.le_refl i), Option.bind_eq_bind, Option.bind_some, hAll,
          store_eq hIn, word_succ seed hi']
      · intro j hj
        rcases Nat.le_succ_iff.mp hj with hLe | rfl
        · rw [List.getElem?_set_ne (by omega), h.2 j hLe]
        · rw [List.getElem?_set_self hIn]
  refine ⟨mt, ?_, hLength, fun j hj => absurd hj (Nat.not_lt_zero j), fun j _ hj => ?_⟩
  · rw [randSeed, store_eq hStart]
    simp only [Option.bind_eq_bind, Option.bind_some, hLoop, Option.pure_def]
  · rw [Nat.zero_add]
    exact hWords j (by simp only [n] at *; omega)

end

/-! ## Runs -/

/-- A call. -/
inductive RandOp where
  | seed (seed : BitVec 32)
  | gen

/-- What a call does and returns. -/
def randStep : Step RandT RandOp (Option (BitVec 32))
  | r, .seed seed => (randSeed r seed).map fun r => (none, r)
  | r, .gen => (randGen r).map fun (y, r) => (some y, r)

/-- The results of calls, from the last seed and the number of words that were drawn since. -/
def expected : BitVec 32 → Nat → List RandOp → List (Option (BitVec 32))
  | _, _, [] => []
  | _, _, .seed seed :: ops => none :: expected seed 0 ops
  | seed, k, .gen :: ops => some (tempered (word seed (n + k))) :: expected seed (k + 1) ops

/-- So many words were drawn since the seed, or there was no seed and no word. -/
def Drawn (seed : BitVec 32) (k : Nat) (r : RandT) : Prop :=
  (∃ base, Window seed base 0 r.mt ∧ r.mti ≤ n ∧ base + r.mti = n + k) ∨
    seed = 4357 ∧ k = 0 ∧ r.mt.length = n ∧ r.mti = n + 1

section
variable {seed : BitVec 32} {k : Nat} {r : RandT}

theorem Drawn.length (h : Drawn seed k r) : r.mt.length = n := by
  rcases h with ⟨base, hWindow, -⟩ | ⟨-, -, hLength, -⟩
  · exact hWindow.length
  · exact hLength

private theorem randSeed_drawn (hr : r.mt.length = n) (seed : BitVec 32) :
    ∃ r', randSeed r seed = some r' ∧ r'.mti = n ∧ Drawn seed 0 r' := by
  obtain ⟨mt, hSeed, hWindow⟩ := randSeed_window r hr seed
  exact ⟨_, hSeed, rfl, Or.inl ⟨0, hWindow, Nat.le_refl n, Nat.zero_add n⟩⟩

/-- Words that are used up are renewed, and before the first word there is a seed. -/
theorem renew_drawn (h : Drawn seed k r) :
    ∃ r' base, renew r = some r' ∧ Window seed base 0 r'.mt ∧ r'.mti < n ∧
      base + r'.mti = n + k := by
  have hSeeded : ∀ base mt, Window seed base 0 mt → base + n = n + k →
      ∃ mt', twistAll mt = some mt' ∧ Window seed (n + k) 0 mt' := by
    intro base mt hWindow hCount
    rw [← hCount]
    exact twistAll_window hWindow
  rcases h with ⟨base, hWindow, hLe, hCount⟩ | ⟨rfl, rfl, hLength, hFresh⟩
  · by_cases hUsed : n ≤ r.mti
    · have hEnd : r.mti = n := Nat.le_antisymm hLe hUsed
      obtain ⟨mt', hTwist, hNew⟩ := hSeeded base r.mt hWindow (by omega)
      refine ⟨⟨mt', 0⟩, n + k, ?_, hNew, show 0 < n by decide, rfl⟩
      rw [renew, if_pos hUsed, if_neg (by omega)]
      simp only [Option.bind_eq_bind, Option.bind_some, hTwist, Option.pure_def]
    · exact ⟨r, base, by rw [renew, if_neg hUsed], hWindow, by omega, hCount⟩
  · obtain ⟨mt, hSeed, hWindow⟩ := randSeed_window r hLength 4357
    obtain ⟨mt', hTwist, hNew⟩ := hSeeded 0 mt hWindow (Nat.zero_add n)
    refine ⟨⟨mt', 0⟩, n, ?_, hNew, show 0 < n by decide, rfl⟩
    rw [renew, if_pos (by omega), if_pos hFresh]
    simp only [Option.bind_eq_bind, hSeed, Option.bind_some, hTwist, Option.pure_def]

/-- A call gives the next word of the sequence, tempered. -/
theorem randGen_eq (h : Drawn seed k r) :
    ∃ r', randGen r = some (tempered (word seed (n + k)), r') ∧ Drawn seed (k + 1) r' := by
  obtain ⟨r', base, hRenew, hWindow, hLt, hCount⟩ := renew_drawn h
  refine ⟨{ r' with mti := r'.mti + 1 }, ?_, Or.inl ⟨base, hWindow, hLt, ?_⟩⟩
  · rw [randGen, hRenew]
    simp only [Option.bind_eq_bind, Option.bind_some, hWindow.old r'.mti (Nat.zero_le _) hLt,
      Option.pure_def, hCount, tempering_eq]
  · show base + (r'.mti + 1) = n + (k + 1)
    omega

theorem randStep_run (h : Drawn seed k r) (ops : List RandOp) :
    ∃ r', run randStep r ops = some (expected seed k ops, r') := by
  induction ops generalizing seed k r with
  | nil => exact ⟨r, rfl⟩
  | cons op ops ih =>
      cases op with
      | seed seed' =>
          obtain ⟨r', hSeed, -, hDrawn⟩ := randSeed_drawn h.length seed'
          obtain ⟨last, hRun⟩ := ih hDrawn
          exact ⟨last, run_cons (by rw [randStep, hSeed, Option.map_some]) hRun⟩
      | gen =>
          obtain ⟨r', hGen, hDrawn⟩ := randGen_eq h
          obtain ⟨last, hRun⟩ := ih hDrawn
          exact ⟨last, run_cons (by rw [randStep, hGen, Option.map_some]) hRun⟩

theorem randInit_drawn : Drawn 4357 0 randInit :=
  Or.inr ⟨rfl, rfl, List.length_replicate, rfl⟩

end

/-- In every run of seeds and draws, a draw gives the next word from the last seed, and from 4357
where there was none. -/
theorem rand_run (ops : List RandOp) :
    ∃ r, run randStep randInit ops = some (expected 4357 0 ops, r) :=
  randStep_run randInit_drawn ops

/-! ## Back to the seed -/

/-- The tempering loses nothing. -/
theorem tempered_injective : Function.Injective tempered :=
  (mixRight_injective (by decide)).comp ((mixLeft_injective (by decide) _).comp
    ((mixLeft_injective (by decide) _).comp (mixRight_injective (by decide))))

/-- What is shifted in at the top tells the lowest bit, so nothing is lost. -/
theorem twist_inj {a b a' b' : BitVec 32} (h : twist a b = twist a' b') :
    a.getLsbD 31 = a'.getLsbD 31 ∧ ∀ i, i < 31 → b.getLsbD i = b'.getLsbD i := by
  have hInj : ∀ y z : BitVec 32,
      (y >>> 1 ^^^ if y.getLsbD 0 then (0x9908b0df : BitVec 32) else 0) =
        (z >>> 1 ^^^ if z.getLsbD 0 then 0x9908b0df else 0) → y = z := by
    intro y z hyz
    have hLast : ∀ y : BitVec 32,
        (y >>> 1 ^^^ if y.getLsbD 0 then (0x9908b0df : BitVec 32) else 0).getLsbD 31 =
          y.getLsbD 0 := by
      intro y
      rw [BitVec.getLsbD_xor, BitVec.getLsbD_ushiftRight,
        BitVec.getLsbD_of_ge y (1 + 31) (by omega)]
      cases y.getLsbD 0 <;> rfl
    have hZero : y.getLsbD 0 = z.getLsbD 0 := by
      rw [← hLast y, ← hLast z, hyz]
    rw [hZero] at hyz
    have hShift : y >>> 1 = z >>> 1 := (BitVec.xor_left_inj _).mp hyz
    refine BitVec.eq_of_getLsbD_eq fun i hi => ?_
    cases i with
    | zero => exact hZero
    | succ i =>
        have hNext := congrArg (fun x => BitVec.getLsbD x i) hShift
        simp only [BitVec.getLsbD_ushiftRight] at hNext
        rwa [Nat.add_comm] at hNext
  have hSame := hInj _ _ h
  constructor
  · have hTop := congrArg (fun x => BitVec.getLsbD x 31) hSame
    simp only [getLsbD_joined _ _ (show 31 < 32 by decide)] at hTop
    exact hTop
  · intro i hi
    have hLow := congrArg (fun x => BitVec.getLsbD x i) hSame
    simp only [getLsbD_joined _ _ (show i < 32 by omega), if_neg (show ¬ i = 31 by omega)] at hLow
    exact hLow

/-- Two sequences agree in all bits that the later words depend on, from place `k` on. -/
def Alike (s s' : BitVec 32) (k : Nat) : Prop :=
  (word s k).getLsbD 31 = (word s' k).getLsbD 31 ∧
    ∀ j, 0 < j → j < n → word s (k + j) = word s' (k + j)

/-- Then they do so one place before. -/
theorem Alike.back {s s' : BitVec 32} {k : Nat} (h : Alike s s' (k + 1)) : Alike s s' k := by
  obtain ⟨hTop, hWords⟩ := h
  have hLast : word s (k + n) = word s' (k + n) := by
    have := hWords (n - 1) (by decide) (by decide)
    rwa [show k + 1 + (n - 1) = k + n by simp only [n]] at this
  have hFar : word s (k + m) = word s' (k + m) := by
    have := hWords (m - 1) (by decide) (by decide)
    rwa [show k + 1 + (m - 1) = k + m by simp only [m]] at this
  rw [word_add, word_add, hFar] at hLast
  obtain ⟨hUpper, hLower⟩ := twist_inj ((BitVec.xor_right_inj _).mp hLast)
  refine ⟨hUpper, fun j hj hjn => ?_⟩
  by_cases hOne : j = 1
  · subst hOne
    refine BitVec.eq_of_getLsbD_eq fun i hi => ?_
    by_cases hHigh : i = 31
    · subst hHigh
      exact hTop
    · exact hLower i (by omega)
  · have := hWords (j - 1) (by omega) (by omega)
    rwa [show k + 1 + (j - 1) = k + j by omega] at this

theorem Alike.seed {s s' : BitVec 32} {k : Nat} (h : Alike s s' k) : s = s' := by
  induction k with
  | zero =>
      have hOne := h.2 1 (by decide) (by decide)
      rw [Nat.zero_add, ← Nat.zero_add 1, word_succ s (by decide), word_succ s' (by decide),
        word_zero, word_zero] at hOne
      have hInverse : (0xa5e2a705 : BitVec 32) * 69069 = 1#32 := by decide
      calc s = 0xa5e2a705 * 69069 * s := by rw [hInverse, BitVec.one_mul]
        _ = 0xa5e2a705 * 69069 * s' := by rw [BitVec.mul_assoc, hOne, ← BitVec.mul_assoc]
        _ = s' := by rw [hInverse, BitVec.one_mul]
  | succ k ih => exact ih h.back

private theorem expected_gens (seed : BitVec 32) (k count : Nat) :
    expected seed k (List.replicate count .gen) =
      (List.range count).map fun i => some (tempered (word seed (n + (k + i)))) := by
  induction count generalizing k with
  | zero => rfl
  | succ count ih =>
      rw [List.replicate_succ, expected, ih, List.range_succ_eq_map, List.map_cons, List.map_map]
      congr 1
      apply List.map_congr_left
      intro i _
      show _ = some (tempered (word seed (n + (k + (i + 1)))))
      rw [Nat.add_assoc k 1 i, Nat.add_comm 1 i]

/-- The words that are drawn from some place on, as many as the array has, tell the seed. -/
theorem rand_gen_separates (s s' : BitVec 32) (k : Nat) :
    (run randStep randInit (.seed s :: List.replicate (k + n) .gen)).map (·.1.drop (k + 1)) =
        (run randStep randInit (.seed s' :: List.replicate (k + n) .gen)).map (·.1.drop (k + 1)) ↔
      s = s' := by
  constructor
  · intro h
    obtain ⟨r, hRun⟩ := randStep_run randInit_drawn (.seed s :: List.replicate (k + n) .gen)
    obtain ⟨r', hRun'⟩ := randStep_run randInit_drawn (.seed s' :: List.replicate (k + n) .gen)
    rw [hRun, hRun', Option.map_some, Option.map_some, Option.some.injEq] at h
    simp only [expected, expected_gens, List.drop_succ_cons] at h
    have hWords : ∀ j, j < n → word s (n + k + j) = word s' (n + k + j) := by
      intro j hj
      have hEach := congrArg (fun out => out[j]?) h
      simp only [List.getElem?_drop, List.getElem?_map,
        List.getElem?_range (show k + j < k + n by omega), Option.map_some, Option.some.injEq,
        Nat.zero_add] at hEach
      rw [Nat.add_assoc]
      exact tempered_injective hEach
    exact Alike.seed ⟨congrArg (fun x => BitVec.getLsbD x 31) (hWords 0 (by decide)),
      fun j _ hj => hWords j hj⟩
  · rintro rfl
    rfl

end Gbase.Util.Twister
