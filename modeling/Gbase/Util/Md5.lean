import Gbase.Lib.CString
import Gbase.Lib.Digest
import Gbase.Lib.Run
import Gbase.Lib.Sines
import Gbase.Lib.WordBits

/-!
# The digest MD5 (`util/md5.c`)

The machine is little-endian, as MD5 is.  A pointer into the message is the bytes from there on, and
reading behind the end of an array or storing there is undefined, `none`.

The registers stay in an array, and `md5_core` gets the place of the one to change; the standard
moves all four of them on in each step.  The standard is stated apart from the code: its functions
are truth tables, its rotations move bits, and its constants are the sines of the numbers of the
steps, which makes it no program.

The bits of the last byte behind the message have to be zero (`Clean`), since the code sets the bit
behind the message and clears none.

## Main results

* `md5T_eq`: the table of the code is the table of sines.
* `md5NextBlock_eq`: after sixty-four steps both have the same registers in the same places.
* `md5_digest`: `md5` gives the digest of every message.
* `md5_stream`: so do the calls for its blocks and its rest, with the length modulo `2^32`.
-/

namespace Gbase.Util.Md5

open Gbase.Lib
open Gbase.Lib.Bytes
open Gbase.Lib.CString
open Gbase.Lib.Digest
open Gbase.Lib.Run

/-- Four words. -/
structure Registers where
  a : UInt32
  b : UInt32
  c : UInt32
  d : UInt32
  deriving DecidableEq, Repr

/-- Four words as an array. -/
def Registers.words (r : Registers) : List UInt32 := [r.a, r.b, r.c, r.d]

/-- `md5_ctx_t` -/
structure Md5CtxT where
  a : Registers
  counter : UInt32
  deriving DecidableEq, Repr

/-- `md5_T` -/
def md5T : List UInt32 :=
  [0xd76aa478, 0xe8c7b756, 0x242070db, 0xc1bdceee, 0xf57c0faf, 0x4787c62a, 0xa8304613,
   0xfd469501, 0x698098d8, 0x8b44f7af, 0xffff5bb1, 0x895cd7be, 0x6b901122, 0xfd987193,
   0xa679438e, 0x49b40821, 0xf61e2562, 0xc040b340, 0x265e5a51, 0xe9b6c7aa, 0xd62f105d,
   0x02441453, 0xd8a1e681, 0xe7d3fbc8, 0x21e1cde6, 0xc33707d6, 0xf4d50d87, 0x455a14ed,
   0xa9e3e905, 0xfcefa3f8, 0x676f02d9, 0x8d2a4c8a, 0xfffa3942, 0x8771f681, 0x6d9d6122,
   0xfde5380c, 0xa4beea44, 0x4bdecfa9, 0xf6bb4b60, 0xbebfbc70, 0x289b7ec6, 0xeaa127fa,
   0xd4ef3085, 0x04881d05, 0xd9d4d039, 0xe6db99e5, 0x1fa27cf8, 0xc4ac5665, 0xf4292244,
   0x432aff97, 0xab9423a7, 0xfc93a039, 0x655b59c3, 0x8f0ccc92, 0xffeff47d, 0x85845dd1,
   0x6fa87e4f, 0xfe2ce6e0, 0xa3014314, 0x4e0811a1, 0xf7537e82, 0xbd3af235, 0x2ad7d2bb,
   0xeb86d391]

/-- `md5_init` -/
def md5Init : Md5CtxT where
  counter := 0
  a := ⟨0x67452301, 0xefcdab89, 0x98badcfe, 0x10325476⟩

/-- `md5_F` -/
def md5F (x y z : UInt32) : UInt32 := x &&& y ||| ~~~x &&& z

/-- `md5_G` -/
def md5G (x y z : UInt32) : UInt32 := x &&& z ||| ~~~z &&& y

/-- `md5_H` -/
def md5H (x y z : UInt32) : UInt32 := x ^^^ y ^^^ z

/-- `md5_I` -/
def md5I (x y z : UInt32) : UInt32 := y ^^^ (x ||| ~~~z)

/-- `funcs` -/
def funcs : List (UInt32 → UInt32 → UInt32 → UInt32) := [md5F, md5G, md5H, md5I]

/-- `ROTL32` -/
def rotl32 (x n : UInt32) : UInt32 := x <<< n ||| x >>> (32 - n)

/-- `md5_core`; `k` is the place in the block of the word that `block` points to. -/
def md5Core (a : List UInt32) (block : List UInt8) (k place : Nat) (s : UInt32) (i fi : Nat) :
    Option (List UInt32) := do
  let place := place &&& 3
  let f ← funcs[fi]?
  let x ← loadWord block k
  let constant ← md5T[i]?
  let t := (← a[place]?) + f (← a[(place + 1) &&& 3]?) (← a[(place + 2) &&& 3]?)
    (← a[(place + 3) &&& 3]?) + x + constant
  return a.set place ((← a[(place + 1) &&& 3]?) + rotl32 t s)

/-- `s1t` -/
def s1t : List UInt32 := [7, 12, 17, 22]

/-- `s2t` -/
def s2t : List UInt32 := [5, 9, 14, 20]

/-- `s3t` -/
def s3t : List UInt32 := [4, 11, 16, 23]

/-- `s4t` -/
def s4t : List UInt32 := [6, 10, 15, 21]

/-- `x & 0xf` -/
def low (x : Int) : Nat := (x % 16).toNat

/-- A round: two loops of four turns; `index` is the place of the word of a turn, and the state is
`a` with the counter `i`. -/
def round (block : List UInt8) (index : Nat → Nat → Nat) (shifts : List UInt32) (fi : Nat)
    (state : List UInt32 × Nat) : Option (List UInt32 × Nat) :=
  (List.range 4).foldlM (fun state m =>
    (List.range 4).foldlM (fun (state : List UInt32 × Nat) n => do
      let a ← md5Core state.1 block (index m n) (4 - n) (← shifts[n]?) state.2 fi
      return (a, state.2 + 1)) state) state

/-- The place of a word in round 1. -/
def index1 (m n : Nat) : Nat := m * 4 + n

/-- The place of a word in round 2. -/
def index2 (m n : Nat) : Nat := low (1 + m * 4 + n * 5)

/-- The place of a word in round 3. -/
def index3 (m n : Nat) : Nat := low (5 - m * 4 + n * 3)

/-- The place of a word in round 4. -/
def index4 (m n : Nat) : Nat := low (0 - m * 4 + n * 7)

/-- `md5_nextBlock` -/
def md5NextBlock (state : Md5CtxT) (block : List UInt8) : Option Md5CtxT := do
  let r ← round block index1 s1t 0 (state.a.words, 0)
  let r ← round block index2 s2t 1 r
  let r ← round block index3 s3t 2 r
  let (a, _) ← round block index4 s4t 3 r
  return ⟨⟨state.a.a + (← a[0]?), state.a.b + (← a[1]?), state.a.c + (← a[2]?),
    state.a.d + (← a[3]?)⟩, state.counter + 1⟩

/-- The byte with the padding one, in `md5_lastBlock`. -/
def paddingByte (block : List UInt8) (length : Nat) : Option UInt8 :=
  if length % 8 ≠ 0 then do return (← block[length / 8]?) ||| 0x80 >>> UInt8.ofNat (length % 8)
  else some 0x80

/-- The length as `md5_lastBlock` stores it. -/
def lengthField (counter : UInt32) (length : Nat) : List UInt8 :=
  leBytes 8 (counter * 512 + UInt32.ofNat length).toNat

/-- `md5_lastBlock` -/
def md5LastBlock (state : Md5CtxT) (block : List UInt8) (length : UInt16) : Option Md5CtxT := do
  let (state, block, length) ← wholeBlocks md5NextBlock state block length.toNat
  let l := length / 8
  if block.length < l then none
  else
    let b := block.take l ++ List.replicate (64 - l) 0
    let b := b.set l (← paddingByte block length)
    let (state, b) ←
      if l + 8 ≥ 512 / 8 then do
        let state ← md5NextBlock state b
        pure ({ state with counter := state.counter - 1 }, List.replicate 56 0 ++ b.drop 56)
      else pure (state, b)
    md5NextBlock state (b.take 56 ++ lengthField state.counter length)

/-- `md5_ctx2hash` -/
def md5Ctx2hash (state : Md5CtxT) : List UInt8 :=
  state.a.words.flatMap fun x => leBytes 4 x.toNat

/-- `md5` -/
def md5 (msg : List UInt8) (length : UInt32) : Option (List UInt8) := do
  let (ctx, msg, length) ← wholeBlocks md5NextBlock md5Init msg length.toNat
  let ctx ← md5LastBlock ctx msg (UInt16.ofNat length)
  return md5Ctx2hash ctx

/-! ## The standard -/

/-- The function of a step: one word chooses between the other two, then the number of ones counts,
and at last a one of the second word is turned over where the first one or not the third one has
one. -/
def stepFunction (i : Nat) : UInt32 → UInt32 → UInt32 → UInt32 :=
  if i < 16 then WordBits.choice
  else if i < 32 then fun x y z => WordBits.choice z x y
  else if i < 48 then WordBits.parity
  else fun x y z => WordBits.ofBits fun j =>
    WordBits.bit y j ^^ (WordBits.bit x j || !WordBits.bit z j)

/-- The word of a step. -/
def stepWord (i : Nat) : Nat :=
  if i < 16 then i else if i < 32 then (5 * i + 1) % 16 else if i < 48 then (3 * i + 5) % 16
  else 7 * i % 16

/-- The rotation of a step: four for each round, one after the other. -/
def stepShift (i : Nat) : Nat :=
  (if i < 16 then [7, 12, 17, 22] else if i < 32 then [5, 9, 14, 20]
    else if i < 48 then [4, 11, 16, 23] else [6, 10, 15, 21]).getD (i % 4) 0

/-- The constant of a step: the first 32 bits of the sine of its number, counted from one. -/
noncomputable def stepConstant (i : Nat) : UInt32 :=
  UInt32.ofNat ⌊((2 ^ 32 : Nat) : ℝ) * |Real.sin (i + 1 : Nat)|⌋₊

/-- A step, which moves all registers on. -/
noncomputable def step (block : List UInt8) (i : Nat) (r : Registers) : Registers :=
  ⟨r.d,
    r.b + WordBits.rotate (stepShift i)
      (r.a + stepFunction i r.b r.c r.d + leWord block (stepWord i) + stepConstant i),
    r.b, r.c⟩

/-- The first steps with a block. -/
noncomputable def steps (block : List UInt8) (r : Registers) : Nat → Registers
  | 0 => r
  | i + 1 => step block i (steps block r i)

/-- What a block does to the registers. -/
noncomputable def compress (r : Registers) (block : List UInt8) : Registers :=
  let last := steps block r 64
  ⟨r.a + last.a, r.b + last.b, r.c + last.c, r.d + last.d⟩

/-- MD5, as the standard has it. -/
noncomputable def standard : Iterated Registers where
  start := ⟨0x67452301, 0xefcdab89, 0x98badcfe, 0x10325476⟩
  compress := compress
  field := leBytes 8
  length_field := length_leBytes 8

/-- The bytes of a digest. -/
def hashBytes (r : Registers) : List UInt8 := r.words.flatMap fun x => leBytes 4 x.toNat

/-! ## The functions and the tables -/

/-- The functions of the code compute those of the standard. -/
theorem funcs_eq {fi j : Nat} (hfi : fi < 4) (hj : j < 16) :
    funcs[fi]? = some (stepFunction (16 * fi + j)) := by
  have hCases : fi = 0 ∨ fi = 1 ∨ fi = 2 ∨ fi = 3 := by omega
  rw [stepFunction]
  rcases hCases with rfl | rfl | rfl | rfl
  · rw [if_pos (by omega)]
    show some md5F = _
    congr 1
    funext x y z
    exact WordBits.choice_eq_or
  · rw [if_neg (by omega), if_pos (by omega)]
    show some md5G = _
    congr 1
    funext x y z
    rw [md5G, UInt32.and_comm x z]
    exact WordBits.choice_eq_or
  · rw [if_neg (by omega), if_neg (by omega), if_pos (by omega)]
    show some md5H = _
    congr 1
    funext x y z
    exact WordBits.parity_eq
  · rw [if_neg (by omega), if_neg (by omega), if_neg (by omega)]
    show some md5I = _
    congr 1
    funext x y z
    refine WordBits.eq_ofBits fun i hi => ?_
    rw [md5I, WordBits.bit_xor, WordBits.bit_or, WordBits.bit_not hi]

theorem rotl32_eq (x : UInt32) {k : Nat} (hk : 0 < k ∧ k < 32) :
    rotl32 x (UInt32.ofNat k) = WordBits.rotate k x := WordBits.rotate_eq hk

private theorem stepShift_lt : ∀ i, i < 64 → 0 < stepShift i ∧ stepShift i < 32 := by decide

/-- Entry `i` of the table is between the bounds that forty terms of the exponential series give for
the sine of `i + 1`. -/
theorem md5T_bounds : ∀ i, i < 64 →
    ((md5T.getD i 0).toNat * Nat.factorial 41 + 2 ^ 32 * 2 ^ (i + 1) * 2) *
        Nat.factorial 40 ^ (i + 1) ≤
      2 ^ 32 * (Sines.power (Sines.series 40) (i + 1)).2.natAbs * Nat.factorial 41 ∧
    2 ^ 32 * (Sines.power (Sines.series 40) (i + 1)).2.natAbs * Nat.factorial 41 +
        2 ^ 32 * 2 ^ (i + 1) * 2 * Nat.factorial 40 ^ (i + 1) <
      ((md5T.getD i 0).toNat + 1) * Nat.factorial 41 * Nat.factorial 40 ^ (i + 1) := by
  decide +kernel

/-- `md5_T` is the table of sines. -/
theorem md5T_eq {i : Nat} (hi : i < 64) : md5T[i]? = some (stepConstant i) := by
  obtain ⟨hLow, hHigh⟩ := md5T_bounds i hi
  have hFloor : ⌊((2 ^ 32 : Nat) : ℝ) * |Real.sin (i + 1 : Nat)|⌋₊ = (md5T.getD i 0).toNat :=
    Sines.floor_sin_eq (show 1 ≤ 40 by decide) hLow hHigh
  rw [stepConstant, hFloor, UInt32.ofNat_toNat,
    List.getD_eq_getElem _ _ (show i < md5T.length from hi), List.getElem?_eq_getElem]

/-! ## One block -/

/-- Before step `i`, the registers lie in the array from the place of the next one to change on. -/
structure Rotated (i : Nat) (r : Registers) (w : List UInt32) : Prop where
  length : w.length = 4
  a : w[(4 - i % 4) % 4]? = some r.a
  b : w[(5 - i % 4) % 4]? = some r.b
  c : w[(6 - i % 4) % 4]? = some r.c
  d : w[(7 - i % 4) % 4]? = some r.d

section
variable {block : List UInt8} {i : Nat}

private theorem rotated_words (r : Registers) : Rotated 0 r r.words := ⟨rfl, rfl, rfl, rfl, rfl⟩

/-- After a multiple of four steps the registers are in order. -/
theorem Rotated.eq_words {r : Registers} {w : List UInt32} (h : Rotated 64 r w) : w = r.words := by
  obtain ⟨hLength, ha, hb, hc, hd⟩ := h
  rcases w with _ | ⟨w0, _ | ⟨w1, _ | ⟨w2, _ | ⟨w3, _ | ⟨w4, rest⟩⟩⟩⟩⟩
  case cons.cons.cons.cons.nil =>
    cases ha
    cases hb
    cases hc
    cases hd
    rfl
  all_goals
    simp only [List.length_cons, List.length_nil] at hLength
    omega

/-- `md5_core` does the step to the array. -/
theorem Rotated.core {r : Registers} {w : List UInt32} (hw : Rotated i r w) (hi : i < 64)
    {fi k n : Nat} (hf : funcs[fi]? = some (stepFunction i)) (hk : k = stepWord i)
    (hBlock : 4 * k + 4 ≤ block.length) (hn : n = i % 4) :
    ∃ w', md5Core w block k (4 - n) (UInt32.ofNat (stepShift i)) i fi = some w' ∧
      Rotated (i + 1) (step block i r) w' := by
  obtain ⟨hLength, ha, hb, hc, hd⟩ := hw
  have hConstant := md5T_eq hi
  have hLoad : loadWord block k = some (leWord block (stepWord i)) := by
    rw [loadWord, if_pos hBlock, hk]
  have hMask : ∀ x, x &&& 3 = x % 4 := fun x => Nat.and_two_pow_sub_one_eq_mod x 2
  have hPlace : (4 - n) % 4 = (4 - i % 4) % 4 := by omega
  have hb' : ((4 - i % 4) % 4 + 1) % 4 = (5 - i % 4) % 4 := by omega
  have hc' : ((4 - i % 4) % 4 + 2) % 4 = (6 - i % 4) % 4 := by omega
  have hd' : ((4 - i % 4) % 4 + 3) % 4 = (7 - i % 4) % 4 := by omega
  have hIn : (4 - i % 4) % 4 < w.length := by
    rw [hLength]
    omega
  refine ⟨w.set ((4 - i % 4) % 4) (step block i r).b, ?_, by rw [List.length_set, hLength],
    ?_, ?_, ?_, ?_⟩
  · simp only [md5Core, hMask, hPlace, hb', hc', hd', hf, hLoad, hConstant, ha, hb, hc, hd,
      Option.bind_eq_bind, Option.bind_some, Option.pure_def, step, rotl32_eq _ (stepShift_lt i hi)]
  · rw [show (4 - (i + 1) % 4) % 4 = (7 - i % 4) % 4 by omega, List.getElem?_set_ne (by omega), hd,
      step]
  · rw [show (5 - (i + 1) % 4) % 4 = (4 - i % 4) % 4 by omega, List.getElem?_set_self hIn]
  · rw [show (6 - (i + 1) % 4) % 4 = (5 - i % 4) % 4 by omega, List.getElem?_set_ne (by omega), hb,
      step]
  · rw [show (7 - (i + 1) % 4) % 4 = (6 - i % 4) % 4 by omega, List.getElem?_set_ne (by omega), hc,
      step]

/-- A round does its sixteen steps. -/
theorem round_eq {index : Nat → Nat → Nat} {shifts : List UInt32} {fi j : Nat} {r : Registers}
    {w : List UInt32} (hBlock : 64 ≤ block.length) (hfi : fi < 4) (hi : i = 16 * fi)
    (hj : j = 16 * (fi + 1))
    (hf : ∀ m n, m < 4 → n < 4 → funcs[fi]? = some (stepFunction (16 * fi + (4 * m + n))))
    (hIndex : ∀ m, m < 4 → ∀ n, n < 4 → index m n = stepWord (16 * fi + (4 * m + n)))
    (hLow : ∀ m, m < 4 → ∀ n, n < 4 → index m n < 16)
    (hShift : ∀ m, m < 4 → ∀ n, n < 4 →
      shifts[n]? = some (UInt32.ofNat (stepShift (16 * fi + (4 * m + n)))))
    (hw : Rotated i (steps block r i) w) :
    ∃ w', round block index shifts fi (w, i) = some (w', j) ∧
      Rotated j (steps block r j) w' := by
  subst hi hj
  obtain ⟨out, hLoop, hCount, hOut⟩ := foldlM_range (s := (w, 16 * fi)) (n := 4)
    (f := fun state m => (List.range 4).foldlM (fun (state : List UInt32 × Nat) n => do
      let a ← md5Core state.1 block (index m n) (4 - n) (← shifts[n]?) state.2 fi
      return (a, state.2 + 1)) state)
    (fun m state => state.2 = 16 * fi + 4 * m ∧ Rotated state.2 (steps block r state.2) state.1)
    ⟨rfl, hw⟩ fun m state hm hState => by
      obtain ⟨out, hLoop, hCount, hOut⟩ := foldlM_range (s := state) (n := 4)
        (f := fun (state : List UInt32 × Nat) n => do
          let a ← md5Core state.1 block (index m n) (4 - n) (← shifts[n]?) state.2 fi
          return (a, state.2 + 1))
        (fun n state => state.2 = 16 * fi + (4 * m + n) ∧
          Rotated state.2 (steps block r state.2) state.1)
        hState fun n state hn hState => by
          obtain ⟨hCount, hRotated⟩ := hState
          have hFunction : funcs[fi]? = some (stepFunction state.2) := by
            rw [hCount]
            exact hf m n hm hn
          have hWord : index m n = stepWord state.2 := by
            rw [hCount]
            exact hIndex m hm n hn
          have hIn : 4 * index m n + 4 ≤ block.length := by
            have := hLow m hm n hn
            omega
          obtain ⟨w', hCore, hw'⟩ := hRotated.core (by omega) hFunction hWord hIn
            (show n = state.2 % 4 by omega)
          refine ⟨(w', state.2 + 1), ?_, by show state.2 + 1 = _; omega, hw'⟩
          rw [hShift m hm n hn, ← hCount]
          simp only [Option.bind_eq_bind, Option.bind_some, hCore, Option.pure_def]
      exact ⟨out, hLoop, by omega, hOut⟩
  rw [show (16 * fi + 4 * 4 : Nat) = 16 * (fi + 1) by omega] at hCount
  rw [hCount] at hOut
  exact ⟨out.1, by rw [round, hLoop, ← hCount], hOut⟩

/-- The array ends in the order of the registers. -/
theorem md5NextBlock_eq (state : Md5CtxT) (hBlock : 64 ≤ block.length) :
    md5NextBlock state block = some ⟨compress state.a block, state.counter + 1⟩ := by
  have hf : ∀ fi, fi < 4 → ∀ m n, m < 4 → n < 4 →
      funcs[fi]? = some (stepFunction (16 * fi + (4 * m + n))) :=
    fun fi hfi m n hm hn => funcs_eq hfi (by omega)
  obtain ⟨w1, hRound1, hw1⟩ := @round_eq block 0 index1 s1t 0 16 state.a state.a.words hBlock
    (by omega) rfl rfl (hf 0 (by omega)) (by decide) (by decide) (by decide) (rotated_words state.a)
  obtain ⟨w2, hRound2, hw2⟩ := @round_eq block 16 index2 s2t 1 32 state.a w1 hBlock
    (by omega) rfl rfl (hf 1 (by omega)) (by decide) (by decide) (by decide) hw1
  obtain ⟨w3, hRound3, hw3⟩ := @round_eq block 32 index3 s3t 2 48 state.a w2 hBlock
    (by omega) rfl rfl (hf 2 (by omega)) (by decide) (by decide) (by decide) hw2
  obtain ⟨w4, hRound4, hw4⟩ := @round_eq block 48 index4 s4t 3 64 state.a w3 hBlock
    (by omega) rfl rfl (hf 3 (by omega)) (by decide) (by decide) (by decide) hw3
  have hLast := hw4.eq_words
  generalize hEnd : steps block state.a 64 = last at hLast
  have hWords : w4[0]? = some last.a ∧ w4[1]? = some last.b ∧ w4[2]? = some last.c ∧
      w4[3]? = some last.d := by
    rw [hLast]
    exact ⟨rfl, rfl, rfl, rfl⟩
  obtain ⟨ha, hb, hc, hd⟩ := hWords
  simp only [md5NextBlock, hRound1, hRound2, hRound3, hRound4, Option.bind_eq_bind,
    Option.bind_some, ha, hb, hc, hd, Option.pure_def, compress, hEnd]

end

/-! ## Whole messages -/

/-- Only the bytes of the block count. -/
theorem compress_take (r : Registers) (block : List UInt8) :
    compress r (block.take 64) = compress r block := by
  have hWord : ∀ i, leWord (block.take 64) (stepWord i) = leWord block (stepWord i) := by
    intro i
    have hLow : stepWord i < 16 := by
      rw [stepWord]
      split
      · omega
      · split
        · omega
        · split <;> omega
    exact leWord_take block (by omega)
  have hSteps : ∀ i, steps (block.take 64) r i = steps block r i := by
    intro i
    induction i with
    | zero => rfl
    | succ i ih => rw [steps, steps, step, step, ih, hWord]
  rw [compress, compress, hSteps]

/-- The state after whole blocks. -/
noncomputable def Md5CtxT.after (state : Md5CtxT) (n : Nat) (bytes : List UInt8) : Md5CtxT :=
  ⟨standard.absorb state.a n bytes, state.counter + UInt32.ofNat n⟩

/-- One block makes the state that `md5_nextBlock` leaves. -/
theorem stepsAfter : Steps md5NextBlock Md5CtxT.after where
  zero state bytes := by
    show (⟨state.a, state.counter + 0⟩ : Md5CtxT) = state
    rw [UInt32.add_zero]
  succ state n bytes := by
    have hCounter : state.counter + UInt32.ofNat (n + 1) = state.counter + 1 + UInt32.ofNat n := by
      rw [Nat.add_comm, UInt32.ofNat_add, ← UInt32.add_assoc]
      rfl
    rw [Md5CtxT.after, hCounter]
    rfl
  next state bytes hBytes := by
    rw [md5NextBlock_eq state hBytes, ← compress_take]
    rfl
  take state bytes := by
    show (⟨compress state.a ((bytes.take 64).take 64), _⟩ : Md5CtxT) =
      ⟨compress state.a (bytes.take 64), _⟩
    rw [compress_take]

/-- The block with the rest of the message and the bit behind it. -/
theorem mark_eq (tail : List UInt8) {r : Nat} (hr : r < 512) (hLength : r ≤ 8 * tail.length) :
    paddingByte tail r = some (lastByte tail r) ∧
      (tail.take (r / 8) ++ List.replicate (64 - r / 8) 0).set (r / 8) (lastByte tail r) =
        marked tail r := by
  have hFront : (tail.take (r / 8)).length = r / 8 := by
    rw [List.length_take]
    omega
  constructor
  · by_cases hWhole : r % 8 = 0
    · rw [paddingByte, if_neg (not_not_intro hWhole), lastByte, if_pos hWhole, hWhole]
      rfl
    · have hIn : r / 8 < tail.length := by omega
      rw [paddingByte, if_pos hWhole, lastByte, if_neg hWhole, List.getElem?_eq_getElem hIn,
        List.getD_eq_getElem _ _ hIn]
      rfl
  · rw [List.set_append_right _ _ (by omega), hFront, Nat.sub_self, marked,
      show 64 - r / 8 = 63 - r / 8 + 1 by omega, List.replicate_succ, List.set_cons_zero]

/-- MD5 with the length of a message modulo `2^32`. -/
noncomputable def wrapped : Iterated Registers :=
  { standard with
    field := fun length => leBytes 8 (length % 2 ^ 32)
    length_field := fun _ => length_leBytes 8 _ }

private theorem wrapped_field (total : Nat) :
    leBytes 8 (UInt32.ofNat total).toNat = wrapped.field total :=
  congrArg (leBytes 8) UInt32.toNat_ofNat'

/-- The last call closes the message, with the length that the counter gives. -/
theorem md5LastBlock_eq (state : Md5CtxT) {block : List UInt8} {length : UInt16} {total : Nat}
    (hLength : length.toNat ≤ 8 * block.length)
    (hTotal : (state.counter + UInt32.ofNat (length.toNat / 512)) * 512 +
      UInt32.ofNat (length.toNat % 512) = UInt32.ofNat total) :
    ∃ s, md5LastBlock state block length = some s ∧
      s.a = standard.absorb (standard.absorb state.a (length.toNat / 512) block)
        (if length.toNat % 512 ≤ 447 then 1 else 2)
        (wrapped.closing (block.drop (64 * (length.toNat / 512))) (length.toNat % 512) total) := by
  generalize hn : length.toNat = n at *
  have hr : n % 512 < 512 := Nat.mod_lt _ (by omega)
  have hRest : n % 512 ≤ 8 * (block.drop (64 * (n / 512))).length := by
    rw [List.length_drop]
    omega
  obtain ⟨hLast, hMark⟩ := mark_eq _ hr hRest
  have hSize := length_marked hRest hr
  have hRead : ¬ (block.drop (64 * (n / 512))).length < n % 512 / 8 := by omega
  have hField : lengthField (state.counter + UInt32.ofNat (n / 512)) (n % 512) =
      wrapped.field total := by
    rw [lengthField, hTotal, wrapped_field]
  have hLoop := wholeBlocks_eq stepsAfter state block n hLength
  have hStep := fun state block => @md5NextBlock_eq block state
  have hClosing := wrapped.absorb_closing (standard.absorb state.a (n / 512) block) total hRest hr
  rw [md5LastBlock, hn]
  -- what a block does is used only through `hLoop` and `hStep`
  generalize md5NextBlock = next at hLoop hStep ⊢
  simp only [hLoop, Option.bind_eq_bind, Option.bind_some, if_neg hRead, hLast, hMark]
  by_cases hOne : n % 512 ≤ 447
  · have hMore : ¬ n % 512 / 8 + 8 ≥ 512 / 8 := by omega
    have hNext := hStep (state.after (n / 512) block)
      ((marked (block.drop (64 * (n / 512))) (n % 512)).take 56 ++
        lengthField (state.counter + UInt32.ofNat (n / 512)) (n % 512))
      (by rw [hField, List.length_append, List.length_take, wrapped.length_field]; omega)
    rw [if_neg hMore, Option.pure_def, Option.bind_some]
    refine ⟨_, hNext, ?_⟩
    rw [hField]
    exact (hClosing.trans (if_pos hOne)).symm
  · have hMore : n % 512 / 8 + 8 ≥ 512 / 8 := by omega
    have hFirst := hStep (state.after (n / 512) block)
      (marked (block.drop (64 * (n / 512))) (n % 512)) (by omega)
    have hZeros : (List.replicate 56 0 ++
        (marked (block.drop (64 * (n / 512))) (n % 512)).drop 56).take 56 =
          List.replicate 56 0 := List.take_left' List.length_replicate
    have hNext := hStep
      ⟨compress (standard.absorb state.a (n / 512) block)
        (marked (block.drop (64 * (n / 512))) (n % 512)),
        state.counter + UInt32.ofNat (n / 512) + 1 - 1⟩
      ((List.replicate 56 0 ++ (marked (block.drop (64 * (n / 512))) (n % 512)).drop 56).take 56 ++
        lengthField (state.counter + UInt32.ofNat (n / 512) + 1 - 1) (n % 512))
      (by rw [UInt32.add_sub_cancel, hField, hZeros, List.length_append, List.length_replicate,
        wrapped.length_field])
    rw [if_pos hMore, hFirst, Option.bind_some, Option.pure_def, Option.bind_some]
    refine ⟨_, hNext, ?_⟩
    rw [UInt32.add_sub_cancel, hField, hZeros]
    exact (hClosing.trans (if_neg hOne)).symm

/-- However many blocks of a message come first, and however many bits the last call gets, the
calls give the digest of the whole message with its length modulo `2^32`. -/
theorem md5_stream {blocks : List (List UInt8)} (hBlocks : ∀ block ∈ blocks, block.length = 64)
    (tail : List UInt8) (length : UInt16) (hLength : length.toNat ≤ 8 * tail.length)
    (hClean : Clean tail length.toNat) :
    ((nextBlocks md5NextBlock md5Init blocks).bind fun state =>
        md5LastBlock state tail length).map md5Ctx2hash =
      some (hashBytes (wrapped.digest (bits blocks.flatten ++ (bits tail).take length.toNat))) := by
  have hSize := length_flatten_blocks hBlocks
  have hTotal : ((md5Init.after blocks.length blocks.flatten).counter +
      UInt32.ofNat (length.toNat / 512)) * 512 + UInt32.ofNat (length.toNat % 512) =
        UInt32.ofNat (512 * blocks.length + length.toNat) := by
    have hSum : 512 * blocks.length + length.toNat =
        (blocks.length + length.toNat / 512) * 512 + length.toNat % 512 := by omega
    show (0 + UInt32.ofNat blocks.length + _) * _ + _ = _
    rw [UInt32.zero_add, hSum, UInt32.ofNat_add, UInt32.ofNat_mul, UInt32.ofNat_add]
    rfl
  obtain ⟨s, hLast, hs⟩ := md5LastBlock_eq _ hLength hTotal
  rw [nextBlocks_eq stepsAfter md5Init hBlocks, Option.bind_some, hLast, Option.map_some,
    digest_append wrapped hSize hLength hClean, md5Ctx2hash, hs]
  rfl

/-- One block of zeros before `abc`. -/
theorem md5_stream_abc :
    ((nextBlocks md5NextBlock md5Init [List.replicate 64 0]).bind fun state =>
        md5LastBlock state (ascii "abc") 24).map md5Ctx2hash =
      some (hashBytes (wrapped.digest
        (bits [List.replicate 64 0].flatten ++ (bits (ascii "abc")).take (24 : UInt16).toNat))) :=
  md5_stream (by simp) (ascii "abc") 24 (by decide) (clean_bytes (ascii "abc") 3)

/-- Only the length of the message is different. -/
theorem wrapped_digest {message : List Bool} (hLength : message.length < 2 ^ 32) :
    wrapped.digest message = standard.digest message := by
  have hField : wrapped.field message.length = standard.field message.length := by
    show leBytes 8 (message.length % 2 ^ 32) = leBytes 8 message.length
    rw [Nat.mod_eq_of_lt hLength]
  rw [Iterated.digest, Iterated.digest, Iterated.padded, Iterated.padded, hField]
  rfl

/-- `md5` gives the digest of every message, whatever its number of bits, if the bits of its last
byte behind the message are zero: `md5_lastBlock` puts the end mark to them without clearing them.
-/
theorem md5_digest (msg : List UInt8) (length : UInt32) (hLength : length.toNat ≤ 8 * msg.length)
    (hClean : Clean msg length.toNat) :
    md5 msg length = some (hashBytes (standard.digest ((bits msg).take length.toNat))) := by
  have hLt := length.toNat_lt
  have hRest : (UInt16.ofNat (length.toNat % 512)).toNat = length.toNat % 512 := by
    rw [UInt16.toNat_ofNat']
    omega
  have hTotal : ((md5Init.after (length.toNat / 512) msg).counter +
      UInt32.ofNat (length.toNat % 512 / 512)) * 512 + UInt32.ofNat (length.toNat % 512 % 512) =
        UInt32.ofNat length.toNat := by
    rw [Nat.div_eq_of_lt (Nat.mod_lt _ (by omega)), Nat.mod_mod]
    show (0 + UInt32.ofNat (length.toNat / 512) + 0) * UInt32.ofNat 512 + _ = _
    rw [UInt32.zero_add, UInt32.add_zero, ← UInt32.ofNat_mul, ← UInt32.ofNat_add, Nat.mul_comm,
      Nat.div_add_mod]
  obtain ⟨s, hLast, hs⟩ := @md5LastBlock_eq (md5Init.after (length.toNat / 512) msg)
    (msg.drop (64 * (length.toNat / 512))) (UInt16.ofNat (length.toNat % 512)) length.toNat
    (by rw [hRest, List.length_drop]; omega) (by rw [hRest, hTotal])
  have hMessage : ((bits msg).take length.toNat).length < 2 ^ 32 := by
    rw [List.length_take]
    omega
  rw [hRest, Nat.div_eq_of_lt (Nat.mod_lt _ (by omega)), Nat.mod_mod] at hs
  rw [md5, wholeBlocks_eq stepsAfter md5Init msg length.toNat hLength]
  simp only [Option.bind_eq_bind, Option.bind_some, hLast, Option.pure_def]
  rw [md5Ctx2hash, hs, ← wrapped_digest hMessage, digest_eq wrapped hLength hClean]
  rfl

/-- The digest of `abc`. -/
theorem md5_digest_abc : md5 (ascii "abc") 24 =
    some (hashBytes (standard.digest ((bits (ascii "abc")).take 24))) :=
  md5_digest (ascii "abc") 24 (by decide) (clean_bytes (ascii "abc") 3)

example : md5 (ascii "abc") 24 = some [0x90, 0x01, 0x50, 0x98, 0x3c, 0xd2, 0x4f, 0xb0, 0xd6, 0x96,
    0x3f, 0x7d, 0x28, 0xe1, 0x7f, 0x72] := by
  rw [md5, wholeBlocks, if_neg (by decide)]
  simp only [Option.bind_eq_bind, Option.bind_some]
  rw [md5LastBlock, wholeBlocks, if_neg (by decide)]
  decide +kernel

end Gbase.Util.Md5
