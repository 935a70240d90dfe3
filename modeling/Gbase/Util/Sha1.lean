import Gbase.Lib.CString
import Gbase.Lib.Digest
import Gbase.Lib.Run
import Gbase.Lib.WordBits

/-!
# The digest SHA-1 (`util/sha1.c`)

Words are little-endian in memory (`OS_LITTLE_ENDIAN`).  A pointer into the message is the bytes
from there on, and reading behind the end of an array or storing there is undefined, `none`.

The code keeps the last sixteen words of the schedule in a ring and counts which function and which
constant are in turn; the standard has eighty words and numbers its rounds.  The standard is stated
apart from the code: its functions are truth tables, and its rotations move bits.

The bits of the last byte behind the message have to be zero (`Clean`), since the code sets the bit
behind the message and clears none.

## Main results

* `fTable_eq`: the functions of the code are those of the standard.
* `sha1NextBlock_eq`: a ring of sixteen words gives the schedule of eighty words.
* `sha1_digest`: `sha1` gives the digest of every message.
* `sha1_stream`: so do the calls for its blocks and its rest.
-/

namespace Gbase.Util.Sha1

open Gbase.Lib
open Gbase.Lib.Bytes
open Gbase.Lib.CString
open Gbase.Lib.Digest
open Gbase.Lib.Run

/-- An array of five words. -/
structure Words where
  w0 : UInt32
  w1 : UInt32
  w2 : UInt32
  w3 : UInt32
  w4 : UInt32
  deriving DecidableEq, Repr

/-- `sha1_ctx_t` -/
structure Sha1CtxT where
  h : Words
  length : UInt64
  deriving DecidableEq, Repr

/-- `sha1_init` -/
def sha1Init : Sha1CtxT where
  h := ⟨0x67452301, 0xefcdab89, 0x98badcfe, 0x10325476, 0xc3d2e1f0⟩
  length := 0

/-- `rotl32` -/
def rotl32 (n bits : UInt32) : UInt32 := n <<< bits ||| n >>> (32 - bits)

/-- `change_endian32` -/
def changeEndian32 (x : UInt32) : UInt32 :=
  x <<< 24 ||| x >>> 24 ||| (x &&& 0x0000ff00) <<< 8 ||| (x &&& 0x00ff0000) >>> 8

/-- `ch` -/
def ch (x y z : UInt32) : UInt32 := x &&& y ^^^ ~~~x &&& z

/-- `maj` -/
def maj (x y z : UInt32) : UInt32 := x &&& y ^^^ x &&& z ^^^ y &&& z

/-- `parity` -/
def parity (x y z : UInt32) : UInt32 := x ^^^ y ^^^ z

/-- `MASK` -/
def mask : Nat := 0x0000000f

/-- `f` -/
def fTable : List (UInt32 → UInt32 → UInt32 → UInt32) := [ch, parity, maj, parity]

/-- `k` -/
def kTable : List UInt32 := [0x5a827999, 0x6ed9eba1, 0x8f1bbcdc, 0xca62c1d6]

/-- One turn of the loop that loads `w`. -/
def loadTurn (block : List UInt8) (w : List UInt32) (t : Nat) : Option (List UInt32) := do
  let x ← loadWord block t
  return w.set t (changeEndian32 x)

/-- The variables of the loop of `sha1_nextBlock`. -/
structure Rounds where
  a : Words
  w : List UInt32
  fi : Nat
  fib : Nat

/-- What a turn does to `w`. -/
def scheduleTurn (w : List UInt32) (t : Nat) : Option (List UInt32) := do
  let s := t &&& mask
  if 16 ≤ t then
    let x ← w[(s + 13) &&& mask]?
    let y ← w[(s + 8) &&& mask]?
    let z ← w[(s + 2) &&& mask]?
    let last ← w[s]?
    return w.set s (rotl32 (x ^^^ y ^^^ z ^^^ last) 1)
  else return w

/-- One turn of the loop of `sha1_nextBlock`. -/
def roundTurn (r : Rounds) (t : Nat) : Option Rounds := do
  let w ← scheduleTurn r.w t
  let f ← fTable[r.fi]?
  let k ← kTable[r.fi]?
  let x ← w[t &&& mask]?
  let temp := rotl32 r.a.w0 5 + f r.a.w1 r.a.w2 r.a.w3 + r.a.w4 + k + x
  -- `memmove` by one word, then the two stores
  let a : Words := ⟨temp, r.a.w0, rotl32 r.a.w1 30, r.a.w2, r.a.w3⟩
  let fib := r.fib + 1
  return if fib = 20 then ⟨a, w, (r.fi + 1) % 4, 0⟩ else ⟨a, w, r.fi, fib⟩

/-- The words of two arrays added. -/
def Words.add (h a : Words) : Words :=
  ⟨h.w0 + a.w0, h.w1 + a.w1, h.w2 + a.w2, h.w3 + a.w3, h.w4 + a.w4⟩

/-- `sha1_nextBlock` -/
def sha1NextBlock (state : Sha1CtxT) (block : List UInt8) : Option Sha1CtxT := do
  -- all of `w` is stored to before it is read
  let w ← (List.range 16).foldlM (loadTurn block) (List.replicate 16 0)
  let r ← (List.range 80).foldlM roundTurn ⟨state.h, w, 0, 0⟩
  return ⟨state.h.add r.a, state.length + 512⟩

/-- The loop of `sha1_lastBlock` over whole blocks. -/
def lastBlockLoop : Sha1CtxT → List UInt8 → Nat → Option (Sha1CtxT × List UInt8 × Nat) :=
  wholeBlocks sha1NextBlock

/-- One turn of the loop that stores the length. -/
def lengthTurn (length : UInt64) (lb : List UInt8) (i : Nat) : Option (List UInt8) := do
  let byte ← (leBytes 8 length.toNat)[7 - i]?
  if 56 + i < lb.length then return lb.set (56 + i) byte else none

/-- `sha1_lastBlock` -/
def sha1LastBlock (state : Sha1CtxT) (block : List UInt8) (length : UInt16) : Option Sha1CtxT := do
  let (state, block, length) ← lastBlockLoop state block length.toNat
  let state := { state with length := state.length + UInt64.ofNat length }
  let copied := (length + 7) >>> 3
  if block.length < copied then none
  else
    let lb := block.take copied ++ List.replicate (64 - copied) 0
    let byte ← lb[length >>> 3]?
    let lb := lb.set (length >>> 3) (byte ||| 0x80 >>> UInt8.ofNat (length &&& 0x07))
    let (state, lb) ←
      if length > 512 - 64 - 1 then do
        let state ← sha1NextBlock state lb
        pure ({ state with length := state.length - 512 }, List.replicate 64 0)
      else pure (state, lb)
    let lb ← (List.range 8).foldlM (lengthTurn state.length) lb
    sha1NextBlock state lb

/-- `sha1_ctx2hash` -/
def sha1Ctx2hash (state : Sha1CtxT) : List UInt8 :=
  [state.h.w0, state.h.w1, state.h.w2, state.h.w3, state.h.w4].flatMap fun h =>
    leBytes 4 (changeEndian32 h).toNat

/-- The mask asks for a whole block. -/
theorem more_iff {length : UInt32} : length &&& 0xfffffe00 ≠ 0 ↔ 512 ≤ length.toNat := by
  have hAnd : (length &&& 0xfffffe00).toNat = length.toNat &&& (2 ^ 23 - 1) <<< 9 := rfl
  have hLt := length.toNat_lt
  rw [land_mask, Nat.shiftLeft_eq, Nat.shiftRight_eq_div_pow] at hAnd
  rw [ne_eq, ← UInt32.toNat_inj, hAnd]
  show ¬ _ = 0 ↔ _
  omega

/-- The loop of `sha1`. -/
def sha1Loop (s : Sha1CtxT) (msg : List UInt8) (length : UInt32) :
    Option (Sha1CtxT × List UInt8 × UInt32) :=
  if hMore : length &&& 0xfffffe00 ≠ 0 then do
    let s ← sha1NextBlock s msg
    sha1Loop s (msg.drop 64) (length - 512)
  else some (s, msg, length)
termination_by length.toNat
decreasing_by
  have hWhole := more_iff.mp hMore
  have hSub := UInt32.toNat_sub_of_le length 512 (UInt32.le_iff_toNat_le.mpr hWhole)
  rw [hSub]
  show length.toNat - 512 < length.toNat
  omega

/-- `sha1` -/
def sha1 (msg : List UInt8) (length : UInt32) : Option (List UInt8) := do
  let (s, msg, length) ← sha1Loop sha1Init msg length
  let s ← sha1LastBlock s msg length.toUInt16
  return sha1Ctx2hash s

/-! ## Words -/

theorem changeEndian32_word (b0 b1 b2 b3 : UInt8) :
    changeEndian32 (UInt32.ofNat (leValue [b0, b1, b2, b3])) =
      UInt32.ofNat (beValue [b0, b1, b2, b3]) := by
  have h0 := b0.toNat_lt
  have h1 := b1.toNat_lt
  have h2 := b2.toNat_lt
  have h3 := b3.toNat_lt
  have hLe : leValue [b0, b1, b2, b3] =
      b0.toNat + 256 * (b1.toNat + 256 * (b2.toNat + 256 * b3.toNat)) := rfl
  generalize hx : leValue [b0, b1, b2, b3] = x at hLe
  have hLt : x < 2 ^ 32 := by omega
  have hFirst : x <<< 24 % 2 ^ 32 = b0.toNat <<< 24 := by
    rw [Nat.shiftLeft_eq, Nat.shiftLeft_eq]
    omega
  have hLast : x >>> 24 = b3.toNat := by
    rw [Nat.shiftRight_eq_div_pow]
    omega
  have hSecond : (x &&& (2 ^ 8 - 1) <<< 8) <<< 8 % 2 ^ 32 = b1.toNat <<< 16 := by
    rw [land_mask, Nat.shiftRight_eq_div_pow, Nat.shiftLeft_eq, Nat.shiftLeft_eq, Nat.shiftLeft_eq]
    omega
  have hThird : (x &&& (2 ^ 8 - 1) <<< 16) >>> 8 = b2.toNat <<< 8 := by
    rw [land_mask, Nat.shiftRight_eq_div_pow, Nat.shiftRight_eq_div_pow, Nat.shiftLeft_eq,
      Nat.shiftLeft_eq]
    omega
  have hBe : beValue [b0, b1, b2, b3] =
      b3.toNat + 256 * (b2.toNat + 256 * (b1.toNat + 256 * b0.toNat)) := rfl
  apply UInt32.toNat_inj.mp
  have hOr : (changeEndian32 (UInt32.ofNat x)).toNat =
      x <<< 24 % 2 ^ 32 ||| x >>> 24 ||| (x &&& (2 ^ 8 - 1) <<< 8) <<< 8 % 2 ^ 32 |||
        (x &&& (2 ^ 8 - 1) <<< 16) >>> 8 := by
    simp only [changeEndian32, UInt32.toNat_or, UInt32.toNat_shiftLeft, UInt32.toNat_shiftRight,
      UInt32.toNat_and, UInt32.toNat_ofNat', Nat.mod_eq_of_lt hLt]
    rfl
  rw [hOr, hFirst, hLast, hSecond, hThird, UInt32.toNat_ofNat',
    Nat.mod_eq_of_lt (by omega : beValue [b0, b1, b2, b3] < 2 ^ 32),
    ← or_four b0 b1 b2 b3,
    Nat.or_assoc _ b3.toNat, Nat.or_comm b3.toNat, ← Nat.or_assoc, Nat.or_assoc _ b3.toNat,
    Nat.or_comm b3.toNat, ← Nat.or_assoc]

theorem changeEndian32_leWord {block : List UInt8} {t : Nat} (ht : 4 * t + 4 ≤ block.length) :
    changeEndian32 (leWord block t) = beWord block t := by
  have hLength : (block.drop (4 * t)).length = block.length - 4 * t := List.length_drop
  rw [leWord, beWord]
  generalize block.drop (4 * t) = word at hLength
  rcases word with _ | ⟨b0, _ | ⟨b1, _ | ⟨b2, _ | ⟨b3, rest⟩⟩⟩⟩
  case cons.cons.cons.cons => exact changeEndian32_word b0 b1 b2 b3
  all_goals
    simp only [List.length_cons, List.length_nil] at hLength
    omega

/-! ## The standard -/

/-- The schedule of a block: its sixteen words, and sixty-four more from them. -/
def schedule (block : List UInt8) (t : Nat) : UInt32 :=
  if t < 16 then beWord block t
  else WordBits.rotate 1 (schedule block (t - 3) ^^^ schedule block (t - 8) ^^^
    schedule block (t - 14) ^^^ schedule block (t - 16))
termination_by t
decreasing_by all_goals omega

/-- The function of a round. -/
def roundFunction (t : Nat) : UInt32 → UInt32 → UInt32 → UInt32 :=
  if t < 20 then WordBits.choice else if t < 40 then WordBits.parity
  else if t < 60 then WordBits.majority else WordBits.parity

/-- The constant of a round. -/
def roundConstant (t : Nat) : UInt32 :=
  if t < 20 then 0x5a827999 else if t < 40 then 0x6ed9eba1 else if t < 60 then 0x8f1bbcdc
  else 0xca62c1d6

/-- A round with its word of the schedule. -/
def round (t : Nat) (a : Words) (x : UInt32) : Words :=
  ⟨WordBits.rotate 5 a.w0 + roundFunction t a.w1 a.w2 a.w3 + a.w4 + roundConstant t + x,
    a.w0, WordBits.rotate 30 a.w1, a.w2, a.w3⟩

/-- The first rounds with a block. -/
def rounds (block : List UInt8) (a : Words) : Nat → Words
  | 0 => a
  | t + 1 => round t (rounds block a t) (schedule block t)

/-- What a block does to the words of the state. -/
def compress (h : Words) (block : List UInt8) : Words := h.add (rounds block h 80)

/-- SHA-1, as the standard has it. -/
def standard : Iterated Words where
  start := ⟨0x67452301, 0xefcdab89, 0x98badcfe, 0x10325476, 0xc3d2e1f0⟩
  compress := compress
  field := beBytes 8
  length_field := length_beBytes 8

/-- The bytes of a digest. -/
def hashBytes (h : Words) : List UInt8 :=
  [h.w0, h.w1, h.w2, h.w3, h.w4].flatMap fun x => beBytes 4 x.toNat

/-! ## One block -/

theorem rotl32_eq (x : UInt32) {k : Nat} (hk : 0 < k ∧ k < 32) :
    rotl32 x (UInt32.ofNat k) = WordBits.rotate k x := WordBits.rotate_eq hk

/-- The functions of the code compute those of the standard. -/
theorem fTable_eq :
    fTable = [WordBits.choice, WordBits.parity, WordBits.majority, WordBits.parity] := by
  have hCh : ch = WordBits.choice := by
    funext x y z
    exact WordBits.choice_eq_xor
  have hMaj : maj = WordBits.majority := by
    funext x y z
    exact WordBits.majority_eq
  have hParity : parity = WordBits.parity := by
    funext x y z
    exact WordBits.parity_eq
  rw [fTable, hCh, hMaj, hParity]

/-- Before round `t`, the ring holds the sixteen words of the schedule that end with round `t`, or
the first sixteen. -/
structure Scheduled (block : List UInt8) (t : Nat) (w : List UInt32) : Prop where
  length : w.length = 16
  word : ∀ i, i < max t 16 → t ≤ i + 16 → w[i % 16]? = some (schedule block i)

section
variable {block : List UInt8} {t : Nat}

theorem and_mask (n : Nat) : n &&& mask = n % 16 := Nat.and_two_pow_sub_one_eq_mod n 4

/-- The words of the block are the first words of the schedule. -/
theorem load_scheduled (hBlock : 64 ≤ block.length) :
    ∃ w, (List.range 16).foldlM (loadTurn block) (List.replicate 16 0) = some w ∧
      Scheduled block 0 w := by
  have hLoop := foldlM_range (f := loadTurn block) (n := 16) (s := List.replicate 16 0)
    (fun t w => w.length = 16 ∧ ∀ i, i < t → w[i]? = some (beWord block i))
    ⟨List.length_replicate .., fun i hi => absurd hi (Nat.not_lt_zero i)⟩ fun t w ht hw => by
      refine ⟨w.set t (beWord block t), ?_, by rw [List.length_set, hw.1], ?_⟩
      · rw [loadTurn, loadWord, if_pos (by omega)]
        show some (w.set t (changeEndian32 (leWord block t))) = _
        rw [changeEndian32_leWord (by omega)]
      · intro i hi
        rcases Nat.lt_succ_iff_lt_or_eq.mp hi with hLt | rfl
        · rw [List.getElem?_set_ne (by omega), hw.2 i hLt]
        · rw [List.getElem?_set_self (by omega)]
  obtain ⟨w, hLoad, hLength, hWords⟩ := hLoop
  refine ⟨w, hLoad, hLength, fun i hi _ => ?_⟩
  rw [Nat.mod_eq_of_lt (by omega), hWords i (by omega), schedule, if_pos (by omega)]

/-- The word that leaves the ring makes room for the next one. -/
theorem Scheduled.turn {w : List UInt32} (hw : Scheduled block t w) :
    ∃ w', scheduleTurn w t = some w' ∧ Scheduled block (t + 1) w' := by
  by_cases ht : 16 ≤ t
  · have h3 := hw.word (t - 3) (by omega) (by omega)
    have h8 := hw.word (t - 8) (by omega) (by omega)
    have h14 := hw.word (t - 14) (by omega) (by omega)
    have h16 := hw.word (t - 16) (by omega) (by omega)
    rw [show (t - 3) % 16 = (t % 16 + 13) % 16 by omega] at h3
    rw [show (t - 8) % 16 = (t % 16 + 8) % 16 by omega] at h8
    rw [show (t - 14) % 16 = (t % 16 + 2) % 16 by omega] at h14
    rw [show (t - 16) % 16 = t % 16 by omega] at h16
    refine ⟨w.set (t % 16) (schedule block t), ?_, by rw [List.length_set, hw.length], ?_⟩
    · rw [schedule, if_neg (by omega), ← rotl32_eq _ (k := 1) (by decide)]
      simp only [scheduleTurn, and_mask, if_pos ht, h3, h8, h14, h16, Option.bind_eq_bind,
        Option.bind_some, Option.pure_def]
      rfl
    · intro i hi hLow
      by_cases hSame : i = t
      · subst hSame
        rw [List.getElem?_set_self (by rw [hw.length]; omega)]
      · rw [List.getElem?_set_ne (by omega), hw.word i (by omega) (by omega)]
  · refine ⟨w, ?_, hw.length, fun i hi hLow => hw.word i (by omega) (by omega)⟩
    simp only [scheduleTurn, if_neg ht, Option.pure_def]

/-- The counters `fi` and `fib` select the function and the constant of the round. -/
theorem tables {fi : Nat} (ht : t < 80) (hfi : fi = t / 20) :
    fTable[fi]? = some (roundFunction t) ∧ kTable[fi]? = some (roundConstant t) := by
  have hCases : fi = 0 ∧ t < 20 ∨ fi = 1 ∧ 20 ≤ t ∧ t < 40 ∨ fi = 2 ∧ 40 ≤ t ∧ t < 60 ∨
      fi = 3 ∧ 60 ≤ t := by omega
  rw [fTable_eq, roundFunction, roundConstant]
  rcases hCases with ⟨rfl, h⟩ | ⟨rfl, h, h'⟩ | ⟨rfl, h, h'⟩ | ⟨rfl, h⟩
  · rw [if_pos h, if_pos h]
    exact ⟨rfl, rfl⟩
  · rw [if_neg (by omega), if_pos h', if_neg (by omega), if_pos h']
    exact ⟨rfl, rfl⟩
  · rw [if_neg (by omega), if_neg (by omega), if_pos h', if_neg (by omega), if_neg (by omega),
      if_pos h']
    exact ⟨rfl, rfl⟩
  · rw [if_neg (by omega), if_neg (by omega), if_neg (by omega), if_neg (by omega),
      if_neg (by omega), if_neg (by omega)]
    exact ⟨rfl, rfl⟩

/-- What holds before round `t`. -/
structure RoundInv (block : List UInt8) (h : Words) (t : Nat) (r : Rounds) : Prop where
  a : r.a = rounds block h t
  w : Scheduled block t r.w
  fi : r.fi = t / 20 % 4
  fib : r.fib = t % 20

theorem RoundInv.turn {h : Words} {r : Rounds} (ht : t < 80) (hr : RoundInv block h t r) :
    ∃ r', roundTurn r t = some r' ∧ RoundInv block h (t + 1) r' := by
  obtain ⟨w, hSchedule, hw⟩ := hr.w.turn
  have hWord := hw.word t (by omega) (by omega)
  have hfi := hr.fi
  have hfib := hr.fib
  obtain ⟨hf, hk⟩ := @tables t r.fi ht (by omega)
  have hRound : roundTurn r t = some (if r.fib + 1 = 20
      then ⟨rounds block h (t + 1), w, (r.fi + 1) % 4, 0⟩
      else ⟨rounds block h (t + 1), w, r.fi, r.fib + 1⟩) := by
    rw [rounds, round, ← rotl32_eq _ (k := 5) (by decide), ← rotl32_eq _ (k := 30) (by decide)]
    simp only [roundTurn, hSchedule, hf, hk, and_mask, hWord, Option.bind_eq_bind,
      Option.bind_some, Option.pure_def, hr.a]
    rfl
  by_cases hEnd : r.fib + 1 = 20
  · rw [if_pos hEnd] at hRound
    exact ⟨_, hRound, rfl, hw, by show (r.fi + 1) % 4 = _; omega, by show 0 = _; omega⟩
  · rw [if_neg hEnd] at hRound
    exact ⟨_, hRound, rfl, hw, by show r.fi = _; omega, by show r.fib + 1 = _; omega⟩

/-- A ring of sixteen words gives the schedule of eighty words. -/
theorem sha1NextBlock_eq (state : Sha1CtxT) (hBlock : 64 ≤ block.length) :
    sha1NextBlock state block = some ⟨compress state.h block, state.length + 512⟩ := by
  obtain ⟨w, hLoad, hw⟩ := load_scheduled hBlock
  obtain ⟨r, hLoop, hr⟩ := foldlM_range (f := roundTurn) (n := 80) (s := ⟨state.h, w, 0, 0⟩)
    (RoundInv block state.h) ⟨rfl, hw, rfl, rfl⟩ fun t r ht hr => hr.turn ht
  rw [sha1NextBlock, hLoad]
  simp only [Option.bind_eq_bind, Option.bind_some, hLoop, Option.pure_def, hr.a, compress]

end

/-! ## Whole messages -/

/-- Only the bytes of the block count. -/
theorem schedule_take (block : List UInt8) (t : Nat) :
    schedule (block.take 64) t = schedule block t := by
  induction t using Nat.strong_induction_on with
  | _ t ih =>
      by_cases ht : t < 16
      · rw [schedule, if_pos ht, schedule, if_pos ht, beWord_take block (by omega)]
      · rw [schedule, if_neg ht, ih (t - 3) (by omega), ih (t - 8) (by omega),
          ih (t - 14) (by omega), ih (t - 16) (by omega)]
        conv_rhs => rw [schedule, if_neg ht]

theorem compress_take (h : Words) (block : List UInt8) :
    compress h (block.take 64) = compress h block := by
  have hRounds : ∀ t, rounds (block.take 64) h t = rounds block h t := by
    intro t
    induction t with
    | zero => rfl
    | succ t ih => rw [rounds, rounds, ih, schedule_take]
  rw [compress, compress, hRounds]

/-- The state after whole blocks. -/
def Sha1CtxT.after (state : Sha1CtxT) (n : Nat) (bytes : List UInt8) : Sha1CtxT :=
  ⟨standard.absorb state.h n bytes, state.length + UInt64.ofNat (512 * n)⟩

/-- One block makes the state that `sha1_nextBlock` leaves. -/
theorem steps : Steps sha1NextBlock Sha1CtxT.after where
  zero state bytes := by
    show (⟨state.h, state.length + 0⟩ : Sha1CtxT) = state
    rw [UInt64.add_zero]
  succ state n bytes := by
    have hLength : state.length + UInt64.ofNat (512 * (n + 1)) =
        state.length + 512 + UInt64.ofNat (512 * n) := by
      rw [Nat.mul_succ, Nat.add_comm, UInt64.ofNat_add, ← UInt64.add_assoc]
      rfl
    rw [Sha1CtxT.after, hLength]
    rfl
  next state bytes hBytes := by
    rw [sha1NextBlock_eq state hBytes, ← compress_take]
    rfl
  take state bytes := by
    show (⟨compress state.h ((bytes.take 64).take 64), _⟩ : Sha1CtxT) =
      ⟨compress state.h (bytes.take 64), _⟩
    rw [compress_take]

theorem sha1Loop_eq (s : Sha1CtxT) (msg : List UInt8) (length : UInt32)
    (hLength : length.toNat ≤ 8 * msg.length) :
    sha1Loop s msg length = some (s.after (length.toNat / 512) msg,
      msg.drop (64 * (length.toNat / 512)), UInt32.ofNat (length.toNat % 512)) := by
  induction hq : length.toNat / 512 generalizing s msg length with
  | zero =>
      have hWhole : ¬ length &&& 0xfffffe00 ≠ 0 := fun h => by
        have := more_iff.mp h
        omega
      rw [sha1Loop, dif_neg hWhole, steps.zero, Nat.mod_eq_of_lt (by omega), UInt32.ofNat_toNat]
      rfl
  | succ n ih =>
      have hSub := UInt32.toNat_sub_of_le length 512
        (UInt32.le_iff_toNat_le.mpr (by show 512 ≤ length.toNat; omega))
      change (length - 512).toNat = length.toNat - 512 at hSub
      have hRest := ih (s.after 1 msg) (msg.drop 64) (length - 512)
        (by rw [List.length_drop, hSub]; omega) (by omega)
      rw [sha1Loop, dif_pos (more_iff.mpr (by omega)), steps.next s msg (by omega),
        steps.succ s n, drop_succ_blocks]
      simp only [Option.bind_eq_bind, Option.bind_some, hRest, hSub]
      rw [show (length.toNat - 512) % 512 = length.toNat % 512 by omega]

/-- The length stands in the last eight bytes, the highest first. -/
theorem lengthTurns (length : UInt64) {lb : List UInt8} (hlb : lb.length = 64) :
    (List.range 8).foldlM (lengthTurn length) lb =
      some (lb.take 56 ++ beBytes 8 length.toNat) := by
  have hField := length_beBytes 8 length.toNat
  obtain ⟨out, hLoop, hOut⟩ := foldlM_range (f := lengthTurn length) (n := 8) (s := lb)
    (fun i out => out = lb.take 56 ++ ((beBytes 8 length.toNat).take i ++ lb.drop (56 + i)))
    (by rw [List.take_zero, List.nil_append, Nat.add_zero, List.take_append_drop])
    fun i out hi hOut => by
      have hIn : i < (beBytes 8 length.toNat).length := by omega
      have hByte : (leBytes 8 length.toNat)[7 - i]? = some (beBytes 8 length.toNat)[i] := by
        rw [← List.getElem?_eq_getElem hIn, beBytes, List.getElem?_reverse (by simpa using hi),
          length_leBytes]
      have hBack : lb.drop (56 + i) = lb[56 + i] :: lb.drop (56 + (i + 1)) :=
        List.drop_eq_getElem_cons (by omega)
      have hTake : (beBytes 8 length.toNat).take (i + 1) =
          (beBytes 8 length.toNat).take i ++ [(beBytes 8 length.toNat)[i]] :=
        List.take_succ_eq_append_getElem (by omega)
      have hFront : (lb.take 56).length = 56 := by
        rw [List.length_take]
        omega
      have hMiddle : ((beBytes 8 length.toNat).take i).length = i := by
        rw [List.length_take]
        omega
      refine ⟨_, ?_, rfl⟩
      subst hOut
      rw [lengthTurn, hByte]
      simp only [Option.bind_eq_bind, Option.bind_some, Option.pure_def]
      rw [if_pos (by simp only [List.length_append, List.length_take, List.length_drop]; omega),
        List.set_append_right _ _ (by omega), hFront, Nat.add_sub_cancel_left,
        List.set_append_right _ _ (by omega), hMiddle, Nat.sub_self, hBack, List.set_cons_zero,
        hTake, List.append_assoc, List.singleton_append]
  rw [hLoop, hOut, List.drop_of_length_le (by omega : lb.length ≤ 56 + 8), List.append_nil,
    List.take_of_length_le (by omega : (beBytes 8 length.toNat).length ≤ 8)]

/-- The block with the rest of the message and the bit behind it. -/
theorem mark_eq (tail : List UInt8) {r : Nat} (hr : r < 512) (hLength : r ≤ 8 * tail.length) :
    ∃ byte, (tail.take ((r + 7) >>> 3) ++ List.replicate (64 - (r + 7) >>> 3) 0)[r >>> 3]? =
        some byte ∧
      (tail.take ((r + 7) >>> 3) ++ List.replicate (64 - (r + 7) >>> 3) 0).set (r >>> 3)
        (byte ||| 0x80 >>> UInt8.ofNat (r &&& 0x07)) = marked tail r := by
  have hMod : r &&& 0x07 = r % 8 := Nat.and_two_pow_sub_one_eq_mod r 3
  have hDiv : r >>> 3 = r / 8 := Nat.shiftRight_eq_div_pow r 3
  have hUp : (r + 7) >>> 3 = (r + 7) / 8 := Nat.shiftRight_eq_div_pow (r + 7) 3
  have hFront : (tail.take (r / 8)).length = r / 8 := by
    rw [List.length_take]
    omega
  have hSplit : tail.take ((r + 7) / 8) ++ List.replicate (64 - (r + 7) / 8) 0 =
      tail.take (r / 8) ++ (if r % 8 = 0 then 0 else tail.getD (r / 8) 0) ::
        List.replicate (63 - r / 8) 0 := by
    by_cases hWhole : r % 8 = 0
    · rw [if_pos hWhole, show (r + 7) / 8 = r / 8 by omega,
        show 64 - r / 8 = 63 - r / 8 + 1 by omega, List.replicate_succ]
    · have hIn : r / 8 < tail.length := by omega
      rw [if_neg hWhole, show (r + 7) / 8 = r / 8 + 1 by omega,
        show 64 - (r / 8 + 1) = 63 - r / 8 by omega, List.getD_eq_getElem _ _ hIn,
        List.take_succ_eq_append_getElem hIn, List.append_assoc, List.singleton_append]
  refine ⟨if r % 8 = 0 then 0 else tail.getD (r / 8) 0, ?_, ?_⟩
  · rw [hUp, hDiv, hSplit, List.getElem?_append_right (by omega), hFront, Nat.sub_self]
    rfl
  · rw [hUp, hDiv, hMod, hSplit, List.set_append_right _ _ (by omega), hFront, Nat.sub_self,
      List.set_cons_zero, marked, lastByte]

/-- The last call closes the message, if the counter says how long it is. -/
theorem sha1LastBlock_eq (state : Sha1CtxT) {block : List UInt8} {length : UInt16} {total : Nat}
    (hLength : length.toNat ≤ 8 * block.length) (hFits : total < 2 ^ 64)
    (hTotal : state.length + UInt64.ofNat length.toNat = UInt64.ofNat total) :
    ∃ s, sha1LastBlock state block length = some s ∧
      s.h = standard.absorb (standard.absorb state.h (length.toNat / 512) block)
        (if length.toNat % 512 ≤ 447 then 1 else 2)
        (standard.closing (block.drop (64 * (length.toNat / 512))) (length.toNat % 512) total) := by
  generalize hn : length.toNat = n at *
  have hr : n % 512 < 512 := Nat.mod_lt _ (by omega)
  have hRest : n % 512 ≤ 8 * (block.drop (64 * (n / 512))).length := by
    rw [List.length_drop]
    omega
  obtain ⟨byte, hByte, hMark⟩ := mark_eq _ hr hRest
  have hSize := length_marked hRest hr
  have hUp : (n % 512 + 7) >>> 3 = (n % 512 + 7) / 8 := Nat.shiftRight_eq_div_pow _ 3
  have hRead : ¬ (block.drop (64 * (n / 512))).length < (n % 512 + 7) >>> 3 := by
    rw [hUp]
    omega
  have hCount : (state.after (n / 512) block).length + UInt64.ofNat (n % 512) =
      UInt64.ofNat total := by
    rw [← hTotal, ← Nat.div_add_mod n 512, Sha1CtxT.after, UInt64.add_assoc, ← UInt64.ofNat_add,
      Nat.div_add_mod]
  have hField : (UInt64.ofNat total).toNat = total := UInt64.toNat_ofNat_of_lt hFits
  have hLoop := wholeBlocks_eq steps state block n hLength
  have hClosing := standard.absorb_closing (standard.absorb state.h (n / 512) block) total hRest hr
  rw [sha1LastBlock, hn]
  simp only [lastBlockLoop, hLoop, Option.bind_eq_bind, Option.bind_some, if_neg hRead, hByte,
    hMark, hCount]
  by_cases hOne : n % 512 ≤ 447
  · have hMore : ¬ n % 512 > 512 - 64 - 1 := by omega
    have hLast := @sha1NextBlock_eq
      ((marked (block.drop (64 * (n / 512))) (n % 512)).take 56 ++ beBytes 8 total)
      ⟨standard.absorb state.h (n / 512) block, UInt64.ofNat total⟩
      (by rw [List.length_append, List.length_take, length_beBytes]; omega)
    simp only [if_neg hMore, Option.bind_some, pure, lengthTurns _ hSize, hField]
    exact ⟨_, hLast, (hClosing.trans (if_pos hOne)).symm⟩
  · have hMore : n % 512 > 512 - 64 - 1 := by omega
    have hFirst := @sha1NextBlock_eq (marked (block.drop (64 * (n / 512))) (n % 512))
      ⟨standard.absorb state.h (n / 512) block, UInt64.ofNat total⟩ (by omega)
    have hLast := fun h => @sha1NextBlock_eq ((List.replicate 64 0).take 56 ++ beBytes 8 total)
      ⟨h, UInt64.ofNat total⟩
      (by rw [List.length_append, List.length_take, length_beBytes, List.length_replicate]; omega)
    have hZeros := lengthTurns (UInt64.ofNat total) (List.length_replicate (n := 64) (a := 0))
    simp only [if_pos hMore, Sha1CtxT.after, hFirst, Option.bind_some, pure,
      UInt64.add_sub_cancel, hZeros, hField, hLast]
    exact ⟨_, rfl, (hClosing.trans (if_neg hOne)).symm⟩

/-- The hash is stored with the highest byte of each word first. -/
theorem sha1Ctx2hash_eq (state : Sha1CtxT) : sha1Ctx2hash state = hashBytes state.h := by
  have hWord : ∀ h : UInt32, leBytes 4 (changeEndian32 h).toNat = beBytes 4 h.toNat := by
    intro h
    have hBytes : ∃ b0 b1 b2 b3, leBytes 4 h.toNat = [b0, b1, b2, b3] := ⟨_, _, _, _, rfl⟩
    obtain ⟨b0, b1, b2, b3, hBytes⟩ := hBytes
    have hValue : leValue [b0, b1, b2, b3] = h.toNat := by
      rw [← hBytes]
      exact leValue_leBytes h.toNat_lt
    have hBe : beValue [b0, b1, b2, b3] =
        b3.toNat + 256 * (b2.toNat + 256 * (b1.toNat + 256 * b0.toNat)) := rfl
    have h0 := b0.toNat_lt
    have h1 := b1.toNat_lt
    have h2 := b2.toNat_lt
    have h3 := b3.toNat_lt
    have hSwap := changeEndian32_word b0 b1 b2 b3
    rw [hValue, UInt32.ofNat_toNat] at hSwap
    rw [hSwap, UInt32.toNat_ofNat',
      Nat.mod_eq_of_lt (by omega : beValue [b0, b1, b2, b3] < 2 ^ 32), beBytes, hBytes]
    exact leBytes_leValue [b3, b2, b1, b0]
  rw [sha1Ctx2hash, hashBytes]
  simp only [hWord]

/-- `sha1` gives the digest of every message, whatever its number of bits, if the bits of its last
byte behind the message are zero: `sha1_lastBlock` puts the end mark to them without clearing them.
-/
theorem sha1_digest (msg : List UInt8) (length : UInt32) (hLength : length.toNat ≤ 8 * msg.length)
    (hClean : Clean msg length.toNat) :
    sha1 msg length = some (hashBytes (standard.digest ((bits msg).take length.toNat))) := by
  have hLt := length.toNat_lt
  have hRest : (UInt32.ofNat (length.toNat % 512)).toUInt16.toNat = length.toNat % 512 := by
    rw [UInt32.toNat_toUInt16, UInt32.toNat_ofNat']
    omega
  have hTotal : (sha1Init.after (length.toNat / 512) msg).length +
      UInt64.ofNat (length.toNat % 512) = UInt64.ofNat length.toNat := by
    show 0 + UInt64.ofNat (512 * (length.toNat / 512)) + _ = _
    rw [UInt64.zero_add, ← UInt64.ofNat_add, Nat.div_add_mod]
  obtain ⟨s, hLast, hs⟩ := @sha1LastBlock_eq (sha1Init.after (length.toNat / 512) msg)
    (msg.drop (64 * (length.toNat / 512))) (UInt32.ofNat (length.toNat % 512)).toUInt16
    length.toNat (by rw [hRest, List.length_drop]; omega) (by omega) (by rw [hRest, hTotal])
  rw [hRest, Nat.div_eq_of_lt (Nat.mod_lt _ (by omega)), Nat.mod_mod] at hs
  rw [sha1, sha1Loop_eq sha1Init msg length hLength]
  simp only [Option.bind_eq_bind, Option.bind_some, hLast, Option.pure_def]
  rw [sha1Ctx2hash_eq, hs, digest_eq standard hLength hClean]
  rfl

/-- The digest of `abc`. -/
theorem sha1_digest_abc : sha1 (ascii "abc") 24 =
    some (hashBytes (standard.digest ((bits (ascii "abc")).take 24))) :=
  sha1_digest (ascii "abc") 24 (by decide) (clean_bytes (ascii "abc") 3)

example : sha1 (ascii "abc") 24 = some [0xa9, 0x99, 0x3e, 0x36, 0x47, 0x06, 0x81, 0x6a, 0xba, 0x3e,
    0x25, 0x71, 0x78, 0x50, 0xc2, 0x6c, 0x9c, 0xd0, 0xd8, 0x9d] := by
  rw [sha1, sha1Loop, dif_neg (by decide)]
  simp only [Option.bind_eq_bind, Option.bind_some]
  rw [sha1LastBlock, lastBlockLoop, wholeBlocks, if_neg (by decide)]
  decide +kernel

/-! ## A message in pieces -/

/-- However many blocks of a message come first, and however many bits the last call gets, the
calls give the digest of the whole message. -/
theorem sha1_stream {blocks : List (List UInt8)} (hBlocks : ∀ block ∈ blocks, block.length = 64)
    (tail : List UInt8) (length : UInt16) (hLength : length.toNat ≤ 8 * tail.length)
    (hClean : Clean tail length.toNat) (hFits : 512 * blocks.length + length.toNat < 2 ^ 64) :
    ((nextBlocks sha1NextBlock sha1Init blocks).bind fun state =>
        sha1LastBlock state tail length).map sha1Ctx2hash =
      some (hashBytes (standard.digest
        (bits blocks.flatten ++ (bits tail).take length.toNat))) := by
  have hSize := length_flatten_blocks hBlocks
  have hTotal : (sha1Init.after blocks.length blocks.flatten).length +
      UInt64.ofNat length.toNat = UInt64.ofNat (512 * blocks.length + length.toNat) := by
    show 0 + UInt64.ofNat (512 * blocks.length) + _ = _
    rw [UInt64.zero_add, ← UInt64.ofNat_add]
  obtain ⟨s, hLast, hs⟩ := sha1LastBlock_eq _ hLength hFits hTotal
  rw [nextBlocks_eq steps sha1Init hBlocks, Option.bind_some, hLast, Option.map_some,
    sha1Ctx2hash_eq, hs, digest_append standard hSize hLength hClean]
  rfl

/-- One block of zeros before `abc`. -/
theorem sha1_stream_abc :
    ((nextBlocks sha1NextBlock sha1Init [List.replicate 64 0]).bind fun state =>
        sha1LastBlock state (ascii "abc") 24).map sha1Ctx2hash =
      some (hashBytes (standard.digest
        (bits [List.replicate 64 0].flatten ++ (bits (ascii "abc")).take (24 : UInt16).toNat))) :=
  sha1_stream (by simp) (ascii "abc") 24 (by decide) (clean_bytes (ascii "abc") 3) (by decide)

end Gbase.Util.Sha1
