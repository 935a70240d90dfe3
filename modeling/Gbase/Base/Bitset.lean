import Gbase.Lib.Answers
import Mathlib.Data.Finset.Card
import Mathlib.Data.List.GetD
import Mathlib.Data.Nat.Count

/-!
# The set of bits (`base/bitset.c`)

Reading or storing outside of `data` is undefined, `none`.  The handle is not `NULL`, and its memory
was allocated.

The bytes of `data` hold more bits than the size asks for when it is not a multiple of eight.  No
call sets a spare one, but `bit_count` reads whole bytes; that the spare bits stay zero is therefore
part of the invariant, and has to be proved of every call.

## Main results

* `bitCount_eq`: the table of nibbles counts the bits.
* `bit_run`: in every run the bits are a finite set of numbers below the size.
-/

namespace Gbase.Base.Bitset

open Gbase.Lib.Answers
open Gbase.Lib.Run

/-- `bit_t` -/
structure BitT where
  data : List UInt8
  bitSize : Int
  byteSize : Int

/-- `INT_MAX` -/
def intMax : Int := 2147483647

/-- `BIT_BYTES`; the mask takes the remainder by eight away. -/
def bitBytes (len : Int) : Int := (len + 8 - 1 - (len + 8 - 1) % 8) / 8

/-- `bit_create`, where the size can be rounded up and is not negative. -/
def bitCreate (size : Int) : Option BitT :=
  if 0 ≤ size ∧ size + 8 - 1 ≤ intMax then
    some ⟨List.replicate (bitBytes size).toNat 0, size, bitBytes size⟩
  else none

/-- `data[index / 8]` with an operation on it. -/
def BitT.store (bit : BitT) (index : Nat) (f : UInt8 → UInt8) : Option BitT := do
  let byte ← bit.data[index / 8]?
  return { bit with data := bit.data.set (index / 8) (f byte) }

/-- `1 << (index % 8)` -/
def flag (index : Nat) : UInt8 := 1 <<< UInt8.ofNat (index % 8)

/-- `bit_set` -/
def bitSet (bit : BitT) (index : Int) : Option BitT :=
  if index < 0 ∨ index ≥ bit.bitSize then some bit
  else bit.store index.toNat (· ||| flag index.toNat)

/-- `bit_reset` -/
def bitReset (bit : BitT) (index : Int) : Option BitT :=
  if index < 0 ∨ index ≥ bit.bitSize then some bit
  else bit.store index.toNat (· &&& ~~~flag index.toNat)

/-- `bit_isset` -/
def bitIsset (bit : BitT) (index : Int) : Option Int :=
  if index < 0 ∨ index ≥ bit.bitSize then some (-1)
  else do
    let byte ← bit.data[index.toNat / 8]?
    return if byte &&& flag index.toNat ≠ 0 then 0 else -1

/-- `count` -/
def countTable : List Int := [0, 1, 1, 2, 1, 2, 2, 3, 1, 2, 2, 3, 2, 3, 3, 4]

/-- One turn of the loop of `bit_count`. -/
def countTurn (bit : BitT) (sum : Int) (index : Nat) : Option Int := do
  let byte ← bit.data[index]?
  return sum + ((← countTable[(byte &&& 0x0f).toNat]?) + (← countTable[(byte >>> 4).toNat]?))

/-- `bit_count` -/
def bitCount (bit : BitT) : Option Int :=
  (List.range bit.byteSize.toNat).foldlM (countTurn bit) 0

/-! ## Single bits -/

/-- The bit of an index. -/
def bitAt (data : List UInt8) (i : Nat) : Bool := (data.getD (i / 8) 0).toNat.testBit (i % 8)

private theorem flag_bit (i : Nat) {k : Nat} (hk : k < 8) :
    (flag i).toNat.testBit k = decide (k = i % 8) := by
  have hAll : ∀ r, r < 8 → ∀ k, k < 8 →
      (1 <<< UInt8.ofNat r : UInt8).toNat.testBit k = decide (k = r) := by decide
  exact hAll (i % 8) (Nat.mod_lt i (by decide)) k hk

private theorem not_flag_bit (i : Nat) {k : Nat} (hk : k < 8) :
    (~~~flag i).toNat.testBit k = decide (k ≠ i % 8) := by
  have hAll : ∀ r, r < 8 → ∀ k, k < 8 →
      (~~~(1 <<< UInt8.ofNat r : UInt8)).toNat.testBit k = decide (k ≠ r) := by decide
  exact hAll (i % 8) (Nat.mod_lt i (by decide)) k hk

section
variable {data : List UInt8} {i : Nat}

/-- A store to the byte of an index, bit by bit. -/
theorem bitAt_set (hi : i / 8 < data.length) (byte : UInt8) (j : Nat) :
    bitAt (data.set (i / 8) byte) j =
      if j / 8 = i / 8 then byte.toNat.testBit (j % 8) else bitAt data j := by
  rw [bitAt, bitAt, List.getD_eq_getElem?_getD, List.getD_eq_getElem?_getD]
  by_cases hSame : j / 8 = i / 8
  · rw [if_pos hSame, hSame, List.getElem?_set_self hi, Option.getD_some]
  · rw [if_neg hSame, List.getElem?_set_ne (Ne.symm hSame)]

private theorem bitAt_insert (hi : i / 8 < data.length) (j : Nat) :
    bitAt (data.set (i / 8) (data[i / 8] ||| flag i)) j = (decide (j = i) || bitAt data j) := by
  have hk : j % 8 < 8 := Nat.mod_lt j (by decide)
  rw [bitAt_set hi]
  by_cases hByte : j / 8 = i / 8
  · have hIndex : j % 8 = i % 8 ↔ j = i := by omega
    rw [if_pos hByte, UInt8.toNat_or, Nat.testBit_or, flag_bit i hk, bitAt, hByte,
      List.getD_eq_getElem _ _ hi, decide_eq_decide.mpr hIndex, Bool.or_comm]
  · have hNe : j ≠ i := fun h => hByte (by rw [h])
    rw [if_neg hByte, decide_eq_false hNe, Bool.false_or]

private theorem bitAt_erase (hi : i / 8 < data.length) (j : Nat) :
    bitAt (data.set (i / 8) (data[i / 8] &&& ~~~flag i)) j = (decide (j ≠ i) && bitAt data j) := by
  have hk : j % 8 < 8 := Nat.mod_lt j (by decide)
  rw [bitAt_set hi]
  by_cases hByte : j / 8 = i / 8
  · have hIndex : j % 8 ≠ i % 8 ↔ j ≠ i := by omega
    rw [if_pos hByte, UInt8.toNat_and, Nat.testBit_and, not_flag_bit i hk, bitAt, hByte,
      List.getD_eq_getElem _ _ hi, decide_eq_decide.mpr hIndex, Bool.and_comm]
  · have hNe : j ≠ i := fun h => hByte (by rw [h])
    rw [if_neg hByte, decide_eq_true hNe, Bool.true_and]

/-- The test of a bit by its flag. -/
theorem and_flag (byte : UInt8) (i : Nat) :
    byte &&& flag i ≠ 0 ↔ byte.toNat.testBit (i % 8) = true := by
  have hAll : ∀ r, r < 8 → ∀ b, b < 256 →
      (UInt8.ofNat b &&& 1 <<< UInt8.ofNat r ≠ 0 ↔ b.testBit r = true) := by decide +kernel
  have h := hAll (i % 8) (Nat.mod_lt i (by decide)) byte.toNat byte.toNat_lt
  rwa [UInt8.ofNat_toNat] at h

/-- The table counts the bits of a byte. -/
theorem countTable_byte (byte : UInt8) : ∃ x y,
    countTable[(byte &&& 0x0f).toNat]? = some x ∧ countTable[(byte >>> 4).toNat]? = some y ∧
      x + y = Nat.count (fun k => byte.toNat.testBit k = true) 8 := by
  have hAll : ∀ b, b < 256 → countTable[(UInt8.ofNat b &&& 0x0f).toNat]? =
        some (countTable.getD (b % 16) 0) ∧
      countTable[(UInt8.ofNat b >>> 4).toNat]? = some (countTable.getD (b / 16) 0) ∧
      countTable.getD (b % 16) 0 + countTable.getD (b / 16) 0 =
        Nat.count (fun k => b.testBit k = true) 8 := by decide +kernel
  have h := hAll byte.toNat byte.toNat_lt
  rw [UInt8.ofNat_toNat] at h
  exact ⟨_, _, h⟩

end

/-! ## The set -/

/-- The bits that are set are those of a finite set of numbers below the size. -/
structure Represents (size : Int) (bit : BitT) (s : Finset Nat) : Prop where
  bitSize : bit.bitSize = size
  byteSize : bit.byteSize = bitBytes size
  length : (bit.data.length : Int) = bitBytes size
  below : ∀ i, i ∈ s → (i : Int) < size
  bits : ∀ i, bitAt bit.data i = true ↔ i ∈ s

section
variable {size : Int} {bit : BitT} {s : Finset Nat}

theorem bitBytes_eq (size : Int) : 8 * bitBytes size = size + 7 - (size + 7) % 8 := by
  rw [bitBytes]
  omega

theorem Represents.inside (h : Represents size bit s) {index : Int}
    (hIndex : ¬ (index < 0 ∨ index ≥ bit.bitSize)) : index.toNat / 8 < bit.data.length := by
  have hSize := bitBytes_eq size
  have hLength := h.length
  rw [h.bitSize] at hIndex
  omega

private theorem bitCreate_represents (hSize : 0 ≤ size) (hFits : size + 8 - 1 ≤ intMax) :
    ∃ bit, bitCreate size = some bit ∧ Represents size bit ∅ := by
  have hBytes := bitBytes_eq size
  refine ⟨_, if_pos ⟨hSize, hFits⟩, rfl, rfl, ?_, fun i hi => absurd hi (Finset.notMem_empty i),
    fun i => ?_⟩
  · rw [List.length_replicate]
    omega
  · have hZero : (List.replicate (bitBytes size).toNat (0 : UInt8)).getD (i / 8) 0 = 0 := by
      rw [List.getD_eq_getElem?_getD, List.getElem?_replicate]
      split <;> rfl
    rw [bitAt, hZero]
    simp

private theorem bitSet_represents (h : Represents size bit s) (index : Int) :
    ∃ bit', bitSet bit index = some bit' ∧ Represents size bit'
      (if 0 ≤ index ∧ index < size then insert index.toNat s else s) := by
  by_cases hIndex : index < 0 ∨ index ≥ bit.bitSize
  · refine ⟨bit, if_pos hIndex, ?_⟩
    rw [h.bitSize] at hIndex
    rw [if_neg (by omega)]
    exact h
  · have hIn := h.inside hIndex
    refine ⟨⟨bit.data.set (index.toNat / 8) (bit.data[index.toNat / 8] ||| flag index.toNat),
      bit.bitSize, bit.byteSize⟩, ?_, ?_⟩
    · rw [bitSet, if_neg hIndex, BitT.store, List.getElem?_eq_getElem hIn]
      rfl
    · rw [h.bitSize] at hIndex
      rw [if_pos (by omega)]
      refine ⟨h.bitSize, h.byteSize, by rw [List.length_set, h.length], fun i hi => ?_, fun i => ?_⟩
      · rcases Finset.mem_insert.mp hi with rfl | hOld
        · omega
        · exact h.below i hOld
      · rw [bitAt_insert hIn, Bool.or_eq_true, decide_eq_true_iff, h.bits, Finset.mem_insert]

private theorem bitReset_represents (h : Represents size bit s) (index : Int) :
    ∃ bit', bitReset bit index = some bit' ∧ Represents size bit'
      (if 0 ≤ index ∧ index < size then s.erase index.toNat else s) := by
  by_cases hIndex : index < 0 ∨ index ≥ bit.bitSize
  · refine ⟨bit, if_pos hIndex, ?_⟩
    rw [h.bitSize] at hIndex
    rw [if_neg (by omega)]
    exact h
  · have hIn := h.inside hIndex
    refine ⟨⟨bit.data.set (index.toNat / 8) (bit.data[index.toNat / 8] &&& ~~~flag index.toNat),
      bit.bitSize, bit.byteSize⟩, ?_, ?_⟩
    · rw [bitReset, if_neg hIndex, BitT.store, List.getElem?_eq_getElem hIn]
      rfl
    · rw [h.bitSize] at hIndex
      rw [if_pos (by omega)]
      refine ⟨h.bitSize, h.byteSize, by rw [List.length_set, h.length], fun i hi => ?_, fun i => ?_⟩
      · exact h.below i (Finset.mem_of_mem_erase hi)
      · rw [bitAt_erase hIn, Bool.and_eq_true, decide_eq_true_iff, h.bits, Finset.mem_erase]

theorem bitIsset_eq (h : Represents size bit s) (index : Int) :
    bitIsset bit index = some (if 0 ≤ index ∧ index.toNat ∈ s then 0 else -1) := by
  by_cases hIndex : index < 0 ∨ index ≥ bit.bitSize
  · have hOut : ¬ (0 ≤ index ∧ index.toNat ∈ s) := by
      rintro ⟨hLow, hIn⟩
      have := h.below _ hIn
      rw [h.bitSize] at hIndex
      omega
    rw [bitIsset, if_pos hIndex, if_neg hOut]
  · have hIn := h.inside hIndex
    have hLow : 0 ≤ index := by omega
    have hBit : bit.data[index.toNat / 8] &&& flag index.toNat ≠ 0 ↔ index.toNat ∈ s := by
      rw [and_flag, ← h.bits, bitAt, List.getD_eq_getElem _ _ hIn]
    rw [bitIsset, if_neg hIndex, List.getElem?_eq_getElem hIn]
    simp only [Option.bind_eq_bind, Option.bind_some, Option.pure_def, hBit, hLow, true_and]

/-- The bits of a byte, counted among the others. -/
theorem count_byte (data : List UInt8) (n : Nat) (byte : UInt8) (hByte : data[n]? = some byte) :
    Nat.count (fun i => bitAt data i = true) (8 * (n + 1)) =
      Nat.count (fun i => bitAt data i = true) (8 * n) +
        Nat.count (fun k => byte.toNat.testBit k = true) 8 := by
  have hBit : ∀ k, k < 8 → bitAt data (8 * n + k) = byte.toNat.testBit k := by
    intro k hk
    rw [bitAt, show (8 * n + k) / 8 = n by omega, show (8 * n + k) % 8 = k by omega,
      List.getD_eq_getElem?_getD, hByte, Option.getD_some]
  rw [Nat.mul_succ, Nat.count_add]
  congr 1
  simp only [Nat.count_succ, Nat.count_zero, hBit 0 (by decide), hBit 1 (by decide),
    hBit 2 (by decide), hBit 3 (by decide), hBit 4 (by decide), hBit 5 (by decide),
    hBit 6 (by decide), hBit 7 (by decide), Nat.zero_add]

/-- `bit_count` is the number of elements. -/
theorem bitCount_eq (h : Represents size bit s) : bitCount bit = some (s.card : Int) := by
  have hLength : bit.byteSize.toNat = bit.data.length := by
    rw [h.byteSize, ← h.length, Int.toNat_natCast]
  obtain ⟨sum, hLoop, hSum⟩ := foldlM_range (f := countTurn bit) (n := bit.data.length) (s := 0)
    (fun n sum => sum = Nat.count (fun i => bitAt bit.data i = true) (8 * n)) (by simp)
    fun n sum hn hSum => by
      obtain ⟨x, y, hx, hy, hCount⟩ := countTable_byte bit.data[n]
      have hByte := List.getElem?_eq_getElem hn
      refine ⟨sum + (x + y), ?_, ?_⟩
      · rw [countTurn, hByte]
        simp only [Option.bind_eq_bind, Option.bind_some, hx, hy, Option.pure_def]
      · rw [count_byte _ _ _ hByte, hSum, hCount, Int.natCast_add]
  have hSet :
      (Finset.range (8 * bit.data.length)).filter (fun i => bitAt bit.data i = true) = s := by
    ext i
    rw [Finset.mem_filter, Finset.mem_range, h.bits]
    refine ⟨fun hi => hi.2, fun hi => ⟨?_, hi⟩⟩
    have hBelow := h.below i hi
    have hBytes := bitBytes_eq size
    have hAll := h.length
    omega
  rw [bitCount, hLength, hLoop, hSum, Nat.count_eq_card_filter_range, hSet]

/-! ## Runs -/

/-- A call. -/
inductive BitOp where
  | set (index : Int)
  | reset (index : Int)
  | isset (index : Int)
  | count

/-- What a call does and returns. -/
def bitStep : Step BitT BitOp Int
  | bit, .set index => (bitSet bit index).map fun bit => (0, bit)
  | bit, .reset index => (bitReset bit index).map fun bit => (0, bit)
  | bit, .isset index => (bitIsset bit index).map fun ret => (ret, bit)
  | bit, .count => (bitCount bit).map fun ret => (ret, bit)

/-- The same call on a set. -/
def setStep (size : Int) (s : Finset Nat) : BitOp → Int × Finset Nat
  | .set index => (0, if 0 ≤ index ∧ index < size then insert index.toNat s else s)
  | .reset index => (0, if 0 ≤ index ∧ index < size then s.erase index.toNat else s)
  | .isset index => (if 0 ≤ index ∧ index.toNat ∈ s then 0 else -1, s)
  | .count => (s.card, s)

private theorem bit_implements (size : Int) :
    Implements bitStep (setStep size) (Represents size) := by
  intro bit s op h
  cases op with
  | set index =>
      obtain ⟨bit', hSet, hNext⟩ := bitSet_represents h index
      exact ⟨bit', by rw [bitStep, hSet]; rfl, hNext⟩
  | reset index =>
      obtain ⟨bit', hReset, hNext⟩ := bitReset_represents h index
      exact ⟨bit', by rw [bitStep, hReset]; rfl, hNext⟩
  | isset index => exact ⟨bit, by rw [bitStep, bitIsset_eq h]; rfl, h⟩
  | count => exact ⟨bit, by rw [bitStep, bitCount_eq h]; rfl, h⟩

end

/-- In every run from `bit_create` on, whatever the indices are, no call leaves the array, and the
results are those of a set of numbers below the size. -/
theorem bit_run {size : Int} (hSize : 0 ≤ size) (hFits : size + 8 - 1 ≤ intMax)
    (ops : List BitOp) : ∃ bit last, bitCreate size = some bit ∧
      run bitStep bit ops = some (answers (setStep size) ∅ ops, last) := by
  obtain ⟨bit, hCreate, h⟩ := bitCreate_represents hSize hFits
  obtain ⟨last, hRun⟩ := (bit_implements size).run h ops
  exact ⟨bit, last, hCreate, hRun⟩

/-- Twelve bits. -/
theorem bit_run_twelve : ∃ bit last, bitCreate 12 = some bit ∧
    run bitStep bit [.set 11, .set 3, .set 12, .reset 3, .isset 11, .count] =
      some (answers (setStep 12) ∅ [.set 11, .set 3, .set 12, .reset 3, .isset 11, .count], last) :=
  bit_run (by decide) (by decide) _

end Gbase.Base.Bitset
