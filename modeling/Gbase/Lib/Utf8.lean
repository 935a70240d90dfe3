import Mathlib.Algebra.Group.Nat.Defs
import Mathlib.Tactic.SplitIfs

/-!
# UTF-8 of up to six bytes

A lead byte tells by its high bits how many bytes encode a code point, and holds the highest bits
of it; each further byte holds six more.  A byte of the form 10xxxxxx, and the bytes 0xfe and 0xff,
lead nothing.

The form with up to six bytes is the older one, for code points below `2 ^ 31`.  The number of bytes
is found from the size of the code point, and all bytes but the first one are its last digits to the
base 64.

## Main results

* `encode_spec`: the parts that the encoding of a code point has.
-/

namespace Gbase.Lib.Utf8

/-- How many bytes a lead byte announces, itself included; none if it is no lead byte. -/
def units (c : UInt8) : Nat :=
  if c < 0x80 then 1
  else if c < 0xc0 then 0
  else if c < 0xe0 then 2
  else if c < 0xf0 then 3
  else if c < 0xf8 then 4
  else if c < 0xfc then 5
  else if c < 0xfe then 6
  else 0

/-- The last `n` bytes of a code point, with six bits each. -/
def tail : Nat → Nat → List UInt8
  | 0, _ => []
  | n + 1, cp => UInt8.ofNat (0x80 + cp / 64 ^ n % 64) :: tail n cp

/-- The encoding of a code point below 2 ^ 31. -/
def encode (cp : Nat) : List UInt8 :=
  if cp < 0x80 then [UInt8.ofNat cp]
  else if cp < 0x800 then UInt8.ofNat (0xc0 + cp / 64) :: tail 1 cp
  else if cp < 0x10000 then UInt8.ofNat (0xe0 + cp / 64 ^ 2) :: tail 2 cp
  else if cp < 0x200000 then UInt8.ofNat (0xf0 + cp / 64 ^ 3) :: tail 3 cp
  else if cp < 0x4000000 then UInt8.ofNat (0xf8 + cp / 64 ^ 4) :: tail 4 cp
  else UInt8.ofNat (0xfc + cp / 64 ^ 5) :: tail 5 cp

theorem length_tail (n cp : Nat) : (tail n cp).length = n := by
  induction n with
  | zero => rfl
  | succ n ih => rw [tail, List.length_cons, ih]

/-- Where the lead bytes of each length lie. -/
theorem units_eq (c : UInt8) :
    units c =
      if c.toNat < 0x80 then 1
      else if c.toNat < 0xc0 then 0
      else if c.toNat < 0xe0 then 2
      else if c.toNat < 0xf0 then 3
      else if c.toNat < 0xf8 then 4
      else if c.toNat < 0xfc then 5
      else if c.toNat < 0xfe then 6
      else 0 := by
  simp only [units, UInt8.lt_iff_toNat_lt]
  rfl

/-- The six kinds of lead bytes, and the others. -/
theorem units_cases (c : UInt8) :
    (units c = 1 ∧ c.toNat < 0x80) ∨ (units c = 2 ∧ 0xc0 ≤ c.toNat ∧ c.toNat < 0xe0) ∨
      (units c = 3 ∧ 0xe0 ≤ c.toNat ∧ c.toNat < 0xf0) ∨
      (units c = 4 ∧ 0xf0 ≤ c.toNat ∧ c.toNat < 0xf8) ∨
      (units c = 5 ∧ 0xf8 ≤ c.toNat ∧ c.toNat < 0xfc) ∨
      (units c = 6 ∧ 0xfc ≤ c.toNat ∧ c.toNat < 0xfe) ∨
      (units c = 0 ∧ 0x80 ≤ c.toNat ∧ (c.toNat < 0xc0 ∨ 0xfe ≤ c.toNat)) := by
  rw [units_eq]
  generalize c.toNat = k
  split_ifs <;> omega

/-- What a lead byte has to be for the code point behind it. -/
structure Leads (cp n : Nat) (lead : UInt8) : Prop where
  units : units lead = n + 1
  bits : lead.toNat % 2 ^ (8 - (n + 1)) = cp / 64 ^ n
  pos : 0 < cp → lead ≠ 0

/-- The lead byte of a marker and the highest bits, when these leave one bit of the byte clear. -/
theorem leads_ofNat {cp n mark : Nat} (hn : 0 < n) (hMark : mark % 2 ^ (8 - (n + 1)) = 0)
    (hBits : cp / 64 ^ n < 2 ^ (8 - (n + 1))) (hFit : mark + cp / 64 ^ n < 256)
    (hUnits : Utf8.units (UInt8.ofNat (mark + cp / 64 ^ n)) = n + 1) :
    Leads cp n (UInt8.ofNat (mark + cp / 64 ^ n)) where
  units := hUnits
  bits := by
    have hSelf : (mark + cp / 64 ^ n) % 2 ^ 8 = mark + cp / 64 ^ n := Nat.mod_eq_of_lt hFit
    rw [UInt8.toNat_ofNat', hSelf, Nat.add_mod, hMark, Nat.zero_add, Nat.mod_mod,
      Nat.mod_eq_of_lt hBits]
  pos := by
    intro _ hZero
    rw [hZero] at hUnits
    have hOne : n + 1 = 1 := hUnits.symm
    omega

/-- The encoding of a code point: a lead byte and six bits for each byte behind it. -/
theorem encode_spec {cp : Nat} (hcp : cp < 2 ^ 31) :
    ∃ n lead, encode cp = lead :: tail n cp ∧ Leads cp n lead := by
  unfold encode
  split_ifs with h1 h2 h3 h4 h5
  · refine ⟨0, UInt8.ofNat cp, rfl, ?_, ?_, ?_⟩
    · have hSelf : cp % 2 ^ 8 = cp := Nat.mod_eq_of_lt (by omega)
      rw [units_eq, UInt8.toNat_ofNat', hSelf, if_pos h1]
    · rw [UInt8.toNat_ofNat']
      omega
    · intro hPos hZero
      have hNat := congrArg UInt8.toNat hZero
      rw [UInt8.toNat_ofNat', UInt8.toNat_zero] at hNat
      omega
  -- behind the one byte, the five classes differ in their bounds only
  all_goals
    refine ⟨_, _, rfl, leads_ofNat (by decide) (by decide) (by omega) (by omega) ?_⟩
    rw [units_eq, UInt8.toNat_ofNat', Nat.mod_eq_of_lt (by omega)]
    split_ifs <;> omega

end Gbase.Lib.Utf8
