import Gbase.Lib.CString
import Gbase.Lib.Crc
import Mathlib.Logic.Function.Iterate

/-!
# Checksums (`util/crc.c`)

An `int32_t` is a word of 32 bits; shifting a negative one to the right fills in ones.  Reading
outside an array is undefined, `none`.

The table of the source is compared with the one of the standard check by evaluation, entry by
entry, and everything else follows from linearity.

## Main results

* `crc32_spec`: what `crc32` gives, as the standard check and what is filled in.
* `crc32_standard_iff`: it is the standard check exactly if what is filled in cancels out.
-/

namespace Gbase.Util.Crc

open Gbase.Lib.CString
open Gbase.Lib.Crc

/-- `crc_c` -/
def crcC : List (BitVec 32) :=
   [0x00000000, 0x77073096, 0xee0e612c, 0x990951ba, 0x076dc419, 0x706af48f, 0xe963a535, 0x9e6495a3,
    0x0edb8832, 0x79dcb8a4, 0xe0d5e91e, 0x97d2d988, 0x09b64c2b, 0x7eb17cbd, 0xe7b82d07, 0x90bf1d91,
    0x1db71064, 0x6ab020f2, 0xf3b97148, 0x84be41de, 0x1adad47d, 0x6ddde4eb, 0xf4d4b551, 0x83d385c7,
    0x136c9856, 0x646ba8c0, 0xfd62f97a, 0x8a65c9ec, 0x14015c4f, 0x63066cd9, 0xfa0f3d63, 0x8d080df5,
    0x3b6e20c8, 0x4c69105e, 0xd56041e4, 0xa2677172, 0x3c03e4d1, 0x4b04d447, 0xd20d85fd, 0xa50ab56b,
    0x35b5a8fa, 0x42b2986c, 0xdbbbc9d6, 0xacbcf940, 0x32d86ce3, 0x45df5c75, 0xdcd60dcf, 0xabd13d59,
    0x26d930ac, 0x51de003a, 0xc8d75180, 0xbfd06116, 0x21b4f4b5, 0x56b3c423, 0xcfba9599, 0xb8bda50f,
    0x2802b89e, 0x5f058808, 0xc60cd9b2, 0xb10be924, 0x2f6f7c87, 0x58684c11, 0xc1611dab, 0xb6662d3d,
    0x76dc4190, 0x01db7106, 0x98d220bc, 0xefd5102a, 0x71b18589, 0x06b6b51f, 0x9fbfe4a5, 0xe8b8d433,
    0x7807c9a2, 0x0f00f934, 0x9609a88e, 0xe10e9818, 0x7f6a0dbb, 0x086d3d2d, 0x91646c97, 0xe6635c01,
    0x6b6b51f4, 0x1c6c6162, 0x856530d8, 0xf262004e, 0x6c0695ed, 0x1b01a57b, 0x8208f4c1, 0xf50fc457,
    0x65b0d9c6, 0x12b7e950, 0x8bbeb8ea, 0xfcb9887c, 0x62dd1ddf, 0x15da2d49, 0x8cd37cf3, 0xfbd44c65,
    0x4db26158, 0x3ab551ce, 0xa3bc0074, 0xd4bb30e2, 0x4adfa541, 0x3dd895d7, 0xa4d1c46d, 0xd3d6f4fb,
    0x4369e96a, 0x346ed9fc, 0xad678846, 0xda60b8d0, 0x44042d73, 0x33031de5, 0xaa0a4c5f, 0xdd0d7cc9,
    0x5005713c, 0x270241aa, 0xbe0b1010, 0xc90c2086, 0x5768b525, 0x206f85b3, 0xb966d409, 0xce61e49f,
    0x5edef90e, 0x29d9c998, 0xb0d09822, 0xc7d7a8b4, 0x59b33d17, 0x2eb40d81, 0xb7bd5c3b, 0xc0ba6cad,
    0xedb88320, 0x9abfb3b6, 0x03b6e20c, 0x74b1d29a, 0xead54739, 0x9dd277af, 0x04db2615, 0x73dc1683,
    0xe3630b12, 0x94643b84, 0x0d6d6a3e, 0x7a6a5aa8, 0xe40ecf0b, 0x9309ff9d, 0x0a00ae27, 0x7d079eb1,
    0xf00f9344, 0x8708a3d2, 0x1e01f268, 0x6906c2fe, 0xf762575d, 0x806567cb, 0x196c3671, 0x6e6b06e7,
    0xfed41b76, 0x89d32be0, 0x10da7a5a, 0x67dd4acc, 0xf9b9df6f, 0x8ebeeff9, 0x17b7be43, 0x60b08ed5,
    0xd6d6a3e8, 0xa1d1937e, 0x38d8c2c4, 0x4fdff252, 0xd1bb67f1, 0xa6bc5767, 0x3fb506dd, 0x48b2364b,
    0xd80d2bda, 0xaf0a1b4c, 0x36034af6, 0x41047a60, 0xdf60efc3, 0xa867df55, 0x316e8eef, 0x4669be79,
    0xcb61b38c, 0xbc66831a, 0x256fd2a0, 0x5268e236, 0xcc0c7795, 0xbb0b4703, 0x220216b9, 0x5505262f,
    0xc5ba3bbe, 0xb2bd0b28, 0x2bb45a92, 0x5cb36a04, 0xc2d7ffa7, 0xb5d0cf31, 0x2cd99e8b, 0x5bdeae1d,
    0x9b64c2b0, 0xec63f226, 0x756aa39c, 0x026d930a, 0x9c0906a9, 0xeb0e363f, 0x72076785, 0x05005713,
    0x95bf4a82, 0xe2b87a14, 0x7bb12bae, 0x0cb61b38, 0x92d28e9b, 0xe5d5be0d, 0x7cdcefb7, 0x0bdbdf21,
    0x86d3d2d4, 0xf1d4e242, 0x68ddb3f8, 0x1fda836e, 0x81be16cd, 0xf6b9265b, 0x6fb077e1, 0x18b74777,
    0x88085ae6, 0xff0f6a70, 0x66063bca, 0x11010b5c, 0x8f659eff, 0xf862ae69, 0x616bffd3, 0x166ccf45,
    0xa00ae278, 0xd70dd2ee, 0x4e048354, 0x3903b3c2, 0xa7672661, 0xd06016f7, 0x4969474d, 0x3e6e77db,
    0xaed16a4a, 0xd9d65adc, 0x40df0b66, 0x37d83bf0, 0xa9bcae53, 0xdebb9ec5, 0x47b2cf7f, 0x30b5ffe9,
    0xbdbdf21c, 0xcabac28a, 0x53b39330, 0x24b4a3a6, 0xbad03605, 0xcdd70693, 0x54de5729, 0x23d967bf,
    0xb3667a2e, 0xc4614ab8, 0x5d681b02, 0x2a6f2b94, 0xb40bbe37, 0xc30c8ea1, 0x5a05df1b, 0x2d02ef8d]

/-- `CRC32C` -/
def crc32C (c : BitVec 32) (d : UInt8) : Option (BitVec 32) :=
  (crcC[((c ^^^ d.toBitVec.setWidth 32) &&& 0xff).toNat]?).map fun entry =>
    c.sshiftRight 8 ^^^ entry

/-- The loop of `crc32`: so many bytes are left. -/
def crcLoop : List UInt8 → Nat → BitVec 32 → Option (BitVec 32)
  | _, 0, crc32 => some crc32
  | [], _ + 1, _ => none
  | d :: buffer, length + 1, crc32 => do
      let crc32 ← crc32C crc32 d
      crcLoop buffer length crc32

/-- `crc32` -/
def crc32 (buffer : List UInt8) (length : Nat) : Option (BitVec 32) :=
  (crcLoop buffer length (BitVec.allOnes 32)).map fun crc32 => ~~~ crc32

/-! ## The standard check -/

/-- The polynomial, reflected. -/
def poly : BitVec 32 := 0xedb88320

/-- The check bit by bit. -/
def standard (bytes : List UInt8) : BitVec 32 :=
  ~~~ register poly (BitVec.allOnes 32) bytes

/-- What the shift of a negative word fills in. -/
def fill : BitVec 32 := 0xff000000

/-- What a byte of zero makes of a word when the shift is signed. -/
def signedOut (c : BitVec 32) : BitVec 32 := shiftOuts poly 8 c ^^^ gate c.msb fill

/-- What is filled in before the bytes at which the register of the standard check is negative,
shifted out by the bytes behind. -/
def filled : BitVec 32 → List UInt8 → BitVec 32
  | _, [] => 0
  | u, d :: bytes => gate u.msb (signedOut^[bytes.length] fill) ^^^ filled (enter poly u d) bytes

/-! ## One byte -/

/-- The table holds what each byte amounts to. -/
theorem crcC_eq {i : Nat} (hi : i < 256) :
    crcC[i]? = some (shiftOuts poly 8 (BitVec.ofNat 32 i)) := by
  have hAll : ∀ i, i < 256 → crcC[i]? = some (shiftOuts poly 8 (BitVec.ofNat 32 i)) := by
    decide +kernel
  exact hAll i hi

theorem sshiftRight_eq (c : BitVec 32) : c.sshiftRight 8 = (c >>> 8) ^^^ gate c.msb fill := by
  have hFill : ∀ i, i < 32 → fill.getLsbD i = decide (24 ≤ i) := by decide
  apply BitVec.eq_of_getLsbD_eq
  intro i hi
  have hNot : (!decide (32 ≤ i)) = true := by rw [decide_eq_false (by omega)]; rfl
  rw [BitVec.getLsbD_sshiftRight, BitVec.getLsbD_xor, BitVec.getLsbD_ushiftRight, hNot,
    Bool.true_and]
  by_cases hIn : 8 + i < 32
  · have hLow : (gate c.msb fill).getLsbD i = false := by
      cases c.msb
      · exact BitVec.getLsbD_zero
      · rw [gate_true, hFill i hi]
        exact decide_eq_false (by omega)
    rw [if_pos hIn, hLow, Bool.xor_false]
  · have hHigh : (gate c.msb fill).getLsbD i = c.msb := by
      cases c.msb
      · exact BitVec.getLsbD_zero
      · rw [gate_true, hFill i hi]
        exact decide_eq_true (by omega)
    rw [if_neg hIn, hHigh, BitVec.getLsbD_of_ge c (8 + i) (by omega), Bool.false_xor]

/-- A byte enters as it does bit by bit, but for what the shift fills in. -/
theorem crc32C_spec (c : BitVec 32) (d : UInt8) :
    crc32C c d = some (enter poly c d ^^^ gate c.msb fill) := by
  have hLt : ((c ^^^ d.toBitVec.setWidth 32) &&& 0xff).toNat < 256 := by
    rw [BitVec.toNat_and]
    exact Nat.lt_of_le_of_lt Nat.and_le_right (by decide)
  rw [crc32C, crcC_eq hLt, BitVec.ofNat_toNat, BitVec.setWidth_eq, sshiftRight_eq, enter_table]
  simp only [Option.map_some]
  congr 1
  ac_rfl

/-! ## All bytes -/

theorem signedOut_xor (c d : BitVec 32) :
    signedOut (c ^^^ d) = signedOut c ^^^ signedOut d := by
  rw [signedOut, shiftOuts_xor, BitVec.msb_xor, gate_xor, signedOut, signedOut]
  ac_rfl

theorem signedOuts_xor (n : Nat) (c d : BitVec 32) :
    signedOut^[n] (c ^^^ d) = signedOut^[n] c ^^^ signedOut^[n] d := by
  induction n generalizing c d with
  | zero => rfl
  | succ n ih => simp only [Function.iterate_succ_apply, signedOut_xor, ih]

theorem signedOuts_zero (n : Nat) : signedOut^[n] 0 = 0 := by
  have hSelf := signedOuts_xor n 0 0
  rwa [BitVec.xor_self, BitVec.xor_self] at hSelf

private theorem signedOuts_gate (n : Nat) (b : Bool) (c : BitVec 32) :
    signedOut^[n] (gate b c) = gate b (signedOut^[n] c) := by
  cases b with
  | false => exact signedOuts_zero n
  | true => rfl

/-- The word of the loop is the register of the check, but for what was filled in before and what
is filled in on the way. -/
theorem crcLoop_spec (bytes behind : List UInt8) {c u e : BitVec 32} (hc : c = u ^^^ e) :
    crcLoop (bytes ++ behind) bytes.length c =
      some (register poly u bytes ^^^ (signedOut^[bytes.length] e ^^^ filled u bytes)) := by
  induction bytes generalizing c u e with
  | nil =>
      rw [hc]
      cases behind <;> exact congrArg (fun e => some (u ^^^ e)) BitVec.xor_zero.symm
  | cons d bytes ih =>
      have hNext : enter poly c d ^^^ gate c.msb fill =
          enter poly u d ^^^ (signedOut e ^^^ gate u.msb fill) := by
        rw [hc, enter_xor, BitVec.msb_xor, gate_xor, signedOut]
        ac_rfl
      have hOuts : signedOut^[bytes.length] (signedOut e ^^^ gate u.msb fill) =
          signedOut^[bytes.length + 1] e ^^^ gate u.msb (signedOut^[bytes.length] fill) := by
        rw [signedOuts_xor, signedOuts_gate, Function.iterate_succ_apply]
      rw [List.cons_append, List.length_cons, crcLoop, crc32C_spec]
      refine (ih hNext).trans ?_
      rw [hOuts, filled, BitVec.xor_assoc]
      rfl

/-- `crc32` of the first bytes of a buffer. -/
theorem crc32_spec (bytes behind : List UInt8) :
    crc32 (bytes ++ behind) bytes.length =
      some (standard bytes ^^^ filled (BitVec.allOnes 32) bytes) := by
  have hNone : signedOut^[bytes.length] 0 ^^^ filled (BitVec.allOnes 32) bytes =
      filled (BitVec.allOnes 32) bytes := by
    rw [signedOuts_zero]
    exact BitVec.zero_xor
  rw [crc32, crcLoop_spec bytes behind BitVec.xor_zero.symm, Option.map_some, standard,
    BitVec.not_xor_left]
  exact congrArg (fun e => some (~~~ register poly (BitVec.allOnes 32) bytes ^^^ e)) hNone

/-- Bits whose parity tells apart what is filled in 31 bytes earlier from what is filled in
later. -/
def apart : BitVec 32 := 0x171dd2cc

private theorem parity_apart {k : Nat} (hk : k ≤ 31) :
    parity apart (signedOut^[k] fill) = decide (k = 31) := by
  have hAll : ∀ k, k < 32 → parity apart (signedOut^[k] fill) = decide (k = 31) := by
    decide +kernel
  exact hAll k (by omega)

/-- What is filled in later has no share in that parity. -/
theorem parity_filled {bytes : List UInt8} {n : Nat} (hLen : n + bytes.length ≤ 31)
    (u : BitVec 32) : parity apart (signedOut^[n] (filled u bytes)) = false := by
  induction bytes generalizing u with
  | nil =>
      rw [filled, signedOuts_zero]
      decide
  | cons d bytes ih =>
      rw [List.length_cons] at hLen
      have hLater : parity apart (signedOut^[n + bytes.length] fill) = false := by
        rw [parity_apart (by omega)]
        exact decide_eq_false (by omega)
      rw [filled, signedOuts_xor, signedOuts_gate, parity_xor, parity_gate,
        ← Function.iterate_add_apply, hLater, Bool.and_false, Bool.false_xor]
      exact ih (by omega) (enter poly u d)

/-- Up to 32 bytes, what is filled in before the first one stays. -/
theorem filled_short {bytes : List UInt8} (hNil : bytes ≠ []) (hShort : bytes.length ≤ 32) :
    filled (BitVec.allOnes 32) bytes ≠ 0 := by
  obtain ⟨d, rest, rfl⟩ := List.exists_cons_of_ne_nil hNil
  rw [List.length_cons] at hShort
  intro hZero
  have hParity := congrArg (fun e => parity apart (signedOut^[31 - rest.length] e)) hZero
  have hNone : parity apart 0 = false := by decide
  have hFirst : parity apart (signedOut^[31] fill) = true := parity_apart (Nat.le_refl 31)
  have hLater := @parity_filled rest (31 - rest.length) (by omega)
    (enter poly (BitVec.allOnes 32) d)
  have hMsb : (BitVec.allOnes 32).msb = true := by decide
  rw [← Nat.sub_add_cancel (by omega : rest.length ≤ 31)] at hFirst
  simp only [filled, hMsb, gate_true, signedOuts_xor, parity_xor, ← Function.iterate_add_apply,
    hLater, hFirst, signedOuts_zero, hNone] at hParity
  cases hParity

/-- `crc32` is the standard check exactly for no bytes, and for more than 32 bytes where what the
shift fills in, before the bytes at which the register is negative, cancels out. -/
theorem crc32_standard_iff (bytes behind : List UInt8) :
    crc32 (bytes ++ behind) bytes.length = some (standard bytes) ↔
      bytes = [] ∨ 32 < bytes.length ∧ filled (BitVec.allOnes 32) bytes = 0 := by
  have hSame : crc32 (bytes ++ behind) bytes.length = some (standard bytes) ↔
      filled (BitVec.allOnes 32) bytes = 0 := by
    have hInj := @BitVec.xor_right_inj 32 (filled (BitVec.allOnes 32) bytes) 0 (standard bytes)
    rw [show standard bytes ^^^ 0 = standard bytes from BitVec.xor_zero] at hInj
    rw [crc32_spec, Option.some_inj]
    exact hInj
  rw [hSame]
  constructor
  · intro hZero
    by_cases hNil : bytes = []
    · exact Or.inl hNil
    · exact Or.inr ⟨Nat.lt_of_not_le fun hShort => filled_short hNil hShort hZero, hZero⟩
  · rintro (rfl | ⟨-, hZero⟩)
    · rfl
    · exact hZero

/-- For 33 bytes what was filled in at first can be cancelled. -/
example : crc32 (ascii "bbaaaaaaabbabbababaabbabbbaaaaaaa") 33 =
    some (standard (ascii "bbaaaaaaabbabbababaabbabbbaaaaaaa")) := by
  decide +kernel

/-- The letter `a`: the check is 0xe8b7be43. -/
theorem crc32_letter :
    crc32 [0x61] 1 = some 0x17b7be43 ∧ standard [0x61] = 0xe8b7be43 ∧
      crc32 [0x61] 1 ≠ some (standard [0x61]) := by
  decide +kernel

end Gbase.Util.Crc
