import Gbase.Core.OsDef
import Gbase.Lib.Bytes
import Gbase.Lib.Ring

/-!
# Numbers and texts in a buffer (`net/serialize.c`)

Each call writes a value behind the cursor or reads the one behind it, and moves the cursor.  The
buffer has `size` cells of type `char`, which is signed; an access outside of them is undefined.
The two byte orders are two builds of the same file.

## Main results

* `serialWriteFixed_eq`, `serialReadFixed_eq`: each call of fixed width on a valid state.
* `serialWriten_eq`, `serialReadn_eq`: the calls for texts.
* `bytes16_eq`, `bytes32_eq`, `bytes64_eq`: the bytes of a number, in network byte order in the
  little-endian build and the other way round in the big-endian one.
-/

namespace Gbase.Net.Serialize

open Gbase.Core.OsDef
open Gbase.Lib.Bytes
open Gbase.Lib.Ring

/-- `serial_t` -/
structure SerialT where
  buffer : Nat → Int8
  size : Nat
  cur : Nat

/-- `serial_create` -/
def serialCreate (buffer : Nat → Int8) (size : Nat) : SerialT where
  buffer := buffer
  size := size
  cur := 0

/-- `s->size - s->cur` -/
def SerialT.room (s : SerialT) : Nat := toSize (s.size - s.cur)

/-! ## Fixed widths -/

/-- `s->buffer[s->cur ++] = src` for one byte after the other. -/
def SerialT.store : List UInt8 → SerialT → Option SerialT
  | [], s => some s
  | src :: rest, s =>
      if s.cur < s.size then
        SerialT.store rest
          { s with buffer := splice s.buffer s.cur [src.toInt8], cur := s.cur + 1 }
      else none

/-- `(uint8_t)s->buffer[s->cur ++]` so many times. -/
def SerialT.fetch : Nat → SerialT → Option (List UInt8 × SerialT)
  | 0, s => some ([], s)
  | count + 1, s =>
      if s.cur < s.size then do
        let (bytes, s') ← SerialT.fetch count { s with cur := s.cur + 1 }
        some ((s.buffer s.cur).toUInt8 :: bytes, s')
      else none

/-- A write of fixed width, with the bytes it stores. -/
def serialWrite (s : SerialT) (width : Nat) (bytes : List UInt8) : Option (Int × SerialT) :=
  if s.room < width then some (-1, s)
  else do
    let s ← s.store bytes
    some (0, s)

/-- A read of fixed width, with the value it makes of the bytes; without room `*dest` stays. -/
def serialRead {α : Type} (s : SerialT) (dest : α) (width : Nat) (value : List UInt8 → Option α) :
    Option (Int × α × SerialT) :=
  if s.room < width then some (-1, dest, s)
  else do
    let (bytes, s) ← s.fetch width
    let dest ← value bytes
    some (0, dest, s)

/-- The byte that `serial_write8` stores. -/
def bytes8 (src : UInt8) : List UInt8 := [src]

def value8 : List UInt8 → Option UInt8
  | [b1] => some b1
  | _ => none

/-- The bytes that `serial_write16` stores, one after the other. -/
def bytes16 (os : OsEndian) (src : UInt16) : List UInt8 :=
  match os with
  | .little => [((src &&& 0xFF00) >>> 8).toUInt8, (src &&& 0xFF).toUInt8]
  | .big => [(src &&& 0xFF).toUInt8, ((src &&& 0xFF00) >>> 8).toUInt8]

/-- The value that `serial_read16` makes of the bytes. -/
def value16 (os : OsEndian) : List UInt8 → Option UInt16
  | [b1, b2] =>
      match os with
      | .little => some (b1.toUInt16 <<< 8 ||| b2.toUInt16)
      | .big => some (b1.toUInt16 ||| b2.toUInt16 <<< 8)
  | _ => none

def serail32u24 : UInt64 := ((0xFF : UInt32) <<< 24).toUInt64

def serail32u16 : UInt64 := ((0xFF : UInt32) <<< 16).toUInt64

def serail32u8 : UInt64 := ((0xFF : UInt32) <<< 8).toUInt64

def serail32u0 : UInt64 := (0xFF : UInt32).toUInt64

/-- The bytes that `serial_write32` stores, one after the other. -/
def bytes32 (os : OsEndian) (src : UInt32) : List UInt8 :=
  match os with
  | .little =>
      [((src.toUInt64 &&& serail32u24) >>> 24).toUInt8,
        ((src.toUInt64 &&& serail32u16) >>> 16).toUInt8,
        ((src.toUInt64 &&& serail32u8) >>> 8).toUInt8,
        (src.toUInt64 &&& serail32u0).toUInt8]
  | .big =>
      [(src.toUInt64 &&& serail32u0).toUInt8,
        ((src.toUInt64 &&& serail32u8) >>> 8).toUInt8,
        ((src.toUInt64 &&& serail32u16) >>> 16).toUInt8,
        ((src.toUInt64 &&& serail32u24) >>> 24).toUInt8]

/-- The value that `serial_read32` makes of the bytes. -/
def value32 (os : OsEndian) : List UInt8 → Option UInt32
  | [b1, b2, b3, b4] =>
      match os with
      | .little =>
          some (b1.toUInt32 <<< 24 ||| b2.toUInt32 <<< 16 ||| b3.toUInt32 <<< 8 ||| b4.toUInt32)
      | .big =>
          some (b1.toUInt32 ||| b2.toUInt32 <<< 8 ||| b3.toUInt32 <<< 16 ||| b4.toUInt32 <<< 24)
  | _ => none

def serail64u56 : UInt64 := (0xFF : UInt64) <<< 56

def serail64u48 : UInt64 := (0xFF : UInt64) <<< 48

def serail64u40 : UInt64 := (0xFF : UInt64) <<< 40

def serail64u32 : UInt64 := (0xFF : UInt64) <<< 32

def serail64u24 : UInt64 := (0xFF : UInt64) <<< 24

def serail64u16 : UInt64 := (0xFF : UInt64) <<< 16

def serail64u8 : UInt64 := (0xFF : UInt64) <<< 8

def serail64u0 : UInt64 := 0xFF

/-- The bytes that `serial_write64` stores, one after the other. -/
def bytes64 (os : OsEndian) (src : UInt64) : List UInt8 :=
  match os with
  | .little =>
      [((src &&& serail64u56) >>> 56).toUInt8, ((src &&& serail64u48) >>> 48).toUInt8,
        ((src &&& serail64u40) >>> 40).toUInt8, ((src &&& serail64u32) >>> 32).toUInt8,
        ((src &&& serail64u24) >>> 24).toUInt8, ((src &&& serail64u16) >>> 16).toUInt8,
        ((src &&& serail64u8) >>> 8).toUInt8, (src &&& serail64u0).toUInt8]
  | .big =>
      [(src &&& serail64u0).toUInt8, ((src &&& serail64u8) >>> 8).toUInt8,
        ((src &&& serail64u16) >>> 16).toUInt8, ((src &&& serail64u24) >>> 24).toUInt8,
        ((src &&& serail64u32) >>> 32).toUInt8, ((src &&& serail64u40) >>> 40).toUInt8,
        ((src &&& serail64u48) >>> 48).toUInt8, ((src &&& serail64u56) >>> 56).toUInt8]

/-- The value that `serial_read64` makes of the bytes. -/
def value64 (os : OsEndian) : List UInt8 → Option UInt64
  | [b1, b2, b3, b4, b5, b6, b7, b8] =>
      match os with
      | .little =>
          some (b1.toUInt64 <<< 56 ||| b2.toUInt64 <<< 48 ||| b3.toUInt64 <<< 40 |||
            b4.toUInt64 <<< 32 ||| b5.toUInt64 <<< 24 ||| b6.toUInt64 <<< 16 |||
            b7.toUInt64 <<< 8 ||| b8.toUInt64)
      | .big =>
          some (b1.toUInt64 ||| b2.toUInt64 <<< 8 ||| b3.toUInt64 <<< 16 |||
            b4.toUInt64 <<< 24 ||| b5.toUInt64 <<< 32 ||| b6.toUInt64 <<< 40 |||
            b7.toUInt64 <<< 48 ||| b8.toUInt64 <<< 56)
  | _ => none

section

variable (os : OsEndian) (s : SerialT)

/-- `serial_write8` -/
def serialWrite8 (src : UInt8) : Option (Int × SerialT) := serialWrite s 1 (bytes8 src)

/-- `serial_read8` -/
def serialRead8 (dest : UInt8) : Option (Int × UInt8 × SerialT) := serialRead s dest 1 value8

/-- `serial_write16` -/
def serialWrite16 (src : UInt16) : Option (Int × SerialT) := serialWrite s 2 (bytes16 os src)

/-- `serial_read16` -/
def serialRead16 (dest : UInt16) : Option (Int × UInt16 × SerialT) :=
  serialRead s dest 2 (value16 os)

/-- `serial_write32` -/
def serialWrite32 (src : UInt32) : Option (Int × SerialT) := serialWrite s 4 (bytes32 os src)

/-- `serial_read32` -/
def serialRead32 (dest : UInt32) : Option (Int × UInt32 × SerialT) :=
  serialRead s dest 4 (value32 os)

/-- `serial_write64` -/
def serialWrite64 (src : UInt64) : Option (Int × SerialT) := serialWrite s 8 (bytes64 os src)

/-- `serial_read64` -/
def serialRead64 (dest : UInt64) : Option (Int × UInt64 × SerialT) :=
  serialRead s dest 8 (value64 os)

end

/-! ## Texts -/

/-- `memcpy` of the first `count` cells of `data` to the start of the buffer. -/
def SerialT.copyIn (s : SerialT) (data : List Int8) (count : Nat) : Option SerialT :=
  if count ≤ data.length ∧ count ≤ s.size then
    some { s with buffer := splice s.buffer 0 (data.take count) }
  else none

/-- `memcpy` of `count` cells of the buffer, from the given one on, to the start of `data`. -/
def SerialT.copyOut (s : SerialT) (data : List Int8) (start count : Nat) : Option (List Int8) :=
  if count ≤ data.length ∧ start + count ≤ s.size then
    some (slice s.buffer start count ++ data.drop count)
  else none

/-- `serial_writen` -/
def serialWriten (os : OsEndian) (s : SerialT) (data : List Int8) (len : UInt32) :
    Option (Int × SerialT) :=
  if s.room < 4 + len.toNat then some (-1, s)
  else do
    let (_, s) ← serialWrite32 os s len
    let s ← s.copyIn data len.toNat
    some (0, { s with cur := toSize (s.cur + len.toNat) })

/-- `serial_readn`, whose sum `4 + read_len` is one of `uint32_t`. -/
def serialReadn (os : OsEndian) (s : SerialT) (data : List Int8) (len : UInt32) :
    Option (Int × List Int8 × UInt32 × SerialT) :=
  if s.room < 4 then some (-1, data, len, s)
  else do
    let (bytes, _) ← s.fetch 4
    let readLen ← value32 os bytes
    if s.room < 4 + readLen.toNat then some (-1, data, len, s)
    else
      let data ← s.copyOut data 4 readLen.toNat
      some (0, data, readLen, { s with cur := toSize (s.cur + (4 + readLen).toNat) })

/-! ## What the bytes are -/

/-- A byte that is cut out by a mask. -/
theorem and_mask (n k : Nat) : (n &&& 255 <<< k) >>> k % 256 = n / 2 ^ k % 256 := by
  have hByte : n / 2 ^ k &&& 255 = n / 2 ^ k % 256 := Nat.and_two_pow_sub_one_eq_mod _ 8
  rw [Nat.shiftRight_and_distrib, Nat.shiftLeft_shiftRight, Nat.shiftRight_eq_div_pow, hByte,
    Nat.mod_mod]

/-- The same for a `uint64_t`. -/
theorem byte_mask (src k : UInt64) (hk : k.toNat ≤ 56) :
    ((src &&& (0xFF <<< k)) >>> k).toUInt8 = UInt8.ofNat (src.toNat / 2 ^ k.toNat) := by
  have hMod : k.toNat % 64 = k.toNat := Nat.mod_eq_of_lt (by omega)
  have hMask : 255 <<< k.toNat % 2 ^ 64 = 255 <<< k.toNat := by
    apply Nat.mod_eq_of_lt
    rw [Nat.shiftLeft_eq]
    calc 255 * 2 ^ k.toNat ≤ 255 * 2 ^ 56 :=
          Nat.mul_le_mul_left 255 (Nat.pow_le_pow_right (by decide) hk)
      _ < 2 ^ 64 := by decide
  apply UInt8.toNat.inj
  rw [UInt64.toNat_toUInt8, UInt64.toNat_shiftRight, UInt64.toNat_and, UInt64.toNat_shiftLeft, hMod,
    UInt8.toNat_ofNat', show (255 : UInt64).toNat = 255 from rfl, hMask, and_mask]

private theorem byte_low (src : UInt64) : (src &&& 0xFF).toUInt8 = UInt8.ofNat src.toNat := by
  have hMask := byte_mask src 0 (by decide)
  simpa using hMask

private theorem bytes16_little (src : UInt16) : bytes16 .little src = beBytes 2 src.toNat := by
  have hHigh : ((src &&& 0xFF00) >>> 8).toUInt8 = UInt8.ofNat (src.toNat / 256) :=
    UInt8.toNat.inj (and_mask src.toNat 8)
  have hLow : (src &&& 0xFF).toUInt8 = UInt8.ofNat src.toNat :=
    UInt8.toNat.inj (by
      show (src.toNat &&& 255) % 256 = src.toNat % 256
      simpa using and_mask src.toNat 0)
  rw [bytes16, hHigh, hLow]
  rfl

private theorem bytes32_little (src : UInt32) : bytes32 .little src = beBytes 4 src.toNat := by
  have hMask := byte_mask src.toUInt64
  have hLow := byte_low src.toUInt64
  simp only [bytes32, beBytes, leBytes, Nat.div_div_eq_div_mul]
  congr 1
  · exact hMask 24 (by decide)
  congr 1
  · exact hMask 16 (by decide)
  congr 1
  · exact hMask 8 (by decide)
  congr 1

private theorem bytes64_little (src : UInt64) : bytes64 .little src = beBytes 8 src.toNat := by
  have hMask := byte_mask src
  have hLow := byte_low src
  simp only [bytes64, serail64u56, serail64u48, serail64u40, serail64u32, serail64u24, serail64u16,
    serail64u8, serail64u0, beBytes, leBytes, Nat.div_div_eq_div_mul]
  rw [hMask 56 (by decide), hMask 48 (by decide), hMask 40 (by decide), hMask 32 (by decide),
    hMask 24 (by decide), hMask 16 (by decide), hMask 8 (by decide), hLow]
  rfl


/-- A byte stays within a number of more bits. -/
theorem shl_lt {b k width : Nat} (hb : b < 256) (hk : k + 8 ≤ width) : b <<< k < 2 ^ width := by
  rw [Nat.shiftLeft_eq]
  calc b * 2 ^ k < 2 ^ 8 * 2 ^ k := Nat.mul_lt_mul_of_pos_right hb (Nat.two_pow_pos k)
    _ = 2 ^ (k + 8) := by rw [← Nat.pow_add, Nat.add_comm]
    _ ≤ 2 ^ width := Nat.pow_le_pow_right (by decide) hk

theorem shl32 (b : UInt8) (k : UInt32) (hk : k.toNat ≤ 24) :
    (b.toUInt32 <<< k).toNat = b.toNat <<< k.toNat := by
  rw [UInt32.toNat_shiftLeft, Nat.mod_eq_of_lt (by omega : k.toNat < 32)]
  exact Nat.mod_eq_of_lt (shl_lt b.toNat_lt (by omega))

theorem shl64 (b : UInt8) (k : UInt64) (hk : k.toNat ≤ 56) :
    (b.toUInt64 <<< k).toNat = b.toNat <<< k.toNat := by
  rw [UInt64.toNat_shiftLeft, Nat.mod_eq_of_lt (by omega : k.toNat < 64)]
  exact Nat.mod_eq_of_lt (shl_lt b.toNat_lt (by omega))

private theorem value16_little (b1 b2 : UInt8) :
    value16 .little [b1, b2] = some (UInt16.ofNat (beValue [b1, b2])) := by
  have hLt : beValue [b1, b2] < 2 ^ 16 := by
    simpa using beValue_lt [b1, b2]
  have hHigh : (b1.toUInt16 <<< 8).toNat = b1.toNat <<< 8 :=
    Nat.mod_eq_of_lt (shl_lt b1.toNat_lt (by decide))
  apply congrArg some
  apply UInt16.toNat.inj
  rw [UInt16.toNat_or, hHigh, UInt16.toNat_ofNat', Nat.mod_eq_of_lt hLt]
  exact or_two b1 b2

private theorem value32_little (b1 b2 b3 b4 : UInt8) :
    value32 .little [b1, b2, b3, b4] = some (UInt32.ofNat (beValue [b1, b2, b3, b4])) := by
  have hLt : beValue [b1, b2, b3, b4] < 2 ^ 32 := by
    simpa using beValue_lt [b1, b2, b3, b4]
  apply congrArg some
  apply UInt32.toNat.inj
  rw [UInt32.toNat_or, UInt32.toNat_or, UInt32.toNat_or, shl32 b1 24 (by decide),
    shl32 b2 16 (by decide), shl32 b3 8 (by decide), UInt32.toNat_ofNat',
    Nat.mod_eq_of_lt hLt]
  exact or_four b1 b2 b3 b4

private theorem value64_little (b1 b2 b3 b4 b5 b6 b7 b8 : UInt8) :
    value64 .little [b1, b2, b3, b4, b5, b6, b7, b8] =
      some (UInt64.ofNat (beValue [b1, b2, b3, b4, b5, b6, b7, b8])) := by
  have hLt : beValue [b1, b2, b3, b4, b5, b6, b7, b8] < 2 ^ 64 := by
    simpa using beValue_lt [b1, b2, b3, b4, b5, b6, b7, b8]
  apply congrArg some
  apply UInt64.toNat.inj
  simp only [UInt64.toNat_or]
  rw [shl64 b1 56 (by decide), shl64 b2 48 (by decide), shl64 b3 40 (by decide),
    shl64 b4 32 (by decide), shl64 b5 24 (by decide), shl64 b6 16 (by decide),
    shl64 b7 8 (by decide), UInt64.toNat_ofNat', Nat.mod_eq_of_lt hLt]
  exact or_eight b1 b2 b3 b4 b5 b6 b7 b8

/-- Bytes of the network as a build has them: in the same order, or the other way round. -/
def order (os : OsEndian) (bytes : List UInt8) : List UInt8 :=
  match os with
  | .little => bytes
  | .big => bytes.reverse

@[simp] theorem order_order (os : OsEndian) (bytes : List UInt8) :
    order os (order os bytes) = bytes := by
  cases os with
  | little => rfl
  | big => exact List.reverse_reverse bytes

@[simp] theorem length_order (os : OsEndian) (bytes : List UInt8) :
    (order os bytes).length = bytes.length := by
  cases os with
  | little => rfl
  | big => exact List.length_reverse

theorem bytes16_eq (os : OsEndian) (src : UInt16) :
    bytes16 os src = order os (beBytes 2 src.toNat) := by
  cases os with
  | little => exact bytes16_little src
  | big => exact congrArg List.reverse (bytes16_little src)

theorem bytes32_eq (os : OsEndian) (src : UInt32) :
    bytes32 os src = order os (beBytes 4 src.toNat) := by
  cases os with
  | little => exact bytes32_little src
  | big => exact congrArg List.reverse (bytes32_little src)

theorem bytes64_eq (os : OsEndian) (src : UInt64) :
    bytes64 os src = order os (beBytes 8 src.toNat) := by
  cases os with
  | little => exact bytes64_little src
  | big => exact congrArg List.reverse (bytes64_little src)

theorem value16_eq (os : OsEndian) {bytes : List UInt8} (h : bytes.length = 2) :
    value16 os bytes = some (UInt16.ofNat (beValue (order os bytes))) :=
  match bytes, h with
  | [b1, b2], _ => by
      cases os with
      | little => exact value16_little b1 b2
      | big =>
          rw [order, List.reverse_cons, List.reverse_singleton, List.cons_append, List.nil_append,
            ← value16_little, value16, value16, UInt16.or_comm]

theorem value32_eq (os : OsEndian) {bytes : List UInt8} (h : bytes.length = 4) :
    value32 os bytes = some (UInt32.ofNat (beValue (order os bytes))) :=
  match bytes, h with
  | [b1, b2, b3, b4], _ => by
      cases os with
      | little => exact value32_little b1 b2 b3 b4
      | big =>
          have hComm : ∀ c1 c2 c3 c4 : UInt32, c1 ||| c2 ||| c3 ||| c4 =
              c4 ||| c3 ||| c2 ||| c1 := by
            intro c1 c2 c3 c4
            ac_rfl
          exact (congrArg some (hComm _ _ _ _)).trans (value32_little b4 b3 b2 b1)

theorem value64_eq (os : OsEndian) {bytes : List UInt8} (h : bytes.length = 8) :
    value64 os bytes = some (UInt64.ofNat (beValue (order os bytes))) :=
  match bytes, h with
  | [b1, b2, b3, b4, b5, b6, b7, b8], _ => by
      cases os with
      | little => exact value64_little b1 b2 b3 b4 b5 b6 b7 b8
      | big =>
          have hComm : ∀ c1 c2 c3 c4 c5 c6 c7 c8 : UInt64,
              c1 ||| c2 ||| c3 ||| c4 ||| c5 ||| c6 ||| c7 ||| c8 =
                c8 ||| c7 ||| c6 ||| c5 ||| c4 ||| c3 ||| c2 ||| c1 := by
            intro c1 c2 c3 c4 c5 c6 c7 c8
            ac_rfl
          exact (congrArg some (hComm _ _ _ _ _ _ _ _)).trans
            (value64_little b8 b7 b6 b5 b4 b3 b2 b1)

/-! ## Values of any width -/

/-- A value of fixed width, or the place for one. -/
inductive Fixed where
  | u8 (src : UInt8)
  | u16 (src : UInt16)
  | u32 (src : UInt32)
  | u64 (src : UInt64)
  deriving DecidableEq, Repr

/-- `sizeof(src)` -/
def Fixed.width : Fixed → Nat
  | .u8 _ => 1
  | .u16 _ => 2
  | .u32 _ => 4
  | .u64 _ => 8

def Fixed.num : Fixed → Nat
  | .u8 src => src.toNat
  | .u16 src => src.toNat
  | .u32 src => src.toNat
  | .u64 src => src.toNat

/-- The value of the same width that is the given number. -/
def Fixed.withNum (dest : Fixed) (num : Nat) : Fixed :=
  match dest with
  | .u8 _ => .u8 (UInt8.ofNat num)
  | .u16 _ => .u16 (UInt16.ofNat num)
  | .u32 _ => .u32 (UInt32.ofNat num)
  | .u64 _ => .u64 (UInt64.ofNat num)

/-- The cells that a value is put in. -/
def Fixed.cells (os : OsEndian) (v : Fixed) : List Int8 :=
  (order os (beBytes v.width v.num)).map UInt8.toInt8

section

variable (os : OsEndian) (s : SerialT)

/-- The write of the width of the value. -/
def serialWriteFixed : Fixed → Option (Int × SerialT)
  | .u8 src => serialWrite8 s src
  | .u16 src => serialWrite16 os s src
  | .u32 src => serialWrite32 os s src
  | .u64 src => serialWrite64 os s src

/-- The read of the width of `*dest`. -/
def serialReadFixed : Fixed → Option (Int × Fixed × SerialT)
  | .u8 dest => (serialRead8 s dest).map fun (res, dest, s) => (res, .u8 dest, s)
  | .u16 dest => (serialRead16 os s dest).map fun (res, dest, s) => (res, .u16 dest, s)
  | .u32 dest => (serialRead32 os s dest).map fun (res, dest, s) => (res, .u32 dest, s)
  | .u64 dest => (serialRead64 os s dest).map fun (res, dest, s) => (res, .u64 dest, s)

end

/-- The state after some cells were put behind the cursor. -/
def SerialT.push (s : SerialT) (cells : List Int8) : SerialT :=
  { s with buffer := splice s.buffer s.cur cells, cur := s.cur + cells.length }

/-- The cursor lies within the buffer, whose size is a `size_t`. -/
structure Valid (s : SerialT) : Prop where
  cur_le : s.cur ≤ s.size
  size_lt : s.size < 2 ^ 64

section

variable {os : OsEndian} {s : SerialT} {v dest : Fixed} {cells : List Int8} {bytes : List UInt8}

@[simp] theorem Fixed.length_cells (os : OsEndian) (v : Fixed) :
    (v.cells os).length = v.width := by
  rw [Fixed.cells, List.length_map, length_order, length_beBytes]

theorem Fixed.num_lt (v : Fixed) : v.num < 256 ^ v.width := by
  cases v with
  | u8 src => exact src.toNat_lt
  | u16 src => exact src.toNat_lt
  | u32 src => exact src.toNat_lt
  | u64 src => exact src.toNat_lt

/-- A value is its width and its number. -/
theorem Fixed.withNum_num (h : dest.width = v.width) : dest.withNum v.num = v := by
  cases v with
  | u8 src => cases dest <;> first | cases h; done | exact congrArg Fixed.u8 UInt8.ofNat_toNat
  | u16 src => cases dest <;> first | cases h; done | exact congrArg Fixed.u16 UInt16.ofNat_toNat
  | u32 src => cases dest <;> first | cases h; done | exact congrArg Fixed.u32 UInt32.ofNat_toNat
  | u64 src => cases dest <;> first | cases h; done | exact congrArg Fixed.u64 UInt64.ofNat_toNat

/-- What was put in the cells is found in them. -/
theorem Fixed.read_cells (h : dest.width = v.width) :
    dest.withNum (beValue (order os ((v.cells os).map Int8.toUInt8))) = v := by
  have hBytes : (v.cells os).map Int8.toUInt8 = order os (beBytes v.width v.num) := by
    simp [Fixed.cells, Function.comp_def]
  rw [hBytes, order_order, beValue_beBytes v.num_lt, Fixed.withNum_num h]

theorem Valid.room (h : Valid s) : s.room = s.size - s.cur := by
  have hCur := h.cur_le
  have hSize := h.size_lt
  rw [SerialT.room, toSize]
  omega

@[simp] theorem size_push : (s.push cells).size = s.size := rfl

@[simp] theorem cur_push : (s.push cells).cur = s.cur + cells.length := rfl

theorem push_append (cells cells' : List Int8) :
    (s.push cells).push cells' = s.push (cells ++ cells') := by
  simp [SerialT.push, splice_append, Nat.add_assoc]

theorem Valid.push (h : Valid s) (hFits : s.cur + cells.length ≤ s.size) : Valid (s.push cells) :=
  ⟨hFits, h.size_lt⟩

/-- Storing what fits. -/
theorem store_eq (hFits : s.cur + bytes.length ≤ s.size) :
    s.store bytes = some (s.push (bytes.map UInt8.toInt8)) := by
  induction bytes generalizing s with
  | nil => simp [SerialT.store, SerialT.push]
  | cons byte bytes ih =>
      rw [List.length_cons] at hFits
      have hStep := @ih (s.push [byte.toInt8])
          (by rw [cur_push, size_push, List.length_singleton]; omega)
      rw [push_append] at hStep
      rw [SerialT.store, if_pos (by omega)]
      exact hStep

/-- Fetching what is there. -/
theorem fetch_eq {count : Nat} (hFits : s.cur + count ≤ s.size) :
    s.fetch count =
      some ((slice s.buffer s.cur count).map Int8.toUInt8, { s with cur := s.cur + count }) := by
  induction count generalizing s with
  | zero => rfl
  | succ count ih =>
      have hStep := @ih { s with cur := s.cur + 1 } (by show s.cur + 1 + count ≤ s.size; omega)
      rw [SerialT.fetch, if_pos (by omega), hStep, Nat.add_comm count 1, slice_add]
      simp [slice, Nat.add_assoc]

theorem serialWrite_eq {width num : Nat} (h : Valid s)
    (hBytes : bytes = order os (beBytes width num)) :
    serialWrite s width bytes =
      some (if s.cur + width ≤ s.size then
        (0, s.push ((order os (beBytes width num)).map UInt8.toInt8))
      else (-1, s)) := by
  have hCur := h.cur_le
  rw [serialWrite, h.room, hBytes]
  by_cases hFits : s.cur + width ≤ s.size
  · rw [if_neg (by omega), if_pos hFits, store_eq (by rwa [length_order, length_beBytes])]
    rfl
  · rw [if_pos (by omega), if_neg hFits]

/-- A write puts the value behind the cursor, or there is no room for it. -/
theorem serialWriteFixed_eq (os : OsEndian) (h : Valid s) (v : Fixed) :
    serialWriteFixed os s v =
      some (if s.cur + v.width ≤ s.size then (0, s.push (v.cells os)) else (-1, s)) := by
  cases v with
  | u8 src =>
      have hBytes : bytes8 src = order os (beBytes 1 src.toNat) := by
        cases os <;> simp [bytes8, order, beBytes, leBytes]
      exact serialWrite_eq h hBytes
  | u16 src => exact serialWrite_eq h (bytes16_eq os src)
  | u32 src => exact serialWrite_eq h (bytes32_eq os src)
  | u64 src => exact serialWrite_eq h (bytes64_eq os src)

theorem serialRead_eq {α : Type} {value : List UInt8 → Option α} {old : α} (build : Nat → α)
    (wrap : α → Fixed) (h : Valid s) (hOld : wrap old = dest)
    (hWrap : ∀ num, wrap (build num) = dest.withNum num)
    (hValue : ∀ {bytes}, bytes.length = dest.width →
      value bytes = some (build (beValue (order os bytes)))) :
    (serialRead s old dest.width value).map (fun (res, dest, s) => (res, wrap dest, s)) =
      some (if s.cur + dest.width ≤ s.size then
        (0, dest.withNum (beValue (order os
            ((slice s.buffer s.cur dest.width).map Int8.toUInt8))),
          { s with cur := s.cur + dest.width })
      else (-1, dest, s)) := by
  have hCur := h.cur_le
  rw [serialRead, h.room]
  by_cases hFits : s.cur + dest.width ≤ s.size
  · have hBytes := @hValue ((slice s.buffer s.cur dest.width).map Int8.toUInt8)
      (by rw [List.length_map, length_slice])
    rw [if_neg (by omega), if_pos hFits, fetch_eq hFits]
    simp only [Option.bind_eq_bind, Option.bind_some, hBytes, Option.map_some, hWrap]
  · rw [if_pos (by omega), if_neg hFits]
    simp only [Option.map_some, hOld]

/-- A read takes the value behind the cursor, or there is not as much. -/
theorem serialReadFixed_eq (os : OsEndian) (h : Valid s) (dest : Fixed) :
    serialReadFixed os s dest =
      some (if s.cur + dest.width ≤ s.size then
        (0, dest.withNum (beValue (order os
            ((slice s.buffer s.cur dest.width).map Int8.toUInt8))),
          { s with cur := s.cur + dest.width })
      else (-1, dest, s)) := by
  cases dest with
  | u8 old =>
      have hValue : ∀ {bytes : List UInt8}, bytes.length = 1 →
          value8 bytes = some (UInt8.ofNat (beValue (order os bytes))) := by
        intro bytes hLen
        match bytes, hLen with
        | [b1], _ => cases os <;> simp [value8, order, beValue, leValue]
      exact serialRead_eq UInt8.ofNat .u8 h rfl (fun _ => rfl) hValue
  | u16 old => exact serialRead_eq UInt16.ofNat .u16 h rfl (fun _ => rfl) (value16_eq os)
  | u32 old => exact serialRead_eq UInt32.ofNat .u32 h rfl (fun _ => rfl) (value32_eq os)
  | u64 old => exact serialRead_eq UInt64.ofNat .u64 h rfl (fun _ => rfl) (value64_eq os)

theorem copyIn_eq {data : List Int8} (hFits : data.length ≤ s.size) :
    s.copyIn data data.length = some { s with buffer := splice s.buffer 0 data } := by
  rw [SerialT.copyIn, if_pos ⟨Nat.le_refl _, hFits⟩, List.take_length]

/-- The length of a text goes behind the cursor, the text to the start of the buffer. -/
theorem serialWriten_eq (os : OsEndian) {data : List Int8} {len : UInt32} (h : Valid s)
    (hLen : len.toNat = data.length) :
    serialWriten os s data len =
      some (if s.cur + 4 + data.length ≤ s.size then
        (0, { s with
          buffer := splice (splice s.buffer s.cur ((Fixed.u32 len).cells os)) 0 data
          cur := s.cur + 4 + data.length })
      else (-1, s)) := by
  have hCur := h.cur_le
  have hSize := h.size_lt
  rw [serialWriten, h.room, hLen]
  by_cases hFits : s.cur + 4 + data.length ≤ s.size
  · have hWrite := serialWriteFixed_eq os h (.u32 len)
    rw [if_pos (by show s.cur + 4 ≤ s.size; omega)] at hWrite
    change serialWrite32 os s len = _ at hWrite
    have hCopy := @copyIn_eq (s.push ((Fixed.u32 len).cells os)) data (by rw [size_push]; omega)
    have hSum : toSize (((s.cur + 4 : Nat) : Int) + data.length) = s.cur + 4 + data.length := by
      rw [toSize]
      omega
    rw [if_neg (by omega), if_pos hFits, hWrite]
    simp only [Option.bind_eq_bind, Option.bind_some, hCopy, cur_push, Fixed.length_cells]
    exact congrArg (fun cur => some ((0 : Int), SerialT.mk _ _ cur)) hSum
  · rw [if_pos (by omega), if_neg hFits]

/-- The length is read behind the cursor, the text from the fifth cell of the buffer on. -/
theorem serialReadn_eq (os : OsEndian) {readLen : UInt32} (data : List Int8) (len : UInt32)
    (h : Valid s) (hFits : s.cur + 4 + readLen.toNat ≤ s.size) (hRoom : readLen.toNat ≤ data.length)
    (hLen : slice s.buffer s.cur 4 = (Fixed.u32 readLen).cells os) :
    serialReadn os s data len =
      some (0, slice s.buffer 4 readLen.toNat ++ data.drop readLen.toNat, readLen,
        { s with cur := toSize (s.cur + (4 + readLen).toNat) }) := by
  have hCur := h.cur_le
  have hFetch := @fetch_eq s 4 (by omega)
  have hBytes : (slice s.buffer s.cur 4).map Int8.toUInt8 = bytes32 os readLen := by
    rw [hLen, bytes32_eq]
    simp [Fixed.cells, Function.comp_def, Fixed.width, Fixed.num]
  have hValue : value32 os (bytes32 os readLen) = some readLen := by
    rw [value32_eq os (by rw [← hBytes, List.length_map, length_slice]), bytes32_eq, order_order,
      beValue_beBytes readLen.toNat_lt, UInt32.ofNat_toNat]
  have hCopy : s.copyOut data 4 readLen.toNat =
      some (slice s.buffer 4 readLen.toNat ++ data.drop readLen.toNat) :=
    if_pos ⟨hRoom, by omega⟩
  rw [hBytes] at hFetch
  rw [serialReadn, h.room, if_neg (by omega), hFetch]
  simp only [Option.bind_eq_bind, Option.bind_some, hValue]
  rw [if_neg (by omega), hCopy]
  rfl

end

end Gbase.Net.Serialize
