import Gbase.Base.Buffer
import Gbase.Core.OsDef
import Gbase.Lib.Bytes
import Mathlib.Data.Fin.VecNotation

/-!
# Websocket connections: frames (`net/wsconn.c`)

What the peer sends lies in `rbuf` as it came from the socket; the payloads of its frames go to
`rrbuf`, from which the callback `on_read` takes as many bytes as it says; what is to be sent
waits in `wbuf`.  This is the little-endian build.  The connection and its buffers are not `NULL`,
and the callbacks reach the application only through what their argument points to.  A read or a
write outside an array, a failed assertion and an overflow of `int` are undefined.

A frame is parsed from the bytes that were received; the numbers of its header have 64 bits, and
sums of them wrap around.
-/

namespace Gbase.Net.Wsconn

open Gbase.Base.Buffer
open Gbase.Core.OsDef
open Gbase.Lib.Bytes

inductive WsStatus where
  | init
  | established
  | fini
  deriving DecidableEq, Repr

/-- `EVENT_IN` -/
def eventIn : Nat := 1

/-- `EVENT_OUT` -/
def eventOut : Nat := 2

/-- `wsconn_t`, with what the arguments of the callbacks point to and the events that the
reactor waits for. -/
structure WsconnT (α : Type) where
  fd : Int
  events : Nat
  rbuf : BufferT
  rrbuf : BufferT
  wbuf : BufferT
  onBuild : Option (Int → α → α)
  onRead : Option (Int → α → List UInt8 → Int × α)
  arg : α
  status : WsStatus

variable {α : Type}

/-- `wsconn_established` -/
def wsconnEstablished (con : WsconnT α) : Int := if con.status = .established then 0 else -1

/-- `reactor_modify` -/
def reactorModify (con : WsconnT α) (events : Nat) : WsconnT α := { con with events := events }

/-- `frame_t`, as far as it is read. -/
structure FrameT where
  isMasked : Bool
  maskShift : Nat
  mask : Fin 4 → UInt8
  payloadShift : Nat
  payloadLen : Nat

/-- The length in two bytes. -/
def payloadLen16 (c1 c2 : UInt8) : Nat := c1.toNat <<< 8 ||| c2.toNat

/-- The length in eight bytes. -/
def payloadLen64 (b1 b2 b3 b4 b5 b6 b7 b8 : UInt8) : Nat :=
  b1.toNat <<< 56 ||| b2.toNat <<< 48 ||| b3.toNat <<< 40 ||| b4.toNat <<< 32 |||
    b5.toNat <<< 24 ||| b6.toNat <<< 16 ||| b7.toNat <<< 8 ||| b8.toNat

/-- The part of `_wsconn_frame` that reads the mask, or gives what the function returns there. -/
def wsconnFrameMask (data : List UInt8) (isMasked : Bool) (maskShift payloadLen : Nat) :
    Option (Except Int FrameT) :=
  let sz := data.length
  if isMasked then
    if sz < toSize (payloadLen + maskShift + 4) then some (.error 0)
    else do
      let m0 ← data[maskShift]?
      let m1 ← data[maskShift + 1]?
      let m2 ← data[maskShift + 2]?
      let m3 ← data[maskShift + 3]?
      return .ok {
        isMasked := true
        maskShift := maskShift
        mask := ![m0, m1, m2, m3]
        payloadShift := maskShift + 4
        payloadLen := payloadLen }
  else if sz < toSize (payloadLen + maskShift) then some (.error 0)
  else some (.ok {
    isMasked := false
    maskShift := maskShift
    mask := fun _ => 0
    payloadShift := maskShift
    payloadLen := payloadLen })

/-- The part of `_wsconn_frame` that reads the header, or gives what the function returns there. -/
def wsconnFrameHead (data : List UInt8) : Option (Except Int FrameT) :=
  let sz := data.length
  if sz < 2 then some (.error 0)
  else do
    let byte0 ← data[0]?
    -- only text frames are supported
    if byte0 &&& 0x0f ≠ 0x01 then return .error (-1)
    else
      let byte1 ← data[1]?
      let isMasked := decide (byte1 &&& 0x80 ≠ 0)
      let payloadLen := (byte1 &&& 0x7f).toNat
      if payloadLen = 126 then
        if sz < 2 + 2 then return .error 0
        else
          let c1 ← data[2]?
          let c2 ← data[3]?
          wsconnFrameMask data isMasked 4 (payloadLen16 c1 c2)
      else if payloadLen = 127 then
        if sz < 2 + 8 then return .error 0
        else
          let b1 ← data[2]?
          let b2 ← data[3]?
          let b3 ← data[4]?
          let b4 ← data[5]?
          let b5 ← data[6]?
          let b6 ← data[7]?
          let b7 ← data[8]?
          let b8 ← data[9]?
          wsconnFrameMask data isMasked 10 (payloadLen64 b1 b2 b3 b4 b5 b6 b7 b8)
      else wsconnFrameMask data isMasked 2 payloadLen

/-- A mask has four bytes. -/
instance four_neZero : NeZero 4 := ⟨by decide⟩

/-- The loop of `_wsconn_frame` that takes the mask off the payload: so many bytes are left, from
the given one on. -/
def unmask (mask : Fin 4 → UInt8) (payloadShift : Nat) :
    Nat → Nat → List UInt8 → Option (List UInt8)
  | 0, _, data => some data
  | count + 1, i, data =>
      match data[i + payloadShift]? with
      | none => none
      | some byte =>
          unmask mask payloadShift count (i + 1)
            (data.set (i + payloadShift) (byte ^^^ mask (Fin.ofNat 4 i)))

/-- The call of `on_read` with the bytes that wait for it; without one, the bytes that were stored
are taken. -/
def WsconnT.answer (con : WsconnT α) (buffer : List UInt8) (res : Int) : Int × α :=
  match con.onRead with
  | none => (res, con.arg)
  | some onRead => onRead con.fd con.arg buffer

/-- The part of `_wsconn_frame` behind the header. -/
def wsconnFramePayload (con : WsconnT α) (data : List UInt8) (frame : FrameT) :
    Option (Int × WsconnT α × List UInt8) := do
  let data ←
    (if frame.isMasked then unmask frame.mask frame.payloadShift frame.payloadLen 0 data
    else some data)
  let (res, rrbuf) ←
    bufferWrite con.rrbuf (some (data.drop frame.payloadShift)) (toInt frame.payloadLen)
  if res < 0 then return (-1, { con with rrbuf := rrbuf }, data)
  else
    let nread := bufferReadLen rrbuf
    if nread = 0 then none
    else
      let buffer ← rrbuf.load rrbuf.readPos nread
      let (res, arg) := con.answer buffer res
      if res > 0 then
        let (_, rrbuf) ← bufferReadNocopy rrbuf res
        return (toInt frame.payloadLen + frame.maskShift + (if frame.isMasked then 4 else 0),
          { con with rrbuf := rrbuf, arg := arg }, data)
      else return (res, { con with rrbuf := rrbuf, arg := arg }, data)

/-- `_wsconn_frame`, with what it leaves in `data`. -/
def wsconnFrame (con : WsconnT α) (data : List UInt8) :
    Option (Int × WsconnT α × List UInt8) := do
  let head ← wsconnFrameHead data
  match head with
  | .error res => return (res, con, data)
  | .ok frame => wsconnFramePayload con data frame

/-- `buffer_write` to `wbuf`, where the result is not looked at. -/
def WsconnT.write (con : WsconnT α) (src : List UInt8) (len : Int) : Option (WsconnT α) :=
  (bufferWrite con.wbuf (some src) len).map fun (_, wbuf) => { con with wbuf := wbuf }

/-- `wsconn_send` -/
def wsconnSend (con : WsconnT α) (buffer : Option (List UInt8)) (buflen : Int) :
    Option (Int × WsconnT α) :=
  match buffer with
  | none => some (-1, con)
  | some buffer =>
      if buflen < 0 then some (-1, con)
      else if wsconnEstablished con ≠ 0 then some (-1, con)
      else do
        let nwrite := bufferWriteLen con.wbuf
        let con ← con.write [0x81] 1
        if buflen < 126 then
          if nwrite < buflen + 2 then return (-1, con)
          else
            let con ← con.write [UInt8.ofNat buflen.toNat] 1
            let con ← con.write buffer buflen
            return (0, reactorModify con (eventIn ||| eventOut))
        else if buflen ≤ 65535 then
          if nwrite < buflen + 4 then return (-1, con)
          else
            let con ← con.write [126] 1
            let len := leBytes 2 buflen.toNat
            let con ← con.write (len.drop 1) 1
            let con ← con.write len 1
            let con ← con.write buffer buflen
            return (0, reactorModify con (eventIn ||| eventOut))
        -- the sum is an `int`
        else if 2 ^ 31 ≤ buflen + 10 then none
        else if nwrite < buflen + 10 then return (-1, con)
        else
          let con ← con.write [127] 1
          let len64 := leBytes 8 buflen.toNat
          let con ← con.write (len64.drop 7) 1
          let con ← con.write (len64.drop 6) 1
          let con ← con.write (len64.drop 5) 1
          let con ← con.write (len64.drop 4) 1
          let con ← con.write (len64.drop 3) 1
          let con ← con.write (len64.drop 2) 1
          let con ← con.write (len64.drop 1) 1
          let con ← con.write len64 1
          let con ← con.write buffer buflen
          return (0, reactorModify con (eventIn ||| eventOut))

end Gbase.Net.Wsconn
