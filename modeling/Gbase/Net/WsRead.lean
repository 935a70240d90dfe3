import Gbase.Lib.Run
import Gbase.Net.WsHandshake
import Gbase.Net.WsText

/-!
# Websocket connections: reading (`net/wsconn.c`)

One call of `_wsconn_read` reads the socket once and then looks for one thing: the end of the
handshake, or one frame.

The bytes are put behind those that wait, and the call then sees all of them, however they were cut.
A frame that is not complete leaves the connection as it was, but for these bytes; a frame that is
complete goes through `rrbuf` and `on_read`, whose answer decides whether the frame is taken off.

## Main results

* `wsconnRead_frame`: what a call does with the frame that lies first in the buffer.
-/

namespace Gbase.Net.Wsconn

open Gbase.Base.Buffer
open Gbase.Lib.Run

/-- What `read` gives: bytes, none of them at the end of the stream; nothing for now, which is
`EAGAIN` and `EINTR`; another error. -/
inductive SockRead where
  | data (bytes : List UInt8)
  | again
  | error (errno : Nat)

/-- The loop of `_wsconn_read` that looks for the end of the handshake. -/
def handshakeEnd : List UInt8 → Option Nat
  | [] => none
  | byte :: bytes =>
      if [0x0d, 0x0a, 0x0d, 0x0a] <+: byte :: bytes then some 0
      else (handshakeEnd bytes).map (· + 1)

variable {α : Type}

/-- What `_wsconn_read` does with the bytes that wait in `rbuf`, so many of them new: its `res`,
and the connection. -/
def wsconnProcess (env : HandshakeEnv) (con : WsconnT α) (buffer : List UInt8) (res : Int) :
    Option (Int × WsconnT α) :=
  if wsconnEstablished con ≠ 0 then
    match handshakeEnd buffer with
    | none => some (res, con)
    | some start => wsconnHandshake env con (buffer.take (start + 4))
  else do
    let (res, con, data) ← wsconnFrame con buffer
    let rbuf ← con.rbuf.store con.rbuf.readPos data
    return (res, { con with rbuf := rbuf })

/-- `_wsconn_read`; the socket gives no more bytes than were asked for. -/
def wsconnRead (env : HandshakeEnv) (con : WsconnT α) (socket : SockRead) :
    Option (Int × WsconnT α) :=
  let nwrite := bufferWriteLen con.rbuf
  if nwrite < 0 then none
  else if 0 = nwrite then some (-1, con)
  else
    match socket with
    | .again => some (0, con)
    | .error errno => some (-errno, con)
    | .data [] => some (-1, con)
    | .data bytes => do
        let rbuf ← con.rbuf.store con.rbuf.writePos bytes
        let (_, rbuf) ← bufferWriteNocopy rbuf bytes.length
        let nread := bufferReadLen rbuf
        if nread = 0 then none
        else
          let buffer ← rbuf.load rbuf.readPos nread
          let (res, con) ← wsconnProcess env { con with rbuf := rbuf } buffer bytes.length
          if res < 0 then return (res, con)
          else
            let (_, rbuf) ← bufferReadNocopy con.rbuf res
            return (0, { con with rbuf := rbuf })

/-! ## One read -/

section

variable {env : HandshakeEnv} {con : WsconnT α} {rest waiting bytes : List UInt8}

/-- What the socket gives is put behind the bytes that wait. -/
theorem wsconnRead_data (h : Holds con.rbuf rest) (hNe : bytes ≠ [])
    (hRoom : (bytes.length : Int) ≤ bufferWriteLen con.rbuf) :
    ∃ rbuf, Holds rbuf (rest ++ bytes) ∧
      bufferWriteLen rbuf = bufferWriteLen con.rbuf - bytes.length ∧
      rbuf.bufferSize = con.rbuf.bufferSize ∧
      wsconnRead env con (.data bytes) = (do
        let (res, con) ← wsconnProcess env { con with rbuf := rbuf } (rest ++ bytes) bytes.length
        if res < 0 then return (res, con)
        else
          let (_, rbuf) ← bufferReadNocopy con.rbuf res
          return (0, { con with rbuf := rbuf })) := by
  obtain ⟨filled, hStore, rbuf, hNocopy, hHolds, hNext, hSize⟩ := h.append hRoom
  have hPos : 0 < bytes.length := List.length_pos_of_ne_nil hNe
  have hRead := hHolds.readLen
  have hLoad := hHolds.load
  rw [← hRead] at hLoad
  have hSome : ¬ bufferReadLen rbuf = 0 := by
    rw [hRead, List.length_append]
    omega
  refine ⟨rbuf, hHolds, hNext, hSize, ?_⟩
  cases bytes with
  | nil => exact absurd rfl hNe
  | cons byte more =>
      simp only [wsconnRead, if_neg (by omega : ¬ bufferWriteLen con.rbuf < 0),
        if_neg (by omega : ¬ 0 = bufferWriteLen con.rbuf), hStore, hNocopy, hLoad, if_neg hSome,
        Option.bind_eq_bind, Option.bind_some]

/-- A call that has to wait for more of a frame. -/
theorem wsconnRead_wait (hEst : con.status = .established) (h : Holds con.rbuf rest)
    (hNe : bytes ≠ []) (hRoom : (bytes.length : Int) ≤ bufferWriteLen con.rbuf)
    (hWait : ∀ con : WsconnT α, wsconnFrame con (rest ++ bytes) = some (0, con, rest ++ bytes)) :
    ∃ rbuf, wsconnRead env con (.data bytes) = some (0, { con with rbuf := rbuf }) ∧
      Holds rbuf (rest ++ bytes) := by
  obtain ⟨rbuf, hHolds, -, -, hRead⟩ := @wsconnRead_data α env con rest bytes h hNe hRoom
  obtain ⟨rbuf₁, hStore, hHolds₁, -, -⟩ := hHolds.store rfl
  obtain ⟨rbuf₂, hNocopy, hHolds₂, -, -⟩ := @bufferReadNocopy_spec rbuf₁ _ 0 hHolds₁ (le_refl 0)
  have hOpen : ¬ wsconnEstablished { con with rbuf := rbuf } ≠ 0 := by
    rw [wsconnEstablished, if_pos hEst]
    exact not_not_intro rfl
  refine ⟨rbuf₂, ?_, hHolds₂⟩
  rw [hRead, wsconnProcess, if_neg hOpen, hWait]
  simp only [Option.bind_eq_bind, Option.bind_some, hStore, Option.pure_def, lt_irrefl, if_false,
    hNocopy]

/-- A call with bytes that the parser refuses. -/
theorem wsconnRead_refused (hEst : con.status = .established) (h : Holds con.rbuf rest)
    (hNe : bytes ≠ []) (hRoom : (bytes.length : Int) ≤ bufferWriteLen con.rbuf)
    (hRefuse : ∀ con : WsconnT α,
      wsconnFrame con (rest ++ bytes) = some (-1, con, rest ++ bytes)) :
    ∃ con', wsconnRead env con (.data bytes) = some (-1, con') := by
  obtain ⟨rbuf, hHolds, -, -, hRead⟩ := @wsconnRead_data α env con rest bytes h hNe hRoom
  obtain ⟨rbuf₁, hStore, -, -, -⟩ := hHolds.store rfl
  have hOpen : ¬ wsconnEstablished { con with rbuf := rbuf } ≠ 0 := by
    rw [wsconnEstablished, if_pos hEst]
    exact not_not_intro rfl
  refine ⟨{ con with rbuf := rbuf₁ }, ?_⟩
  rw [hRead, wsconnProcess, if_neg hOpen, hRefuse]
  simp only [Option.bind_eq_bind, Option.bind_some, hStore, Option.pure_def,
    if_pos (by decide : (-1 : Int) < 0)]

/-- A call with a frame first, where some bytes wait for `on_read` then. -/
theorem wsconnRead_frame (hEst : con.status = .established) (h : Holds con.rbuf rest)
    (hWaiting : Holds con.rrbuf waiting) (hNe : bytes ≠ [])
    (hRoom : (bytes.length : Int) ≤ bufferWriteLen con.rbuf) {frame : FrameT}
    (hHead : wsconnFrameHead (rest ++ bytes) = some (.ok frame))
    (hFits : frame.payloadShift + frame.payloadLen ≤ (rest ++ bytes).length)
    (hSome : waiting ++ storedOf con frame (rest ++ bytes) ≠ []) {res : Int} {arg : α}
    (hAnswer : con.answer (waiting ++ storedOf con frame (rest ++ bytes))
      (storedOf con frame (rest ++ bytes)).length = (res, arg)) :
    ∃ rbuf rrbuf,
      wsconnRead env con (.data bytes) =
        some (min res 0, { con with rbuf := rbuf, rrbuf := rrbuf, arg := arg }) ∧
      Holds rbuf
        (if res > 0 then (unmasked frame (rest ++ bytes)).drop (frameLen frame)
        else unmasked frame (rest ++ bytes)) ∧
      Holds rrbuf
        (if res > 0 then (waiting ++ storedOf con frame (rest ++ bytes)).drop res.toNat
        else waiting ++ storedOf con frame (rest ++ bytes)) := by
  obtain ⟨rbuf, hHolds, -, -, hRead⟩ := @wsconnRead_data α env con rest bytes h hNe hRoom
  have hInt : (rest ++ bytes).length < 2 ^ 31 := by
    have hSmall := hHolds.int
    have hSize := hHolds.room
    omega
  obtain ⟨rrbuf, hFrame, hHolds', -⟩ := @wsconnFramePayload_spec α { con with rbuf := rbuf } frame
    (rest ++ bytes) waiting hWaiting hFits hInt hSome res arg hAnswer
  obtain ⟨rbuf₁, hStore, hHolds₁, -, -⟩ := hHolds.store (length_unmasked hFits)
  have hOpen : ¬ wsconnEstablished { con with rbuf := rbuf } ≠ 0 := by
    rw [wsconnEstablished, if_pos hEst]
    exact not_not_intro rfl
  rw [hRead, wsconnProcess, if_neg hOpen, wsconnFrame_ok hHead, hFrame]
  by_cases hTaken : res > 0
  · obtain ⟨rbuf₂, hNocopy, hHolds₂, -, -⟩ := @bufferReadNocopy_spec rbuf₁ _ (frameLen frame)
      hHolds₁ (Int.natCast_nonneg _)
    rw [Int.toNat_natCast] at hHolds₂
    refine ⟨rbuf₂, rrbuf, ?_, by rwa [if_pos hTaken], hHolds'⟩
    simp only [Option.bind_eq_bind, Option.bind_some, hStore, Option.pure_def, if_pos hTaken,
      if_neg (by omega : ¬ (frameLen frame : Int) < 0), hNocopy]
    rw [min_eq_right (by omega)]
  · by_cases hFail : res < 0
    · refine ⟨rbuf₁, rrbuf, ?_, by rwa [if_neg hTaken], hHolds'⟩
      simp only [Option.bind_eq_bind, Option.bind_some, hStore, Option.pure_def, if_neg hTaken,
        if_pos hFail]
      rw [min_eq_left (by omega)]
    · obtain ⟨rbuf₂, hNocopy, hHolds₂, -, -⟩ :=
        @bufferReadNocopy_spec rbuf₁ _ res hHolds₁ (by omega)
      have hZero : res = 0 := by omega
      rw [hZero, Int.toNat_zero, List.drop_zero] at hHolds₂
      refine ⟨rbuf₂, rrbuf, ?_, by rwa [if_neg hTaken], hHolds'⟩
      simp only [Option.bind_eq_bind, Option.bind_some, hStore, Option.pure_def, if_neg hTaken,
        if_neg hFail, hNocopy]
      rw [min_eq_right (by omega)]

/-- A call with an empty frame first, while no bytes wait for `on_read`. -/
theorem wsconnRead_none (hEst : con.status = .established) (h : Holds con.rbuf rest)
    (hWaiting : Holds con.rrbuf waiting) (hNe : bytes ≠ [])
    (hRoom : (bytes.length : Int) ≤ bufferWriteLen con.rbuf) {frame : FrameT}
    (hHead : wsconnFrameHead (rest ++ bytes) = some (.ok frame))
    (hFits : frame.payloadShift + frame.payloadLen ≤ (rest ++ bytes).length)
    (hNone : waiting ++ storedOf con frame (rest ++ bytes) = []) :
    wsconnRead env con (.data bytes) = none := by
  obtain ⟨rbuf, hHolds, -, -, hRead⟩ := @wsconnRead_data α env con rest bytes h hNe hRoom
  have hInt : (rest ++ bytes).length < 2 ^ 31 := by
    have hSmall := hHolds.int
    have hSize := hHolds.room
    omega
  have hFrame := @wsconnFramePayload_none α { con with rbuf := rbuf } frame (rest ++ bytes) waiting
    hWaiting hFits hInt hNone
  have hOpen : ¬ wsconnEstablished { con with rbuf := rbuf } ≠ 0 := by
    rw [wsconnEstablished, if_pos hEst]
    exact not_not_intro rfl
  rw [hRead, wsconnProcess, if_neg hOpen, wsconnFrame_ok hHead, hFrame]
  rfl

end

end Gbase.Net.Wsconn
