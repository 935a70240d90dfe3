import Gbase.Net.WsText

/-!
# Sending a frame or nothing (`net/wsconn.c`)

`wsconn_send` writes the first byte of a frame before it looks whether there is room for the others.

The header of a frame is written in up to ten calls, each of which may find the buffer full without
anybody looking.  The check for room comes after the first of them.

## Main results

* `wsconnSend_short`: what is left behind when there is no room for the frame.
* `wsconnSend_all_iff`: when a call writes a frame or nothing.
-/

namespace Gbase.Net.Wsconn

open Gbase.Base.Buffer

variable {α : Type}

/-- A call that succeeds adds one text frame with the payload to what waits, and one that fails
changes nothing there. -/
def AllOrNothing (con : WsconnT α) (payload : List UInt8) : Prop :=
  ∃ res con', wsconnSend con (some payload) payload.length = some (res, con') ∧
    (res = 0 → ∃ f : TextFrame, f.payload = payload ∧
      con'.wbuf.content = con.wbuf.content ++ f.bytes) ∧
    (res < 0 → con'.wbuf = con.wbuf)

/-- There is room for the whole frame, or for no byte of it. -/
def SendFits (con : WsconnT α) (len : Nat) : Prop :=
  (sentSize len : Int) ≤ bufferWriteLen con.wbuf ∨
    bufferWriteLen con.wbuf = 0 ∧ len + 10 < 2 ^ 31

section

variable {con con' : WsconnT α} {out payload : List UInt8}

/-- Without room for the frame, its first byte is written where there is room for that. -/
theorem wsconnSend_short (hStatus : con.status = .established)
    (hRoom : bufferWriteLen con.wbuf < sentSize payload.length) :
    wsconnSend con (some payload) payload.length =
      if 2 ^ 31 ≤ payload.length + 10 then none
      else (con.write [0x81] 1).map fun con => (-1, con) := by
  have hEst : ¬ wsconnEstablished con ≠ 0 := by
    rw [wsconnEstablished, if_pos hStatus]
    exact not_not_intro rfl
  have hNonneg : ¬ (payload.length : Int) < 0 := by omega
  rw [sentSize] at hRoom
  simp only [wsconnSend, if_neg hNonneg, if_neg hEst]
  by_cases hShort : payload.length < 126
  · rw [if_pos hShort] at hRoom
    simp only [if_pos (by omega : (payload.length : Int) < 126),
      if_pos (by omega : bufferWriteLen con.wbuf < payload.length + 2),
      if_neg (by omega : ¬ 2 ^ 31 ≤ payload.length + 10)]
    exact Option.map_eq_bind.symm
  · by_cases hHalf : payload.length ≤ 65535
    · rw [if_neg hShort, if_pos hHalf] at hRoom
      simp only [if_neg (by omega : ¬ (payload.length : Int) < 126),
        if_pos (by omega : (payload.length : Int) ≤ 65535),
        if_pos (by omega : bufferWriteLen con.wbuf < payload.length + 4),
        if_neg (by omega : ¬ 2 ^ 31 ≤ payload.length + 10)]
      exact Option.map_eq_bind.symm
    · rw [if_neg hShort, if_neg hHalf] at hRoom
      simp only [if_neg (by omega : ¬ (payload.length : Int) < 126),
        if_neg (by omega : ¬ (payload.length : Int) ≤ 65535),
        if_pos (by omega : bufferWriteLen con.wbuf < payload.length + 10)]
      by_cases hOver : 2 ^ 31 ≤ payload.length + 10
      · simp only [if_pos hOver, if_pos (by omega : (2 : Int) ^ 31 ≤ payload.length + 10)]
        exact Option.bind_fun_none _
      · simp only [if_neg hOver, if_neg (by omega : ¬ (2 : Int) ^ 31 ≤ payload.length + 10)]
        exact Option.map_eq_bind.symm

/-- A byte that there is no room for is not written. -/
theorem WsconnT.write_full (hFull : bufferWriteLen con.wbuf = 0) (byte : UInt8) :
    con.write [byte] 1 = some con := by
  simp only [WsconnT.write, bufferWrite, hFull]
  rfl

/-- With room for some of the frame but not for all of it, what waits has changed. -/
theorem write_changes (h : Holds con.wbuf out) (hRoom : 1 ≤ bufferWriteLen con.wbuf) :
    ∃ con', con.write [0x81] 1 = some con' ∧ con'.wbuf ≠ con.wbuf := by
  obtain ⟨wbuf, hWrite, hHolds, -⟩ := @WsconnT.write_spec α con out h [0x81] 1 hRoom le_rfl
  refine ⟨_, hWrite, fun hSame => ?_⟩
  have hContent := hHolds.content_eq
  rw [show wbuf = con.wbuf from hSame, h.content_eq] at hContent
  have hLength := congrArg List.length hContent
  rw [List.length_append] at hLength
  simp at hLength

private theorem send_of_fits (h : Holds con.wbuf out) (hStatus : con.status = .established)
    (hFits : SendFits con payload.length) : AllOrNothing con payload := by
  have hSize := h.room
  have hSmall := h.int
  have hGrow : payload.length + 2 ≤ sentSize payload.length := by
    rw [sentSize]
    split
    · exact le_rfl
    · split <;> omega
  rcases hFits with hRoom | ⟨hFull, hInt⟩
  · have hLong : payload.length < 2 ^ 64 := by omega
    obtain ⟨wbuf, hSend, hHolds⟩ := wsconnSend_spec h hStatus hLong hRoom
    refine ⟨_, _, hSend, fun _ => ⟨sentFrame payload hLong, rfl, ?_⟩, fun hNeg => by omega⟩
    rw [h.content_eq]
    exact hHolds.content_eq
  · have hSend := @wsconnSend_short α con payload hStatus (by omega)
    rw [if_neg (by omega), WsconnT.write_full hFull] at hSend
    exact ⟨-1, con, hSend, fun hZero => by omega, fun _ => rfl⟩

private theorem fits_of_send (h : Holds con.wbuf out) (hStatus : con.status = .established)
    (hSend : AllOrNothing con payload) : SendFits con payload.length := by
  have hSize := h.room
  obtain ⟨res, con', hRun, -, hNothing⟩ := hSend
  by_contra hNot
  obtain ⟨hShort, hFull⟩ := not_or.mp hNot
  rw [wsconnSend_short hStatus (by omega)] at hRun
  split at hRun
  · cases hRun
  · obtain ⟨con'', hWrite, hChanged⟩ := write_changes h (by omega)
    rw [hWrite] at hRun
    cases hRun
    exact hChanged (hNothing (by decide))

end

/-- A call writes a whole frame or nothing if and only if there is room for all of it, or for none
of it. -/
theorem wsconnSend_all_iff {con : WsconnT α} {out payload : List UInt8}
    (h : Holds con.wbuf out) (hStatus : con.status = .established) :
    AllOrNothing con payload ↔ SendFits con payload.length :=
  ⟨fits_of_send h hStatus, send_of_fits h hStatus⟩

theorem wsconnSend_all_two : AllOrNothing startedCon [0x48, 0x69] ↔ SendFits startedCon 2 :=
  wsconnSend_all_iff startedBuffer_empty rfl

/-- A buffer of three bytes. -/
def smallCon : WsconnT (List (List UInt8)) :=
  { startedCon with
    wbuf := { bufferSize := 3, readPos := 0, writePos := 0, driftThreshold := 1,
              buffer := fun _ => 0 } }

/-- The frame of two bytes would take four. -/
theorem wsconnSend_part : ¬ AllOrNothing smallCon [0x48, 0x69] := by
  intro hSend
  have hEmpty : Holds smallCon.wbuf [] := Holds.empty (by decide) (by decide)
  have hFits := fits_of_send hEmpty rfl hSend
  exact absurd hFits (by rw [SendFits]; decide)

end Gbase.Net.Wsconn
