import Gbase.Net.Wsconn

/-!
# What a websocket frame is taken for

What `_wsconn_frame` does with received bytes, said by the fields of their header.

The header tells three things: how long it is, how long the payload is, and whether there is a mask.
The parser reads them in this order and returns as soon as something is missing; the lemmas give the
same decisions as conditions on the bytes, once and for all callers.  The sum of the lengths is
taken modulo `2 ^ 64`, and that is where it can be wrong.

## Main results

* `wsconnFrameHead_eq`: what is read of any received bytes.
* `wsconnFramePayload_spec`: what happens to a payload that is there as a whole.
* `wsconnFrame_safe_iff`: the parser stays in the received bytes and fails no assertion if and only
  if they are not one of two kinds.
-/

namespace Gbase.Net.Wsconn

open Gbase.Base.Buffer
open Gbase.Core.OsDef
open Gbase.Lib.Bytes

/-! ## The header -/

/-- A byte of the received ones. -/
def byteAt (data : List UInt8) (i : Nat) : UInt8 := data[i]?.getD 0

/-- The frame is one of text. -/
def IsText (data : List UInt8) : Prop := byteAt data 0 &&& 0x0f = 0x01

instance IsText.decidable (data : List UInt8) : Decidable (IsText data) :=
  inferInstanceAs (Decidable (_ = _))

/-- The payload has a mask. -/
def isMasked (data : List UInt8) : Bool := decide (byteAt data 1 &&& 0x80 ≠ 0)

/-- The length in seven bits, which is 126 or 127 where a longer one follows. -/
def shortLen (data : List UInt8) : Nat := (byteAt data 1 &&& 0x7f).toNat

/-- The size of the header up to the mask. -/
def headSize (data : List UInt8) : Nat :=
  if shortLen data = 126 then 4 else if shortLen data = 127 then 10 else 2

def maskSize (data : List UInt8) : Nat := if isMasked data then 4 else 0

/-- The length of the payload by the header. -/
def declaredLen (data : List UInt8) : Nat :=
  if headSize data = 2 then shortLen data else beValue ((data.take (headSize data)).drop 2)

/-- The header as a whole. -/
def frameOf (data : List UInt8) : FrameT where
  isMasked := isMasked data
  maskShift := headSize data
  mask :=
    if isMasked data then
      ![byteAt data (headSize data), byteAt data (headSize data + 1),
        byteAt data (headSize data + 2), byteAt data (headSize data + 3)]
    else fun _ => 0
  payloadShift := headSize data + maskSize data
  payloadLen := declaredLen data

section

variable {data : List UInt8} {i : Nat}

theorem getElem?_byteAt (h : i < data.length) : data[i]? = some (byteAt data i) := by
  rw [byteAt, List.getElem?_eq_getElem h, Option.getD_some]

theorem payloadLen16_eq (c1 c2 : UInt8) : payloadLen16 c1 c2 = beValue [c1, c2] := or_two c1 c2

theorem payloadLen64_eq (b1 b2 b3 b4 b5 b6 b7 b8 : UInt8) :
    payloadLen64 b1 b2 b3 b4 b5 b6 b7 b8 = beValue [b1, b2, b3, b4, b5, b6, b7, b8] :=
  or_eight b1 b2 b3 b4 b5 b6 b7 b8

private theorem shortLen_lt (data : List UInt8) : shortLen data < 128 := by
  rw [shortLen, UInt8.toNat_and]
  exact Nat.lt_of_le_of_lt Nat.and_le_right (by decide)

/-- The three sizes of a header, with what they say of the length. -/
theorem headSize_cases (data : List UInt8) :
    (headSize data = 2 ∧ declaredLen data < 126) ∨ (headSize data = 4 ∧ declaredLen data < 2 ^ 16) ∨
      (headSize data = 10 ∧ declaredLen data < 2 ^ 64) := by
  have hBytes : ∀ n, beValue ((data.take n).drop 2) < 256 ^ (n - 2) := by
    intro n
    apply Nat.lt_of_lt_of_le (beValue_lt _)
    apply Nat.pow_le_pow_right (by decide)
    rw [List.length_drop, List.length_take]
    omega
  have hShort := shortLen_lt data
  by_cases hHalf : shortLen data = 126
  · have hSize : headSize data = 4 := if_pos hHalf
    refine Or.inr (Or.inl ⟨hSize, ?_⟩)
    rw [declaredLen, hSize]
    exact hBytes 4
  · by_cases hFull : shortLen data = 127
    · have hSize : headSize data = 10 := by rw [headSize, if_neg hHalf, if_pos hFull]
      refine Or.inr (Or.inr ⟨hSize, ?_⟩)
      rw [declaredLen, hSize]
      exact hBytes 10
    · have hSize : headSize data = 2 := by rw [headSize, if_neg hHalf, if_neg hFull]
      refine Or.inl ⟨hSize, ?_⟩
      rw [declaredLen, hSize, if_pos rfl]
      omega

/-- The length in two bytes. -/
theorem declaredLen_half (hSize : headSize data = 4) (h : 4 ≤ data.length) :
    payloadLen16 (byteAt data 2) (byteAt data 3) = declaredLen data := by
  have hBytes : (data.take 4).drop 2 = [byteAt data 2, byteAt data 3] :=
    match data, h with
    | _ :: _ :: _ :: _ :: _, _ => rfl
  rw [payloadLen16_eq, declaredLen, hSize, hBytes]
  rfl

/-- The length in eight bytes. -/
theorem declaredLen_full (hSize : headSize data = 10) (h : 10 ≤ data.length) :
    payloadLen64 (byteAt data 2) (byteAt data 3) (byteAt data 4) (byteAt data 5) (byteAt data 6)
      (byteAt data 7) (byteAt data 8) (byteAt data 9) = declaredLen data := by
  have hBytes : (data.take 10).drop 2 =
      [byteAt data 2, byteAt data 3, byteAt data 4, byteAt data 5, byteAt data 6, byteAt data 7,
        byteAt data 8, byteAt data 9] :=
    match data, h with
    | _ :: _ :: _ :: _ :: _ :: _ :: _ :: _ :: _ :: _ :: _, _ => rfl
  rw [payloadLen64_eq, declaredLen, hSize, hBytes]
  rfl

theorem wsconnFrameMask_eq (data : List UInt8) :
    wsconnFrameMask data (isMasked data) (headSize data) (declaredLen data) =
      if data.length < toSize (declaredLen data + headSize data + maskSize data) then
        some (.error 0)
      else if isMasked data = true ∧ data.length < headSize data + 4 then none
      else some (.ok (frameOf data)) := by
  rw [wsconnFrameMask, frameOf, maskSize]
  cases isMasked data with
  | false => simp
  | true =>
      simp only [if_true, true_and, Nat.cast_ofNat]
      by_cases hMore : data.length < toSize ((declaredLen data : Int) + headSize data + 4)
      · rw [if_pos hMore, if_pos hMore]
      · rw [if_neg hMore, if_neg hMore]
        by_cases hShort : data.length < headSize data + 4
        · have hNone : data[headSize data + 3]? = none := List.getElem?_eq_none (by omega)
          simp only [if_pos hShort, hNone, Option.bind_eq_bind, Option.bind_none,
            Option.bind_fun_none]
        · simp only [if_neg hShort, getElem?_byteAt (by omega : headSize data < data.length),
            getElem?_byteAt (by omega : headSize data + 1 < data.length),
            getElem?_byteAt (by omega : headSize data + 2 < data.length),
            getElem?_byteAt (by omega : headSize data + 3 < data.length)]
          rfl

/-- What `_wsconn_frame` reads of any received bytes. -/
theorem wsconnFrameHead_eq (data : List UInt8) :
    wsconnFrameHead data =
      if data.length < 2 then some (.error 0)
      else if ¬ IsText data then some (.error (-1))
      else if data.length < headSize data then some (.error 0)
      else if data.length < toSize (declaredLen data + headSize data + maskSize data) then
        some (.error 0)
      else if isMasked data = true ∧ data.length < headSize data + 4 then none
      else some (.ok (frameOf data)) := by
  rw [wsconnFrameHead]
  by_cases hTwo : data.length < 2
  · rw [if_pos hTwo, if_pos hTwo]
  · rw [if_neg hTwo, if_neg hTwo, getElem?_byteAt (by omega : 0 < data.length)]
    by_cases hText : IsText data
    · have hByte : ¬ byteAt data 0 &&& 0x0f ≠ 0x01 := not_not_intro hText
      rw [if_neg (not_not_intro hText), ← wsconnFrameMask_eq]
      simp only [Option.bind_eq_bind, Option.bind_some, if_neg hByte,
        getElem?_byteAt (by omega : 1 < data.length)]
      change (if shortLen data = 126 then _ else if shortLen data = 127 then _ else _) = _
      by_cases hHalf : shortLen data = 126
      · have hSize : headSize data = 4 := if_pos hHalf
        rw [if_pos hHalf, hSize]
        by_cases hShort : data.length < 4
        · rw [if_pos hShort, if_pos hShort]
          rfl
        · rw [if_neg hShort, if_neg hShort, getElem?_byteAt (by omega : 2 < data.length),
            getElem?_byteAt (by omega : 3 < data.length), ← declaredLen_half hSize (by omega)]
          rfl
      · rw [if_neg hHalf]
        by_cases hFull : shortLen data = 127
        · have hSize : headSize data = 10 := by rw [headSize, if_neg hHalf, if_pos hFull]
          rw [if_pos hFull, hSize]
          by_cases hShort : data.length < 10
          · rw [if_pos hShort, if_pos hShort]
            rfl
          · rw [if_neg hShort, if_neg hShort, getElem?_byteAt (by omega : 2 < data.length),
              getElem?_byteAt (by omega : 3 < data.length),
              getElem?_byteAt (by omega : 4 < data.length),
              getElem?_byteAt (by omega : 5 < data.length),
              getElem?_byteAt (by omega : 6 < data.length),
              getElem?_byteAt (by omega : 7 < data.length),
              getElem?_byteAt (by omega : 8 < data.length),
              getElem?_byteAt (by omega : 9 < data.length), ← declaredLen_full hSize (by omega)]
            rfl
        · have hSize : headSize data = 2 := by rw [headSize, if_neg hHalf, if_neg hFull]
          have hLen : declaredLen data = shortLen data := if_pos hSize
          rw [if_neg hFull, if_neg (by omega), hSize, hLen]
          rfl
    · have hByte : byteAt data 0 &&& 0x0f ≠ 0x01 := hText
      simp only [Option.bind_eq_bind, Option.bind_some, if_pos hByte, if_pos hText]
      rfl

end

/-! ## The payload -/

/-- Bytes with a mask put on or taken off, from the given place in the payload on. -/
def xorMask (mask : Fin 4 → UInt8) : Nat → List UInt8 → List UInt8
  | _, [] => []
  | i, byte :: bytes => (byte ^^^ mask (Fin.ofNat 4 i)) :: xorMask mask (i + 1) bytes

/-- The payload of a frame, without its mask. -/
def payloadOf (frame : FrameT) (data : List UInt8) : List UInt8 :=
  let bytes := (data.drop frame.payloadShift).take frame.payloadLen
  if frame.isMasked then xorMask frame.mask 0 bytes else bytes

/-- The received bytes, with the mask of the payload taken off. -/
def unmasked (frame : FrameT) (data : List UInt8) : List UInt8 :=
  data.take frame.payloadShift ++ payloadOf frame data ++
    data.drop (frame.payloadShift + frame.payloadLen)

/-- The number of bytes from the first of the header to the last of the payload. -/
def frameLen (frame : FrameT) : Nat :=
  frame.payloadLen + frame.maskShift + (if frame.isMasked then 4 else 0)

section

variable {mask : Fin 4 → UInt8} {shift i count : Nat} {data before bytes rest : List UInt8}

@[simp] theorem length_xorMask (mask : Fin 4 → UInt8) (i : Nat) (bytes : List UInt8) :
    (xorMask mask i bytes).length = bytes.length := by
  induction bytes generalizing i with
  | nil => rfl
  | cons byte bytes ih => rw [xorMask, List.length_cons, List.length_cons, ih]

/-- A mask that is put on twice is off. -/
theorem xorMask_xorMask (mask : Fin 4 → UInt8) (i : Nat) (bytes : List UInt8) :
    xorMask mask i (xorMask mask i bytes) = bytes := by
  induction bytes generalizing i with
  | nil => rfl
  | cons byte bytes ih =>
      rw [xorMask, xorMask, ih, UInt8.xor_assoc, UInt8.xor_self, UInt8.xor_zero]

/-- The loop on bytes that are all there. -/
theorem unmask_eq (hBefore : before.length = i + shift) :
    unmask mask shift bytes.length i (before ++ bytes ++ rest) =
      some (before ++ xorMask mask i bytes ++ rest) := by
  induction bytes generalizing i before with
  | nil => rfl
  | cons byte bytes ih =>
      have hAt : (before ++ byte :: bytes ++ rest)[i + shift]? = some byte := by
        simp [← hBefore]
      have hSet : (before ++ byte :: bytes ++ rest).set (i + shift)
          (byte ^^^ mask (Fin.ofNat 4 i)) =
          before ++ [byte ^^^ mask (Fin.ofNat 4 i)] ++ bytes ++ rest := by
        simp [← hBefore]
      have hNext := @ih (i + 1) (before ++ [byte ^^^ mask (Fin.ofNat 4 i)]) (by
        rw [List.length_append, List.length_singleton]
        omega)
      rw [List.length_cons, unmask, hAt]
      show unmask mask shift bytes.length (i + 1) ((before ++ byte :: bytes ++ rest).set _ _) = _
      rw [hSet, hNext, xorMask, List.append_assoc before, List.singleton_append]

/-- The loop on bytes that are not all there. -/
theorem unmask_none (hPos : 0 < count) (h : data.length < i + shift + count) :
    unmask mask shift count i data = none := by
  induction count generalizing i data with
  | zero => exact absurd hPos (Nat.lt_irrefl 0)
  | succ count ih =>
      rw [unmask]
      by_cases hIn : i + shift < data.length
      · rw [List.getElem?_eq_getElem hIn]
        apply ih (by omega)
        rw [List.length_set]
        omega
      · rw [List.getElem?_eq_none (by omega)]

end

/-- The part of a payload that there is room for. -/
def storedOf (con : WsconnT α) (frame : FrameT) (data : List UInt8) : List UInt8 :=
  (payloadOf frame data).take (bufferWriteLen con.rrbuf).toNat

section

variable {con : WsconnT α} {frame : FrameT} {data content : List UInt8}

theorem length_payloadOf (hFits : frame.payloadShift + frame.payloadLen ≤ data.length) :
    (payloadOf frame data).length = frame.payloadLen := by
  have hTake : ((data.drop frame.payloadShift).take frame.payloadLen).length =
      frame.payloadLen := by
    rw [List.length_take, List.length_drop]
    omega
  rw [payloadOf]
  split
  · rw [length_xorMask, hTake]
  · exact hTake

theorem length_unmasked (hFits : frame.payloadShift + frame.payloadLen ≤ data.length) :
    (unmasked frame data).length = data.length := by
  rw [unmasked, List.length_append, List.length_append, length_payloadOf hFits, List.length_take,
    List.length_drop]
  omega

/-- The received bytes fall into header, payload and what follows. -/
theorem take_payload_drop (frame : FrameT) (data : List UInt8) :
    data.take frame.payloadShift ++ (data.drop frame.payloadShift).take frame.payloadLen ++
      data.drop (frame.payloadShift + frame.payloadLen) = data := by
  rw [List.append_assoc, ← List.drop_drop, List.take_append_drop, List.take_append_drop]

/-- The mask is taken off where the payload is all there. -/
theorem unmask_payload (hFits : frame.payloadShift + frame.payloadLen ≤ data.length) :
    (if frame.isMasked then unmask frame.mask frame.payloadShift frame.payloadLen 0 data
      else some data) = some (unmasked frame data) := by
  have hParts := take_payload_drop frame data
  have hLength : ((data.drop frame.payloadShift).take frame.payloadLen).length =
      frame.payloadLen := by
    rw [List.length_take, List.length_drop]
    omega
  rw [unmasked, payloadOf]
  cases frame.isMasked with
  | true =>
      have hLoop := @unmask_eq frame.mask frame.payloadShift 0 (data.take frame.payloadShift)
        ((data.drop frame.payloadShift).take frame.payloadLen)
        (data.drop (frame.payloadShift + frame.payloadLen))
        (by rw [List.length_take]; omega)
      rwa [hParts, hLength] at hLoop
  | false => exact congrArg some hParts.symm

/-- The payload is stored as far as there is room for it. -/
theorem write_payload (h : Holds con.rrbuf content)
    (hFits : frame.payloadShift + frame.payloadLen ≤ data.length) (hInt : data.length < 2 ^ 31) :
    ∃ rrbuf,
      bufferWrite con.rrbuf (some ((unmasked frame data).drop frame.payloadShift))
        (toInt frame.payloadLen) = some (((storedOf con frame data).length : Int), rrbuf) ∧
      Holds rrbuf (content ++ storedOf con frame data) ∧
      bufferWriteLen rrbuf = bufferWriteLen con.rrbuf - (storedOf con frame data).length := by
  have hRoom := h.room
  have hPayload := length_payloadOf hFits
  have hDrop : (unmasked frame data).drop frame.payloadShift =
      payloadOf frame data ++ data.drop (frame.payloadShift + frame.payloadLen) := by
    rw [unmasked, List.append_assoc]
    apply List.drop_left'
    rw [List.length_take]
    omega
  obtain ⟨rrbuf, hWrite, hHolds, hNext, -⟩ :=
    @bufferWrite_spec con.rrbuf content ((unmasked frame data).drop frame.payloadShift)
      frame.payloadLen h (by omega)
      (by rw [List.length_drop, length_unmasked hFits]; omega)
  have hStored : ((unmasked frame data).drop frame.payloadShift).take
      (min (frame.payloadLen : Int) (bufferWriteLen con.rrbuf)).toNat =
          storedOf con frame data := by
    rw [hDrop, List.take_append_of_le_length (by omega), storedOf]
    by_cases hAll : frame.payloadLen ≤ (bufferWriteLen con.rrbuf).toNat
    · rw [List.take_of_length_le (by omega), List.take_of_length_le (by omega)]
    · congr 1
      omega
  have hCount : ((storedOf con frame data).length : Int) =
      min (frame.payloadLen : Int) (bufferWriteLen con.rrbuf) := by
    rw [storedOf, List.length_take]
    omega
  rw [hStored] at hHolds
  rw [toInt_eq (by omega : frame.payloadLen < 2 ^ 31), hCount]
  exact ⟨rrbuf, hWrite, hHolds, hNext⟩


/-- What happens to a payload that is there as a whole, where some bytes wait for `on_read`
then. -/
theorem wsconnFramePayload_spec (h : Holds con.rrbuf content)
    (hFits : frame.payloadShift + frame.payloadLen ≤ data.length) (hInt : data.length < 2 ^ 31)
    (hSome : content ++ storedOf con frame data ≠ []) {res : Int} {arg : α}
    (hAnswer : con.answer (content ++ storedOf con frame data) (storedOf con frame data).length =
      (res, arg)) :
    ∃ rrbuf,
      wsconnFramePayload con data frame =
        some (if res > 0 then (frameLen frame : Int) else res,
          { con with rrbuf := rrbuf, arg := arg }, unmasked frame data) ∧
      Holds rrbuf
        (if res > 0 then (content ++ storedOf con frame data).drop res.toNat
        else content ++ storedOf con frame data) ∧
      bufferWriteLen con.rrbuf - (storedOf con frame data).length ≤ bufferWriteLen rrbuf := by
  obtain ⟨rrbuf, hWrite, hHolds, hNext⟩ := write_payload h hFits hInt
  have hRead := hHolds.readLen
  have hPos : ¬ bufferReadLen rrbuf = 0 := by
    rw [hRead, List.length_eq_zero_iff]
    exact hSome
  have hNeg : ¬ ((storedOf con frame data).length : Int) < 0 := by omega
  have hLoad := hHolds.load
  rw [← hRead] at hLoad
  have hLen : toInt frame.payloadLen + frame.maskShift + (if frame.isMasked then 4 else 0) =
      (frameLen frame : Int) := by
    rw [toInt_eq (by omega : frame.payloadLen < 2 ^ 31), frameLen]
    split <;> rfl
  rw [wsconnFramePayload, unmask_payload hFits, Option.bind_eq_bind, Option.bind_some, hWrite,
    Option.bind_eq_bind, Option.bind_some]
  simp only [if_neg hNeg, if_neg hPos, hLoad, Option.bind_some, hAnswer, hLen]
  by_cases hTaken : res > 0
  · obtain ⟨rrbuf', hNocopy, hHolds', hMore, -⟩ :=
      @bufferReadNocopy_spec rrbuf _ res hHolds (by omega)
    simp only [if_pos hTaken, hNocopy, Option.bind_some]
    exact ⟨rrbuf', rfl, hHolds', by omega⟩
  · simp only [if_neg hTaken]
    exact ⟨rrbuf, rfl, hHolds, by omega⟩

/-- An empty payload where no bytes wait fails the assertion. -/
theorem wsconnFramePayload_none (h : Holds con.rrbuf content)
    (hFits : frame.payloadShift + frame.payloadLen ≤ data.length) (hInt : data.length < 2 ^ 31)
    (hNone : content ++ storedOf con frame data = []) :
    wsconnFramePayload con data frame = none := by
  obtain ⟨rrbuf, hWrite, hHolds, -⟩ := write_payload h hFits hInt
  have hZero : bufferReadLen rrbuf = 0 := by
    rw [hHolds.readLen, hNone]
    rfl
  have hNeg : ¬ ((storedOf con frame data).length : Int) < 0 := by omega
  rw [wsconnFramePayload, unmask_payload hFits, Option.bind_eq_bind, Option.bind_some, hWrite,
    Option.bind_eq_bind, Option.bind_some]
  simp only [if_neg hNeg, if_pos hZero]

/-! ## Which received bytes are safe -/

/-- `WSCONN_BUFFER_SIZE` -/
def wsconnBufferSize : Nat := 64 * 1024

/-- A buffer of a connection that was just started. -/
def startedBuffer : BufferT where
  bufferSize := wsconnBufferSize
  readPos := 0
  writePos := 0
  driftThreshold := wsconnBufferSize / 2
  buffer := fun _ => 0

/-- A connection that was just established, with an `on_read` that takes everything and writes it
down. -/
def startedCon : WsconnT (List (List UInt8)) where
  fd := 5
  events := eventIn
  rbuf := startedBuffer
  rrbuf := startedBuffer
  wbuf := startedBuffer
  onBuild := none
  onRead := some fun _ got buffer => (buffer.length, got ++ [buffer])
  arg := []
  status := .established

theorem startedBuffer_empty : Holds startedBuffer [] := Holds.empty (by decide) (by decide)

/-- The header is there up to the mask. -/
def HasHead (data : List UInt8) : Prop :=
  2 ≤ data.length ∧ IsText data ∧ headSize data ≤ data.length

/-- The length of a masked payload wraps around to one that is there. -/
def Wraps (data : List UInt8) : Prop :=
  isMasked data = true ∧ 2 ^ 64 ≤ declaredLen data + headSize data + 4 ∧
    declaredLen data + headSize data + 4 ≤ 2 ^ 64 + data.length

/-- The payload is there, and empty. -/
def HasEmpty (data : List UInt8) : Prop :=
  declaredLen data = 0 ∧ headSize data + maskSize data ≤ data.length

/-- The received bytes that the parser does not stand: a masked length that wraps around, and an
empty payload while no bytes wait for `on_read`. -/
def Trap (con : WsconnT α) (data : List UInt8) : Prop :=
  HasHead data ∧ (Wraps data ∨ HasEmpty data ∧ bufferReadLen con.rrbuf = 0)

instance HasHead.decidable (data : List UInt8) : Decidable (HasHead data) :=
  inferInstanceAs (Decidable (_ ∧ _))

instance Wraps.decidable (data : List UInt8) : Decidable (Wraps data) :=
  inferInstanceAs (Decidable (_ ∧ _))

instance HasEmpty.decidable (data : List UInt8) : Decidable (HasEmpty data) :=
  inferInstanceAs (Decidable (_ ∧ _))

instance Trap.decidable (con : WsconnT α) (data : List UInt8) : Decidable (Trap con data) :=
  inferInstanceAs (Decidable (_ ∧ _))

/-- The parser stays in the received bytes and fails no assertion, and it says to have processed
no more than there is. -/
def Safe (con : WsconnT α) (data : List UInt8) : Prop :=
  ∃ res con' data', wsconnFrame con data = some (res, con', data') ∧ (0 ≤ res → res ≤ data.length)

@[simp] theorem payloadShift_frameOf (data : List UInt8) :
    (frameOf data).payloadShift = headSize data + maskSize data := rfl

@[simp] theorem payloadLen_frameOf (data : List UInt8) :
    (frameOf data).payloadLen = declaredLen data := rfl

theorem frameLen_frameOf (data : List UInt8) :
    frameLen (frameOf data) = declaredLen data + headSize data + maskSize data := rfl

/-- Behind the frame nothing is changed. -/
theorem drop_unmasked
    (hFits : (frameOf data).payloadShift + (frameOf data).payloadLen ≤ data.length) :
    (unmasked (frameOf data) data).drop (frameLen (frameOf data)) =
      data.drop (frameLen (frameOf data)) := by
  have hLen : frameLen (frameOf data) =
      (frameOf data).payloadShift + (frameOf data).payloadLen := by
    rw [frameLen_frameOf, payloadShift_frameOf, payloadLen_frameOf]
    omega
  rw [unmasked, hLen]
  apply List.drop_left'
  rw [List.length_append, length_payloadOf hFits, List.length_take]
  omega

/-- What the parser gives where the header gives no frame. -/
theorem wsconnFrame_error {res : Int} (h : wsconnFrameHead data = some (.error res)) :
    wsconnFrame con data = some (res, con, data) := by
  rw [wsconnFrame, h]
  rfl

theorem wsconnFrame_ok (h : wsconnFrameHead data = some (.ok frame)) :
    wsconnFrame con data = wsconnFramePayload con data frame := by
  rw [wsconnFrame, h]
  rfl

/-- A frame that is there as a whole is parsed. -/
theorem wsconnFrameHead_whole (hTwo : 2 ≤ data.length) (hText : IsText data)
    (hInt : data.length < 2 ^ 31)
    (hWhole : declaredLen data + headSize data + maskSize data ≤ data.length) :
    wsconnFrameHead data = some (.ok (frameOf data)) := by
  have hMask : ¬ (isMasked data = true ∧ data.length < headSize data + 4) := by
    rintro ⟨hMasked, hShort⟩
    rw [maskSize, if_pos hMasked] at hWhole
    omega
  have hSize : toSize (declaredLen data + headSize data + maskSize data) =
      declaredLen data + headSize data + maskSize data :=
    toSize_eq (by omega)
  rw [wsconnFrameHead_eq, if_neg (by omega), if_neg (not_not_intro hText), if_neg (by omega), hSize,
    if_neg (by omega), if_neg hMask]

/-- Where nothing is stored for `on_read` and nothing waits. -/
theorem nothing_iff (h : Holds con.rrbuf content)
    (hFits : frame.payloadShift + frame.payloadLen ≤ data.length) :
    content ++ storedOf con frame data = [] ↔ content = [] ∧ frame.payloadLen = 0 := by
  have hRoom := h.room
  have hSize := h.size
  have hPayload := length_payloadOf hFits
  have hStored : (storedOf con frame data).length =
      min (bufferWriteLen con.rrbuf).toNat frame.payloadLen := by
    rw [storedOf, List.length_take, hPayload]
  rw [List.append_eq_nil_iff, ← List.length_eq_zero_iff, ← List.length_eq_zero_iff, hStored]
  omega

theorem maskSize_masked (hMasked : isMasked data = true) : maskSize data = 4 := if_pos hMasked

private theorem maskSize_unmasked (hMasked : isMasked data = false) : maskSize data = 0 := by
  rw [maskSize, hMasked]
  rfl

/-- A masked length that wraps around leads out of the received bytes. -/
theorem wsconnFrame_wraps (hHas : HasHead data) (hWraps : Wraps data)
    (hInt : data.length < 2 ^ 31) :
    wsconnFrame con data = none := by
  obtain ⟨hTwo, hText, hThere⟩ := hHas
  obtain ⟨hMasked, hLow, hHigh⟩ := hWraps
  have hFour := maskSize_masked hMasked
  have hCases := headSize_cases data
  have hSize : ¬ data.length < toSize (declaredLen data + headSize data + maskSize data) := by
    rw [toSize, hFour]
    omega
  have hHead := wsconnFrameHead_eq data
  rw [if_neg (by omega), if_neg (not_not_intro hText), if_neg (by omega), if_neg hSize] at hHead
  by_cases hShort : data.length < headSize data + 4
  · rw [if_pos ⟨hMasked, hShort⟩] at hHead
    rw [wsconnFrame, hHead]
    rfl
  · rw [if_neg (fun h => hShort h.2)] at hHead
    have hLoop : unmask (frameOf data).mask (frameOf data).payloadShift (frameOf data).payloadLen 0
        data = none :=
      unmask_none (by rw [payloadLen_frameOf]; omega)
        (by rw [payloadLen_frameOf, payloadShift_frameOf]; omega)
    have hIs : (frameOf data).isMasked = true := hMasked
    rw [wsconnFrame_ok hHead, wsconnFramePayload, if_pos hIs, hLoop]
    rfl

/-- Without a mask the wrapped length is a negative `int`. -/
theorem wsconnFrame_negative (h : wsconnFrameHead data = some (.ok frame))
    (hMasked : frame.isMasked = false) (hLow : 2 ^ 64 ≤ frame.payloadLen + 10)
    (hHigh : frame.payloadLen < 2 ^ 64) :
    wsconnFrame con data = some (-1, con, data) := by
  have hNeg : toInt frame.payloadLen < 0 := by
    rw [toInt, Int.bmod_def]
    omega
  have hWrite := @bufferWrite_negative con.rrbuf (data.drop frame.payloadShift) _ hNeg
  rw [wsconnFrame_ok h, wsconnFramePayload, hMasked, if_neg Bool.false_ne_true, Option.bind_eq_bind,
    Option.bind_some, hWrite]
  rfl

theorem not_safe (hNone : wsconnFrame con data = none) : ¬ Safe con data := by
  rintro ⟨res, con', data', hRes, -⟩
  rw [hNone] at hRes
  cases hRes

theorem safe_error {res : Int} (hHead : wsconnFrameHead data = some (.error res))
    (hRes : res ≤ data.length) : Safe con data :=
  ⟨res, con, data, wsconnFrame_error hHead, fun _ => hRes⟩

/-- Where the header is not there, the parser waits for more or turns the bytes down. -/
theorem safe_of_not_hasHead (hNot : ¬ HasHead data) : Safe con data := by
  have hHead := wsconnFrameHead_eq data
  by_cases hTwo : data.length < 2
  · rw [if_pos hTwo] at hHead
    exact safe_error hHead (Int.natCast_nonneg _)
  · rw [if_neg hTwo] at hHead
    by_cases hText : IsText data
    · have hShort : data.length < headSize data :=
        Nat.lt_of_not_le fun hThere => hNot ⟨Nat.le_of_not_lt hTwo, hText, hThere⟩
      rw [if_neg (not_not_intro hText), if_pos hShort] at hHead
      exact safe_error hHead (Int.natCast_nonneg _)
    · rw [if_pos hText] at hHead
      exact safe_error hHead (by omega)

/-- The length of a frame that is there as a whole does not wrap around. -/
theorem trap_whole_iff (hHas : HasHead data) (hInt : data.length < 2 ^ 31)
    (hWhole : declaredLen data + headSize data + maskSize data ≤ data.length) :
    Trap con data ↔ declaredLen data = 0 ∧ bufferReadLen con.rrbuf = 0 := by
  constructor
  · rintro ⟨-, hWraps | hEmpty⟩
    · obtain ⟨hMasked, hLow, -⟩ := hWraps
      have hFour := maskSize_masked hMasked
      omega
    · exact ⟨hEmpty.1.1, hEmpty.2⟩
  · rintro ⟨hZero, hNone⟩
    exact ⟨hHas, Or.inr ⟨⟨hZero, by omega⟩, hNone⟩⟩

/-- The payload of a frame that is not there as a whole is not there. -/
theorem trap_part_iff (hHas : HasHead data)
    (hPart : data.length < declaredLen data + headSize data + maskSize data) :
    Trap con data ↔ Wraps data := by
  constructor
  · rintro ⟨-, hWraps | hEmpty⟩
    · exact hWraps
    · obtain ⟨⟨hZero, hThere⟩, -⟩ := hEmpty
      omega
  · intro hWraps
    exact ⟨hHas, Or.inl hWraps⟩

/-- A frame that is there as a whole is handled unless there is nothing for `on_read`. -/
theorem safe_whole_iff (h : Holds con.rrbuf content) (hInt : data.length < 2 ^ 31)
    (hHas : HasHead data)
    (hWhole : declaredLen data + headSize data + maskSize data ≤ data.length) :
    Safe con data ↔ ¬ Trap con data := by
  have hFits : (frameOf data).payloadShift + (frameOf data).payloadLen ≤ data.length := by
    rw [payloadShift_frameOf, payloadLen_frameOf]
    omega
  have hOk : wsconnFrame con data = wsconnFramePayload con data (frameOf data) :=
    wsconnFrame_ok (wsconnFrameHead_whole hHas.1 hHas.2.1 hInt hWhole)
  have hNothing := nothing_iff h hFits
  rw [payloadLen_frameOf, ← List.length_eq_zero_iff (l := content), ← h.readLen,
    and_comm] at hNothing
  rw [trap_whole_iff hHas hInt hWhole, ← hNothing]
  by_cases hNone : content ++ storedOf con (frameOf data) data = []
  · exact iff_of_false (not_safe (hOk.trans (wsconnFramePayload_none h hFits hInt hNone)))
      (not_not_intro hNone)
  · obtain ⟨rrbuf, hRes, -⟩ := wsconnFramePayload_spec h hFits hInt hNone rfl
    refine iff_of_true ⟨_, _, _, hOk.trans hRes, ?_⟩ hNone
    rw [frameLen_frameOf]
    split <;> omega

/-- A part of a frame is left for later unless its masked length wraps around. -/
theorem safe_part_iff (hInt : data.length < 2 ^ 31) (hHas : HasHead data)
    (hPart : data.length < declaredLen data + headSize data + maskSize data) :
    Safe con data ↔ ¬ Trap con data := by
  rw [trap_part_iff hHas hPart]
  have hCases := headSize_cases data
  have hHead := wsconnFrameHead_eq data
  obtain ⟨hTwo, hText, hThere⟩ := id hHas
  rw [if_neg (by omega), if_neg (not_not_intro hText), if_neg (by omega)] at hHead
  by_cases hMore : data.length < toSize (declaredLen data + headSize data + maskSize data)
  · rw [if_pos hMore] at hHead
    refine iff_of_true (safe_error hHead (Int.natCast_nonneg _)) ?_
    rintro ⟨hMasked, hLow, hHigh⟩
    rw [maskSize_masked hMasked, toSize] at hMore
    omega
  · -- the sum of the sizes wraps around
    have hAround : 2 ^ 64 ≤ declaredLen data + headSize data + maskSize data ∧
        declaredLen data + headSize data + maskSize data ≤ 2 ^ 64 + data.length := by
      have hMask : maskSize data ≤ 4 := by
        rw [maskSize]
        split <;> omega
      rw [toSize] at hMore
      omega
    rw [if_neg hMore] at hHead
    cases hMasked : isMasked data with
    | true =>
        rw [maskSize_masked hMasked] at hAround
        have hWraps : Wraps data := ⟨hMasked, hAround⟩
        exact iff_of_false (not_safe (wsconnFrame_wraps hHas hWraps hInt)) (not_not_intro hWraps)
    | false =>
        rw [maskSize_unmasked hMasked] at hAround
        rw [hMasked, if_neg (fun h => Bool.false_ne_true h.1)] at hHead
        have hRes : wsconnFrame con data = some (-1, con, data) :=
          wsconnFrame_negative hHead hMasked (by rw [payloadLen_frameOf]; omega)
            (by rw [payloadLen_frameOf]; omega)
        refine iff_of_true ⟨-1, con, data, hRes, fun hNonneg => absurd hNonneg (by decide)⟩ ?_
        intro hWraps
        exact Bool.false_ne_true (hMasked.symm.trans hWraps.1)

/-- The parser is safe on some received bytes if and only if they are none it does not stand: a
payload of no bytes with nothing waiting fails the assertion, and a length that wraps around leads
out of the bytes. -/
theorem wsconnFrame_safe_iff (h : Holds con.rrbuf content) (hInt : data.length < 2 ^ 31) :
    Safe con data ↔ ¬ Trap con data := by
  by_cases hHas : HasHead data
  · by_cases hWhole : declaredLen data + headSize data + maskSize data ≤ data.length
    · exact safe_whole_iff h hInt hHas hWhole
    · exact safe_part_iff hInt hHas (Nat.lt_of_not_le hWhole)
  · exact iff_of_true (safe_of_not_hasHead hHas) fun hTrap => hHas hTrap.1

end

/-- The parser is safe on a masked frame that carries two bytes. -/
theorem wsconnFrame_safe_two : Safe startedCon [0x81, 0x82, 1, 2, 3, 4, 0x49, 0x6b] :=
  (wsconnFrame_safe_iff startedBuffer_empty (by decide)).mpr (by decide)

/-- An empty text frame fails the assertion, and the greatest length leads out of the received
bytes. -/
theorem wsconnFrame_not_safe :
    ¬ Safe startedCon [0x81, 0x80, 0, 0, 0, 0] ∧
      ¬ Safe startedCon
        [0x81, 0xff, 0xff, 0xff, 0xff, 0xff, 0xff, 0xff, 0xff, 0xff, 0, 0, 0, 0] ∧
      Holds startedCon.rrbuf [] := by
  refine ⟨not_safe (by decide), not_safe ?_, startedBuffer_empty⟩
  exact wsconnFrame_wraps (by decide) (by decide) (by decide)

end Gbase.Net.Wsconn
