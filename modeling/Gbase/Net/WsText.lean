import Gbase.Net.WsFrame

/-!
# Text frames from one side to the other

A text frame as a client or `wsconn_send` writes it, and what the parser makes of it.

A frame is a structure with its length form, its mask and its payload, so that there are frames of
every legal and wasteful kind.  Its bytes are put together from these, and the lemmas go back from
the bytes to the fields.  The round trip then holds for what `wsconn_send` writes and for what any
client may write.

## Main results

* `TextFrame.parse`, `TextFrame.parse_part`: a frame with all its bytes, and without the last
  ones.
* `wsconnSend_spec`: what `wsconn_send` writes where there is room for it.
* `wsconn_round_trip`: every payload arrives as it was sent.
-/

namespace Gbase.Net.Wsconn

open Gbase.Base.Buffer
open Gbase.Core.OsDef
open Gbase.Lib.Bytes

/-- The ways to write a length: in the second byte, or in two or eight bytes of its own. -/
inductive LenForm where
  | short
  | half
  | full
  deriving DecidableEq, Repr

/-- The lengths that can be written in a way. -/
def LenForm.Holds : LenForm → Nat → Prop
  | .short, n => n < 126
  | .half, n => n < 2 ^ 16
  | .full, n => n < 2 ^ 64

/-- The header behind the first byte. -/
def LenForm.bytes : LenForm → Nat → Nat → List UInt8
  | .short, flag, n => [UInt8.ofNat (flag + n)]
  | .half, flag, n => UInt8.ofNat (flag + 126) :: beBytes 2 n
  | .full, flag, n => UInt8.ofNat (flag + 127) :: beBytes 8 n

/-- The first byte of a text frame that is not split. -/
theorem text_byte : (0x81 : UInt8) &&& 0x0f = 0x01 := by decide

/-- A text frame. -/
structure TextFrame where
  first : UInt8
  form : LenForm
  mask : Option (Fin 4 → UInt8)
  payload : List UInt8
  text : first &&& 0x0f = 0x01
  holds : form.Holds payload.length

namespace TextFrame

/-- The header up to the mask. -/
def head (f : TextFrame) : List UInt8 :=
  f.first :: f.form.bytes (if f.mask.isSome then 128 else 0) f.payload.length

def maskBytes (f : TextFrame) : List UInt8 :=
  match f.mask with
  | none => []
  | some mask => [mask 0, mask 1, mask 2, mask 3]

/-- The payload as it is in the frame. -/
def carried (f : TextFrame) : List UInt8 :=
  match f.mask with
  | none => f.payload
  | some mask => xorMask mask 0 f.payload

/-- The frame as it goes over the network. -/
def bytes (f : TextFrame) : List UInt8 := f.head ++ f.maskBytes ++ f.carried

end TextFrame

/-! ## Parsing -/

section

variable {data stream rest : List UInt8} {i : Nat}

/-- The second byte of a header. -/
theorem flagged_byte (masked : Bool) {k : Nat} (hk : k < 128) :
    (UInt8.ofNat ((if masked then 128 else 0) + k) &&& 0x7f).toNat = k ∧
      decide (UInt8.ofNat ((if masked then 128 else 0) + k) &&& 0x80 ≠ 0) = masked := by
  revert masked k
  decide

theorem prefix_byteAt (h : data <+: stream) (hi : i < data.length) :
    byteAt data i = byteAt stream i := by
  obtain ⟨rest, rfl⟩ := h
  rw [byteAt, byteAt, List.getElem?_append_left hi]

theorem prefix_isText (h : data <+: stream) (hTwo : 2 ≤ data.length) :
    IsText data ↔ IsText stream := by
  rw [IsText, IsText, prefix_byteAt h (by omega)]

theorem prefix_isMasked (h : data <+: stream) (hTwo : 2 ≤ data.length) :
    isMasked data = isMasked stream := by
  rw [isMasked, isMasked, prefix_byteAt h (by omega)]

private theorem prefix_shortLen (h : data <+: stream) (hTwo : 2 ≤ data.length) :
    shortLen data = shortLen stream := by
  rw [shortLen, shortLen, prefix_byteAt h (by omega)]

theorem prefix_headSize (h : data <+: stream) (hTwo : 2 ≤ data.length) :
    headSize data = headSize stream := by
  rw [headSize, headSize, prefix_shortLen h hTwo]

theorem prefix_declaredLen (h : data <+: stream) (hTwo : 2 ≤ data.length)
    (hHead : headSize data ≤ data.length) : declaredLen data = declaredLen stream := by
  have hTake : data.take (headSize data) = stream.take (headSize data) := by
    obtain ⟨rest, rfl⟩ := h
    rw [List.take_append_of_le_length hHead]
  rw [declaredLen, declaredLen, hTake, prefix_headSize h hTwo, prefix_shortLen h hTwo]

end

namespace TextFrame

variable {f : TextFrame} {α : Type} {con : WsconnT α} {data rest : List UInt8}

private theorem length_carried (f : TextFrame) : f.carried.length = f.payload.length := by
  rw [carried]
  split
  · rfl
  · exact length_xorMask _ _ _

/-- The header of a frame, read back. -/
theorem read_head (f : TextFrame) (rest : List UInt8) :
    IsText (f.head ++ rest) ∧ isMasked (f.head ++ rest) = f.mask.isSome ∧
      headSize (f.head ++ rest) = f.head.length ∧
      declaredLen (f.head ++ rest) = f.payload.length := by
  obtain ⟨first, form, mask, payload, hText, hHolds⟩ := f
  cases form with
  | short =>
      have hLess : payload.length < 126 := hHolds
      obtain ⟨hLen, hMasked⟩ := @flagged_byte mask.isSome payload.length (by omega)
      have hShort : shortLen (head ⟨first, .short, mask, payload, hText, hHolds⟩ ++ rest) =
          payload.length := hLen
      have hSize : headSize (head ⟨first, .short, mask, payload, hText, hHolds⟩ ++ rest) = 2 := by
        rw [headSize, hShort, if_neg (by omega), if_neg (by omega)]
      refine ⟨hText, hMasked, hSize, ?_⟩
      rw [declaredLen, if_pos hSize]
      exact hLen
  | half =>
      obtain ⟨hLen, hMasked⟩ := @flagged_byte mask.isSome 126 (by decide)
      have hSize : headSize (head ⟨first, .half, mask, payload, hText, hHolds⟩ ++ rest) = 4 :=
        if_pos hLen
      have hLess : payload.length < 256 ^ 2 := hHolds
      refine ⟨hText, hMasked, hSize, ?_⟩
      rw [declaredLen, hSize]
      exact beValue_beBytes hLess
  | full =>
      obtain ⟨hLen, hMasked⟩ := @flagged_byte mask.isSome 127 (by decide)
      have hShort : shortLen (head ⟨first, .full, mask, payload, hText, hHolds⟩ ++ rest) = 127 :=
        hLen
      have hSize : headSize (head ⟨first, .full, mask, payload, hText, hHolds⟩ ++ rest) = 10 := by
        rw [headSize, hShort]
        rfl
      have hLess : payload.length < 256 ^ 8 := hHolds
      refine ⟨hText, hMasked, hSize, ?_⟩
      rw [declaredLen, hSize]
      exact beValue_beBytes hLess

/-- The mask of a frame, read back. -/
theorem read_mask (f : TextFrame) (rest : List UInt8) :
    maskSize (f.head ++ (f.maskBytes ++ rest)) = f.maskBytes.length ∧
      ∀ mask, f.mask = some mask →
        (frameOf (f.head ++ (f.maskBytes ++ rest))).mask = mask := by
  obtain ⟨-, hMasked, hSize, -⟩ := read_head f (f.maskBytes ++ rest)
  have hBytes : ∀ i, i < f.maskBytes.length →
      byteAt (f.head ++ (f.maskBytes ++ rest)) (f.head.length + i) = f.maskBytes[i]?.getD 0 := by
    intro i hi
    rw [byteAt, List.getElem?_append_right (by omega), Nat.add_sub_cancel_left,
      List.getElem?_append_left hi]
  rw [maskSize, hMasked]
  cases hMask : f.mask with
  | none =>
      refine ⟨?_, fun mask h => by cases h⟩
      rw [maskBytes, hMask]
      rfl
  | some mask =>
      have hFour : f.maskBytes = [mask 0, mask 1, mask 2, mask 3] := by
        rw [maskBytes, hMask]
      refine ⟨congrArg List.length hFour.symm, ?_⟩
      intro mask' hSome
      cases hSome
      have hIs : isMasked (f.head ++ (f.maskBytes ++ rest)) = true := by rw [hMasked, hMask]; rfl
      rw [hFour] at hBytes hSize hIs ⊢
      rw [frameOf, hIs, hSize, if_pos rfl]
      funext j
      obtain ⟨j, hj⟩ := j
      have hAt := hBytes j (by simpa using hj)
      rcases j with _ | _ | _ | _ | j
      · exact hAt
      · exact hAt
      · exact hAt
      · exact hAt
      · omega

theorem bytes_append (f : TextFrame) (rest : List UInt8) :
    f.bytes ++ rest = f.head ++ (f.maskBytes ++ (f.carried ++ rest)) := by
  rw [bytes, List.append_assoc, List.append_assoc]

theorem length_bytes (f : TextFrame) :
    f.bytes.length = f.head.length + f.maskBytes.length + f.payload.length := by
  rw [bytes, List.length_append, List.length_append, length_carried]

theorem two_le_head (f : TextFrame) : 2 ≤ f.head.length := by
  obtain ⟨first, form, mask, payload, hText, hHolds⟩ := f
  cases form <;> exact Nat.le_add_left 2 _

theorem declaredLen_eq (f : TextFrame) (rest : List UInt8) :
    declaredLen (f.bytes ++ rest) = f.payload.length := by
  rw [bytes_append]
  exact (read_head f _).2.2.2

/-- A frame is recognised whatever follows it. -/
theorem frameLen_eq (f : TextFrame) (rest : List UInt8) :
    frameLen (frameOf (f.bytes ++ rest)) = f.bytes.length := by
  obtain ⟨-, -, hSize, hLen⟩ := read_head f (f.maskBytes ++ (f.carried ++ rest))
  obtain ⟨hMask, -⟩ := read_mask f (f.carried ++ rest)
  rw [frameLen_frameOf, bytes_append, hSize, hLen, hMask, length_bytes]
  omega

/-- A frame with all its bytes is parsed. -/
theorem parse (f : TextFrame) (rest : List UInt8) (hInt : (f.bytes ++ rest).length < 2 ^ 31) :
    wsconnFrameHead (f.bytes ++ rest) = some (.ok (frameOf (f.bytes ++ rest))) := by
  obtain ⟨hText, -, -, -⟩ := read_head f (f.maskBytes ++ (f.carried ++ rest))
  rw [← bytes_append] at hText
  have hWhole := frameLen_eq f rest
  have hTwo := two_le_head f
  have hLength := length_bytes f
  rw [frameLen_frameOf] at hWhole
  apply wsconnFrameHead_whole _ hText hInt
  · rw [hWhole, List.length_append]
    omega
  · rw [List.length_append]
    omega

/-- The payload is found where the frame carries it. -/
theorem fits (f : TextFrame) (rest : List UInt8) :
    (frameOf (f.bytes ++ rest)).payloadShift + (frameOf (f.bytes ++ rest)).payloadLen ≤
      (f.bytes ++ rest).length := by
  have hWhole := frameLen_eq f rest
  rw [frameLen_frameOf] at hWhole
  rw [payloadShift_frameOf, payloadLen_frameOf, List.length_append]
  omega

/-- The payload of a frame, without its mask. -/
theorem payloadOf_eq (f : TextFrame) (rest : List UInt8) :
    payloadOf (frameOf (f.bytes ++ rest)) (f.bytes ++ rest) = f.payload := by
  obtain ⟨-, hMasked, hSize, hLen⟩ := read_head f (f.maskBytes ++ (f.carried ++ rest))
  obtain ⟨hMaskSize, hMaskAt⟩ := read_mask f (f.carried ++ rest)
  have hDrop : ((f.bytes ++ rest).drop (f.head.length + f.maskBytes.length)).take f.payload.length =
      f.carried := by
    rw [bytes, List.append_assoc, List.drop_left' List.length_append,
      List.take_left' (length_carried f)]
  rw [← bytes_append] at *
  rw [payloadOf, payloadShift_frameOf, payloadLen_frameOf, hSize, hLen, hMaskSize, hDrop, carried]
  cases hMask : f.mask with
  | none =>
      have hIs : (frameOf (f.bytes ++ rest)).isMasked = false := by
        rw [hMask] at hMasked
        exact hMasked
      simp only [hIs, Bool.false_eq_true, if_false]
  | some mask =>
      have hIs : (frameOf (f.bytes ++ rest)).isMasked = true := by
        rw [hMask] at hMasked
        exact hMasked
      simp only [hIs, if_true, hMaskAt mask hMask, xorMask_xorMask]

/-- A frame without its last bytes is left for later. -/
theorem parse_part (f : TextFrame) (hPrefix : data <+: f.bytes) (hNe : data ≠ f.bytes)
    (hLong : f.bytes.length < 2 ^ 64) : wsconnFrame con data = some (0, con, data) := by
  apply wsconnFrame_error
  have hLess : data.length < f.bytes.length :=
    Nat.lt_of_le_of_ne hPrefix.length_le fun hEq => hNe (hPrefix.eq_of_length hEq)
  have hRead := read_head f (f.maskBytes ++ f.carried)
  have hLen := frameLen_eq f []
  rw [List.append_nil, frameLen_frameOf] at hLen
  rw [← List.append_assoc] at hRead
  obtain ⟨hText, -, -, -⟩ : IsText f.bytes ∧ _ := hRead
  rw [wsconnFrameHead_eq]
  by_cases hTwo : data.length < 2
  · rw [if_pos hTwo]
  · rw [if_neg hTwo, if_neg (not_not_intro ((prefix_isText hPrefix (by omega)).mpr hText))]
    by_cases hHead : data.length < headSize data
    · rw [if_pos hHead]
    · have hMore : data.length <
          toSize (declaredLen data + headSize data + maskSize data) := by
        rw [prefix_declaredLen hPrefix (by omega) (by omega), prefix_headSize hPrefix (by omega),
          maskSize, prefix_isMasked hPrefix (by omega), ← maskSize, toSize]
        omega
      rw [if_neg hHead, if_pos hMore]

end TextFrame

/-! ## Sending -/

/-- How `wsconn_send` writes a length. -/
def sentForm (n : Nat) : LenForm := if n < 126 then .short else if n ≤ 65535 then .half else .full

/-- The size of the frame that `wsconn_send` writes for a payload of some length. -/
def sentSize (n : Nat) : Nat := n + if n < 126 then 2 else if n ≤ 65535 then 4 else 10

private theorem sentForm_holds {n : Nat} (h : n < 2 ^ 64) : (sentForm n).Holds n := by
  rw [sentForm]
  split
  · assumption
  · split
    · exact Nat.lt_succ_of_le ‹_›
    · exact h

/-- The frame that `wsconn_send` writes. -/
def sentFrame (payload : List UInt8) (h : payload.length < 2 ^ 64) : TextFrame where
  first := 0x81
  form := sentForm payload.length
  mask := none
  payload := payload
  text := text_byte
  holds := sentForm_holds h

/-- Several calls of `buffer_write`, one after the other. -/
def WsconnT.writeAll (con : WsconnT α) (chunks : List (List UInt8 × Nat)) : Option (WsconnT α) :=
  chunks.foldlM (fun con chunk => con.write chunk.1 chunk.2) con

/-- The bytes that are written. -/
def written (chunks : List (List UInt8 × Nat)) : List UInt8 :=
  chunks.flatMap fun chunk => chunk.1.take chunk.2

section

variable {α : Type} {con : WsconnT α} {out : List UInt8}

theorem WsconnT.write_spec (h : Holds con.wbuf out) {src : List UInt8} {len : Nat}
    (hRoom : (len : Int) ≤ bufferWriteLen con.wbuf) (hSrc : len ≤ src.length) :
    ∃ wbuf, con.write src len = some { con with wbuf := wbuf } ∧
      Holds wbuf (out ++ src.take len) ∧ bufferWriteLen wbuf = bufferWriteLen con.wbuf - len := by
  obtain ⟨wbuf, hWrite, hHolds, hNext, -⟩ :=
    @bufferWrite_spec con.wbuf out src len h (Int.natCast_nonneg len) (by omega)
  rw [min_eq_left hRoom] at hWrite hHolds hNext
  refine ⟨wbuf, ?_, hHolds, hNext⟩
  rw [WsconnT.write, hWrite]
  rfl

/-- All of them are written, where there is room for all. -/
theorem WsconnT.writeAll_spec {chunks : List (List UInt8 × Nat)} (h : Holds con.wbuf out)
    (hSrc : ∀ chunk, chunk ∈ chunks → chunk.2 ≤ chunk.1.length)
    (hRoom : ((written chunks).length : Int) ≤ bufferWriteLen con.wbuf) :
    ∃ wbuf, con.writeAll chunks = some { con with wbuf := wbuf } ∧
      Holds wbuf (out ++ written chunks) ∧
      bufferWriteLen wbuf = bufferWriteLen con.wbuf - (written chunks).length := by
  induction chunks generalizing con out with
  | nil =>
      exact ⟨con.wbuf, rfl, by rwa [written, List.flatMap_nil, List.append_nil],
        by simp [written]⟩
  | cons chunk chunks ih =>
      have hFirst := hSrc chunk List.mem_cons_self
      have hTake : (chunk.1.take chunk.2).length = chunk.2 := List.length_take_of_le hFirst
      have hWritten : written (chunk :: chunks) = chunk.1.take chunk.2 ++ written chunks :=
        List.flatMap_cons
      rw [hWritten, List.length_append, hTake] at hRoom ⊢
      obtain ⟨wbuf, hWrite, hHolds, hNext⟩ := WsconnT.write_spec h (by omega) hFirst
      obtain ⟨wbuf', hAll, hHolds', hNext'⟩ := @ih { con with wbuf := wbuf } _ hHolds
        (fun chunk' hMem => hSrc chunk' (List.mem_cons_of_mem chunk hMem))
        (by show _ ≤ bufferWriteLen wbuf; omega)
      refine ⟨wbuf', ?_, ?_, ?_⟩
      · rw [WsconnT.writeAll, List.foldlM_cons, hWrite]
        exact hAll
      · rwa [← List.append_assoc]
      · have hLeft : bufferWriteLen wbuf' = bufferWriteLen wbuf - (written chunks).length := hNext'
        omega

/-- The calls of `buffer_write` in `wsconn_send`. -/
def sentChunks (payload : List UInt8) : List (List UInt8 × Nat) :=
  let n := payload.length
  if n < 126 then [([0x81], 1), ([UInt8.ofNat n], 1), (payload, n)]
  else if n ≤ 65535 then
    [([0x81], 1), ([126], 1), ((leBytes 2 n).drop 1, 1), (leBytes 2 n, 1), (payload, n)]
  else
    [([0x81], 1), ([127], 1), ((leBytes 8 n).drop 7, 1), ((leBytes 8 n).drop 6, 1),
      ((leBytes 8 n).drop 5, 1), ((leBytes 8 n).drop 4, 1), ((leBytes 8 n).drop 3, 1),
      ((leBytes 8 n).drop 2, 1), ((leBytes 8 n).drop 1, 1), (leBytes 8 n, 1), (payload, n)]

private theorem bytes_sentFrame (payload : List UInt8) (h : payload.length < 2 ^ 64) :
    (sentFrame payload h).bytes =
      0x81 :: ((sentForm payload.length).bytes 0 payload.length ++ payload) := by
  show 0x81 :: (sentForm payload.length).bytes 0 payload.length ++ [] ++ payload = _
  rw [List.append_nil, List.cons_append]

/-- What is written is the frame. -/
theorem written_sentChunks (payload : List UInt8) (h : payload.length < 2 ^ 64) :
    written (sentChunks payload) = (sentFrame payload h).bytes := by
  rw [sentChunks, bytes_sentFrame, sentForm]
  by_cases hShort : payload.length < 126
  · simp [hShort, written, LenForm.bytes]
  · by_cases hHalf : payload.length ≤ 65535
    · simp [hShort, hHalf, written, LenForm.bytes, beBytes, leBytes]
    · simp [hShort, hHalf, written, LenForm.bytes, beBytes, leBytes]

private theorem sentChunks_length (payload : List UInt8) :
    ∀ chunk, chunk ∈ sentChunks payload → chunk.2 ≤ chunk.1.length := by
  intro chunk hMem
  rw [sentChunks] at hMem
  split at hMem
  · simp only [List.mem_cons, List.not_mem_nil, or_false] at hMem
    rcases hMem with rfl | rfl | rfl <;> exact le_refl _
  · split at hMem
    · simp only [List.mem_cons, List.not_mem_nil, or_false] at hMem
      rcases hMem with rfl | rfl | rfl | rfl | rfl <;> simp
    · simp only [List.mem_cons, List.not_mem_nil, or_false] at hMem
      rcases hMem with rfl | rfl | rfl | rfl | rfl | rfl | rfl | rfl | rfl | rfl | rfl <;> simp

/-- The size of the frame that `wsconn_send` writes. -/
theorem length_sentFrame {payload : List UInt8} (h : payload.length < 2 ^ 64) :
    (sentFrame payload h).bytes.length = sentSize payload.length := by
  rw [bytes_sentFrame, List.length_cons, List.length_append, sentForm, sentSize]
  split
  · show 1 + payload.length + 1 = _
    omega
  · split
    · show 3 + payload.length + 1 = _
      omega
    · show 9 + payload.length + 1 = _
      omega

/-- Where there is room, `wsconn_send` makes its calls of `buffer_write`. -/
theorem wsconnSend_eq (hStatus : con.status = .established) {payload : List UInt8}
    (hLong : payload.length < 2 ^ 64) (hInt : (sentFrame payload hLong).bytes.length < 2 ^ 31)
    (hRoom : ((sentFrame payload hLong).bytes.length : Int) ≤ bufferWriteLen con.wbuf) :
    wsconnSend con (some payload) payload.length =
      (con.writeAll (sentChunks payload)).map fun con =>
        (0, reactorModify con (eventIn ||| eventOut)) := by
  have hEst : ¬ wsconnEstablished con ≠ 0 := by
    rw [wsconnEstablished, if_pos hStatus]
    exact not_not_intro rfl
  have hNonneg : ¬ (payload.length : Int) < 0 := by omega
  rw [length_sentFrame hLong, sentSize] at hInt hRoom
  simp only [wsconnSend, if_neg hNonneg, if_neg hEst, WsconnT.writeAll, sentChunks]
  by_cases hShort : payload.length < 126
  · rw [if_pos hShort] at hRoom
    have hFits : ¬ bufferWriteLen con.wbuf < payload.length + 2 := by omega
    simp only [if_pos hShort, if_pos (by omega : (payload.length : Int) < 126), if_neg hFits,
      Int.toNat_natCast, List.foldlM_cons, List.foldlM_nil, Nat.cast_one, Option.bind_eq_bind,
      Option.pure_def, Option.map_bind, Function.comp_def, Option.map_some]
  · by_cases hHalf : payload.length ≤ 65535
    · rw [if_neg hShort, if_pos hHalf] at hRoom
      have hFits : ¬ bufferWriteLen con.wbuf < payload.length + 4 := by omega
      simp only [if_neg hShort, if_pos hHalf, if_neg (by omega : ¬ (payload.length : Int) < 126),
        if_pos (by omega : (payload.length : Int) ≤ 65535), if_neg hFits, Int.toNat_natCast,
        List.foldlM_cons, List.foldlM_nil, Nat.cast_one, Option.bind_eq_bind, Option.pure_def,
        Option.map_bind, Function.comp_def, Option.map_some]
    · rw [if_neg hShort, if_neg hHalf] at hRoom hInt
      have hFits : ¬ bufferWriteLen con.wbuf < payload.length + 10 := by omega
      simp only [if_neg hShort, if_neg hHalf, if_neg (by omega : ¬ (payload.length : Int) < 126),
        if_neg (by omega : ¬ (payload.length : Int) ≤ 65535),
        if_neg (by omega : ¬ (2 : Int) ^ 31 ≤ payload.length + 10), if_neg hFits,
        Int.toNat_natCast, List.foldlM_cons, List.foldlM_nil, Nat.cast_one, Option.bind_eq_bind,
        Option.pure_def, Option.map_bind, Function.comp_def, Option.map_some]

/-- `wsconn_send` of a payload that there is room for. -/
theorem wsconnSend_spec (h : Holds con.wbuf out) (hStatus : con.status = .established)
    {payload : List UInt8} (hLong : payload.length < 2 ^ 64)
    (hRoom : (sentSize payload.length : Int) ≤ bufferWriteLen con.wbuf) :
    ∃ wbuf, wsconnSend con (some payload) payload.length =
        some (0, reactorModify { con with wbuf := wbuf } (eventIn ||| eventOut)) ∧
      Holds wbuf (out ++ (sentFrame payload hLong).bytes) := by
  have hSize := h.room
  have hSmall := h.int
  rw [← length_sentFrame hLong] at hRoom
  obtain ⟨wbuf, hAll, hHolds, -⟩ := WsconnT.writeAll_spec h (sentChunks_length payload)
    (by rwa [written_sentChunks payload hLong])
  refine ⟨wbuf, ?_, by rwa [← written_sentChunks]⟩
  rw [wsconnSend_eq hStatus hLong (by omega) hRoom, hAll]
  rfl

end

/-! ## Round trip -/

/-- The parser takes the bytes as one frame, and `on_read` gets the payload, once and nothing
else. -/
def Delivers {α : Type} (con : WsconnT α) (onRead : Int → α → List UInt8 → Int × α)
    (bytes payload : List UInt8) : Prop :=
  ∃ rrbuf data', Holds rrbuf [] ∧
    wsconnFrame con bytes = some ((bytes.length : Int),
      { con with rrbuf := rrbuf, arg := (onRead con.fd con.arg payload).2 }, data')

section

variable {α β : Type} {con : WsconnT α} {onRead : Int → α → List UInt8 → Int × α}
  {payload : List UInt8}

/-- A frame that is there as a whole is delivered. -/
theorem TextFrame.delivers (f : TextFrame) (hRead : con.onRead = some onRead)
    (hAll : ∀ arg buffer, (onRead con.fd arg buffer).1 = buffer.length)
    (hEmpty : Holds con.rrbuf []) (hPos : 1 ≤ f.payload.length)
    (hRoom : (f.payload.length : Int) ≤ bufferWriteLen con.rrbuf)
    (hInt : f.bytes.length < 2 ^ 31) : Delivers con onRead f.bytes f.payload := by
  have hParse := f.parse []
  have hLen := f.frameLen_eq []
  have hFits := f.fits []
  have hPayload := f.payloadOf_eq []
  rw [List.append_nil] at *
  have hStored : storedOf con (frameOf f.bytes) f.bytes = f.payload := by
    rw [storedOf, hPayload, List.take_of_length_le (by omega)]
  have hNe : f.payload ≠ [] := List.ne_nil_of_length_pos hPos
  have hAnswer : con.answer ([] ++ storedOf con (frameOf f.bytes) f.bytes)
      (storedOf con (frameOf f.bytes) f.bytes).length =
      ((f.payload.length : Int), (onRead con.fd con.arg f.payload).2) := by
    rw [List.nil_append, hStored, WsconnT.answer, hRead, ← hAll con.arg f.payload]
  obtain ⟨rrbuf, hRes, hHolds, -⟩ := @wsconnFramePayload_spec α con _ _ [] hEmpty hFits hInt
    (by rwa [List.nil_append, hStored]) _ _ hAnswer
  have hTaken : (f.payload.length : Int) > 0 := by omega
  rw [if_pos hTaken, List.nil_append, hStored, Int.toNat_natCast, List.drop_length] at hHolds
  rw [if_pos hTaken, hLen] at hRes
  exact ⟨rrbuf, _, hHolds, (wsconnFrame_ok (hParse hInt)).trans hRes⟩

/-- Every payload that fits arrives as it was sent by `wsconn_send`, and as a client sends it in
any frame that can carry it; a frame without its last bytes changes nothing. -/
theorem wsconn_round_trip (hRead : con.onRead = some onRead)
    (hAll : ∀ arg buffer, (onRead con.fd arg buffer).1 = buffer.length)
    (hEmpty : Holds con.rrbuf []) (hPos : 1 ≤ payload.length)
    (hRoom : (payload.length : Int) ≤ bufferWriteLen con.rrbuf) :
    (∀ (sender : WsconnT β) (out : List UInt8), sender.status = .established →
      Holds sender.wbuf out → (sentSize payload.length : Int) ≤ bufferWriteLen sender.wbuf →
      ∃ sender' bytes, wsconnSend sender (some payload) payload.length = some (0, sender') ∧
        Holds sender'.wbuf (out ++ bytes) ∧ Delivers con onRead bytes payload) ∧
    ∀ f : TextFrame, f.payload = payload → f.bytes.length < 2 ^ 31 →
      Delivers con onRead f.bytes payload ∧
      ∀ data, data <+: f.bytes → data ≠ f.bytes → wsconnFrame con data = some (0, con, data) := by
  constructor
  · intro sender out hStatus hOut hFits
    have hSize := hOut.room
    have hSmall := hOut.int
    have hGrow : payload.length ≤ sentSize payload.length := Nat.le_add_right _ _
    have hLong : payload.length < 2 ^ 64 := by omega
    obtain ⟨wbuf, hSend, hHolds⟩ := wsconnSend_spec hOut hStatus hLong hFits
    refine ⟨_, _, hSend, hHolds, ?_⟩
    exact (sentFrame payload hLong).delivers hRead hAll hEmpty hPos hRoom
      (by rw [length_sentFrame]; omega)
  · rintro f rfl hInt
    exact ⟨f.delivers hRead hAll hEmpty hPos hRoom hInt,
      fun data hPrefix hNe => f.parse_part hPrefix hNe (by omega)⟩

end

/-- The payload `Hi`, sent and received. -/
theorem wsconn_round_trip_two :
    ∃ sender' bytes, wsconnSend startedCon (some [0x48, 0x69]) 2 = some (0, sender') ∧
      Holds sender'.wbuf ([] ++ bytes) ∧
      Delivers startedCon (fun _ got buffer => (buffer.length, got ++ [buffer])) bytes
        [0x48, 0x69] :=
  (@wsconn_round_trip _ _ startedCon _ [0x48, 0x69] rfl (fun _ _ => rfl) startedBuffer_empty
    (by decide) (by decide)).1 startedCon [] rfl startedBuffer_empty (by decide)

end Gbase.Net.Wsconn
