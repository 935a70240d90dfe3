import Gbase.Base.Buffer
import Gbase.Lib.Run

/-!
# Runs on the buffer of a connection (`base/buffer.c`)

Next to the buffer stand the bytes that its writes took and those that its reads gave since it was
reset.  A caller can also put bytes behind the others in place and write them without a copy, and
read bytes in place.

## Main results

* `bufferStep_spec`: one call keeps the buffer sane and does what it should.
* `buffer_fifo`: so does every call of every run, and none of them is undefined.
-/

namespace Gbase.Base.Buffer

open Gbase.Lib.Ring
open Gbase.Lib.Run

/-- A buffer, with the bytes that were written to it and read from it since the last reset. -/
structure State where
  buffer : BufferT
  written : List UInt8
  got : List UInt8

inductive BufferOp where
  | write (src : Option (Nat → UInt8)) (len : Int)
  /-- Bytes put at `buffer_write_buffer`, as far as there is room. -/
  | fill (bytes : List UInt8)
  | writeNocopy (len : Int)
  | read (dest : Option (Nat → UInt8)) (len : Int)
  | readNocopy (len : Int)
  | peek (dest : Option (Nat → UInt8)) (len : Int)
  | reset

/-- What a call gives back: its return value and the memory that it was to fill. -/
structure BufferResult where
  code : Int
  dest : Option (Nat → UInt8)

/-- The bytes of some memory that a return value counts. -/
def counted (memory : Option (Nat → UInt8)) (code : Int) : List UInt8 :=
  match memory with
  | none => []
  | some memory => slice memory 0 code.toNat

def bufferStep : Step State BufferOp BufferResult
  | s, .write src len =>
      (bufferWrite s.buffer (src.map fun src => slice src 0 len.toNat) len).map fun (code, cb) =>
        (⟨code, none⟩, { s with buffer := cb, written := s.written ++ counted src code })
  | s, .fill bytes =>
      (s.buffer.store s.buffer.writePos (bytes.take (bufferWriteLen s.buffer).toNat)).map fun cb =>
        (⟨0, none⟩, { s with buffer := cb })
  | s, .writeNocopy len =>
      (bufferWriteNocopy s.buffer len).map fun (code, cb) =>
        (⟨code, none⟩, { s with
          buffer := cb
          written := s.written ++ slice s.buffer.buffer s.buffer.writePos code.toNat })
  | s, .read dest len =>
      (bufferRead s.buffer dest len).map fun (code, dest, cb) =>
        (⟨code, dest⟩, { s with buffer := cb, got := s.got ++ counted dest code })
  | s, .readNocopy len =>
      (bufferReadNocopy s.buffer len).map fun (code, cb) =>
        (⟨code, none⟩, { s with
          buffer := cb
          got := s.got ++ slice s.buffer.buffer s.buffer.readPos code.toNat })
  | s, .peek dest len =>
      (bufferPeek s.buffer dest len).map fun (code, dest) => (⟨code, dest⟩, s)
  | s, .reset => some (⟨0, none⟩, { buffer := bufferReset s.buffer, written := [], got := [] })

/-- What holds of a buffer between two calls. -/
structure Sane (s : State) : Prop where
  order : s.buffer.readPos ≤ s.buffer.writePos
  size : s.buffer.writePos ≤ s.buffer.bufferSize
  fifo : s.written = s.got ++ s.buffer.content
  room : (s.buffer.bufferSize : Int) - (s.buffer.bufferSize / 2 : Nat) - bufferReadLen s.buffer ≤
    bufferWriteLen s.buffer

/-- A write of `bytes`, when `len` bytes were offered. -/
structure Stored (s s' : State) (len code : Int) (bytes : List UInt8) : Prop where
  count : code = min len (bufferWriteLen s.buffer)
  length : (bytes.length : Int) = code
  content : s'.buffer.content = s.buffer.content ++ bytes
  written : s'.written = s.written ++ bytes
  got : s'.got = s.got

/-- A read of `bytes`, when `len` bytes were asked for. -/
structure Removed (s s' : State) (len code : Int) (bytes : List UInt8) : Prop where
  count : code = min len (bufferReadLen s.buffer)
  length : (bytes.length : Int) = code
  content : s.buffer.content = bytes ++ s'.buffer.content
  written : s'.written = s.written
  got : s'.got = s.got ++ bytes

/-- What each call should do. -/
def Sound (s : State) (op : BufferOp) (result : BufferResult) (s' : State) : Prop :=
  Sane s' ∧ s'.got <+: s'.written ∧ s'.buffer.bufferSize = s.buffer.bufferSize ∧
    match op with
    | .write none _ => result.code = -1 ∧ s' = s
    | .write (some src) len =>
        if 0 ≤ len then Stored s s' len result.code (slice src 0 result.code.toNat)
        else result.code = -1 ∧ s' = s
    | .fill _ =>
        s'.buffer.content = s.buffer.content ∧ s'.written = s.written ∧ s'.got = s.got
    | .writeNocopy len =>
        if 0 ≤ len then
          Stored s s' len result.code (slice s.buffer.buffer s.buffer.writePos result.code.toNat)
        else result.code = -1 ∧ s' = s
    | .read none _ => result.code = -1 ∧ s' = s
    | .read (some dest) len =>
        if 0 ≤ len then
          ∃ bytes, Removed s s' len result.code bytes ∧
            result.dest = some (splice dest 0 bytes)
        else result.code = -1 ∧ s' = s ∧ result.dest = some dest
    | .readNocopy len =>
        if 0 ≤ len then
          Removed s s' len result.code (slice s.buffer.buffer s.buffer.readPos result.code.toNat)
        else result.code = -1 ∧ s' = s
    | .peek none _ => result.code = -1 ∧ s' = s
    | .peek (some dest) len =>
        s' = s ∧
          if 0 ≤ len then
            result.code = min len (bufferReadLen s.buffer) ∧
              result.dest = some (splice dest 0 (s.buffer.content.take result.code.toNat))
          else result.code = -1 ∧ result.dest = some dest
    | .reset =>
        result.code = 0 ∧ s'.buffer.content = [] ∧ s'.written = [] ∧ s'.got = []

/-- The buffer holds the bytes that were written and not read yet. -/
def Inv (s : State) : Prop := ∃ content, s.written = s.got ++ content ∧ Holds s.buffer content

section

variable {s s' : State} {content bytes : List UInt8} {len code : Int}

theorem Inv.sane (h : Inv s) : Sane s := by
  obtain ⟨content, hWritten, hHolds⟩ := h
  have hWrite := hHolds.write
  have hDrift := hHolds.drift
  have hRead := hHolds.read
  exact {
    order := by omega
    size := hHolds.fits
    fifo := by rw [hHolds.content_eq, hWritten]
    room := by
      rw [hHolds.readLen, bufferWriteLen]
      omega }

theorem Sane.isPrefix (h : Sane s) : s.got <+: s.written := ⟨s.buffer.content, h.fifo.symm⟩

/-- What a call does, from what it does to the bytes in the buffer. -/
theorem Inv.sound {op : BufferOp} {result : BufferResult} (hInv : Inv s')
    (hSize : s'.buffer.bufferSize = s.buffer.bufferSize)
    (hDoes : Sane s' → s'.got <+: s'.written →
      s'.buffer.bufferSize = s.buffer.bufferSize → Sound s op result s') :
    Sound s op result s' ∧ Inv s' :=
  ⟨hDoes hInv.sane hInv.sane.isPrefix hSize, hInv⟩

/-- A write to the buffer that took some bytes. -/
theorem Stored.of_holds {cb' : BufferT} (hWritten : s.written = s.got ++ content)
    (hHolds : Holds s.buffer content) (hLen : 0 ≤ len)
    (hCode : code = min len (bufferWriteLen s.buffer)) (hLength : bytes.length = code.toNat)
    (hHolds' : Holds cb' (content ++ bytes)) :
    Stored s { s with buffer := cb', written := s.written ++ bytes } len code bytes ∧
      Inv { s with buffer := cb', written := s.written ++ bytes } := by
  have hRoom := hHolds.room
  refine ⟨?_, content ++ bytes, ?_, hHolds'⟩
  · exact {
      count := hCode
      length := by omega
      content := by
        show cb'.content = _
        rw [hHolds'.content_eq, hHolds.content_eq]
      written := rfl
      got := rfl }
  · show s.written ++ bytes = s.got ++ (content ++ bytes)
    rw [hWritten, List.append_assoc]

/-- A read from the buffer. -/
theorem Removed.of_holds {cb' : BufferT} (hWritten : s.written = s.got ++ content)
    (hHolds : Holds s.buffer content) (hLen : 0 ≤ len)
    (hHolds' : Holds cb' (content.drop len.toNat)) :
    Removed s { s with buffer := cb', got := s.got ++ content.take len.toNat } len
        (min len content.length) (content.take len.toNat) ∧
      Inv { s with buffer := cb', got := s.got ++ content.take len.toNat } := by
  refine ⟨?_, content.drop len.toNat, ?_, hHolds'⟩
  · exact {
      count := by rw [hHolds.readLen]
      length := by
        rw [List.length_take]
        omega
      content := by
        show _ = _ ++ cb'.content
        rw [hHolds'.content_eq, hHolds.content_eq, List.take_append_drop]
      written := rfl
      got := rfl }
  · show s.written = s.got ++ content.take len.toNat ++ content.drop len.toNat
    rw [hWritten, List.append_assoc, List.take_append_drop]

/-- The bytes at the start of the buffer, as many as a read of `len` bytes takes. -/
theorem slice_read (hHolds : Holds s.buffer content) (len : Int) :
    slice s.buffer.buffer s.buffer.readPos (min len content.length).toNat =
      content.take len.toNat := by
  have hLoad := hHolds.load_some (by omega : (min len content.length).toNat ≤ content.length)
  have hWrite := hHolds.write
  have hFits := hHolds.fits
  rw [BufferT.load, if_pos (by omega), take_min] at hLoad
  exact Option.some.inj hLoad

/-- The bytes that a read put into the caller's memory. -/
theorem slice_dest (dest : Nat → UInt8) (len : Int) :
    slice (splice dest 0 (content.take len.toNat)) 0 (min len content.length).toNat =
      content.take len.toNat := by
  have hLength : (min len content.length).toNat = (content.take len.toNat).length := by
    rw [List.length_take]
    omega
  rw [hLength, slice_splice_self]

/-- One call does what it should and keeps the invariant. -/
theorem bufferStep_spec (hInv : Inv s) (op : BufferOp) :
    Does bufferStep (fun s op result s' => Sound s op result s' ∧ Inv s') s op := by
  obtain ⟨content, hWritten, hHolds⟩ := id hInv
  have hRoom := hHolds.room
  -- a call that is refused changes nothing
  have hSame : ∀ {op : BufferOp} {result : BufferResult},
      (Sane s → s.got <+: s.written → s.buffer.bufferSize = s.buffer.bufferSize →
        Sound s op result s) → Sound s op result s ∧ Inv s :=
    fun hDoes => hInv.sound rfl hDoes
  have hNone : ∀ code, s.written ++ slice s.buffer.buffer s.buffer.writePos (-1 : Int).toNat =
      s.written ∧ s.got ++ slice s.buffer.buffer code (-1 : Int).toNat = s.got :=
    fun code => ⟨List.append_nil _, List.append_nil _⟩
  cases op with
  | write src len =>
      cases src with
      | none =>
          refine ⟨⟨-1, none⟩, s, ?_, hSame fun h₁ h₂ h₃ => ⟨h₁, h₂, h₃, rfl, rfl⟩⟩
          simp only [bufferStep, Option.map_none, bufferWrite, Option.map_some, counted,
            List.append_nil]
      | some src =>
          by_cases hLen : 0 ≤ len
          · obtain ⟨cb', hWrite, hHolds', -, hSize⟩ := bufferWrite_spec hHolds hLen
              (by rw [length_slice]; omega : min len (bufferWriteLen s.buffer) ≤
                ((slice src 0 len.toNat).length : Int))
            rw [take_slice 0 (by omega)] at hHolds'
            obtain ⟨hStored, hInv'⟩ := Stored.of_holds hWritten hHolds hLen rfl
              (length_slice 0) hHolds'
            refine ⟨⟨min len (bufferWriteLen s.buffer), none⟩, _, ?_, hInv'.sound hSize
              fun h₁ h₂ h₃ => ⟨h₁, h₂, h₃, (if_pos hLen).mpr hStored⟩⟩
            simp only [bufferStep, Option.map_some, hWrite, counted]
          · refine ⟨⟨-1, none⟩, s, ?_, hSame fun h₁ h₂ h₃ => ⟨h₁, h₂, h₃, ?_⟩⟩
            · simp only [bufferStep, Option.map_some, bufferWrite_negative (by omega : len < 0),
                counted]
              exact congrArg _ (congrArg _ (by simp [slice]))
            · exact (if_neg hLen).mpr ⟨rfl, rfl⟩
  | fill bytes =>
      obtain ⟨cb', hStore, hHolds', hSize⟩ :=
        @Holds.fill s.buffer content (bytes.take (bufferWriteLen s.buffer).toNat) hHolds
          (by rw [List.length_take]; omega)
      have hInv' : Inv { s with buffer := cb' } := ⟨content, hWritten, hHolds'⟩
      refine ⟨⟨0, none⟩, { s with buffer := cb' }, ?_, hInv'.sound hSize
        fun h₁ h₂ h₃ => ⟨h₁, h₂, h₃, ?_, rfl, rfl⟩⟩
      · simp only [bufferStep, hStore, Option.map_some]
      · show cb'.content = _
        rw [hHolds'.content_eq, hHolds.content_eq]
  | writeNocopy len =>
      by_cases hLen : 0 ≤ len
      · obtain ⟨cb', hWrite, hHolds', hSize⟩ := bufferWriteNocopy_spec hHolds hLen
        obtain ⟨hStored, hInv'⟩ := Stored.of_holds hWritten hHolds hLen rfl
          (length_slice s.buffer.writePos) hHolds'
        refine ⟨⟨min len (bufferWriteLen s.buffer), none⟩, _, ?_, hInv'.sound hSize
          fun h₁ h₂ h₃ => ⟨h₁, h₂, h₃, (if_pos hLen).mpr hStored⟩⟩
        simp only [bufferStep, hWrite, Option.map_some]
      · refine ⟨⟨-1, none⟩, s, ?_, hSame fun h₁ h₂ h₃ => ⟨h₁, h₂, h₃, ?_⟩⟩
        · simp only [bufferStep, bufferWriteNocopy_negative hHolds (by omega : len < 0),
            Option.map_some, (hNone 0).1]
        · exact (if_neg hLen).mpr ⟨rfl, rfl⟩
  | read dest len =>
      cases dest with
      | none =>
          refine ⟨⟨-1, none⟩, s, ?_, hSame fun h₁ h₂ h₃ => ⟨h₁, h₂, h₃, rfl, rfl⟩⟩
          simp only [bufferStep, bufferRead, Option.map_some, counted, List.append_nil]
      | some dest =>
          by_cases hLen : 0 ≤ len
          · obtain ⟨cb', hRead, hHolds', hSize⟩ := bufferRead_spec hHolds dest hLen
            obtain ⟨hRemoved, hInv'⟩ := Removed.of_holds hWritten hHolds hLen hHolds'
            refine ⟨⟨min len content.length, some (splice dest 0 (content.take len.toNat))⟩, _, ?_,
              hInv'.sound hSize
                fun h₁ h₂ h₃ => ⟨h₁, h₂, h₃, (if_pos hLen).mpr ⟨_, hRemoved, rfl⟩⟩⟩
            simp only [bufferStep, hRead, Option.map_some, counted, slice_dest]
          · refine ⟨⟨-1, some dest⟩, s, ?_, hSame fun h₁ h₂ h₃ => ⟨h₁, h₂, h₃, ?_⟩⟩
            · simp only [bufferStep, bufferRead_negative dest (by omega : len < 0),
                Option.map_some, counted]
              exact congrArg _ (congrArg _ (by simp [slice]))
            · exact (if_neg hLen).mpr ⟨rfl, rfl, rfl⟩
  | readNocopy len =>
      by_cases hLen : 0 ≤ len
      · obtain ⟨cb', hRead, hHolds', -, hSize⟩ := bufferReadNocopy_spec hHolds hLen
        obtain ⟨hRemoved, hInv'⟩ := Removed.of_holds hWritten hHolds hLen hHolds'
        refine ⟨⟨min len content.length, none⟩, _, ?_, hInv'.sound hSize
          fun h₁ h₂ h₃ => ⟨h₁, h₂, h₃, (if_pos hLen).mpr ?_⟩⟩
        · simp only [bufferStep, hRead, Option.map_some, slice_read hHolds]
        · rw [slice_read hHolds]
          exact hRemoved
      · refine ⟨⟨-1, none⟩, s, ?_, hSame fun h₁ h₂ h₃ => ⟨h₁, h₂, h₃, ?_⟩⟩
        · simp only [bufferStep, bufferReadNocopy, if_pos (by omega : len < 0), Option.map_some,
            (hNone s.buffer.readPos).2]
        · exact (if_neg hLen).mpr ⟨rfl, rfl⟩
  | peek dest len =>
      cases dest with
      | none =>
          refine ⟨⟨-1, none⟩, s, ?_, hSame fun h₁ h₂ h₃ => ⟨h₁, h₂, h₃, rfl, rfl⟩⟩
          simp only [bufferStep, bufferPeek, Option.map_some]
      | some dest =>
          by_cases hLen : 0 ≤ len
          · refine ⟨⟨min len content.length, some (splice dest 0 (content.take len.toNat))⟩, s, ?_,
              hSame fun h₁ h₂ h₃ => ⟨h₁, h₂, h₃, rfl, (if_pos hLen).mpr ⟨?_, ?_⟩⟩⟩
            · simp only [bufferStep, bufferPeek_spec hHolds dest hLen, Option.map_some]
            · rw [hHolds.readLen]
            · rw [hHolds.content_eq, take_min]
          · refine ⟨⟨-1, some dest⟩, s, ?_, hSame fun h₁ h₂ h₃ => ⟨h₁, h₂, h₃, rfl, ?_⟩⟩
            · simp only [bufferStep, bufferPeek_negative dest (by omega : len < 0),
                Option.map_some]
            · exact (if_neg hLen).mpr ⟨rfl, rfl⟩
  | reset =>
      have hInv' : Inv { buffer := bufferReset s.buffer, written := [], got := [] } :=
        ⟨[], rfl, hHolds.reset⟩
      exact ⟨⟨0, none⟩, _, rfl, hInv'.sound rfl
        fun h₁ h₂ h₃ => ⟨h₁, h₂, h₃, rfl, hHolds.reset.content_eq, rfl, rfl⟩⟩

end

/-- On a buffer of any size, every call of every run is defined (so that no copy overlaps itself or
leaves the memory, and no assertion fails).  It takes or gives as many bytes as it should, in the
order in which they were written, and leaves the positions in order and room for new bytes. -/
theorem buffer_fifo {bufferSize : Int} (hPos : 0 < bufferSize) (hInt : bufferSize < 2 ^ 31)
    (memory : Nat → UInt8) (ops : List BufferOp) :
    ∃ cb, bufferCreate bufferSize memory = some cb ∧ Sane ⟨cb, [], []⟩ ∧
      Along bufferStep (Does bufferStep Sound) ⟨cb, [], []⟩ ops := by
  have hInit : Inv ⟨_, [], []⟩ :=
    ⟨[], rfl, @Holds.empty bufferSize.toNat memory (by omega) (by omega)⟩
  refine ⟨_, if_neg (by omega), hInit.sane, ?_⟩
  exact along_of_spec Inv (fun s op hInv _ => bufferStep_spec hInv op) hInit (along_true _ ops)

/-- A buffer of odd size: the second read drifts past the middle, so the last byte is moved to the
start, and the write behind it fills the memory. -/
theorem buffer_fifo_five :
    ∃ cb, bufferCreate 5 (fun _ => 0) = some cb ∧ Sane ⟨cb, [], []⟩ ∧
      Along bufferStep (Does bufferStep Sound) ⟨cb, [], []⟩
        [.write (some UInt8.ofNat) 4, .readNocopy 2, .peek (some UInt8.ofNat) 9,
          .read (some UInt8.ofNat) 1, .fill [7, 8, 9, 10, 11], .writeNocopy 9, .write none 1,
          .read (some UInt8.ofNat) (-1), .reset, .readNocopy 3] :=
  buffer_fifo (by decide) (by decide) _ _

end Gbase.Base.Buffer
