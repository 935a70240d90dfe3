import Gbase.Lib.Ring

/-!
# The buffer of a connection (`base/buffer.c`)

Bytes are written behind the last ones and read from the first ones on.  Once the first byte lies
behind the middle of the memory, the bytes are moved back to its start.  Positions and sizes are
of type `int` and never negative; the lengths that callers give can be.  The buffer itself is not
`NULL`.  A copy that leaves the memory, or overlaps itself, is undefined, as is a failed assertion.

## Main results

* `bufferWrite_spec`, `bufferReadNocopy_spec`: each call on a buffer that holds some bytes.
* `Holds.room`: how much a buffer can still take.
-/

namespace Gbase.Base.Buffer

open Gbase.Lib.Ring

/-- `buffer_t` -/
structure BufferT where
  bufferSize : Nat
  readPos : Nat
  writePos : Nat
  driftThreshold : Nat
  buffer : Nat → UInt8

/-- `buffer_create`, with the memory that the allocation gives. -/
def bufferCreate (bufferSize : Int) (memory : Nat → UInt8) : Option BufferT :=
  if bufferSize ≤ 0 then none
  else some {
    bufferSize := bufferSize.toNat
    readPos := 0
    writePos := 0
    driftThreshold := bufferSize.toNat / 2
    buffer := memory }

/-- `memcpy` from the buffer. -/
def BufferT.load (cb : BufferT) (start count : Nat) : Option (List UInt8) :=
  if start + count ≤ cb.bufferSize then some (slice cb.buffer start count) else none

/-- `memcpy` to the buffer. -/
def BufferT.store (cb : BufferT) (start : Nat) (bytes : List UInt8) : Option BufferT :=
  if start + bytes.length ≤ cb.bufferSize then
    some { cb with buffer := splice cb.buffer start bytes }
  else none

/-- `buffer_read_len` -/
def bufferReadLen (cb : BufferT) : Nat :=
  if cb.writePos > cb.readPos then cb.writePos - cb.readPos else 0

/-- `buffer_write_len` -/
def bufferWriteLen (cb : BufferT) : Int := cb.bufferSize - cb.writePos

/-- `buffer_read_nocopy`; when it calls itself, the length is the one to read. -/
def bufferReadNocopy (cb : BufferT) (len : Int) : Option (Int × BufferT) :=
  if len < 0 then some (-1, cb)
  else
    let len := if len > bufferReadLen cb then bufferReadLen cb else len.toNat
    let readPos := cb.readPos + len
    if cb.writePos < readPos then none
    else if readPos > cb.driftThreshold then do
      let rest ← cb.load readPos (cb.writePos - readPos)
      -- the copy goes from `readPos` to the start
      if readPos < rest.length then none
      else
        let moved ← cb.store 0 rest
        return (len, { moved with writePos := cb.writePos - readPos, readPos := 0 })
    else some (len, { cb with readPos := readPos })

/-- `buffer_write_nocopy`; when it calls itself, the length is the one to write. -/
def bufferWriteNocopy (cb : BufferT) (len : Int) : Option (Int × BufferT) :=
  let len := if bufferWriteLen cb < len then bufferWriteLen cb else len
  if len < 0 then some (-1, cb)
  else if cb.bufferSize < cb.writePos + len.toNat then none
  else some (len, { cb with writePos := cb.writePos + len.toNat })

/-- `buffer_write` from some memory, if `src` is not `NULL`; when it calls itself, the length is
the one to write. -/
def bufferWrite (cb : BufferT) (src : Option (List UInt8)) (len : Int) : Option (Int × BufferT) :=
  match src with
  | none => some (-1, cb)
  | some src =>
      let len := if 0 < len ∧ bufferWriteLen cb < len then bufferWriteLen cb else len
      if len < 0 then some (-1, cb)
      else if 0 = len then some (0, cb)
      else if src.length < len.toNat then none
      else do
        let filled ← cb.store cb.writePos (src.take len.toNat)
        bufferWriteNocopy filled len

/-- `buffer_peek` into some memory, if `dest` is not `NULL`; when it calls itself, the length is the
one to read. -/
def bufferPeek (cb : BufferT) (dest : Option (Nat → UInt8)) (len : Int) :
    Option (Int × Option (Nat → UInt8)) :=
  match dest with
  | none => some (-1, none)
  | some dest =>
      let len := if len > bufferReadLen cb then (bufferReadLen cb : Int) else len
      if len < 0 then some (-1, some dest)
      else if 0 = len then some (0, some dest)
      else do
        let bytes ← cb.load cb.readPos len.toNat
        return (len, some (splice dest 0 bytes))

/-- `buffer_read` into some memory, if `dest` is not `NULL`; when it calls itself, the length is the
one to read. -/
def bufferRead (cb : BufferT) (dest : Option (Nat → UInt8)) (len : Int) :
    Option (Int × Option (Nat → UInt8) × BufferT) :=
  match dest with
  | none => some (-1, none, cb)
  | some dest =>
      let len := if len > bufferReadLen cb then (bufferReadLen cb : Int) else len
      if len < 0 then some (-1, some dest, cb)
      else if 0 = len then some (0, some dest, cb)
      else do
        let bytes ← cb.load cb.readPos len.toNat
        let (res, cb) ← bufferReadNocopy cb len
        return (res, some (splice dest 0 bytes), cb)

/-- `buffer_reset` -/
def bufferReset (cb : BufferT) : BufferT := { cb with readPos := 0, writePos := 0 }

/-! ## Bytes in the buffer -/

/-- The bytes that wait in the buffer. -/
def BufferT.content (cb : BufferT) : List UInt8 := slice cb.buffer cb.readPos (bufferReadLen cb)

/-- The buffer holds the bytes that were written and not read yet, the oldest first. -/
structure Holds (cb : BufferT) (content : List UInt8) : Prop where
  size : 0 < cb.bufferSize
  int : cb.bufferSize < 2 ^ 31
  drift : cb.driftThreshold = cb.bufferSize / 2
  read : cb.readPos ≤ cb.driftThreshold
  write : cb.writePos = cb.readPos + content.length
  fits : cb.writePos ≤ cb.bufferSize
  holds : slice cb.buffer cb.readPos content.length = content

section

variable {cb cb' : BufferT} {content bytes src : List UInt8} {len : Int}

/-- A new buffer holds nothing. -/
theorem Holds.empty {bufferSize : Nat} {memory : Nat → UInt8} (hPos : 0 < bufferSize)
    (hInt : bufferSize < 2 ^ 31) :
    Holds {
      bufferSize := bufferSize
      readPos := 0
      writePos := 0
      driftThreshold := bufferSize / 2
      buffer := memory } [] where
  size := hPos
  int := hInt
  drift := rfl
  read := Nat.zero_le _
  write := rfl
  fits := Nat.zero_le _
  holds := rfl

theorem Holds.readLen (h : Holds cb content) : bufferReadLen cb = content.length := by
  have hWrite := h.write
  rw [bufferReadLen]
  split <;> omega

theorem Holds.content_eq (h : Holds cb content) : cb.content = content := by
  rw [BufferT.content, h.readLen, h.holds]

theorem Holds.load (h : Holds cb content) :
    cb.load cb.readPos content.length = some content := by
  have hWrite := h.write
  have hFits := h.fits
  rw [BufferT.load, if_pos (by omega), h.holds]

/-- How much a buffer can still take: never more than its size, and at least one byte when it is
empty. -/
theorem Holds.room (h : Holds cb content) :
    0 ≤ bufferWriteLen cb ∧ bufferWriteLen cb + content.length ≤ cb.bufferSize ∧
      cb.bufferSize ≤ 2 * (bufferWriteLen cb + content.length) := by
  have hDrift := h.drift
  have hRead := h.read
  have hWrite := h.write
  have hFits := h.fits
  rw [bufferWriteLen]
  omega

/-- What fits into the buffer is no longer than an `int` counts. -/
theorem Holds.length_append_lt {bytes : List UInt8} (h : Holds cb content)
    (hRoom : (bytes.length : Int) ≤ bufferWriteLen cb) :
    (content ++ bytes).length < 2 ^ 31 := by
  have hInt := h.int
  have hSize := h.room
  rw [List.length_append]
  omega

/-- Bytes that were changed in place. -/
theorem Holds.store (h : Holds cb content) (hLength : bytes.length = content.length) :
    ∃ cb', cb.store cb.readPos bytes = some cb' ∧ Holds cb' bytes ∧
      bufferWriteLen cb' = bufferWriteLen cb ∧ cb'.bufferSize = cb.bufferSize := by
  have hWrite := h.write
  have hFits := h.fits
  refine ⟨_, if_pos (by omega), ?_, rfl, rfl⟩
  exact {
    size := h.size
    int := h.int
    drift := h.drift
    read := h.read
    write := by
      show cb.writePos = cb.readPos + bytes.length
      omega
    fits := hFits
    holds := slice_splice_self cb.readPos }

/-- `buffer_write_nocopy` of bytes that there is room for. -/
theorem bufferWriteNocopy_eq {count : Nat} (hRoom : (count : Int) ≤ bufferWriteLen cb) :
    bufferWriteNocopy cb count =
        some ((count : Int), { cb with writePos := cb.writePos + count }) := by
  have hFits : cb.writePos + count ≤ cb.bufferSize := by
    rw [bufferWriteLen] at hRoom
    omega
  simp only [bufferWriteNocopy, if_neg (by omega : ¬ bufferWriteLen cb < count),
    if_neg (by omega : ¬ (count : Int) < 0), Int.toNat_natCast,
    if_neg (by omega : ¬ cb.bufferSize < cb.writePos + count)]

/-- New bytes behind the others, as far as the memory reaches. -/
theorem Holds.append (h : Holds cb content) (hRoom : (bytes.length : Int) ≤ bufferWriteLen cb) :
    ∃ filled, cb.store cb.writePos bytes = some filled ∧
      ∃ cb', bufferWriteNocopy filled bytes.length = some ((bytes.length : Int), cb') ∧
        Holds cb' (content ++ bytes) ∧
        bufferWriteLen cb' = bufferWriteLen cb - bytes.length ∧ cb'.bufferSize = cb.bufferSize := by
  have hWrite := h.write
  have hFits : cb.writePos + bytes.length ≤ cb.bufferSize := by
    rw [bufferWriteLen] at hRoom
    omega
  have hStore : cb.store cb.writePos bytes =
      some { cb with buffer := splice cb.buffer cb.writePos bytes } := if_pos (by omega)
  refine ⟨_, hStore, _, bufferWriteNocopy_eq hRoom, ?_, ?_, rfl⟩
  · exact {
      size := h.size
      int := h.int
      drift := h.drift
      read := h.read
      write := by
        show cb.writePos + bytes.length = cb.readPos + (content ++ bytes).length
        rw [List.length_append]
        omega
      fits := hFits
      holds := by
        show slice (splice cb.buffer cb.writePos bytes) cb.readPos _ = _
        rw [List.length_append, slice_add, slice_splice_before (by omega), h.holds, ← hWrite,
          slice_splice_self] }
  · show ((cb.bufferSize : Int) - ((cb.writePos + bytes.length : Nat) : Int)) = _
    rw [bufferWriteLen]
    omega

/-- `buffer_write` -/
theorem bufferWrite_spec (h : Holds cb content) (hLen : 0 ≤ len)
    (hSrc : min len (bufferWriteLen cb) ≤ src.length) :
    ∃ cb', bufferWrite cb (some src) len = some (min len (bufferWriteLen cb), cb') ∧
      Holds cb' (content ++ src.take (min len (bufferWriteLen cb)).toNat) ∧
      bufferWriteLen cb' = bufferWriteLen cb - min len (bufferWriteLen cb) ∧
      cb'.bufferSize = cb.bufferSize := by
  have hRoom := h.room
  have hClamp : (if 0 < len ∧ bufferWriteLen cb < len then bufferWriteLen cb else len) =
      min len (bufferWriteLen cb) := by
    split <;> omega
  simp only [bufferWrite, hClamp]
  generalize hCount : min len (bufferWriteLen cb) = count at *
  rw [if_neg (by omega : ¬ count < 0)]
  by_cases hZero : 0 = count
  · rw [if_pos hZero]
    refine ⟨cb, by rw [hZero], ?_, by omega, rfl⟩
    rw [← hZero]
    simpa using h
  · have hLength : ((src.take count.toNat).length : Int) = count := by
      rw [List.length_take]
      omega
    obtain ⟨filled, hStore, cb', hNocopy, hHolds, hNext, hSize⟩ :=
      @Holds.append cb content (src.take count.toNat) h (by omega)
    rw [hLength] at hNocopy hNext
    rw [if_neg hZero, if_neg (by omega), hStore]
    exact ⟨cb', hNocopy, hHolds, hNext, hSize⟩

theorem bufferWrite_negative (hLen : len < 0) : bufferWrite cb (some src) len = some (-1, cb) := by
  simp only [bufferWrite]
  rw [if_neg (by omega : ¬ (0 < len ∧ bufferWriteLen cb < len)), if_pos hLen]

/-- `buffer_read_nocopy` -/
theorem bufferReadNocopy_spec (h : Holds cb content) (hLen : 0 ≤ len) :
    ∃ cb', bufferReadNocopy cb len = some (min len content.length, cb') ∧
      Holds cb' (content.drop len.toNat) ∧ bufferWriteLen cb ≤ bufferWriteLen cb' ∧
      cb'.bufferSize = cb.bufferSize := by
  have hDrift := h.drift
  have hRead := h.read
  have hWrite := h.write
  have hFits := h.fits
  have hHolds := h.holds
  obtain ⟨count, hCount, hClamp⟩ : ∃ count : Nat, (count : Int) = min len content.length ∧
      (if len > bufferReadLen cb then bufferReadLen cb else len.toNat) = count := by
    refine ⟨(min len content.length).toNat, by omega, ?_⟩
    rw [h.readLen]
    split <;> omega
  have hDrop : content.drop len.toNat = content.drop count := by
    by_cases hAll : len.toNat ≤ content.length
    · rw [show len.toNat = count by omega]
    · rw [List.drop_eq_nil_of_le (by omega), List.drop_eq_nil_of_le (by omega)]
  have hLength : (content.drop count).length = content.length - count := List.length_drop
  have hRest : slice cb.buffer (cb.readPos + count) (content.length - count) =
      content.drop count := by
    rw [← drop_slice, Nat.add_sub_cancel' (by omega), hHolds]
  rw [hDrop, ← hCount]
  simp only [bufferReadNocopy, hClamp, if_neg (by omega : ¬ len < 0),
    if_neg (by omega : ¬ cb.writePos < cb.readPos + count)]
  by_cases hFar : cb.readPos + count > cb.driftThreshold
  · -- the rest is moved to the start, and it is shorter than the gap before it
    have hLoad : cb.load (cb.readPos + count) (cb.writePos - (cb.readPos + count)) =
        some (content.drop count) := by
      rw [BufferT.load, if_pos (by omega),
        show cb.writePos - (cb.readPos + count) = content.length - count by omega, hRest]
    have hStore : cb.store 0 (content.drop count) =
        some { cb with buffer := splice cb.buffer 0 (content.drop count) } := if_pos (by omega)
    simp only [if_pos hFar, hLoad, Option.bind_eq_bind, Option.bind_some, hStore,
      if_neg (by omega : ¬ cb.readPos + count < (content.drop count).length)]
    refine ⟨_, rfl, ?_, ?_, rfl⟩
    · exact {
        size := h.size
        int := h.int
        drift := h.drift
        read := Nat.zero_le _
        write := by
          show cb.writePos - (cb.readPos + count) = 0 + _
          omega
        fits := by
          show cb.writePos - (cb.readPos + count) ≤ cb.bufferSize
          omega
        holds := slice_splice_self 0 }
    · show (cb.bufferSize : Int) - cb.writePos ≤
        (cb.bufferSize : Int) - ((cb.writePos - (cb.readPos + count) : Nat) : Int)
      omega
  · rw [if_neg hFar]
    refine ⟨_, rfl, ?_, le_refl _, rfl⟩
    exact {
      size := h.size
      int := h.int
      drift := h.drift
      read := by
        show cb.readPos + count ≤ cb.driftThreshold
        omega
      write := by
        show cb.writePos = cb.readPos + count + _
        omega
      fits := h.fits
      holds := by
        show slice cb.buffer (cb.readPos + count) _ = _
        rw [hLength, hRest] }

/-- The bytes at the start of the buffer. -/
theorem Holds.load_some (h : Holds cb content) {count : Nat} (hCount : count ≤ content.length) :
    cb.load cb.readPos count = some (content.take count) := by
  have hWrite := h.write
  have hFits := h.fits
  have hHolds := h.holds
  rw [← Nat.add_sub_cancel' hCount, slice_add] at hHolds
  rw [BufferT.load, if_pos (by omega), ← hHolds, List.take_left' (length_slice cb.readPos)]

/-- The length that `buffer_peek` and `buffer_read` go on with. -/
theorem Holds.clamp (h : Holds cb content) (len : Int) :
    (if len > bufferReadLen cb then (bufferReadLen cb : Int) else len) =
      min len content.length := by
  rw [h.readLen]
  split <;> omega

theorem take_min (len : Int) :
    content.take (min len content.length).toNat = content.take len.toNat := by
  by_cases hAll : len ≤ content.length
  · rw [min_eq_left hAll]
  · rw [min_eq_right (by omega), Int.toNat_natCast, List.take_length,
      List.take_of_length_le (by omega)]

private theorem drop_min (len : Int) :
    content.drop (min len content.length).toNat = content.drop len.toNat := by
  by_cases hAll : len ≤ content.length
  · rw [min_eq_left hAll]
  · rw [min_eq_right (by omega), Int.toNat_natCast, List.drop_length,
      List.drop_eq_nil_of_le (by omega)]

/-- `buffer_peek` -/
theorem bufferPeek_spec (h : Holds cb content) (dest : Nat → UInt8) (hLen : 0 ≤ len) :
    bufferPeek cb (some dest) len =
      some (min len content.length, some (splice dest 0 (content.take len.toNat))) := by
  simp only [bufferPeek, h.clamp]
  rw [if_neg (by omega : ¬ min len content.length < 0), ← take_min]
  by_cases hZero : 0 = min len content.length
  · rw [if_pos hZero, ← hZero, Int.toNat_zero, List.take_zero, splice_nil]
  · rw [if_neg hZero, h.load_some (by omega)]
    rfl

/-- `buffer_read` -/
theorem bufferRead_spec (h : Holds cb content) (dest : Nat → UInt8) (hLen : 0 ≤ len) :
    ∃ cb', bufferRead cb (some dest) len =
        some (min len content.length, some (splice dest 0 (content.take len.toNat)), cb') ∧
      Holds cb' (content.drop len.toNat) ∧ cb'.bufferSize = cb.bufferSize := by
  simp only [bufferRead, h.clamp]
  rw [if_neg (by omega : ¬ min len content.length < 0), ← take_min]
  by_cases hZero : 0 = min len content.length
  · rw [if_pos hZero, ← drop_min, ← hZero, Int.toNat_zero, List.take_zero, List.drop_zero,
      splice_nil]
    exact ⟨cb, rfl, h, rfl⟩
  · obtain ⟨cb', hRead, hHolds, -, hSize⟩ := @bufferReadNocopy_spec cb content
      (min len content.length) h (by omega)
    rw [min_assoc, min_self] at hRead
    rw [drop_min] at hHolds
    rw [if_neg hZero, h.load_some (by omega)]
    refine ⟨cb', ?_, hHolds, hSize⟩
    simp only [Option.bind_eq_bind, Option.bind_some, hRead]
    rfl

theorem bufferPeek_negative (dest : Nat → UInt8) (hLen : len < 0) :
    bufferPeek cb (some dest) len = some (-1, some dest) := by
  simp only [bufferPeek]
  rw [if_neg (by omega : ¬ len > bufferReadLen cb), if_pos hLen]

theorem bufferRead_negative (dest : Nat → UInt8) (hLen : len < 0) :
    bufferRead cb (some dest) len = some (-1, some dest, cb) := by
  simp only [bufferRead]
  rw [if_neg (by omega : ¬ len > bufferReadLen cb), if_pos hLen]

/-- `buffer_write_nocopy` of the bytes that lie behind the others. -/
theorem bufferWriteNocopy_spec (h : Holds cb content) (hLen : 0 ≤ len) :
    ∃ cb', bufferWriteNocopy cb len = some (min len (bufferWriteLen cb), cb') ∧
      Holds cb' (content ++ slice cb.buffer cb.writePos (min len (bufferWriteLen cb)).toNat) ∧
      cb'.bufferSize = cb.bufferSize := by
  have hRoom := h.room
  have hClamp : bufferWriteNocopy cb len = bufferWriteNocopy cb (min len (bufferWriteLen cb)) := by
    simp only [bufferWriteNocopy]
    congr 1 <;> grind
  generalize hCount : min len (bufferWriteLen cb) = count at *
  obtain ⟨n, rfl⟩ := Int.eq_ofNat_of_zero_le (by omega : 0 ≤ count)
  have hFits : cb.writePos + n ≤ cb.bufferSize := by
    rw [bufferWriteLen] at hCount
    omega
  rw [hClamp, bufferWriteNocopy_eq (by omega), Int.toNat_natCast]
  refine ⟨_, rfl, ?_, rfl⟩
  exact {
    size := h.size
    int := h.int
    drift := h.drift
    read := h.read
    write := by
      show cb.writePos + n = cb.readPos + _
      rw [List.length_append, length_slice, h.write, Nat.add_assoc]
    fits := hFits
    holds := by
      show slice cb.buffer cb.readPos _ = _
      rw [List.length_append, length_slice, slice_add, h.holds, h.write] }

theorem bufferWriteNocopy_negative (h : Holds cb content) (hLen : len < 0) :
    bufferWriteNocopy cb len = some (-1, cb) := by
  have hRoom := h.room
  simp only [bufferWriteNocopy]
  rw [if_neg (by omega : ¬ bufferWriteLen cb < len), if_pos hLen]

/-- Bytes that are put behind the others without being written yet. -/
theorem Holds.fill (h : Holds cb content) (hRoom : (bytes.length : Int) ≤ bufferWriteLen cb) :
    ∃ cb', cb.store cb.writePos bytes = some cb' ∧ Holds cb' content ∧
      cb'.bufferSize = cb.bufferSize := by
  have hWrite := h.write
  have hFits : cb.writePos + bytes.length ≤ cb.bufferSize := by
    rw [bufferWriteLen] at hRoom
    omega
  refine ⟨_, if_pos hFits, ?_, rfl⟩
  exact {
    size := h.size
    int := h.int
    drift := h.drift
    read := h.read
    write := hWrite
    fits := h.fits
    holds := by
      show slice (splice cb.buffer cb.writePos bytes) cb.readPos _ = _
      rw [slice_splice_before (by omega), h.holds] }

/-- `buffer_reset` -/
theorem Holds.reset (h : Holds cb content) : Holds (bufferReset cb) [] where
  size := h.size
  int := h.int
  drift := h.drift
  read := Nat.zero_le _
  write := rfl
  fits := Nat.zero_le _
  holds := rfl

end

end Gbase.Base.Buffer
