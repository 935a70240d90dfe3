import Gbase.Core.OsDef
import Gbase.Lib.Bytes
import Gbase.Lib.Ring
import Gbase.Lib.Run

/-!
# The ring buffer (`base/rbuffer.c`)

A ring of `size` bytes with two free-running positions of 32 bits.  A message lies in it behind
its length, which takes four bytes; length and message can each cross the end of the memory.
This is the little-endian build with a `size_t` of 64 bits.  A pointer is an `Option`, with
`none` for `NULL`; the ring itself is not `NULL`.  A copy that leaves the memory is undefined.

## Main results

* `rbufferWrite_spec`, `rbufferPeek_spec`, `rbufferRead_spec`: each call on a ring that holds
  some messages.
* `rbuffer_fifo`: along every run the messages read are a prefix of the messages accepted.
-/

namespace Gbase.Base.Rbuffer

open Gbase.Core.OsDef
open Gbase.Lib.Bytes
open Gbase.Lib.Ring
open Gbase.Lib.Run

/-- `rbuffer_t` -/
structure RbufferT where
  size : Nat
  readPos : Nat
  writePos : Nat
  buffer : Nat → UInt8

/-- `sizeof(struct rbuffer_t)` -/
def rbufferHeadSize : Nat := 12

/-- `sizeof(uint32_t)` -/
def lenSize : Nat := 4

/-- `rbuffer_create`, with the memory that the allocation gives. -/
def rbufferCreate (size : Nat) (memory : Option (Nat → UInt8)) : Option RbufferT :=
  let size := if size &&& toUint32 (size - 1) ≠ 0 then toUint32 (roundup size) else size
  memory.map fun buffer => { size := size, readPos := 0, writePos := 0, buffer := buffer }

/-- `rbuffer_attach`, with the bytes behind the head of the memory. -/
def rbufferAttach (mem : Option (Nat → UInt8)) (memSize : Nat) : Option RbufferT :=
  match mem with
  | none => none
  | some buffer =>
      if memSize < rbufferHeadSize then none
      else
        let size := toUint32 (memSize - rbufferHeadSize)
        let size := if size &&& toUint32 (size - 1) ≠ 0 then toUint32 (rounddown size) else size
        if size = 0 then none
        else some { size := size, readPos := 0, writePos := 0, buffer := buffer }

/-- `pos & (r->size - 1)` -/
def RbufferT.index (r : RbufferT) (pos : Nat) : Nat := pos &&& toUint32 (r.size - 1)

/-- `memcpy` from the ring. -/
def RbufferT.load (r : RbufferT) (start count : Nat) : Option (List UInt8) :=
  if start + count ≤ r.size then some (slice r.buffer start count) else none

/-- `memcpy` to the ring. -/
def RbufferT.store (r : RbufferT) (start : Nat) (bytes : List UInt8) : Option RbufferT :=
  if start + bytes.length ≤ r.size then
    some { r with buffer := splice r.buffer start bytes }
  else none

/-- `rbuffer_size` -/
def rbufferSize (r : RbufferT) : Nat := r.size

/-- `write_pos - read_pos` -/
def RbufferT.used (r : RbufferT) : Nat := toUint32 (r.writePos - r.readPos)

/-- `rbuffer_read_bytes` -/
def rbufferReadBytes (r : RbufferT) : Nat :=
  if r.used ≥ lenSize then toUint32 (r.used - lenSize) else 0

/-- `rbuffer_write_bytes` -/
def rbufferWriteBytes (r : RbufferT) : Nat :=
  if r.used ≥ toUint32 (r.size - lenSize) then 0
  else toUint32 (r.size - lenSize - r.used)

/-- `rbuffer_peek` into a buffer of the given size, if neither pointer is `NULL`.  The result is
the bytes copied, their number being the new `*buf_size`, or `none` for the return of -1, which
leaves the caller's memory as it was. -/
def rbufferPeek (r : RbufferT) (bufSize : Option Nat) : Option (Option (List UInt8)) :=
  match bufSize with
  | none => some none
  | some bufSize =>
      if 0 = rbufferReadBytes r then some none
      else do
        let readToTail := toUint32 (r.size - r.index r.readPos)
        let readToTailLeast := if readToTail < lenSize then readToTail else lenSize
        let head ← r.load (r.index r.readPos) readToTailLeast
        let rest ←
          (if readToTailLeast < lenSize then r.load 0 (lenSize - readToTailLeast) else some [])
        let readLen := leValue (head ++ rest)
        if readLen > toUint32 (r.size - lenSize) ∨ readLen > bufSize then return none
        else if readToTailLeast < lenSize then
          let bytes ← r.load (lenSize - readToTailLeast) readLen
          return some bytes
        else
          let readToTail := readToTail - lenSize
          let readToTailBytes := if readLen < readToTail then readLen else readToTail
          let first ← r.load (r.index (toUint32 (r.readPos + lenSize))) readToTailBytes
          let second ←
            (if readToTailBytes < readLen then r.load 0 (readLen - readToTailBytes) else some [])
          return some (first ++ second)

/-- `rbuffer_read` -/
def rbufferRead (r : RbufferT) (bufSize : Option Nat) :
    Option (Option (List UInt8) × RbufferT) := do
  let result ← rbufferPeek r bufSize
  match result with
  | none => return (none, r)
  | some bytes =>
      return (some bytes, { r with readPos := toUint32 (r.readPos + (lenSize + bytes.length)) })

/-- `rbuffer_write` of as many bytes as `buf_size` says, if `buf` is not `NULL`. -/
def rbufferWrite (r : RbufferT) (buf : Option (List UInt8)) : Option (Int × RbufferT) :=
  match buf with
  | none => some (-1, r)
  | some buf =>
      let bufSize := buf.length
      if 0 = bufSize then some (0, r)
      else
        let nwrites := toUint32 (bufSize + lenSize)
        if rbufferWriteBytes r < bufSize then some (-1, r)
        else do
          let writeToTail := toUint32 (r.size - r.index r.writePos)
          let minLenSize := if lenSize < writeToTail then lenSize else writeToTail
          let len := leBytes 8 bufSize
          let filled ← r.store (r.index r.writePos) (len.take minLenSize)
          let filled ←
            (if minLenSize < lenSize then
              filled.store 0 ((len.drop minLenSize).take (lenSize - minLenSize))
            else some filled)
          let filled ←
            (if writeToTail > lenSize then do
              let writeToTail := writeToTail - lenSize
              let writeToTailBytes := if bufSize < writeToTail then bufSize else writeToTail
              let filled ← filled.store (r.index (toUint32 (r.writePos + lenSize)))
                (buf.take writeToTailBytes)
              if writeToTailBytes < bufSize then filled.store 0 (buf.drop writeToTailBytes)
              else some filled
            else filled.store (lenSize - minLenSize) buf)
          return (0, { filled with writePos := toUint32 (r.writePos + nwrites) })

/-! ## Copies around the end -/

/-- The sizes up to which the positions can be told apart. -/
def RbufferT.Sized (r : RbufferT) : Prop := ∃ k, 2 ≤ k ∧ k ≤ 30 ∧ r.size = 2 ^ k

section

variable {r : RbufferT} {pos count n : Nat} {bytes : List UInt8}

theorem RbufferT.Sized.le (hSize : r.Sized) : 4 ≤ r.size ∧ r.size ≤ 2 ^ 30 := by
  obtain ⟨k, hLow, hHigh, hEq⟩ := hSize
  rw [hEq]
  have hFour : 2 ^ 2 ≤ 2 ^ k := Nat.pow_le_pow_right (by decide) hLow
  exact ⟨hFour, Nat.pow_le_pow_right (by decide) hHigh⟩

theorem RbufferT.Sized.dvd (hSize : r.Sized) : r.size ∣ 2 ^ 32 := by
  obtain ⟨k, hLow, hHigh, hEq⟩ := hSize
  rw [hEq]
  exact Nat.pow_dvd_pow 2 (by omega)

theorem RbufferT.Sized.index (hSize : r.Sized) (pos : Nat) : r.index pos = pos % r.size := by
  have hLe := hSize.le
  have hMask : toUint32 ((r.size : Int) - 1) = r.size - 1 := by
    rw [toUint32]
    omega
  obtain ⟨k, -, -, hEq⟩ := hSize
  rw [RbufferT.index, hMask, hEq, Nat.and_two_pow_sub_one_eq_mod]

/-- Counting modulo `2 ^ 32` leads to the same byte. -/
theorem RbufferT.Sized.wrap (hSize : r.Sized) (pos n : Nat) :
    toUint32 ((pos : Int) + (n : Int)) % r.size = (pos + n) % r.size := by
  have hCast : toUint32 ((pos : Int) + (n : Int)) = (pos + n) % 2 ^ 32 := by
    rw [toUint32]
    omega
  rw [hCast, Nat.mod_mod_of_dvd _ hSize.dvd]

theorem RbufferT.Sized.toTail (hSize : r.Sized) (pos : Nat) :
    toUint32 ((r.size : Int) - ((pos % r.size : Nat) : Int)) = r.size - pos % r.size := by
  have hLe := hSize.le
  have hMod := Nat.mod_lt pos (by omega : 0 < r.size)
  rw [toUint32]
  omega

/-- A position that is as far from the end as the bytes before it lies at the start. -/
theorem add_toTail (hSize : r.Sized) (hn : n = r.size - pos % r.size) :
    (pos + n) % r.size = 0 := by
  have hLe := hSize.le
  have hMod := Nat.mod_lt pos (by omega : 0 < r.size)
  rw [← Nat.mod_add_mod, hn, Nat.add_sub_cancel' hMod.le, Nat.mod_self]

/-- Where the byte behind the length lies. -/
theorem add_lenSize (hSize : r.Sized) (pos : Nat) :
    (pos + lenSize) % r.size =
      if r.size - pos % r.size ≤ lenSize then lenSize - (r.size - pos % r.size)
      else pos % r.size + lenSize := by
  have hLe := hSize.le
  have hMod := Nat.mod_lt pos (by omega : 0 < r.size)
  rw [← Nat.mod_add_mod, lenSize]
  split
  · rw [Nat.mod_eq_sub_mod (by omega), Nat.mod_eq_of_lt (by omega)]
    omega
  · exact Nat.mod_eq_of_lt (by omega)

theorem load_eq_window (h : pos % r.size + count ≤ r.size) :
    r.load (pos % r.size) count = some (window r.size r.buffer pos count) := by
  rw [RbufferT.load, if_pos h, slice_eq_window h]

theorem store_eq_put (hSize : r.Sized) (h : pos % r.size + bytes.length ≤ r.size) :
    r.store (pos % r.size) bytes =
      some { r with buffer := put r.size r.buffer pos bytes } := by
  have hLe := hSize.le
  rw [RbufferT.store, if_pos h, splice_eq_put (by omega) h]

/-- Up to two copies, before the end and behind it, read one stretch of the ring. -/
theorem load_across (pos count : Nat) (hn : n ≤ count) (hCount : count ≤ r.size)
    (hTail : pos % r.size + n ≤ r.size) (hZero : n < count → (pos + n) % r.size = 0) :
    ∃ first second, r.load (pos % r.size) n = some first ∧
      (if n < count then r.load 0 (count - n) else some []) = some second ∧
      first ++ second = window r.size r.buffer pos count := by
  have hFirst : r.load (pos % r.size) n = some (window r.size r.buffer pos n) :=
    load_eq_window hTail
  by_cases hCross : n < count
  · have hAt := hZero hCross
    have hSecond := @load_eq_window r (pos + n) (count - n) (by omega)
    rw [hAt] at hSecond
    refine ⟨_, _, hFirst, by rw [if_pos hCross, hSecond], ?_⟩
    rw [← window_add, Nat.add_sub_cancel' hCross.le]
  · refine ⟨_, [], hFirst, if_neg hCross, ?_⟩
    rw [List.append_nil, (by omega : n = count)]

/-- Up to two copies, before the end and behind it, write one stretch of the ring. -/
theorem store_across (hSize : r.Sized) (pos : Nat) (hn : n ≤ bytes.length)
    (hFits : bytes.length ≤ r.size) (hTail : pos % r.size + n ≤ r.size)
    (hZero : n < bytes.length → (pos + n) % r.size = 0) :
    ∃ r', r.store (pos % r.size) (bytes.take n) = some r' ∧
      (if n < bytes.length then r'.store 0 (bytes.drop n) else some r') =
        some { r with buffer := put r.size r.buffer pos bytes } := by
  have hTake : (bytes.take n).length = n := List.length_take_of_le hn
  have hFirst := @store_eq_put r pos (bytes.take n) hSize (by omega)
  refine ⟨_, hFirst, ?_⟩
  by_cases hCross : n < bytes.length
  · have hDrop : (bytes.drop n).length = bytes.length - n := List.length_drop
    have hAt := hZero hCross
    have hSecond := @store_eq_put { r with buffer := put r.size r.buffer pos (bytes.take n) }
      (pos + n) (bytes.drop n) hSize (by show (pos + n) % r.size + _ ≤ r.size; omega)
    simp only [hAt] at hSecond
    have hJoin := @put_append _ r.size pos r.buffer (bytes.take n) (bytes.drop n)
      (by rwa [List.take_append_drop])
    rw [hTake, List.take_append_drop] at hJoin
    rw [if_pos hCross, hSecond, hJoin]
  · rw [if_neg hCross, List.take_of_length_le (by omega)]

end

/-! ## Messages in the ring -/

/-- How a message lies in the ring. -/
def frame (message : List UInt8) : List UInt8 := leBytes lenSize message.length ++ message

/-- How several messages lie in the ring. -/
def encode (queue : List (List UInt8)) : List UInt8 := queue.flatMap frame

/-- The ring holds the messages that were accepted and not read yet, the oldest first. -/
structure Repr (r : RbufferT) (queue : List (List UInt8)) : Prop where
  sized : r.Sized
  read : r.readPos < 2 ^ 32
  write : r.writePos = (r.readPos + (encode queue).length) % 2 ^ 32
  fits : (encode queue).length ≤ r.size
  holds : window r.size r.buffer r.readPos (encode queue).length = encode queue
  nonempty : ∀ message, message ∈ queue → message ≠ []

/-- What a peek should give: the oldest message, if the caller's buffer can take it. -/
def oldest (queue : List (List UInt8)) (bufSize : Option Nat) : Option (List UInt8) :=
  match queue, bufSize with
  | message :: _, some bufSize => if message.length ≤ bufSize then some message else none
  | _, _ => none

section

variable {r : RbufferT} {message : List UInt8} {queue : List (List UInt8)}

@[simp] theorem length_frame : (frame message).length = lenSize + message.length := by
  rw [frame, List.length_append, length_leBytes]

@[simp] theorem encode_nil : encode [] = [] := rfl

@[simp] theorem encode_cons : encode (message :: queue) = frame message ++ encode queue :=
  List.flatMap_cons

theorem encode_append_one : encode (queue ++ [message]) = encode queue ++ frame message := by
  rw [encode, List.flatMap_append, List.flatMap_singleton]
  rfl

/-- A new ring holds no message. -/
theorem Repr.empty (hSize : r.Sized) (hRead : r.readPos < 2 ^ 32)
    (hWrite : r.writePos = r.readPos) : Repr r [] where
  sized := hSize
  read := hRead
  write := by
    rw [hWrite, encode_nil, List.length_nil, Nat.add_zero, Nat.mod_eq_of_lt hRead]
  fits := Nat.zero_le _
  holds := rfl
  nonempty := fun _ h => absurd h List.not_mem_nil

theorem Repr.used_eq (h : Repr r queue) : r.used = (encode queue).length := by
  have hLe := h.sized.le
  have hFits := h.fits
  rw [RbufferT.used, h.write]
  exact toUint32_sub (by omega)

/-- `rbuffer_peek` -/
theorem rbufferPeek_spec (h : Repr r queue) (bufSize : Option Nat) :
    rbufferPeek r bufSize = some (oldest queue bufSize) := by
  cases bufSize with
  | none =>
      cases queue with
      | nil => rfl
      | cons message rest => rfl
  | some bufSize =>
      have hLe := h.sized.le
      have hUsed := h.used_eq
      cases queue with
      | nil =>
          have hNone : rbufferReadBytes r = 0 := by
            rw [rbufferReadBytes, hUsed]
            rfl
          rw [rbufferPeek, if_pos hNone.symm]
          rfl
      | cons message rest =>
          have hFits := h.fits
          have hHolds := h.holds
          have hPos : 0 < message.length :=
            List.length_pos_of_ne_nil (h.nonempty message List.mem_cons_self)
          rw [encode_cons, List.length_append, length_frame] at hUsed hFits hHolds
          rw [frame, List.append_assoc, Nat.add_assoc, window_add, window_add] at hHolds
          obtain ⟨hLen, hBehind⟩ := List.append_inj hHolds (by rw [length_window, length_leBytes])
          obtain ⟨hMessage, -⟩ := List.append_inj hBehind length_window
          have hSome : ¬ 0 = rbufferReadBytes r := by
            rw [rbufferReadBytes, hUsed, if_pos (by omega), toUint32, lenSize]
            omega
          have hBig : ¬ message.length > toUint32 ((r.size : Int) - lenSize) := by
            rw [toUint32, lenSize] at *
            omega
          have hValue : leValue (leBytes lenSize message.length) = message.length := by
            apply leValue_leBytes
            rw [lenSize]
            omega
          rw [rbufferPeek, if_neg hSome]
          simp only [h.sized.index, h.sized.toTail]
          generalize hTail : r.size - r.readPos % r.size = toTail
          have hTailPos : 0 < toTail := by
            have hMod := Nat.mod_lt r.readPos (by omega : 0 < r.size)
            omega
          obtain ⟨head, rest', hHead, hRest, hJoin⟩ :=
            @load_across r (if toTail < lenSize then toTail else lenSize) r.readPos lenSize
              (by split <;> omega) hLe.1 (by split <;> omega)
              (by
                intro hLess
                rw [if_pos (by split at hLess <;> omega)]
                exact add_toTail h.sized hTail.symm)
          simp only [hHead, hRest, Option.bind_eq_bind, Option.bind_some, hJoin, hLen, hValue]
          by_cases hRoom : message.length ≤ bufSize
          · have hOldest : oldest (message :: rest) (some bufSize) = some message := if_pos hRoom
            rw [if_neg (by omega), hOldest]
            have hAt := add_lenSize h.sized r.readPos
            rw [hTail] at hAt
            by_cases hShort : toTail < lenSize
            · rw [if_pos (by omega)] at hAt
              have hLoad := @load_eq_window r (r.readPos + lenSize) message.length (by omega)
              rw [hAt, hMessage] at hLoad
              simp only [if_pos hShort, hLoad, Option.bind_some]
              rfl
            · obtain ⟨first, second, hFirst, hSecond, hBoth⟩ :=
                @load_across r (if message.length < toTail - lenSize then message.length
                  else toTail - lenSize) (r.readPos + lenSize) message.length
                  (by split <;> omega) (by omega) (by rw [hAt]; split <;> split <;> omega)
                  (by
                    intro hLess
                    have hNot : ¬ message.length < toTail - lenSize := by
                      split at hLess <;> omega
                    rw [if_neg hNot, Nat.add_assoc, Nat.add_sub_cancel' (by omega)]
                    exact add_toTail h.sized hTail.symm)
              simp only [if_neg hShort, lt_self_iff_false, if_false, h.sized.wrap, hFirst, hSecond,
                Option.bind_some, hBoth, hMessage]
              rfl
          · rw [if_pos (by omega)]
            exact congrArg some (if_neg hRoom).symm

theorem rbufferWriteBytes_lt (h : Repr r queue) (hNe : message ≠ []) :
    rbufferWriteBytes r < message.length ↔ r.size < message.length + lenSize + r.used := by
  have hLe := h.sized.le
  have hFits := h.fits
  have hPos : 0 < message.length := List.length_pos_of_ne_nil hNe
  rw [← h.used_eq] at hFits
  rw [rbufferWriteBytes]
  by_cases hFull : r.used ≥ toUint32 ((r.size : Int) - lenSize)
  · rw [if_pos hFull]
    simp only [toUint32, lenSize] at hFull ⊢
    omega
  · rw [if_neg hFull]
    simp only [toUint32, lenSize] at hFull ⊢
    omega

/-- The copies of `rbuffer_write`. -/
theorem rbufferWrite_eq (hSize : r.Sized) (hFits : (frame message).length ≤ r.size)
    (hNe : message ≠ []) (hRoom : ¬ rbufferWriteBytes r < message.length) :
    rbufferWrite r (some message) = some (0,
      { r with
        buffer := put r.size r.buffer r.writePos (frame message)
        writePos := (r.writePos + (frame message).length) % 2 ^ 32 }) := by
  have hLe := hSize.le
  have hPos : 0 < message.length := List.length_pos_of_ne_nil hNe
  have hMod := Nat.mod_lt r.writePos (by omega : 0 < r.size)
  rw [length_frame] at hFits ⊢
  simp only [rbufferWrite, if_neg (by omega : ¬ 0 = message.length), if_neg hRoom, hSize.index,
    hSize.toTail]
  generalize hTail : r.size - r.writePos % r.size = toTail
  have hAt := add_lenSize hSize r.writePos
  rw [hTail] at hAt
  have hLen : (leBytes lenSize message.length).length = lenSize := length_leBytes _ _
  have hJoin := @put_append _ r.size r.writePos r.buffer (leBytes lenSize message.length) message
    (by rw [List.length_append, hLen]; omega)
  rw [hLen] at hJoin
  have hNext : toUint32 (r.writePos + (toUint32 (message.length + lenSize) : Nat)) =
      (r.writePos + (lenSize + message.length)) % 2 ^ 32 := by
    simp only [toUint32]
    omega
  by_cases hShort : lenSize < toTail
  · rw [if_neg (by omega)] at hAt
    have hFirst := @store_eq_put r r.writePos (leBytes lenSize message.length) hSize (by omega)
    obtain ⟨r', hStore, hSecond⟩ :=
      @store_across
        { r with buffer := put r.size r.buffer r.writePos (leBytes lenSize message.length) }
        (if message.length < toTail - lenSize then message.length else toTail - lenSize) message
        hSize (r.writePos + lenSize) (by split <;> omega) (by show _ ≤ r.size; omega)
        (by show (r.writePos + lenSize) % r.size + _ ≤ r.size; rw [hAt]; split <;> omega)
        (by
          intro hLess
          have hNot : ¬ message.length < toTail - lenSize := by
            split at hLess <;> omega
          rw [if_neg hNot, Nat.add_assoc, Nat.add_sub_cancel' (by omega)]
          exact add_toTail hSize hTail.symm)
    simp only [hJoin] at hStore hSecond
    simp only [if_pos hShort, lt_self_iff_false, if_false, take_leBytes (by decide : lenSize ≤ 8),
      hFirst, hSize.wrap, Option.bind_eq_bind, Option.bind_some, hStore, hSecond, hNext, frame]
    rfl
  · rw [if_pos (by omega)] at hAt
    obtain ⟨r', hStore, hSecond⟩ := @store_across r toTail (leBytes lenSize message.length) hSize
      r.writePos (by omega) (by omega) (by omega) (fun _ => add_toTail hSize hTail.symm)
    rw [hLen] at hSecond
    have hFour : lenSize = 4 := rfl
    have hTake : (leBytes 8 message.length).take toTail =
        (leBytes lenSize message.length).take toTail := by
      rw [take_leBytes (by omega), take_leBytes (by omega)]
    have hDrop : ((leBytes 8 message.length).drop toTail).take (lenSize - toTail) =
        (leBytes lenSize message.length).drop toTail := by
      rw [← List.drop_take, take_leBytes (by decide)]
    have hThird := @store_eq_put
      { r with buffer := put r.size r.buffer r.writePos (leBytes lenSize message.length) }
      (r.writePos + lenSize) message hSize
      (by show (r.writePos + lenSize) % r.size + _ ≤ r.size; rw [hAt]; omega)
    simp only [hAt, hJoin] at hThird
    simp only [if_neg hShort, hTake, hDrop, hStore, hSecond, Option.bind_eq_bind, Option.bind_some,
      hThird, hNext, frame]
    rfl

/-- Bytes outside the messages do not matter. -/
theorem Repr.congr_buffer {buffer : Nat → UInt8} (h : Repr r queue)
    (hSame : window r.size buffer r.readPos (encode queue).length =
      window r.size r.buffer r.readPos (encode queue).length) :
    Repr { r with buffer := buffer } queue where
  sized := h.sized
  read := h.read
  write := h.write
  fits := h.fits
  holds := hSame.trans h.holds
  nonempty := h.nonempty

/-- A message that lies behind the others is theirs when `write_pos` has gone past it. -/
theorem Repr.publish (h : Repr r queue) (hNe : message ≠ [])
    (hRoom : message.length + lenSize + r.used ≤ r.size)
    (hHolds : window r.size r.buffer r.writePos (frame message).length = frame message) :
    Repr { r with writePos := (r.writePos + (frame message).length) % 2 ^ 32 }
      (queue ++ [message]) := by
  have hUsed := h.used_eq
  have hFrame : (frame message).length = lenSize + message.length := length_frame
  have hLength : (encode (queue ++ [message])).length =
      (encode queue).length + (frame message).length := by
    rw [encode_append_one, List.length_append]
  have hBehind : window r.size r.buffer (r.readPos + (encode queue).length)
      (frame message).length = frame message := by
    have hPlace : (r.readPos + (encode queue).length) % r.size = r.writePos % r.size := by
      rw [h.write, Nat.mod_mod_of_dvd _ h.sized.dvd]
    rw [window_congr hPlace, hHolds]
  exact {
    sized := h.sized
    read := h.read
    write := by
      show (r.writePos + (frame message).length) % 2 ^ 32 = _
      rw [h.write, hLength, Nat.mod_add_mod, Nat.add_assoc]
    fits := by
      show _ ≤ r.size
      omega
    holds := by
      show window r.size r.buffer r.readPos _ = _
      rw [hLength, window_add, h.holds, hBehind, encode_append_one]
    nonempty := by
      intro m hm
      cases List.mem_append.mp hm with
      | inl hOld => exact h.nonempty m hOld
      | inr hNew =>
          rw [List.mem_singleton.mp hNew]
          exact hNe }

/-- The others are left when `read_pos` has gone past the oldest message. -/
theorem Repr.consume (h : Repr r (message :: queue)) :
    Repr { r with readPos := (r.readPos + (frame message).length) % 2 ^ 32 } queue := by
  have hWrite := h.write
  have hFits := h.fits
  have hHolds := h.holds
  rw [encode_cons, List.length_append] at hWrite hFits hHolds
  rw [window_add] at hHolds
  obtain ⟨-, hRest⟩ := List.append_inj hHolds length_window
  exact {
    sized := h.sized
    read := Nat.mod_lt _ (by decide)
    write := by
      show r.writePos = _
      rw [hWrite, Nat.mod_add_mod, Nat.add_assoc]
    fits := by
      show _ ≤ r.size
      omega
    holds := by
      show window r.size r.buffer ((r.readPos + (frame message).length) % 2 ^ 32) _ = _
      rw [window_congr (Nat.mod_mod_of_dvd _ h.sized.dvd), hRest]
    nonempty := fun m hm => h.nonempty m (List.mem_cons_of_mem message hm) }

/-- `rbuffer_write` of a message: it is accepted exactly when it fits. -/
theorem rbufferWrite_spec (h : Repr r queue) (hNe : message ≠ []) :
    (message.length + lenSize + r.used ≤ r.size ∧
      ∃ r', rbufferWrite r (some message) = some (0, r') ∧ Repr r' (queue ++ [message])) ∨
    (r.size < message.length + lenSize + r.used ∧
      rbufferWrite r (some message) = some (-1, r)) := by
  have hPos : 0 < message.length := List.length_pos_of_ne_nil hNe
  by_cases hFull : rbufferWriteBytes r < message.length
  · right
    refine ⟨(rbufferWriteBytes_lt h hNe).mp hFull, ?_⟩
    simp only [rbufferWrite, if_neg (by omega : ¬ 0 = message.length), if_pos hFull]
  · left
    have hRoom : message.length + lenSize + r.used ≤ r.size :=
      Nat.le_of_not_lt fun hLess => hFull ((rbufferWriteBytes_lt h hNe).mpr hLess)
    have hUsed := h.used_eq
    have hFrame : (frame message).length = lenSize + message.length := length_frame
    have hPut : put r.size r.buffer r.writePos (frame message) =
        put r.size r.buffer (r.readPos + (encode queue).length) (frame message) := by
      apply put_congr
      rw [h.write, Nat.mod_mod_of_dvd _ h.sized.dvd]
    refine ⟨hRoom, _, rbufferWrite_eq h.sized (by omega) hNe hFull, ?_⟩
    have hStored := @Repr.congr_buffer r queue (put r.size r.buffer r.writePos (frame message)) h
      (by rw [hPut, window_put_before (by omega)])
    exact hStored.publish hNe hRoom (window_put_self (by show _ ≤ r.size; omega))

/-- `rbuffer_read` -/
theorem rbufferRead_spec (h : Repr r queue) (bufSize : Option Nat) :
    (oldest queue bufSize = none ∧ rbufferRead r bufSize = some (none, r)) ∨
      ∃ message rest r', queue = message :: rest ∧ oldest queue bufSize = some message ∧
        rbufferRead r bufSize = some (some message, r') ∧ Repr r' rest := by
  have hPeek := rbufferPeek_spec h bufSize
  cases hOldest : oldest queue bufSize with
  | none =>
      left
      refine ⟨rfl, ?_⟩
      rw [rbufferRead, hPeek, hOldest]
      rfl
  | some message =>
      right
      obtain ⟨rest, rfl⟩ : ∃ rest, queue = message :: rest := by
        revert hOldest
        fun_cases oldest queue bufSize <;> simp_all
      rw [hOldest] at hPeek
      have hNext : toUint32 (r.readPos + (lenSize + message.length)) =
          (r.readPos + (frame message).length) % 2 ^ 32 := by
        rw [length_frame, toUint32]
        omega
      have hRead : rbufferRead r bufSize = some (some message,
          { r with readPos := (r.readPos + (frame message).length) % 2 ^ 32 }) := by
        rw [rbufferRead, hPeek, ← hNext]
        rfl
      exact ⟨message, rest, _, rfl, rfl, hRead, h.consume⟩

end

/-! ## Unread messages -/

/-- The messages that reads give one after the other, at most so many. -/
def drain : Nat → RbufferT → List (List UInt8)
  | 0, _ => []
  | count + 1, r =>
      match rbufferRead r (some r.size) with
      | some (some message, r) => message :: drain count r
      | _ => []

/-- The messages that are in the ring. -/
def RbufferT.unread (r : RbufferT) : List (List UInt8) := drain r.size r

section

variable {r : RbufferT} {queue : List (List UInt8)}

theorem length_le_encode (queue : List (List UInt8)) : queue.length ≤ (encode queue).length := by
  induction queue with
  | nil => exact le_rfl
  | cons message queue ih =>
      rw [encode_cons, List.length_append, length_frame, List.length_cons, lenSize]
      omega

theorem drain_eq {count : Nat} (h : Repr r queue) (hCount : queue.length ≤ count) :
    drain count r = queue := by
  induction queue generalizing r count with
  | nil =>
      cases count with
      | zero => rfl
      | succ count =>
          cases rbufferRead_spec h (some r.size) with
          | inl hNone => rw [drain, hNone.2]
          | inr hSome =>
              obtain ⟨message, rest, r', hEq, -⟩ := hSome
              cases hEq
  | cons message queue ih =>
      cases count with
      | zero => exact absurd hCount (Nat.not_succ_le_zero _)
      | succ count =>
          have hFits := h.fits
          rw [encode_cons, List.length_append, length_frame] at hFits
          have hOldest : oldest (message :: queue) (some r.size) = some message :=
            if_pos (by omega)
          cases rbufferRead_spec h (some r.size) with
          | inl hNone =>
              rw [hOldest] at hNone
              cases hNone.1
          | inr hSome =>
              obtain ⟨message', rest, r', hEq, -, hRead, hRepr⟩ := hSome
              cases hEq
              rw [drain, hRead]
              exact congrArg (message :: ·) (ih hRepr (Nat.le_of_succ_le_succ hCount))

/-- They are those that were accepted and not read. -/
theorem Repr.unread (h : Repr r queue) : r.unread = queue :=
  drain_eq h ((length_le_encode queue).trans h.fits)

/-- There are none if and only if the positions are the same. -/
theorem Repr.used_eq_zero (h : Repr r queue) : r.used = 0 ↔ queue = [] := by
  rw [h.used_eq]
  constructor
  · intro hZero
    have hLength := length_le_encode queue
    exact List.eq_nil_of_length_eq_zero (by omega)
  · rintro rfl
    rfl

end

/-! ## Runs -/

/-- A ring, with the messages that its writes accepted and those that its reads gave. -/
structure State where
  ring : RbufferT
  sent : List (List UInt8)
  got : List (List UInt8)

inductive RbufferOp where
  | write (buf : Option (List UInt8))
  | read (bufSize : Option Nat)
  | peek (bufSize : Option Nat)

/-- What a call gives back. -/
inductive RbufferResult where
  | status (code : Int)
  | message (bytes : Option (List UInt8))

/-- The message that a write accepted, if it has any bytes. -/
def accepted (code : Int) (buf : Option (List UInt8)) : List (List UInt8) :=
  if code = 0 then buf.toList.filter (· ≠ []) else []

/-- Whatever is written, the ring holds in addition what was accepted. -/
theorem rbufferWrite_accepts {r : RbufferT} {queue : List (List UInt8)} (h : Repr r queue)
    (buf : Option (List UInt8)) :
    ∃ code r', rbufferWrite r buf = some (code, r') ∧ Repr r' (queue ++ accepted code buf) ∧
      (buf = none → code ≠ 0) ∧ (buf = some [] → code = 0) := by
  have hSame : ∀ {code}, accepted code buf = [] → Repr r (queue ++ accepted code buf) := by
    intro code hNil
    rw [hNil, List.append_nil]
    exact h
  cases buf with
  | none => exact ⟨-1, r, rfl, hSame rfl, fun _ => by decide,
      fun hNil => absurd hNil (Option.some_ne_none _).symm⟩
  | some message =>
      by_cases hNil : message = []
      · subst hNil
        exact ⟨0, r, rfl, hSame rfl, fun hNone => absurd hNone (Option.some_ne_none _),
          fun _ => rfl⟩
      · have hNe : some message ≠ some [] := fun hEq => hNil (Option.some.inj hEq)
        cases rbufferWrite_spec h hNil with
        | inl hFits =>
            obtain ⟨-, r', hWrite, hRepr⟩ := hFits
            have hNew : accepted 0 (some message) = [message] := by
              simp [accepted, hNil]
            exact ⟨0, r', hWrite, by rwa [hNew], fun hNone => absurd hNone (Option.some_ne_none _),
              fun hEq => absurd hEq hNe⟩
        | inr hFull =>
            exact ⟨-1, r, hFull.2, hSame rfl, fun _ => by decide, fun hEq => absurd hEq hNe⟩

def rbufferStep : Step State RbufferOp RbufferResult
  | s, .write buf =>
      (rbufferWrite s.ring buf).map fun (code, ring) =>
        (.status code, { s with ring := ring, sent := s.sent ++ accepted code buf })
  | s, .read bufSize =>
      (rbufferRead s.ring bufSize).map fun (bytes, ring) =>
        (.message bytes, { s with ring := ring, got := s.got ++ bytes.toList })
  | s, .peek bufSize => (rbufferPeek s.ring bufSize).map fun bytes => (.message bytes, s)

/-- The messages accepted and not read yet. -/
def State.unread (s : State) : List (List UInt8) := s.sent.drop s.got.length

/-- What each call should do. -/
def Sound (s : State) (op : RbufferOp) (result : RbufferResult) (s' : State) : Prop :=
  s'.got <+: s'.sent ∧
    match op, result with
    | .write buf, .status code =>
        (∀ message, buf = some message → message ≠ [] →
          (code = 0 ↔ message.length + lenSize + s.ring.used ≤ s.ring.size)) ∧
        (code ≠ 0 → s' = s)
    | .read bufSize, .message bytes =>
        bytes = oldest s.unread bufSize ∧ (bytes = none → s' = s)
    | .peek bufSize, .message bytes =>
        bytes = oldest s.unread bufSize ∧ s' = s ∧
        ∃ ring', rbufferRead s.ring bufSize = some (bytes, ring')
    | _, _ => False

/-- The ring holds the messages accepted and not read yet. -/
def Inv (s : State) : Prop := ∃ queue, s.sent = s.got ++ queue ∧ Repr s.ring queue

section

variable {s : State} {queue : List (List UInt8)}

theorem State.unread_eq (h : s.sent = s.got ++ queue) : s.unread = queue := by
  rw [State.unread, h, List.drop_left]

/-- One call does what it should and keeps the invariant. -/
theorem rbufferStep_spec (hInv : Inv s) (op : RbufferOp) :
    Does rbufferStep (fun s op result s' => Sound s op result s' ∧ Inv s') s op := by
  obtain ⟨queue, hSent, hRepr⟩ := hInv
  have hUnread := State.unread_eq hSent
  have hPrefix : s.got <+: s.sent := ⟨queue, hSent.symm⟩
  cases op with
  | write buf =>
      by_cases hEmpty : buf = none ∨ buf = some []
      · -- nothing to write: no byte of the ring changes
        cases hEmpty with
        | inl hNull =>
            subst hNull
            have hSame : s.sent ++ accepted (-1) none = s.sent := List.append_nil _
            refine ⟨.status (-1), s, ?_, ⟨hPrefix, ?_, fun _ => rfl⟩, queue, hSent, hRepr⟩
            · simp only [rbufferStep, rbufferWrite, Option.map_some, hSame]
            · intro message hSome
              cases hSome
        | inr hNil =>
            subst hNil
            have hSame : s.sent ++ accepted 0 (some []) = s.sent := List.append_nil _
            refine ⟨.status 0, s, ?_, ⟨hPrefix, ?_, fun _ => rfl⟩, queue, hSent, hRepr⟩
            · simp only [rbufferStep, rbufferWrite, List.length_nil, if_true, Option.map_some,
                hSame]
            · intro message hSome hNe
              cases hSome
              exact absurd rfl hNe
      · obtain ⟨message, rfl⟩ : ∃ message, buf = some message :=
          Option.ne_none_iff_exists'.mp fun hNone => hEmpty (Or.inl hNone)
        have hNe : message ≠ [] := fun hNil => hEmpty (Or.inr (congrArg some hNil))
        cases rbufferWrite_spec hRepr hNe with
        | inl hFits =>
            obtain ⟨hRoom, ring', hWrite, hRepr'⟩ := hFits
            have hNew : s.sent ++ accepted 0 (some message) = s.sent ++ [message] := by
              simp [accepted, hNe]
            refine ⟨.status 0, { s with ring := ring', sent := s.sent ++ [message] }, ?_,
              ⟨hPrefix.trans (List.prefix_append _ _), ?_, fun h => absurd rfl h⟩,
              queue ++ [message], ?_, hRepr'⟩
            · simp only [rbufferStep, hWrite, Option.map_some, hNew]
            · intro message' hSome _
              cases hSome
              exact ⟨fun _ => hRoom, fun _ => rfl⟩
            · show s.sent ++ [message] = s.got ++ (queue ++ [message])
              rw [hSent, List.append_assoc]
        | inr hFull =>
            obtain ⟨hRoom, hWrite⟩ := hFull
            have hSame : s.sent ++ accepted (-1) (some message) = s.sent := List.append_nil _
            refine ⟨.status (-1), s, ?_, ⟨hPrefix, ?_, fun _ => rfl⟩, queue, hSent, hRepr⟩
            · simp only [rbufferStep, hWrite, Option.map_some, hSame]
            · intro message' hSome _
              cases hSome
              exact ⟨fun hZero => absurd hZero (by decide), fun hLe => absurd hRoom (by omega)⟩
  | read bufSize =>
      cases rbufferRead_spec hRepr bufSize with
      | inl hNone =>
          have hSame : s.got ++ (none : Option (List UInt8)).toList = s.got := List.append_nil _
          refine ⟨.message none, s, ?_, ⟨hPrefix, ?_, fun _ => rfl⟩, queue, hSent, hRepr⟩
          · simp only [rbufferStep, hNone.2, Option.map_some, hSame]
          · rw [hUnread, hNone.1]
      | inr hSome =>
          obtain ⟨message, rest, ring', rfl, hOldest, hRead, hRepr'⟩ := hSome
          have hGot : s.sent = s.got ++ [message] ++ rest := by
            rw [hSent, List.append_assoc]
            rfl
          refine ⟨.message (some message), { s with ring := ring', got := s.got ++ [message] }, ?_,
            ⟨⟨rest, hGot.symm⟩, ?_, fun h => absurd h (Option.some_ne_none _)⟩, rest, hGot, hRepr'⟩
          · simp only [rbufferStep, hRead, Option.map_some, Option.toList_some]
          · rw [hUnread, hOldest]
  | peek bufSize =>
      refine ⟨.message (oldest queue bufSize), s, ?_, ⟨hPrefix, ?_, rfl, ?_⟩, queue, hSent, hRepr⟩
      · simp only [rbufferStep, rbufferPeek_spec hRepr, Option.map_some]
      · rw [hUnread]
      · cases rbufferRead_spec hRepr bufSize with
        | inl hNone => exact ⟨s.ring, by rw [hNone.1, hNone.2]⟩
        | inr hSome =>
            obtain ⟨message, rest, ring', -, hOldest, hRead, -⟩ := hSome
            exact ⟨ring', by rw [hOldest, hRead]⟩

end

/-- Along every run on a ring that is empty at first, a write accepts a message exactly when it
fits, a read takes the oldest message that was accepted if the caller's buffer can take it and
changes nothing otherwise, and a peek gives what a read would. -/
theorem rbuffer_fifo {r : RbufferT} (hSize : r.Sized) (hRead : r.readPos < 2 ^ 32)
    (hWrite : r.writePos = r.readPos) (ops : List RbufferOp) :
    Along rbufferStep (Does rbufferStep Sound) ⟨r, [], []⟩ ops := by
  have hInit : Inv ⟨r, [], []⟩ := ⟨[], rfl, Repr.empty hSize hRead hWrite⟩
  exact along_of_spec Inv (fun s op hInv _ => rbufferStep_spec hInv op) hInit (along_true _ ops)

/-- A ring of eight bytes whose positions are about to wrap. -/
def wrappingRing : RbufferT :=
  { size := 8, readPos := 2 ^ 32 - 2, writePos := 2 ^ 32 - 2, buffer := fun _ => 0 }

/-- A length and a message that cross the end of the memory, a message that does not fit and a
buffer that is too small. -/
theorem rbuffer_fifo_wrapping :
    Along rbufferStep (Does rbufferStep Sound) ⟨wrappingRing, [], []⟩
      [.write (some [1, 2, 3]), .write (some [4]), .read (some 2), .peek (some 3),
        .read (some 8), .write (some [4]), .write (some []), .read none, .read (some 1)] :=
  rbuffer_fifo ⟨3, by decide, by decide, rfl⟩ (by decide) rfl _

end Gbase.Base.Rbuffer
