import Gbase.Base.Rbuffer
import Gbase.Lib.RelyGuarantee

/-!
# One writing and one reading thread on a ring buffer (`base/rbuffer.c`)

`rbuffer_write` and `rbuffer_read` as programs of single accesses: a load of a position, the copy of
one byte by a `memcpy`, the addition to a position.  Loads and additions are sequentially
consistent, and a `memcpy` copies its bytes in any order.

The state has, beside the ring, every message with its place in the ring, once when `write_pos` goes
past it and once when `read_pos` does, and the cells that the `memcpy` of the reading thread is
copying from.

Each thread keeps `Inv`, and leaves to the other what `ReaderMoves` and `WriterMoves` say.

## Main results

* `mem_placed`, `Holds.unread`: where the unread messages lie.
-/

namespace Gbase.Base.RbufferThreads

open Gbase.Core.OsDef
open Gbase.Lib.Bytes
open Gbase.Lib.Ring
open Gbase.Lib.RelyGuarantee
open Gbase.Base.Rbuffer

/-! ## Accesses -/

/-- The memory that both threads use, with what has been written and read, and where. -/
structure Shared where
  ring : RbufferT
  published : List (Nat × List UInt8)
  returned : List (Nat × List UInt8)
  copying : List Nat

/-- What a step of a thread does. -/
inductive Access where
  | load
  | fetch (cell : Nat)
  | store (cell : Nat) (byte : UInt8)
  | add
  | memcpy

/-- The code of a thread.  The input of a turn says which byte a `memcpy` copies next. -/
abbrev Code := Prog Shared Nat Access

/-- `r->read_pos` -/
def loadReadPos : Code Nat := atom (fun s _ => some (.load, s)) fun s _ => s.ring.readPos

/-- `r->write_pos` -/
def loadWritePos : Code Nat := atom (fun s _ => some (.load, s)) fun s _ => s.ring.writePos

/-- One byte is copied from one of the cells. -/
def fetchByte (cells : List Nat) : Code (Nat × UInt8) :=
  atom
    (fun s i =>
      let cell := cells.getD (i % cells.length) 0
      if cell < s.ring.size then some (.fetch cell, s) else none)
    fun s i => (i % cells.length, s.ring.buffer (cells.getD (i % cells.length) 0))

/-- The bytes of some cells, in the order of the cells. -/
def fetchBytes : Nat → List Nat → Code (List UInt8)
  | 0, _ => return []
  | count + 1, cells => do
      let byte ← fetchByte cells
      let rest ← fetchBytes count (cells.eraseIdx byte.1)
      return rest.insertIdx byte.1 byte.2

/-- `memcpy` from the ring. -/
def memcpyFrom (start count : Nat) : Code (List UInt8) := do
  let cells := List.range' start count
  atom (fun s _ => some (.memcpy, { s with copying := cells })) fun _ _ => ()
  let bytes ← fetchBytes count cells
  atom (fun s _ => some (.memcpy, { s with copying := [] })) fun _ _ => ()
  return bytes

/-- One of the bytes is copied to its cell. -/
def storeByte (todo : List (UInt8 × Nat)) : Code Nat :=
  atom
    (fun s i =>
      let place := todo.getD (i % todo.length) (0, 0)
      if place.2 < s.ring.size then
        some (.store place.2 place.1,
          { s with ring :=
              { s.ring with buffer := Function.update s.ring.buffer place.2 place.1 } })
      else none)
    fun _ i => i % todo.length

/-- Some bytes are copied to their cells. -/
def storeBytes : Nat → List (UInt8 × Nat) → Code Unit
  | 0, _ => return ()
  | count + 1, todo => do
      let i ← storeByte todo
      storeBytes count (todo.eraseIdx i)

/-- `memcpy` to the ring. -/
def memcpyTo (start : Nat) (bytes : List UInt8) : Code Unit :=
  storeBytes bytes.length (bytes.zip (List.range' start bytes.length))

/-! ## The calls -/

section

variable (size : Nat)

/-- `pos & (r->size - 1)` -/
def index (pos : Nat) : Nat := pos &&& toUint32 (size - 1)

/-- `rbuffer_read_bytes` -/
def rbufferReadBytes : Code Nat := do
  let writePos ← loadWritePos
  let readPos ← loadReadPos
  return (if toUint32 (writePos - readPos) ≥ lenSize then
    toUint32 (toUint32 (writePos - readPos) - lenSize) else 0)

/-- `rbuffer_write_bytes` -/
def rbufferWriteBytes : Code Nat := do
  let writePos ← loadWritePos
  let readPos ← loadReadPos
  return (if toUint32 (writePos - readPos) ≥ toUint32 (size - lenSize) then 0
    else toUint32 (size - lenSize - toUint32 (writePos - readPos)))

/-- The copies of `rbuffer_peek` to `read_len`. -/
def peekLen (readToTailLeast : Nat) : Code (List UInt8) := do
  let readPos ← loadReadPos
  let head ← memcpyFrom (index size readPos) readToTailLeast
  let rest ← (if readToTailLeast < lenSize then memcpyFrom 0 (lenSize - readToTailLeast)
    else return [])
  return head ++ rest

/-- The copies of `rbuffer_peek` to the caller's buffer. -/
def peekData (readToTail readToTailLeast readLen : Nat) : Code (List UInt8) :=
  if readToTailLeast < lenSize then memcpyFrom (lenSize - readToTailLeast) readLen
  else do
    let readToTail := readToTail - lenSize
    let readToTailBytes := if readLen < readToTail then readLen else readToTail
    let readPos ← loadReadPos
    let first ← memcpyFrom (index size (toUint32 (readPos + lenSize))) readToTailBytes
    let second ← (if readToTailBytes < readLen then memcpyFrom 0 (readLen - readToTailBytes)
      else return [])
    return first ++ second

/-- `rbuffer_peek` into a buffer of the given size, if neither pointer is `NULL`.  The result is
the bytes copied, or `none` for the return of -1. -/
def rbufferPeek (bufSize : Option Nat) : Code (Option (List UInt8)) :=
  match bufSize with
  | none => return none
  | some bufSize => do
      let readBytes ← rbufferReadBytes
      if 0 = readBytes then return none
      else
        let readPos ← loadReadPos
        let readToTail := toUint32 (size - index size readPos)
        let readToTailLeast := if readToTail < lenSize then readToTail else lenSize
        let len ← peekLen size readToTailLeast
        if leValue len > toUint32 (size - lenSize) ∨ leValue len > bufSize then return none
        else
          let bytes ← peekData size readToTail readToTailLeast (leValue len)
          return some bytes

/-- `atom_add(&r->read_pos, sizeof(uint32_t) + *buf_size)` -/
def addReadPos (bytes : List UInt8) : Code Unit :=
  atom
    (fun s _ => some (.add,
      { s with
        ring := { s.ring with
          readPos := toUint32 (s.ring.readPos + toUint32 (lenSize + bytes.length)) }
        returned := s.returned ++ [(s.ring.readPos, bytes)] }))
    fun _ _ => ()

/-- `rbuffer_read` -/
def rbufferRead (bufSize : Option Nat) : Code (Option (List UInt8)) := do
  let result ← rbufferPeek size bufSize
  match result with
  | none => return none
  | some bytes => do
      addReadPos bytes
      return some bytes

/-- The copies of `rbuffer_write` from `buf_size`. -/
def writeLen (buf : List UInt8) (minLenSize : Nat) : Code Unit := do
  let len := leBytes 8 buf.length
  let writePos ← loadWritePos
  memcpyTo (index size writePos) (len.take minLenSize)
  if minLenSize < lenSize then memcpyTo 0 ((len.drop minLenSize).take (lenSize - minLenSize))
  else return ()

/-- The copies of `rbuffer_write` from the caller's buffer. -/
def writeData (buf : List UInt8) (writeToTail minLenSize : Nat) : Code Unit :=
  if writeToTail > lenSize then do
    let writeToTail := writeToTail - lenSize
    let writeToTailBytes := if buf.length < writeToTail then buf.length else writeToTail
    let writePos ← loadWritePos
    memcpyTo (index size (toUint32 (writePos + lenSize))) (buf.take writeToTailBytes)
    if writeToTailBytes < buf.length then memcpyTo 0 (buf.drop writeToTailBytes)
    else return ()
  else memcpyTo (lenSize - minLenSize) buf

/-- `atom_add(&r->write_pos, nwrites)` -/
def addWritePos (buf : List UInt8) (nwrites : Nat) : Code Unit :=
  atom
    (fun s _ => some (.add,
      { s with
        ring := { s.ring with writePos := toUint32 (s.ring.writePos + nwrites) }
        published := s.published ++ [(s.ring.writePos, buf)] }))
    fun _ _ => ()

/-- `rbuffer_write` of as many bytes as `buf_size` says, if `buf` is not `NULL`. -/
def rbufferWrite (buf : Option (List UInt8)) : Code Int :=
  match buf with
  | none => return -1
  | some buf =>
      if 0 = buf.length then return 0
      else do
        let nwrites := toUint32 (buf.length + lenSize)
        let writeBytes ← rbufferWriteBytes size
        if writeBytes < buf.length then return -1
        else
          let writePos ← loadWritePos
          let writeToTail := toUint32 (size - index size writePos)
          let minLenSize := if lenSize < writeToTail then lenSize else writeToTail
          writeLen size buf minLenSize
          writeData size buf writeToTail minLenSize
          addWritePos buf nwrites
          return 0

end

/-! ## What both threads keep -/

/-- Messages with the places at which they lie one after the other. -/
def placed : Nat → List (List UInt8) → List (Nat × List UInt8)
  | _, [] => []
  | pos, message :: queue =>
      (pos, message) :: placed ((pos + (frame message).length) % 2 ^ 32) queue

/-- The cell belongs to a message that is published and unread. -/
def Shared.Unread (s : Shared) (cell : Nat) : Prop :=
  ∃ place, place ∈ s.published.drop s.returned.length ∧
    cell ∈ ringCells s.ring.size place.1 (frame place.2).length

/-- The unread messages lie in the ring, and the reading thread copies from them only. -/
structure Holds (size : Nat) (s : Shared) (queue : List (List UInt8)) : Prop where
  size_eq : s.ring.size = size
  repr : Repr s.ring queue
  places : s.published = s.returned ++ placed s.ring.readPos queue
  copying : ∀ {cell}, cell ∈ s.copying → cell ∈ ringCells size s.ring.readPos (encode queue).length

def Inv (size : Nat) (s : Shared) : Prop := ∃ queue, Holds size s queue

/-- What the steps of the reading thread leave to the other one. -/
structure ReaderMoves (size : Nat) (s t : Shared) : Prop where
  inv : Inv size t
  writePos : t.ring.writePos = s.ring.writePos
  buffer : t.ring.buffer = s.ring.buffer
  used : t.ring.used ≤ s.ring.used
  published : t.published = s.published
  returned : s.returned <+: t.returned

/-- What the steps of the writing thread leave to the other one. -/
structure WriterMoves (size : Nat) (s t : Shared) : Prop where
  inv : Inv size t
  readPos : t.ring.readPos = s.ring.readPos
  published : s.published <+: t.published
  returned : t.returned = s.returned
  copying : t.copying = s.copying

/-- What the writing thread relies on. -/
def writerRely (size : Nat) : Rely Shared where
  may s t := Inv size s → ReaderMoves size s t
  refl _ hInv := ⟨hInv, rfl, rfl, le_rfl, rfl, List.prefix_rfl⟩
  trans hFirst hSecond hInv := by
    have h := hFirst hInv
    have h' := hSecond h.inv
    exact ⟨h'.inv, h'.writePos.trans h.writePos, h'.buffer.trans h.buffer, h'.used.trans h.used,
      h'.published.trans h.published, h.returned.trans h'.returned⟩

/-- What the reading thread relies on. -/
def readerRely (size : Nat) : Rely Shared where
  may s t := Inv size s → WriterMoves size s t
  refl _ hInv := ⟨hInv, rfl, List.prefix_rfl, rfl, rfl⟩
  trans hFirst hSecond hInv := by
    have h := hFirst hInv
    have h' := hSecond h.inv
    exact ⟨h'.inv, h'.readPos.trans h.readPos, h.published.trans h'.published,
      h'.returned.trans h.returned, h'.copying.trans h.copying⟩

/-- What the writing thread guarantees: it stores bytes outside only. -/
def writerGuar (size : Nat) (s : Shared) (access : Access) (t : Shared) : Prop :=
  (Inv size s → WriterMoves size s t) ∧
    ∀ {cell byte}, access = .store cell byte → Inv size s → ¬ s.Unread cell ∧ cell ∉ s.copying

/-- What the reading thread guarantees: it stores no byte. -/
def readerGuar (size : Nat) (s : Shared) (access : Access) (t : Shared) : Prop :=
  (Inv size s → ReaderMoves size s t) ∧ ∀ {cell byte}, access ≠ .store cell byte

section

variable {size : Nat} {s t : Shared} {queue : List (List UInt8)} {message buf : List UInt8}

/-- Every message that lies at a place lies among the bytes of all. -/
theorem mem_placed {pos : Nat} {place : Nat × List UInt8} (hDvd : size ∣ 2 ^ 32)
    (hPlace : place ∈ placed pos queue) {cell : Nat}
    (hCell : cell ∈ ringCells size place.1 (frame place.2).length) :
    cell ∈ ringCells size pos (encode queue).length := by
  induction queue generalizing pos with
  | nil => cases hPlace
  | cons message queue ih =>
      rw [encode_cons, List.length_append, ringCells_add, List.mem_append]
      cases hPlace with
      | head => exact Or.inl hCell
      | tail _ hRest =>
          right
          have hLater := ih hRest
          rwa [ringCells_congr (Nat.mod_mod_of_dvd _ hDvd)] at hLater

theorem placed_append_one {pos : Nat} (hPos : pos < 2 ^ 32) :
    placed pos (queue ++ [message]) =
      placed pos queue ++ [((pos + (encode queue).length) % 2 ^ 32, message)] := by
  induction queue generalizing pos with
  | nil =>
      rw [encode_nil, List.length_nil, Nat.add_zero, Nat.mod_eq_of_lt hPos]
      rfl
  | cons first queue ih =>
      rw [List.cons_append, placed, ih (Nat.mod_lt _ (by decide)), placed, encode_cons,
        List.length_append, Nat.mod_add_mod, Nat.add_assoc, List.cons_append]

theorem Holds.unread (h : Holds size s queue) {cell : Nat} (hUnread : s.Unread cell) :
    cell ∈ ringCells size s.ring.readPos (encode queue).length := by
  obtain ⟨place, hPlace, hCell⟩ := hUnread
  rw [h.places, List.drop_left] at hPlace
  rw [h.size_eq] at hCell
  exact mem_placed (h.size_eq ▸ h.repr.sized.dvd) hPlace hCell

theorem Holds.sizes (h : Holds size s queue) : 4 ≤ size ∧ size ≤ 2 ^ 30 :=
  h.size_eq ▸ h.repr.sized.le

end

end Gbase.Base.RbufferThreads
