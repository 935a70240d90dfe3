import Gbase.Base.RbufferWriter
import Mathlib.Data.List.InsertIdx

/-!
# Races on a ring buffer

What `rbuffer_read` does if another thread repeats `rbuffer_write` in between: the oldest message
is not touched until `read_pos` is changed.  With what is known of the writing thread, this holds
for every interleaving of both.

Each turn of the other thread is one atomic access, and may come between any two accesses of this
one.  The rules for that are those of rely and guarantee: what this thread relies on is stable under
the other's turns, and what it guarantees is what the other relies on.  The two halves meet in
`rbuffer_race_free`.

## Main results

* `rbufferRead_triple`: the whole call.
* `rbuffer_race_free`: along every run, no byte is stored where an unread message lies or where the
  reading thread is copying from, and the messages are read as they were written.
-/

namespace Gbase.Base.RbufferThreads

open Gbase.Core.OsDef
open Gbase.Lib.Bytes
open Gbase.Lib.Ring
open Gbase.Lib.RelyGuarantee
open Gbase.Lib.Run
open Gbase.Base.Rbuffer

/-! ## The reading thread -/

/-- What a cell of a message holds. -/
def byteAt (size readPos : Nat) (message : List UInt8) (cell : Nat) : UInt8 :=
  (frame message).getD (distance size readPos cell) 0

/-- The oldest unread message lies at `read_pos`. -/
structure Reading (size readPos : Nat) (message : List UInt8) (copying : List Nat)
    (s : Shared) : Prop where
  inv : Inv size s
  readPos_eq : s.ring.readPos = readPos
  copying_eq : s.copying = copying
  next : s.published[s.returned.length]? = some (readPos, message)

/-- The reading thread is between two calls. -/
def Idle (size : Nat) (s : Shared) : Prop := Inv size s ∧ s.copying = []

section

variable {size readPos : Nat} {s : Shared} {message : List UInt8} {copying cells : List Nat}

theorem stable_idle : Stable (readerRely size) (Idle size) := by
  intro s t ⟨hInv, hCopying⟩ hMay
  exact ⟨(hMay hInv).inv, (hMay hInv).copying.trans hCopying⟩

theorem stable_reading : Stable (readerRely size) (Reading size readPos message copying) := by
  intro s t h hMay
  have hMoves := hMay h.inv
  refine ⟨hMoves.inv, hMoves.readPos.trans h.readPos_eq, hMoves.copying.trans h.copying_eq, ?_⟩
  obtain ⟨later, hLater⟩ := hMoves.published
  obtain ⟨hLess, -⟩ := List.getElem?_eq_some_iff.mp h.next
  rw [hMoves.returned, ← hLater, List.getElem?_append_left hLess]
  exact h.next

/-- The message is the oldest one of the ring. -/
theorem Reading.queue (h : Reading size readPos message copying s) :
    ∃ queue, Holds size s (message :: queue) := by
  obtain ⟨queue, hHolds⟩ := h.inv
  have hNext := h.next
  rw [hHolds.places, List.getElem?_append_right le_rfl, Nat.sub_self] at hNext
  cases queue with
  | nil => cases hNext
  | cons first queue =>
      have hSame : first = message := (Prod.mk.inj (Option.some.inj hNext)).2
      exact ⟨queue, hSame ▸ hHolds⟩

/-- The message lies in its cells. -/
theorem map_byteAt (hFits : (frame message).length ≤ size) :
    (ringCells size readPos (frame message).length).map (byteAt size readPos message) =
      frame message := by
  apply List.ext_getElem (by simp)
  intro i hi hi'
  rw [List.getElem_map, getElem_ringCells, byteAt, distance_add (by omega), ← List.getElem_eq_getD]

/-- First its length, and behind it its bytes. -/
theorem map_byteAt_frame (hFits : (frame message).length ≤ size) :
    (ringCells size readPos lenSize).map (byteAt size readPos message) =
        leBytes lenSize message.length ∧
      (ringCells size (readPos + lenSize) message.length).map (byteAt size readPos message) =
        message := by
  have hMap := @map_byteAt size readPos message hFits
  rw [length_frame, ringCells_add, List.map_append, frame] at hMap
  exact List.append_inj hMap (by rw [List.length_map, length_ringCells, length_leBytes])

theorem Reading.fits (h : Reading size readPos message copying s) :
    (frame message).length ≤ size := by
  obtain ⟨queue, hHolds⟩ := h.queue
  have hFits := hHolds.repr.fits
  rw [hHolds.size_eq, encode_cons, List.length_append] at hFits
  omega

theorem Reading.byteAt (h : Reading size readPos message copying s) {cell : Nat}
    (hCell : cell ∈ ringCells size readPos (frame message).length) :
    cell < s.ring.size ∧ s.ring.buffer cell = RbufferThreads.byteAt size readPos message cell := by
  obtain ⟨queue, hHolds⟩ := h.queue
  have hSizes := hHolds.sizes
  have hBytes := hHolds.repr.holds
  rw [hHolds.size_eq, encode_cons, List.length_append, window_add, h.readPos_eq] at hBytes
  obtain ⟨hBytes, -⟩ := List.append_inj hBytes length_window
  have hMap := @map_byteAt size readPos message h.fits
  rw [← map_ringCells] at hBytes
  constructor
  · obtain ⟨i, -, hEq⟩ := mem_ringCells.mp hCell
    rw [hHolds.size_eq, hEq]
    exact Nat.mod_lt _ (by omega)
  · exact List.map_inj_left.mp (hBytes.trans hMap.symm) cell hCell

/-- The reading thread changes nothing by a load or the fetch of a byte. -/
theorem readerGuar_same {access : Access} (h : ∀ {cell byte}, access ≠ .store cell byte) :
    readerGuar size s access s :=
  ⟨(writerRely size).refl s, h⟩

/-- The bytes of some cells of the message, fetched in any order. -/
theorem fetchBytes_triple {count : Nat} (hCount : cells.length = count)
    (hCells : ∀ cell, cell ∈ cells → cell ∈ ringCells size readPos (frame message).length) :
    Triple (readerRely size) (readerGuar size) (Reading size readPos message copying)
      (fetchBytes count cells) fun bytes s =>
        bytes = cells.map (byteAt size readPos message) ∧
          Reading size readPos message copying s := by
  induction count generalizing cells with
  | zero =>
      have hNil : cells = [] := List.eq_nil_of_length_eq_zero hCount
      rw [hNil]
      exact Triple.ret stable_reading fun s h => ⟨rfl, h⟩
  | succ count ih =>
      refine Triple.bind (?_ : Triple _ _ _ (fetchByte cells) fun byte s =>
        (∃ h : byte.1 < cells.length, byte.2 = byteAt size readPos message cells[byte.1]) ∧
          Reading size readPos message copying s) ?_
      · apply Triple.atom stable_reading
        · intro byte s t ⟨hByte, h⟩ hMay
          exact ⟨hByte, stable_reading h hMay⟩
        · intro s i h
          have hLess : i % cells.length < cells.length := Nat.mod_lt i (by omega)
          have hByte := h.byteAt (hCells _ (List.getElem_mem hLess))
          refine ⟨.fetch cells[i % cells.length], s, ?_, readerGuar_same ?_, ⟨hLess, ?_⟩, h⟩
          · simp only [← List.getElem_eq_getD (h := hLess) 0, if_pos hByte.1]
          · intro cell byte hEq
            cases hEq
          · simp only [← List.getElem_eq_getD (h := hLess) 0]
            exact hByte.2
      · rintro byte s ⟨⟨hLess, hByte⟩, h⟩
        have hErase : (cells.eraseIdx byte.1).length = count := by
          rw [List.length_eraseIdx, if_pos hLess]
          omega
        refine Triple.bind (ih hErase fun cell hMem => hCells cell (List.mem_of_mem_eraseIdx hMem))
          ?_ s h
        intro rest
        apply Triple.ret
        · intro s t ⟨hRest, h⟩ hMay
          exact ⟨hRest, stable_reading h hMay⟩
        · intro s ⟨hRest, h⟩
          refine ⟨?_, h⟩
          have hMap : byte.1 < (cells.map (byteAt size readPos message)).length := by
            rwa [List.length_map]
          have hBack := List.insertIdx_eraseIdx_getElem hMap
          rw [List.getElem_map, List.eraseIdx_map] at hBack
          rw [hRest, hByte, hBack]

/-- A `memcpy` from the message. -/
theorem memcpyFrom_triple {start count : Nat}
    (hCells : ∀ cell, cell ∈ List.range' start count →
      cell ∈ ringCells size readPos (frame message).length) :
    Triple (readerRely size) (readerGuar size) (Reading size readPos message [])
      (memcpyFrom start count) fun bytes s =>
        bytes = (List.range' start count).map (byteAt size readPos message) ∧
          Reading size readPos message [] s := by
  have hCopies : ∀ copying copying',
      (∀ cell, cell ∈ copying' → cell ∈ ringCells size readPos (frame message).length) →
      Triple (readerRely size) (readerGuar size) (Reading size readPos message copying)
        (atom (fun s _ => some (.memcpy, { s with copying := copying' })) fun _ _ => () : Code Unit)
        fun _ => Reading size readPos message copying' := by
    intro copying copying' hCells
    apply Triple.atom stable_reading fun _ => stable_reading
    intro s i h
    obtain ⟨queue, hHolds⟩ := h.queue
    have hInv : Inv size { s with copying := copying' } := by
      refine ⟨message :: queue, hHolds.size_eq, hHolds.repr, hHolds.places, ?_⟩
      intro cell hCell
      rw [encode_cons, List.length_append, ringCells_add]
      exact List.mem_append_left _ (h.readPos_eq ▸ hCells cell hCell)
    refine ⟨.memcpy, _, rfl, ⟨fun _ => ?_, ?_⟩, hInv, h.readPos_eq, rfl, h.next⟩
    · exact ⟨hInv, rfl, rfl, le_rfl, rfl, List.prefix_rfl⟩
    · intro cell byte hEq
      cases hEq
  apply Triple.bind (hCopies [] _ hCells)
  intro _
  apply Triple.bind (fetchBytes_triple (by simp) hCells)
  rintro bytes s ⟨rfl, h⟩
  refine Triple.bind (hCopies _ [] fun cell hCell => by cases hCell) ?_ s h
  intro _
  exact Triple.ret stable_reading fun s h => ⟨rfl, h⟩

/-- A load of `read_pos`. -/
theorem loadReadPos_triple {P : Shared → Prop} (hStable : Stable (readerRely size) P)
    (hPos : ∀ s, P s → s.ring.readPos = readPos) :
    Triple (readerRely size) (readerGuar size) P loadReadPos fun pos s => pos = readPos ∧ P s := by
  apply Triple.atom hStable
  · intro pos s t ⟨hEq, h⟩ hMay
    exact ⟨hEq, hStable h hMay⟩
  · intro s i h
    refine ⟨.load, s, rfl, readerGuar_same ?_, hPos s h, h⟩
    intro cell byte hEq
    cases hEq

end

section

variable {r : RbufferT} {s : Shared} {readPos toTail n count : Nat} {message : List UInt8}

/-- Up to two copies, before the end and behind it, fetch one stretch of the message. -/
theorem memcpyFrom_across (pos : Nat) (hn : n ≤ count) (hFits : count ≤ r.size)
    (hTail : pos % r.size + n ≤ r.size) (hZero : n < count → (pos + n) % r.size = 0)
    (hCells : ∀ cell, cell ∈ ringCells r.size pos count →
      cell ∈ ringCells r.size readPos (frame message).length) :
    Triple (readerRely r.size) (readerGuar r.size) (Reading r.size readPos message [])
      (do
        let first ← memcpyFrom (pos % r.size) n
        let second ← (if n < count then memcpyFrom 0 (count - n) else return [])
        return first ++ second)
      fun bytes s => bytes = (ringCells r.size pos count).map (byteAt r.size readPos message) ∧
        Reading r.size readPos message [] s := by
  have hSplit := ringCells_across hn hFits hTail hZero
  rw [← hSplit] at hCells ⊢
  apply Triple.bind (memcpyFrom_triple fun cell h => hCells cell (List.mem_append_left _ h))
  rintro first s ⟨rfl, h⟩
  rw [List.map_append]
  have hReturn : ∀ second : List UInt8,
      Triple (readerRely r.size) (readerGuar r.size)
        (fun s => second = (List.range' 0 (count - n)).map (byteAt r.size readPos message) ∧
          Reading r.size readPos message [] s)
        (return (List.range' (pos % r.size) n).map (byteAt r.size readPos message) ++ second :
          Code (List UInt8))
        fun bytes s => bytes = (List.range' (pos % r.size) n).map (byteAt r.size readPos message) ++
          (List.range' 0 (count - n)).map (byteAt r.size readPos message) ∧
            Reading r.size readPos message [] s := by
    intro second
    apply Triple.ret
    · intro s t ⟨hEq, h⟩ hMay
      exact ⟨hEq, stable_reading h hMay⟩
    · rintro s ⟨rfl, h⟩
      exact ⟨rfl, h⟩
  by_cases hCross : n < count
  · rw [if_pos hCross]
    refine Triple.bind (memcpyFrom_triple fun cell hCell => ?_) hReturn s h
    exact hCells cell (List.mem_append_right _ hCell)
  · have hNone : count - n = 0 := by
      omega
    rw [if_neg hCross]
    refine hReturn [] s ⟨?_, h⟩
    rw [hNone]
    rfl

/-- The length of the message is fetched. -/
theorem peekLen_triple (hSize : r.Sized) (hTail : toTail = r.size - readPos % r.size) :
    Triple (readerRely r.size) (readerGuar r.size) (Reading r.size readPos message [])
      (peekLen r.size (if toTail < lenSize then toTail else lenSize))
      fun len s => len = leBytes lenSize message.length ∧ Reading r.size readPos message [] s := by
  have hLe := hSize.le
  have hMod := Nat.mod_lt readPos (by omega : 0 < r.size)
  have hFour : lenSize = 4 := rfl
  have hFrame : (frame message).length = lenSize + message.length := length_frame
  generalize hn : (if toTail < lenSize then toTail else lenSize) = n
  have hCases : (toTail < lenSize ∧ n = toTail) ∨ (lenSize ≤ toTail ∧ n = lenSize) := by
    split at hn <;> omega
  intro s h
  have hFits := h.fits
  obtain ⟨hLen, -⟩ := @map_byteAt_frame r.size readPos message hFits
  have hAcross := @memcpyFrom_across r readPos n lenSize message readPos (by omega) (by omega)
    (by omega)
    (by
      intro hLess
      exact add_toTail hSize (by omega))
    (by
      intro cell hCell
      rw [hFrame, ringCells_add]
      exact List.mem_append_left _ hCell)
  rw [hLen] at hAcross
  refine Triple.bind (loadReadPos_triple stable_reading fun s h => h.readPos_eq) ?_ s h
  rintro pos s ⟨rfl, h⟩
  have hIndex : index r.size pos = pos % r.size := hSize.index pos
  rw [hIndex]
  exact hAcross s h

/-- The bytes of the message are fetched. -/
theorem peekData_triple (hSize : r.Sized) (hTail : toTail = r.size - readPos % r.size) :
    Triple (readerRely r.size) (readerGuar r.size) (Reading r.size readPos message [])
      (peekData r.size toTail (if toTail < lenSize then toTail else lenSize) message.length)
      fun bytes s => bytes = message ∧ Reading r.size readPos message [] s := by
  have hLe := hSize.le
  have hMod := Nat.mod_lt readPos (by omega : 0 < r.size)
  have hFour : lenSize = 4 := rfl
  have hFrame : (frame message).length = lenSize + message.length := length_frame
  have hAt := add_lenSize hSize readPos
  rw [← hTail] at hAt
  intro s h
  have hFits := h.fits
  obtain ⟨-, hBytes⟩ := @map_byteAt_frame r.size readPos message hFits
  have hCells : ∀ cell, cell ∈ ringCells r.size (readPos + lenSize) message.length →
      cell ∈ ringCells r.size readPos (frame message).length := by
    intro cell hCell
    rw [hFrame, ringCells_add]
    exact List.mem_append_right _ hCell
  by_cases hShort : toTail < lenSize
  · rw [if_pos (by omega)] at hAt
    have hPlain := @ringCells_eq_range' r.size (readPos + lenSize) message.length (by omega)
    rw [hAt] at hPlain
    rw [hPlain] at hCells hBytes
    have hCopy := @memcpyFrom_triple r.size readPos message (lenSize - toTail) message.length hCells
    rw [hBytes] at hCopy
    rw [peekData, if_pos hShort, if_pos hShort]
    exact hCopy s h
  · rw [peekData, if_neg hShort, if_neg (lt_irrefl _)]
    generalize hn : (if message.length < toTail - lenSize then message.length
      else toTail - lenSize) = n
    have hCases : (message.length < toTail - lenSize ∧ n = message.length) ∨
        (toTail - lenSize ≤ message.length ∧ n = toTail - lenSize) := by
      split at hn <;> omega
    have hTailFits : (readPos + lenSize) % r.size + n ≤ r.size := by
      split at hAt <;> omega
    have hAcross := @memcpyFrom_across r readPos n message.length message (readPos + lenSize)
      (by omega) (by omega) hTailFits
      (by
        intro hLess
        have hEnd : readPos + lenSize + n = readPos + toTail := by
          omega
        rw [hEnd]
        exact add_toTail hSize hTail)
      hCells
    rw [hBytes] at hAcross
    refine Triple.bind (loadReadPos_triple stable_reading fun s h => h.readPos_eq) ?_ s h
    rintro pos s ⟨rfl, h⟩
    have hIndex : index r.size (toUint32 ((pos : Int) + (lenSize : Int))) =
        (pos + lenSize) % r.size := by
      rw [← hSize.wrap]
      exact hSize.index _
    rw [hIndex]
    simp only [hn]
    exact hAcross s h

/-- Between two calls, with `read_pos` as it is. -/
def IdleAt (size readPos : Nat) (s : Shared) : Prop := Idle size s ∧ s.ring.readPos = readPos

private theorem stable_idleAt : Stable (readerRely r.size) (IdleAt r.size readPos) := by
  intro s t ⟨hIdle, hPos⟩ hMay
  exact ⟨stable_idle hIdle hMay, (hMay hIdle.1).readPos.trans hPos⟩

/-- If `count` is not zero then there is a message, which the other thread leaves there. -/
def Seen (size readPos count : Nat) (s : Shared) : Prop :=
  IdleAt size readPos s ∧ (count ≠ 0 → ∃ message, Reading size readPos message [] s)

theorem stable_seen : Stable (readerRely r.size) (Seen r.size readPos count) := by
  intro s t ⟨hIdle, hSeen⟩ hMay
  refine ⟨stable_idleAt hIdle hMay, ?_⟩
  intro hCount
  obtain ⟨message, h⟩ := hSeen hCount
  exact ⟨message, stable_reading h hMay⟩

/-- As soon as `write_pos` is not `read_pos`, there is a message. -/
theorem IdleAt.seen (h : IdleAt r.size readPos s) :
    Seen r.size readPos (toUint32 (s.ring.writePos - readPos)) s := by
  refine ⟨h, ?_⟩
  intro hCount
  obtain ⟨⟨⟨queue, hHolds⟩, hCopying⟩, rfl⟩ := h
  cases queue with
  | nil =>
      have hWrite := hHolds.repr.write
      have hRead := hHolds.repr.read
      rw [encode_nil, List.length_nil, Nat.add_zero, Nat.mod_eq_of_lt hRead] at hWrite
      rw [hWrite, sub_self] at hCount
      exact absurd rfl hCount
  | cons message queue =>
      refine ⟨message, ⟨message :: queue, hHolds⟩, rfl, hCopying, ?_⟩
      rw [hHolds.places, List.getElem?_append_right le_rfl, Nat.sub_self]
      rfl

/-- `rbuffer_read_bytes` -/
theorem rbufferReadBytes_triple :
    Triple (readerRely r.size) (readerGuar r.size) (IdleAt r.size readPos) rbufferReadBytes
      fun readBytes => Seen r.size readPos readBytes := by
  -- `write_pos` as it is now
  refine Triple.bind (?_ : Triple _ _ _ loadWritePos fun (writePos : Nat) =>
    Seen r.size readPos (toUint32 (writePos - readPos))) ?_
  · apply Triple.atom stable_idleAt
    · intro writePos
      exact stable_seen
    · intro s i h
      refine ⟨.load, s, rfl, readerGuar_same ?_, h.seen⟩
      intro cell byte hEq
      cases hEq
  · intro writePos
    apply Triple.bind (loadReadPos_triple stable_seen fun s h => h.1.2)
    rintro pos s ⟨rfl, h⟩ t hMay
    obtain ⟨hIdle, hSeen⟩ := stable_seen h hMay
    refine ⟨hIdle, ?_⟩
    intro hCount
    apply hSeen
    intro hZero
    rw [hZero, if_neg (by decide)] at hCount
    exact hCount rfl

/-- What a peek came to: if it gave bytes, they are the oldest message. -/
def Peeked (size : Nat) (result : Option (List UInt8)) (s : Shared) : Prop :=
  match result with
  | none => Idle size s
  | some bytes => ∃ readPos, Reading size readPos bytes [] s

/-- `rbuffer_peek` -/
theorem rbufferPeek_triple (hSize : r.Sized) (bufSize : Option Nat) :
    Triple (readerRely r.size) (readerGuar r.size) (Idle r.size) (rbufferPeek r.size bufSize)
      (Peeked r.size) := by
  cases bufSize with
  | none => exact Triple.ret stable_idle fun s h => h
  | some bufSize =>
      have hNothing : ∀ {P : Shared → Prop}, (∀ s, P s → Idle r.size s) →
          Triple (readerRely r.size) (readerGuar r.size) P
            (return none : Code (Option (List UInt8))) (Peeked r.size) := by
        intro P hIdle s h t hMay
        exact stable_idle (hIdle s h) hMay
      intro s hIdle
      generalize hPos : s.ring.readPos = readPos
      refine Triple.bind rbufferReadBytes_triple ?_ s ⟨hIdle, hPos⟩
      rintro readBytes s ⟨hIdle, hSeen⟩
      by_cases hZero : 0 = readBytes
      · rw [if_pos hZero]
        exact hNothing (fun s h => h) s hIdle.1
      · rw [if_neg hZero]
        obtain ⟨message, h⟩ := hSeen (Ne.symm hZero)
        refine Triple.bind (loadReadPos_triple stable_reading fun s h => h.readPos_eq) ?_ s h
        rintro pos s ⟨rfl, h⟩
        have hTail : toUint32 ((r.size : Int) - (index r.size pos : Int)) =
            r.size - pos % r.size := by
          rw [← hSize.toTail]
          exact congrArg (fun n : Nat => toUint32 ((r.size : Int) - n)) (hSize.index pos)
        have hValue : leValue (leBytes lenSize message.length) = message.length := by
          have hFits := h.fits
          have hLe := hSize.le
          rw [length_frame] at hFits
          apply leValue_leBytes
          rw [lenSize]
          omega
        refine Triple.bind (peekLen_triple hSize hTail) ?_ s h
        rintro len s ⟨rfl, h⟩
        rw [hValue]
        split
        · exact hNothing (fun s h => h) s ⟨h.inv, h.copying_eq⟩
        · refine Triple.bind (peekData_triple hSize hTail) ?_ s h
          rintro bytes s ⟨rfl, h⟩
          exact Triple.ret stable_reading (fun s h => ⟨pos, h⟩) s h

/-- `read_pos` goes past the message. -/
theorem addReadPos_triple :
    Triple (readerRely r.size) (readerGuar r.size) (Reading r.size readPos message [])
      (addReadPos message) fun _ => Idle r.size := by
  apply Triple.atom stable_reading fun _ => stable_idle
  intro s i h
  obtain ⟨queue, hHolds⟩ := h.queue
  have hNext : toUint32 (s.ring.readPos + toUint32 (lenSize + message.length)) =
      (s.ring.readPos + (frame message).length) % 2 ^ 32 := by
    rw [length_frame]
    simp only [toUint32]
    omega
  have hConsumed := hHolds.repr.consume
  rw [← hNext] at hConsumed
  have hInv : Inv r.size { s with
      ring := { s.ring with
        readPos := toUint32 (s.ring.readPos + toUint32 (lenSize + message.length)) }
      returned := s.returned ++ [(s.ring.readPos, message)] } := by
    refine ⟨queue, hHolds.size_eq, hConsumed, ?_, ?_⟩
    · show s.published = s.returned ++ [(s.ring.readPos, message)] ++ placed _ queue
      rw [hHolds.places, placed, hNext, List.append_assoc]
      rfl
    · intro cell hCell
      rw [h.copying_eq] at hCell
      cases hCell
  refine ⟨.add, _, rfl, ⟨fun _ => ?_, ?_⟩, hInv, h.copying_eq⟩
  · refine ⟨hInv, rfl, rfl, ?_, rfl, List.prefix_append _ _⟩
    rw [hConsumed.used_eq, hHolds.repr.used_eq, encode_cons, List.length_append]
    omega
  · intro cell byte hEq
    cases hEq

/-- `rbuffer_read` -/
theorem rbufferRead_triple (hSize : r.Sized) (bufSize : Option Nat) :
    Triple (readerRely r.size) (readerGuar r.size) (Idle r.size) (rbufferRead r.size bufSize)
      fun _ => Idle r.size := by
  apply Triple.bind (rbufferPeek_triple hSize bufSize)
  intro result
  cases result with
  | none => exact Triple.ret stable_idle fun s h => h
  | some bytes =>
      apply Triple.fix
      intro readPos
      apply Triple.bind addReadPos_triple
      intro _
      exact Triple.ret stable_idle fun s h => h

end

/-! ## Runs of both threads -/

/-- Both threads, the rest of their calls, and what these give back. -/
abbrev State := Threads Shared Nat Access Int (Option (List UInt8))

/-- A turn of the thread that repeats `rbuffer_write` or of the one that repeats `rbuffer_read`,
with the arguments of its next call. -/
def rbufferTurn (size : Nat) :
    Step State (Turn Nat (Option (List UInt8)) (Option Nat)) (Option Access) :=
  threadsStep (rbufferWrite size) (rbufferRead size)

/-- Both threads before their first calls. -/
def start (r : RbufferT) : State where
  memory := { ring := r, published := [], returned := [], copying := [] }
  first := .ret 0
  second := .ret none

/-- No byte is stored in an unread message or where the reading thread is copying from, and the
messages are read with their bytes at the places at which they were published. -/
def RaceFree (s : State) (_ : Turn Nat (Option (List UInt8)) (Option Nat))
    (access : Option Access) (s' : State) : Prop :=
  (∀ cell byte, access = some (.store cell byte) →
    ¬ s.memory.Unread cell ∧ cell ∉ s.memory.copying) ∧
  s'.memory.returned <+: s'.memory.published

/-- In every interleaving of a thread that repeats `rbuffer_write` and one that repeats
`rbuffer_read`, on a ring that is empty at first, all steps are defined and none is a race. -/
theorem rbuffer_race_free {r : RbufferT} (hSize : r.Sized) (hRead : r.readPos < 2 ^ 32)
    (hWrite : r.writePos = r.readPos)
    (turns : List (Turn Nat (Option (List UInt8)) (Option Nat))) :
    Along (rbufferTurn r.size) (Does (rbufferTurn r.size) RaceFree) (start r) turns := by
  have hInv : Inv r.size (start r).memory :=
    ⟨[], rfl, Repr.empty hSize hRead hWrite, rfl, fun hCell => by cases hCell⟩
  have hAlong := threads_along (rbufferWrite_triple hSize) (rbufferRead_triple hSize) stable_inv
    stable_idle (fun hGuar => hGuar.1) (fun hGuar => hGuar.1)
    (fun hGuar hInv => (hGuar.1 hInv).inv) (fun hGuar hInv => (hGuar.1 hInv).inv)
    hInv ⟨hInv, rfl⟩ hInv 0 none turns
  apply hAlong.imp
  intro s turn ⟨access, s', hStep, hBefore, ⟨queue, hAfter⟩, hShows⟩
  refine ⟨access, s', hStep, ?_, ⟨_, hAfter.places.symm⟩⟩
  rintro cell byte rfl
  cases turn with
  | first buf i => exact hShows.2 rfl hBefore
  | second bufSize i => exact absurd rfl hShows.2

/-- A message whose length crosses the end of the memory is written byte by byte while the reading
thread looks for it, and then read. -/
theorem rbuffer_race_free_wrapping :
    Along (rbufferTurn wrappingRing.size) (Does (rbufferTurn wrappingRing.size) RaceFree)
      (start wrappingRing)
      ((List.range 24).flatMap fun i =>
        [.first (some [1, 2, 3]) (5 * i), .second (some 4) (3 * i), .second (some 4) i]) :=
  rbuffer_race_free ⟨3, by decide, by decide, rfl⟩ (by decide) rfl _

end Gbase.Base.RbufferThreads
