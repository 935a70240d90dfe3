import Gbase.Base.RbufferThreads

/-!
# The thread that writes to a ring buffer

What `rbuffer_write` does if another thread repeats `rbuffer_read` in between.  The room that is
found by `rbuffer_write_bytes` can only grow until `write_pos` is changed, and the bytes of the
message go to cells of this room.

The thread that writes owns `write_pos` and the cells of the room, and only looks at `read_pos`.
Everything it has computed from an old value of `read_pos` stays true with a newer one, because the
room grows; this is the stable part of each assertion below.

## Main results

* `Writing.store`: a byte of the message is stored outside the unread messages.
* `rbufferWrite_triple`: the whole call.
-/

namespace Gbase.Base.RbufferThreads

open Gbase.Core.OsDef
open Gbase.Lib.Bytes
open Gbase.Lib.Ring
open Gbase.Lib.RelyGuarantee
open Gbase.Base.Rbuffer

/-! ## The writing thread -/

/-- The bytes of a message with their cells, from a position on. -/
def plan (size writePos : Nat) (buf : List UInt8) : List (UInt8 × Nat) :=
  (frame buf).zip (ringCells size writePos (frame buf).length)

/-- There is room for a message at `write_pos`. -/
structure Room (size writePos : Nat) (buf : List UInt8) (s : Shared) : Prop where
  inv : Inv size s
  writePos : s.ring.writePos = writePos
  nonempty : buf ≠ []
  fits : buf.length + lenSize + s.ring.used ≤ s.ring.size

/-- All bytes of a message but some lie in their cells. -/
structure Writing (size writePos : Nat) (buf : List UInt8) (todo : List (UInt8 × Nat))
    (s : Shared) : Prop where
  room : Room size writePos buf s
  stored : ∀ {place}, place ∈ plan size writePos buf → place ∈ todo ∨
    s.ring.buffer place.2 = place.1

section

variable {size writePos : Nat} {s t : Shared} {queue : List (List UInt8)} {buf : List UInt8}
variable {todo rest : List (UInt8 × Nat)}

theorem stable_inv : Stable (writerRely size) (Inv size) :=
  fun hInv hMay => (hMay hInv).inv

theorem stable_room : Stable (writerRely size) (Room size writePos buf) := by
  intro s t h hMay
  have hMoves := hMay h.inv
  obtain ⟨queue, hHolds⟩ := h.inv
  obtain ⟨queue', hHolds'⟩ := hMoves.inv
  have hFits := h.fits
  have hUsed := hMoves.used
  have hSize := hHolds.size_eq
  have hSize' := hHolds'.size_eq
  exact ⟨hMoves.inv, hMoves.writePos.trans h.writePos, h.nonempty, by omega⟩

theorem stable_writing : Stable (writerRely size) (Writing size writePos buf todo) := by
  intro s t h hMay
  refine ⟨stable_room h.room hMay, ?_⟩
  intro place hPlace
  rw [(hMay h.room.inv).buffer]
  exact h.stored hPlace

/-- Bytes of the message that go to one cell are the same. -/
theorem plan_inj (hFits : (frame buf).length ≤ size) {place place' : UInt8 × Nat}
    (h : place ∈ plan size writePos buf) (h' : place' ∈ plan size writePos buf)
    (hCell : place.2 = place'.2) : place = place' := by
  apply List.inj_on_of_nodup_map (f := Prod.snd) _ h h' hCell
  rw [plan, List.map_snd_zip (by simp)]
  exact ringCells_nodup hFits

/-- The cells of the message lie outside those of the unread ones. -/
theorem Room.outside (h : Room size writePos buf s) (hHolds : Holds size s queue)
    {place : UInt8 × Nat} (hPlace : place ∈ plan size writePos buf) :
    place.2 < size ∧ place.2 ∉ ringCells size s.ring.readPos (encode queue).length := by
  have hMem : place.2 ∈ ringCells size writePos (frame buf).length :=
    (List.of_mem_zip hPlace).2
  have hUsed := hHolds.repr.used_eq
  have hFits := h.fits
  have hSizes := hHolds.sizes
  have hSize := hHolds.size_eq
  have hFrame : (frame buf).length = lenSize + buf.length := length_frame
  constructor
  · obtain ⟨i, -, hCell⟩ := mem_ringCells.mp hMem
    rw [hCell]
    exact Nat.mod_lt _ (by omega)
  · intro hUnread
    refine ringCells_disjoint (b := (frame buf).length) (by omega) hUnread ?_
    have hPlace : writePos % size = (s.ring.readPos + (encode queue).length) % size := by
      rw [← h.writePos, hHolds.repr.write, Nat.mod_mod_of_dvd _ (hSize ▸ hHolds.repr.sized.dvd)]
    rwa [← ringCells_congr hPlace]

/-- The memory after the store of a byte. -/
def Shared.stored (s : Shared) (place : UInt8 × Nat) : Shared :=
  { s with ring := { s.ring with buffer := Function.update s.ring.buffer place.2 place.1 } }

/-- A byte outside the unread messages does not change them. -/
theorem Holds.store (h : Holds size s queue) {place : UInt8 × Nat}
    (hOut : place.2 ∉ ringCells size s.ring.readPos (encode queue).length) :
    Holds size (s.stored place) queue where
  size_eq := h.size_eq
  repr := by
    apply h.repr.congr_buffer
    rw [← map_ringCells, ← map_ringCells, h.size_eq]
    apply List.map_congr_left
    intro cell hCell
    apply Function.update_of_ne
    rintro rfl
    exact hOut hCell
  places := h.places
  copying := h.copying

/-- One byte of the message is stored. -/
theorem Writing.store (h : Writing size writePos buf (todo ++ rest) s) {i : Nat}
    (hi : i < todo.length) (hPlan : todo[i] ∈ plan size writePos buf) :
    writerGuar size s (.store todo[i].2 todo[i].1) (s.stored todo[i]) ∧
      Writing size writePos buf (todo.eraseIdx i ++ rest) (s.stored todo[i]) := by
  obtain ⟨queue, hHolds⟩ := h.room.inv
  obtain ⟨-, hOut⟩ := h.room.outside hHolds hPlan
  have hInv : Inv size (s.stored todo[i]) := ⟨queue, hHolds.store hOut⟩
  refine ⟨⟨fun _ => ⟨hInv, rfl, List.prefix_rfl, rfl, rfl⟩, ?_⟩, ?_, ?_⟩
  · intro cell byte hEq _
    cases hEq
    exact ⟨fun hUnread => hOut (hHolds.unread hUnread),
        fun hCopying => hOut (hHolds.copying hCopying)⟩
  · exact ⟨hInv, h.room.writePos, h.room.nonempty, h.room.fits⟩
  · intro place hPlace
    have hSizes := hHolds.repr.used_eq
    have hFits := h.room.fits
    have hSize := hHolds.size_eq
    have hFrame : (frame buf).length ≤ size := by
      rw [length_frame]
      omega
    show _ ∨ Function.update s.ring.buffer todo[i].2 todo[i].1 place.2 = place.1
    by_cases hCell : place.2 = todo[i].2
    · right
      rw [plan_inj hFrame hPlace hPlan hCell, Function.update_self]
    · rw [Function.update_of_ne hCell]
      cases h.stored hPlace with
      | inr hThere => exact Or.inr hThere
      | inl hTodo =>
          left
          rw [List.mem_append] at hTodo ⊢
          refine hTodo.imp_left ?_
          intro hMem
          rw [List.mem_eraseIdx_iff_getElem]
          obtain ⟨j, hj, hEq⟩ := List.mem_iff_getElem.mp hMem
          refine ⟨j, hj, ?_, hEq⟩
          rintro rfl
          exact hCell (hEq ▸ rfl)

/-- The copies of a `memcpy` to the ring, in any order. -/
theorem storeBytes_triple {count : Nat} (hCount : todo.length = count)
    (hPlan : ∀ place, place ∈ todo → place ∈ plan size writePos buf) :
    Triple (writerRely size) (writerGuar size) (Writing size writePos buf (todo ++ rest))
      (storeBytes count todo) fun _ => Writing size writePos buf rest := by
  induction count generalizing todo with
  | zero =>
      have hNil : todo = [] := List.eq_nil_of_length_eq_zero hCount
      rw [hNil]
      exact Triple.ret stable_writing fun s h => h
  | succ count ih =>
      have hPick : ∀ i, i % todo.length < todo.length := fun i => Nat.mod_lt i (by omega)
      refine Triple.bind (?_ : Triple _ _ _ (storeByte todo) fun i s => i < todo.length ∧
        Writing size writePos buf (todo.eraseIdx i ++ rest) s) ?_
      · apply Triple.atom stable_writing
        · intro i s t ⟨hi, h⟩ hMay
          exact ⟨hi, stable_writing h hMay⟩
        · intro s i h
          have hLess := hPick i
          have hMem := hPlan _ (List.getElem_mem hLess)
          obtain ⟨queue, hHolds⟩ := h.room.inv
          have hCell : todo[i % todo.length].2 < s.ring.size := by
            rw [hHolds.size_eq]
            exact (h.room.outside hHolds hMem).1
          obtain ⟨hGuar, hWriting⟩ := h.store hLess hMem
          refine ⟨_, _, ?_, hGuar, hLess, hWriting⟩
          simp only [← List.getElem_eq_getD (h := hLess) (0, 0), if_pos hCell]
          rfl
      · intro i s ⟨hi, h⟩
        refine ih ?_ ?_ s h
        · rw [List.length_eraseIdx, if_pos hi]
          omega
        · intro place hMem
          exact hPlan place (List.mem_of_mem_eraseIdx hMem)

/-- A `memcpy` to the ring. -/
theorem memcpyTo_triple {start : Nat} {bytes : List UInt8}
    (hPlan : ∀ place, place ∈ bytes.zip (List.range' start bytes.length) →
      place ∈ plan size writePos buf) :
    Triple (writerRely size) (writerGuar size)
      (Writing size writePos buf (bytes.zip (List.range' start bytes.length) ++ rest))
      (memcpyTo start bytes) fun _ => Writing size writePos buf rest :=
  storeBytes_triple (by simp) hPlan

/-- A load changes nothing. -/
theorem loadWritePos_triple {P : Shared → Prop} (hStable : Stable (writerRely size) P)
    (hPos : ∀ s, P s → s.ring.writePos = writePos) :
    Triple (writerRely size) (writerGuar size) P loadWritePos
      fun pos s => pos = writePos ∧ P s := by
  apply Triple.atom hStable
  · intro pos s t ⟨hEq, h⟩ hMay
    exact ⟨hEq, hStable h hMay⟩
  · intro s i h
    refine ⟨.load, s, rfl, ⟨(readerRely size).refl s, ?_⟩, hPos s h, h⟩
    intro cell byte hEq
    cases hEq

end

section

variable {r : RbufferT} {s : Shared} {queue : List (List UInt8)} {writePos toTail n : Nat}
variable {buf bytes : List UInt8} {rest : List (UInt8 × Nat)}

/-- Bytes with their cells, from a position on. -/
def cellsOf (size pos : Nat) (bytes : List UInt8) : List (UInt8 × Nat) :=
  bytes.zip (ringCells size pos bytes.length)

/-- The length of a message lies before its bytes. -/
theorem plan_eq (size writePos : Nat) (buf : List UInt8) :
    plan size writePos buf = cellsOf size writePos (leBytes lenSize buf.length) ++
      cellsOf size (writePos + lenSize) buf := by
  rw [plan, frame, List.length_append, length_leBytes, ringCells_add, List.zip_append (by simp),
    cellsOf, cellsOf, length_leBytes]

/-- Up to two copies, before the end and behind it, store one stretch of a message. -/
theorem memcpyTo_across (pos : Nat) (hn : n ≤ bytes.length)
    (hFits : bytes.length ≤ r.size) (hTail : pos % r.size + n ≤ r.size)
    (hZero : n < bytes.length → (pos + n) % r.size = 0)
    (hPlan : ∀ place, place ∈ cellsOf r.size pos bytes → place ∈ plan r.size writePos buf) :
    Triple (writerRely r.size) (writerGuar r.size)
      (Writing r.size writePos buf (cellsOf r.size pos bytes ++ rest))
      (do
        memcpyTo (pos % r.size) (bytes.take n)
        if n < bytes.length then memcpyTo 0 (bytes.drop n) else return ())
      fun _ => Writing r.size writePos buf rest := by
  have hTake : (bytes.take n).length = n := List.length_take_of_le hn
  have hDrop : (bytes.drop n).length = bytes.length - n := List.length_drop
  have hSplit : cellsOf r.size pos bytes =
      (bytes.take n).zip (List.range' (pos % r.size) (bytes.take n).length) ++
        (bytes.drop n).zip (List.range' 0 (bytes.drop n).length) := by
    rw [← List.zip_append (by simp), List.take_append_drop, hTake, hDrop,
      ringCells_across hn hFits hTail hZero, cellsOf]
  rw [hSplit] at hPlan
  rw [hSplit, List.append_assoc]
  apply Triple.bind (memcpyTo_triple fun place h => hPlan place (List.mem_append_left _ h))
  intro _
  by_cases hCross : n < bytes.length
  · rw [if_pos hCross]
    exact memcpyTo_triple fun place h => hPlan place (List.mem_append_right _ h)
  · have hNone : bytes.drop n = [] := List.drop_eq_nil_of_le (by omega)
    rw [if_neg hCross, hNone]
    exact Triple.ret stable_writing fun s h => h

/-- The length of the message is stored. -/
theorem writeLen_triple (hSize : r.Sized) (hTail : toTail = r.size - writePos % r.size) :
    Triple (writerRely r.size) (writerGuar r.size)
      (Writing r.size writePos buf (plan r.size writePos buf))
      (writeLen r.size buf (if lenSize < toTail then lenSize else toTail))
      fun _ => Writing r.size writePos buf (cellsOf r.size (writePos + lenSize) buf) := by
  have hLe := hSize.le
  have hMod := Nat.mod_lt writePos (by omega : 0 < r.size)
  have hFour : lenSize = 4 := rfl
  have hLen : (leBytes lenSize buf.length).length = lenSize := length_leBytes _ _
  generalize hn : (if lenSize < toTail then lenSize else toTail) = n
  have hCases : (lenSize < toTail ∧ n = lenSize) ∨ (toTail ≤ lenSize ∧ n = toTail) := by
    split at hn <;> omega
  have hTake : (leBytes 8 buf.length).take n = (leBytes lenSize buf.length).take n := by
    rw [take_leBytes (by omega), take_leBytes (by omega)]
  have hDrop : ((leBytes 8 buf.length).drop n).take (lenSize - n) =
      (leBytes lenSize buf.length).drop n := by
    rw [← List.drop_take, take_leBytes (by decide)]
  have hAcross := @memcpyTo_across r writePos n buf (leBytes lenSize buf.length)
    (cellsOf r.size (writePos + lenSize) buf) writePos (by omega) (by omega) (by omega)
    (by
      intro hLess
      exact add_toTail hSize (by omega))
    (by
      intro place h
      rw [plan_eq]
      exact List.mem_append_left _ h)
  rw [hLen] at hAcross
  apply Triple.bind (loadWritePos_triple stable_writing fun s h => h.room.writePos)
  rintro pos s ⟨rfl, h⟩
  have hIndex : index r.size pos = pos % r.size := hSize.index pos
  rw [hIndex, hTake, hDrop]
  rw [plan_eq] at h
  exact hAcross s h

/-- The bytes of the message are stored. -/
theorem writeData_triple (hSize : r.Sized) (hTail : toTail = r.size - writePos % r.size)
    (hFits : buf.length + lenSize ≤ r.size) :
    Triple (writerRely r.size) (writerGuar r.size)
      (Writing r.size writePos buf (cellsOf r.size (writePos + lenSize) buf))
      (writeData r.size buf toTail (if lenSize < toTail then lenSize else toTail))
      fun _ => Writing r.size writePos buf [] := by
  have hLe := hSize.le
  have hMod := Nat.mod_lt writePos (by omega : 0 < r.size)
  have hAt := add_lenSize hSize writePos
  rw [← hTail] at hAt
  have hPlan : ∀ place, place ∈ cellsOf r.size (writePos + lenSize) buf →
      place ∈ plan r.size writePos buf := by
    intro place h
    rw [plan_eq]
    exact List.mem_append_right _ h
  by_cases hLong : toTail > lenSize
  · rw [if_neg (by omega)] at hAt
    rw [writeData, if_pos hLong]
    generalize hn : (if buf.length < toTail - lenSize then buf.length else toTail - lenSize) = n
    have hCases : (buf.length < toTail - lenSize ∧ n = buf.length) ∨
        (toTail - lenSize ≤ buf.length ∧ n = toTail - lenSize) := by
      split at hn <;> omega
    have hAcross := @memcpyTo_across r writePos n buf buf [] (writePos + lenSize) (by omega)
      (by omega) (by omega)
      (by
        intro hLess
        have hEnd : writePos + lenSize + n = writePos + toTail := by
          omega
        rw [hEnd]
        exact add_toTail hSize hTail)
      hPlan
    rw [List.append_nil] at hAcross
    apply Triple.bind (loadWritePos_triple stable_writing fun s h => h.room.writePos)
    rintro pos s ⟨rfl, h⟩
    have hIndex : index r.size (toUint32 ((pos : Int) + (lenSize : Int))) =
        (pos + lenSize) % r.size := by
      rw [← hSize.wrap]
      exact hSize.index _
    show Ok _ _ _ (memcpyTo (index r.size (toUint32 ((pos : Int) + (lenSize : Int)))) _ >>= _) s
    rw [hIndex]
    simp only [hn]
    exact hAcross s h
  · rw [if_pos (by omega)] at hAt
    have hCells : cellsOf r.size (writePos + lenSize) buf =
        buf.zip (List.range' (lenSize - toTail) buf.length) := by
      rw [cellsOf, ringCells_eq_range' (by omega), hAt]
    rw [hCells] at hPlan ⊢
    have hCopy := @memcpyTo_triple r.size writePos buf [] (lenSize - toTail) buf hPlan
    rw [List.append_nil] at hCopy
    rw [writeData, if_neg hLong, if_neg hLong]
    exact hCopy

/-- When all bytes lie in their cells the ring holds the message. -/
theorem Writing.holds (h : Writing r.size writePos buf [] s) (hHolds : Holds r.size s queue) :
    window s.ring.size s.ring.buffer s.ring.writePos (frame buf).length = frame buf := by
  rw [hHolds.size_eq, h.room.writePos, ← map_ringCells]
  apply List.ext_getElem (by simp)
  intro i hi hi'
  rw [List.length_map, length_ringCells] at hi
  have hPlace : ((frame buf)[i], (writePos + i) % r.size) ∈ plan r.size writePos buf := by
    rw [plan, List.mem_iff_getElem]
    refine ⟨i, by simpa using hi, ?_⟩
    rw [List.getElem_zip, getElem_ringCells]
  cases h.stored hPlace with
  | inl hTodo => cases hTodo
  | inr hThere => rwa [List.getElem_map, getElem_ringCells]

/-- The message is published. -/
theorem addWritePos_triple :
    Triple (writerRely r.size) (writerGuar r.size) (Writing r.size writePos buf [])
      (addWritePos buf (toUint32 (buf.length + lenSize))) fun _ => Inv r.size := by
  apply Triple.atom stable_writing (fun _ => stable_inv)
  intro s i h
  obtain ⟨queue, hHolds⟩ := h.room.inv
  have hFits := h.room.fits
  have hNext : toUint32 (s.ring.writePos + toUint32 (buf.length + lenSize)) =
      (s.ring.writePos + (frame buf).length) % 2 ^ 32 := by
    rw [length_frame]
    simp only [toUint32]
    omega
  have hPlace : s.ring.writePos = (s.ring.readPos + (encode queue).length) % 2 ^ 32 :=
    hHolds.repr.write
  have hInv : Inv r.size { s with
      ring := { s.ring with
        writePos := toUint32 (s.ring.writePos + toUint32 (buf.length + lenSize)) }
      published := s.published ++ [(s.ring.writePos, buf)] } := by
    refine ⟨queue ++ [buf], hHolds.size_eq, ?_, ?_, ?_⟩
    · rw [hNext]
      exact hHolds.repr.publish h.room.nonempty hFits (h.holds hHolds)
    · show s.published ++ [(s.ring.writePos, buf)] = s.returned ++ placed s.ring.readPos _
      rw [placed_append_one hHolds.repr.read, hHolds.places, hPlace, List.append_assoc]
    · intro cell hCell
      rw [encode_append_one, List.length_append, ringCells_add]
      exact List.mem_append_left _ (hHolds.copying hCell)
  refine ⟨.add, _, rfl, ⟨fun _ => ⟨hInv, rfl, List.prefix_append _ _, rfl, rfl⟩, ?_⟩, hInv⟩
  intro cell byte hEq
  cases hEq

/-- `rbuffer_write_bytes`: as the other thread can only make room, there is at least as much. -/
theorem rbufferWriteBytes_triple (hNe : buf ≠ []) :
    Triple (writerRely r.size) (writerGuar r.size)
      (fun s => Inv r.size s ∧ s.ring.writePos = writePos) (rbufferWriteBytes r.size)
      fun writeBytes s => Inv r.size s ∧
          (¬ writeBytes < buf.length → Room r.size writePos buf s) := by
  have hStable : Stable (writerRely r.size) fun s => Inv r.size s ∧ s.ring.writePos = writePos := by
    intro s t ⟨hInv, hPos⟩ hMay
    exact ⟨(hMay hInv).inv, (hMay hInv).writePos.trans hPos⟩
  have hStable' : ∀ writeBytes, Stable (writerRely r.size) fun s =>
      Inv r.size s ∧ (¬ writeBytes < buf.length → Room r.size writePos buf s) := by
    intro writeBytes s t ⟨hInv, hRoom⟩ hMay
    exact ⟨(hMay hInv).inv, fun hLess => stable_room (hRoom hLess) hMay⟩
  apply Triple.bind (loadWritePos_triple hStable fun s h => h.2)
  intro pos
  -- `read_pos` as it is now
  refine Triple.bind (?_ : Triple _ _ _ loadReadPos fun readPos s => Inv r.size s ∧
    (¬ (if toUint32 (pos - readPos) ≥ toUint32 (r.size - lenSize) then 0
      else toUint32 (r.size - lenSize - toUint32 (pos - readPos))) < buf.length →
        Room r.size writePos buf s)) ?_
  · apply Triple.atom
    · intro s t ⟨hEq, h⟩ hMay
      exact ⟨hEq, hStable h hMay⟩
    · intro readPos
      exact hStable' _
    · rintro s i ⟨rfl, hInv, hPos⟩
      refine ⟨.load, s, rfl, ⟨(readerRely r.size).refl s, ?_⟩, hInv, ?_⟩
      · intro cell byte hEq
        cases hEq
      · intro hLess
        obtain ⟨queue, hHolds⟩ := hInv
        have hWriteBytes := @rbufferWriteBytes_lt s.ring buf queue hHolds.repr hNe
        rw [Rbuffer.rbufferWriteBytes, RbufferT.used, hHolds.size_eq, hPos] at hWriteBytes
        rw [hWriteBytes] at hLess
        exact ⟨⟨queue, hHolds⟩, hPos, hNe, by
          rw [RbufferT.used, hHolds.size_eq, hPos]
          omega⟩
  · intro readPos
    exact Triple.ret (hStable' _) fun s h => h

/-- `rbuffer_write` -/
theorem rbufferWrite_triple (hSize : r.Sized) (buf : Option (List UInt8)) :
    Triple (writerRely r.size) (writerGuar r.size) (Inv r.size) (rbufferWrite r.size buf)
      fun _ => Inv r.size := by
  cases buf with
  | none => exact Triple.ret stable_inv fun s h => h
  | some buf =>
      by_cases hEmpty : 0 = buf.length
      · rw [rbufferWrite, if_pos hEmpty]
        exact Triple.ret stable_inv fun s h => h
      · have hNe : buf ≠ [] := fun hNil => hEmpty (by rw [hNil]; rfl)
        rw [rbufferWrite, if_neg hEmpty]
        intro s hInv
        generalize hPos : s.ring.writePos = writePos
        refine Triple.bind (rbufferWriteBytes_triple hNe) ?_ s ⟨hInv, hPos⟩
        intro writeBytes
        by_cases hLess : writeBytes < buf.length
        · simp only [if_pos hLess]
          have hFull : Triple (writerRely r.size) (writerGuar r.size) (Inv r.size)
              (pure (-1) : Code Int) fun _ => Inv r.size := Triple.ret stable_inv fun s h => h
          exact hFull.weaken (fun s h => h.1) fun _ s h => h
        · simp only [if_neg hLess]
          have hRoom : Triple (writerRely r.size) (writerGuar r.size) (Room r.size writePos buf)
              (do
                let writePos ← loadWritePos
                let writeToTail := toUint32 (r.size - index r.size writePos)
                let minLenSize := if lenSize < writeToTail then lenSize else writeToTail
                writeLen r.size buf minLenSize
                writeData r.size buf writeToTail minLenSize
                addWritePos buf (toUint32 (buf.length + lenSize))
                return (0 : Int)) fun _ => Inv r.size := by
            apply Triple.bind (loadWritePos_triple stable_room fun s h => h.writePos)
            rintro pos s ⟨rfl, h⟩
            have hTail : toUint32 ((r.size : Int) - (index r.size pos : Int)) =
                r.size - pos % r.size := by
              rw [← hSize.toTail]
              exact congrArg (fun n : Nat => toUint32 ((r.size : Int) - n)) (hSize.index pos)
            obtain ⟨queue, hHolds⟩ := h.inv
            have hFits : buf.length + lenSize ≤ r.size := by
              have hFits := h.fits
              have hEq := hHolds.size_eq
              omega
            have hStart : Writing r.size pos buf (plan r.size pos buf) s := ⟨h, Or.inl⟩
            refine Triple.bind (writeLen_triple hSize hTail) ?_ s hStart
            intro _
            apply Triple.bind (writeData_triple hSize hTail hFits)
            intro _
            apply Triple.bind addWritePos_triple
            intro _
            exact Triple.ret stable_inv fun s h => h
          exact hRoom.weaken (fun s h => h.2 hLess) fun _ s h => h

end

end Gbase.Base.RbufferThreads
