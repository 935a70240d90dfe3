import Gbase.Base.Buffer
import Gbase.Lib.Lockstep

/-!
# Buffers that hold the same (`base/buffer.c`)

Two buffers with the same positions and the same bytes between them, whatever the rest of their
memory holds.  No call tells them apart.

Buffers are compacted by copying, so after some calls the bytes in front of `read_pos` and behind
`write_pos` depend on everything that was ever written.  Comparing two connections needs a relation
that leaves these bytes open; equality of buffers would be too much.

## Main results

* `bufferWrite_alike`, `bufferReadNocopy_alike`: the calls keep two such buffers alike.
-/

namespace Gbase.Base.Buffer

open Gbase.Lib.Lockstep
open Gbase.Lib.Ring

/-- The buffers agree, their memories from the first byte on up to the given one. -/
structure AlikeTo (n : Nat) (a b : BufferT) : Prop where
  size : a.bufferSize = b.bufferSize
  read : a.readPos = b.readPos
  write : a.writePos = b.writePos
  drift : a.driftThreshold = b.driftThreshold
  bytes : ∀ i, a.readPos ≤ i → i < n → a.buffer i = b.buffer i

/-- The buffers agree in all that can be read. -/
def Alike (a b : BufferT) : Prop := AlikeTo a.writePos a b

section

variable {a b : BufferT} {n start count : Nat} {bytes : List UInt8}

theorem AlikeTo.writeLen (h : AlikeTo n a b) : bufferWriteLen a = bufferWriteLen b := by
  rw [bufferWriteLen, bufferWriteLen, h.size, h.write]

theorem AlikeTo.readLen (h : AlikeTo n a b) : bufferReadLen a = bufferReadLen b := by
  rw [bufferReadLen, bufferReadLen, h.read, h.write]

/-- Bytes that both buffers hold. -/
theorem AlikeTo.load (h : AlikeTo n a b) (hStart : a.readPos ≤ start) (hEnd : start + count ≤ n) :
    a.load start count = b.load start count := by
  have hSlice : slice a.buffer start count = slice b.buffer start count := by
    rw [slice_eq_iff]
    intro i hi
    exact h.bytes (start + i) (by omega) (by omega)
  rw [BufferT.load, BufferT.load, h.size, hSlice]

private theorem length_load {cb : BufferT} (h : cb.load start count = some bytes) :
    bytes.length = count := by
  rw [BufferT.load] at h
  split at h
  · cases h
    exact length_slice start
  · cases h

/-- The bytes that wait are the same. -/
theorem Alike.content (h : Alike a b) : a.content = b.content := by
  rw [BufferT.content, BufferT.content, ← h.readLen, ← h.read, slice_eq_iff]
  intro i hi
  apply h.bytes (a.readPos + i) (by omega)
  rw [bufferReadLen] at hi
  split at hi <;> omega

/-- What waits is loaded. -/
theorem Alike.loadAll (h : Alike a b) :
    a.load a.readPos (bufferReadLen a) = b.load b.readPos (bufferReadLen b) := by
  have hContent := h.content
  rw [BufferT.content, BufferT.content] at hContent
  rw [BufferT.load, BufferT.load, hContent, h.size, h.read, h.readLen]

theorem AlikeTo.store (h : AlikeTo n a b) (hStart : start ≤ max n a.readPos) :
    Option.Rel (AlikeTo (max n (start + bytes.length))) (a.store start bytes)
      (b.store start bytes) := by
  have hSize := h.size
  rw [BufferT.store, BufferT.store]
  by_cases hFits : start + bytes.length ≤ a.bufferSize
  · rw [if_pos hFits, if_pos (by omega)]
    apply Option.Rel.some
    exact {
      size := h.size
      read := h.read
      write := h.write
      drift := h.drift
      bytes := by
        intro i hFirst hLast
        show splice a.buffer start bytes i = splice b.buffer start bytes i
        have hFrom : a.readPos ≤ i := hFirst
        by_cases hIn : start ≤ i ∧ i < start + bytes.length
        · obtain ⟨j, rfl⟩ := Nat.exists_eq_add_of_le hIn.1
          rw [splice_inside (by omega), splice_inside (by omega)]
        · rw [splice_outside (by omega), splice_outside (by omega)]
          exact h.bytes i hFrom (by omega) }
  · rw [if_neg hFits, if_neg (by omega)]
    exact .none

theorem AlikeTo.mono (h : AlikeTo n a b) {m : Nat} (hLess : m ≤ n) : AlikeTo m a b where
  size := h.size
  read := h.read
  write := h.write
  drift := h.drift
  bytes := fun i hFirst hLast => h.bytes i hFirst (Nat.lt_of_lt_of_le hLast hLess)

/-- The positions stay where they are until the bytes are counted. -/
theorem writePos_store {cb cb' : BufferT} (h : cb.store start bytes = some cb') :
    cb'.writePos = cb.writePos := by
  rw [BufferT.store] at h
  split at h
  · cases h
    rfl
  · cases h

/-- Bytes that are put behind the others, and counted or not. -/
theorem Alike.store (h : Alike a b) (hStart : start ≤ max a.writePos a.readPos) :
    Option.Rel (fun x y => x.writePos = a.writePos ∧
        AlikeTo (max a.writePos (start + bytes.length)) x y)
      (a.store start bytes) (b.store start bytes) := by
  have hStored := @AlikeTo.store a b a.writePos start bytes h hStart
  have hKept := @writePos_store start bytes a
  generalize a.store start bytes = x at hStored hKept
  generalize b.store start bytes = y at hStored
  cases hStored with
  | none => exact .none
  | some hAlike => exact .some ⟨hKept rfl, hAlike⟩

/-- The bytes that lie behind the others are the same, too. -/
theorem AlikeTo.writeNocopy {len : Int} (h : AlikeTo n a b) (hLast : a.writePos + len.toNat ≤ n) :
    Option.Rel (Both Alike) (bufferWriteNocopy a len) (bufferWriteNocopy b len) := by
  have hSize := h.size
  have hWrite := h.write
  simp only [bufferWriteNocopy, ← h.writeLen]
  generalize hCount : (if bufferWriteLen a < len then bufferWriteLen a else len) = count
  have hLess : count ≤ len := by
    rw [← hCount]
    split <;> omega
  by_cases hNeg : count < 0
  · rw [if_pos hNeg, if_pos hNeg]
    refine .some ⟨rfl, h.size, h.read, h.write, h.drift, ?_⟩
    intro i hFirst hEnd
    have hThere : i < a.writePos := hEnd
    exact h.bytes i hFirst (by omega)
  · rw [if_neg hNeg, if_neg hNeg]
    by_cases hOver : a.bufferSize < a.writePos + count.toNat
    · rw [if_pos hOver, if_pos (by omega)]
      exact .none
    · rw [if_neg hOver, if_neg (by omega)]
      refine .some ⟨rfl, h.size, h.read, congrArg (· + count.toNat) h.write, h.drift, ?_⟩
      intro i hFirst hEnd
      have hThere : i < a.writePos + count.toNat := hEnd
      exact h.bytes i hFirst (by omega)

theorem bufferWrite_alike (h : Alike a b) (src : Option (List UInt8)) (len : Int) :
    Option.Rel (Both Alike) (bufferWrite a src len) (bufferWrite b src len) := by
  cases src with
  | none => exact .some ⟨rfl, h⟩
  | some src =>
    simp only [bufferWrite, ← h.writeLen, ← h.write]
    generalize (if 0 < len ∧ bufferWriteLen a < len then bufferWriteLen a else len) = count
    by_cases hNeg : count < 0
    · rw [if_pos hNeg, if_pos hNeg]
      exact .some ⟨rfl, h⟩
    by_cases hZero : 0 = count
    · rw [if_neg hNeg, if_neg hNeg, if_pos hZero, if_pos hZero]
      exact .some ⟨rfl, h⟩
    by_cases hShort : src.length < count.toNat
    · rw [if_neg hNeg, if_neg hNeg, if_neg hZero, if_neg hZero, if_pos hShort, if_pos hShort]
      exact .none
    · rw [if_neg hNeg, if_neg hNeg, if_neg hZero, if_neg hZero, if_neg hShort, if_neg hShort]
      apply rel_bind (h.store (Nat.le_max_left _ _))
      intro x y hStored
      obtain ⟨hKept, hAlike⟩ := hStored
      apply hAlike.writeNocopy
      rw [hKept, List.length_take]
      omega

theorem bufferReadNocopy_alike (h : Alike a b) (len : Int) :
    Option.Rel (Both Alike) (bufferReadNocopy a len) (bufferReadNocopy b len) := by
  have hSize := h.size
  simp only [bufferReadNocopy, ← h.readLen, ← h.read, ← h.write, ← h.drift]
  generalize (if len > bufferReadLen a then bufferReadLen a else len.toNat) = count
  by_cases hNeg : len < 0
  · rw [if_pos hNeg, if_pos hNeg]
    exact .some ⟨rfl, h⟩
  by_cases hOver : a.writePos < a.readPos + count
  · rw [if_neg hNeg, if_neg hNeg, if_pos hOver, if_pos hOver]
    exact .none
  by_cases hFar : a.readPos + count > a.driftThreshold
  · rw [if_neg hNeg, if_neg hNeg, if_neg hOver, if_neg hOver, if_pos hFar, if_pos hFar,
      h.load (Nat.le_add_right _ _) (by omega)]
    cases hLoad : b.load (a.readPos + count) (a.writePos - (a.readPos + count)) with
    | none => exact .none
    | some rest =>
      have hLength := length_load hLoad
      by_cases hLap : a.readPos + count < rest.length
      · simp only [Option.bind_eq_bind, Option.bind_some, if_pos hLap]
        exact .none
      · -- what is read from now on was moved
        simp only [Option.bind_eq_bind, Option.bind_some, if_neg hLap]
        rw [BufferT.store, BufferT.store]
        by_cases hFits : 0 + rest.length ≤ a.bufferSize
        · rw [if_pos hFits, if_pos (by omega)]
          refine .some ⟨rfl, h.size, rfl, rfl, h.drift, ?_⟩
          intro i _ hEnd
          have hIn : i < rest.length := by
            rw [hLength]
            exact hEnd
          show splice a.buffer 0 rest i = splice b.buffer 0 rest i
          rw [← Nat.zero_add i, splice_inside hIn, splice_inside hIn]
        · rw [if_neg hFits, if_neg (by omega)]
          exact .none
  · rw [if_neg hNeg, if_neg hNeg, if_neg hOver, if_neg hOver, if_neg hFar, if_neg hFar]
    refine .some ⟨rfl, h.size, rfl, rfl, rfl, ?_⟩
    intro i hFirst hEnd
    have hFrom : a.readPos + count ≤ i := hFirst
    exact h.bytes i (by omega) hEnd

end

end Gbase.Base.Buffer
