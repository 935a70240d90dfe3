import Gbase.Logic.BusCalls

/-!
# The messages in the pipes of a bus (`logic/bus.c`)

A pipe is known by the addresses at its ends.  What the calls that send and receive do is said of
the messages in the pipes: those that are there before, less what a look at the pipes throws away,
and what is added or taken.

## Main results

* `busSend_spec`: `bus_send` adds what it accepts to the pipe between two addresses, and may empty
  others.
* `busRecv_spec`, `busRecvAll_spec`: the oldest message of one pipe is taken, or nothing happens.
-/

namespace Gbase.Logic.Bus

open Gbase.Base.Idtable
open Gbase.Base.Rbuffer
open Gbase.Core.OsDef
open Gbase.Lib.Run

/-- The index of the pipe from one address to another. -/
def BusHead.index (head : BusHead) (source dest : Int) : Option Nat :=
  (List.range head.pcount).find? fun i =>
    (head.pipes i).fromAddr == source && (head.pipes i).toAddr == dest

/-- What the pipe from one address to another holds. -/
def BusHead.between (head : BusHead) (queues : Nat → List (List UInt8)) (source dest : Int) :
    List (List UInt8) :=
  match head.index source dest with
  | none => []
  | some i => queues i

/-- The messages in the segment with a key. -/
def Shm.messages (shm : Shm) (key : Int) : List (List UInt8) :=
  match shm.segments key with
  | none => []
  | some segment => segment.ring.unread

/-- The messages that are in the pipe from one address to another. -/
def Shm.unread (shm : Shm) (source dest : Int) : List (List UInt8) :=
  match shm.head with
  | none => []
  | some head => head.between (fun i => shm.messages (head.pipes i).key) source dest

section

variable {shm shm' : Shm} {head head' : BusHead} {queues queues' : Nat → List (List UInt8)}
variable {addr dest source : Int} {known i : Nat} {bt bt' : BusT}

/-! ## Pipes by their ends -/

theorem HeadRepr.index_eq (h : HeadRepr shm head queues) :
    head.index source dest = some i ↔
      i < head.pcount ∧ (head.pipes i).fromAddr = source ∧ (head.pipes i).toAddr = dest := by
  constructor
  · intro hIndex
    have hMem := List.mem_of_find?_eq_some hIndex
    have hEnds := List.find?_some hIndex
    rw [List.mem_range] at hMem
    simpa [hMem] using hEnds
  · rintro ⟨hi, hFrom, hTo⟩
    cases hIndex : head.index source dest with
    | none =>
        have hNot := List.find?_eq_none.mp hIndex i (List.mem_range.mpr hi)
        simp [hFrom, hTo] at hNot
    | some j =>
        have hMem := List.mem_of_find?_eq_some hIndex
        have hEnds := List.find?_some hIndex
        rw [List.mem_range] at hMem
        rw [Bool.and_eq_true, beq_iff_eq, beq_iff_eq] at hEnds
        rw [h.pairs hMem hi (hEnds.1.trans hFrom.symm) (hEnds.2.trans hTo.symm)]

theorem HeadRepr.index_none (h : HeadRepr shm head queues)
    (hNone : ∀ i, i < head.pcount → (head.pipes i).fromAddr = source →
      (head.pipes i).toAddr ≠ dest) : head.index source dest = none := by
  cases hIndex : head.index source dest with
  | none => rfl
  | some i =>
      obtain ⟨hi, hFrom, hTo⟩ := h.index_eq.mp hIndex
      exact absurd hTo (hNone i hi hFrom)

/-- Heads with the same pipes find the same. -/
theorem HeadRepr.index_congr (h : HeadRepr shm head queues) (h' : HeadRepr shm' head' queues')
    (hGrows : Grows head head') (hCount : head'.pcount = head.pcount) (source dest : Int) :
    head'.index source dest = head.index source dest := by
  apply Option.ext
  intro i
  rw [h.index_eq, h'.index_eq, hCount]
  constructor
  · rintro ⟨hi, hEnds⟩
    rw [hGrows.pipes hi] at hEnds
    exact ⟨hi, hEnds⟩
  · rintro ⟨hi, hEnds⟩
    rw [← hGrows.pipes hi] at hEnds
    exact ⟨hi, hEnds⟩

/-- The rings hold the queues. -/
theorem HeadRepr.messages (h : HeadRepr shm head queues) (hi : i < head.pcount) :
    shm.messages (head.pipes i).key = queues i := by
  obtain ⟨segment, hSegment, -, hRing⟩ := h.ring hi
  rw [Shm.messages, hSegment]
  exact hRing.unread

theorem HeadRepr.unread (h : HeadRepr shm head queues) (source dest : Int) :
    shm.unread source dest = head.between queues source dest := by
  rw [Shm.unread, h.head_eq]
  show head.between _ source dest = head.between queues source dest
  rw [BusHead.between, BusHead.between]
  cases hIndex : head.index source dest with
  | none => rfl
  | some i =>
      obtain ⟨hi, -⟩ := h.index_eq.mp hIndex
      exact h.messages hi

/-- The messages in one pipe change. -/
theorem HeadRepr.between_update (h : HeadRepr shm head queues) (hi : i < head.pcount)
    (queue : List (List UInt8)) (source dest : Int) :
    head.between (Function.update queues i queue) source dest =
      if source = (head.pipes i).fromAddr ∧ dest = (head.pipes i).toAddr then queue
      else head.between queues source dest := by
  split
  · next hEnds =>
      have hIndex := h.index_eq.mpr ⟨hi, hEnds.1.symm, hEnds.2.symm⟩
      simp only [BusHead.between, hIndex, Function.update_self]
  · next hEnds =>
      rw [BusHead.between, BusHead.between]
      cases hIndex : head.index source dest with
      | none => rfl
      | some j =>
          obtain ⟨-, hFrom, hTo⟩ := h.index_eq.mp hIndex
          have hNe : j ≠ i := by
            rintro rfl
            exact hEnds ⟨hFrom.symm, hTo.symm⟩
          exact Function.update_of_ne hNe queue queues

theorem HeadRepr.between_self (h : HeadRepr shm head queues) (hi : i < head.pcount) :
    head.between queues (head.pipes i).fromAddr (head.pipes i).toAddr = queues i := by
  rw [BusHead.between, h.index_eq.mpr ⟨hi, rfl, rfl⟩]

/-- One more pipe. -/
theorem HeadRepr.between_addPipe (h : HeadRepr shm head queues)
    (h' : HeadRepr shm' (head.addPipe addr dest) queues') (before : Nat → List (List UInt8))
    (queue : List (List UInt8)) (a b : Int) :
    (head.addPipe addr dest).between (Function.update before head.pcount queue) a b =
      if a = addr ∧ b = dest then queue else head.between before a b := by
  have hGrows := grows_addPipe head addr dest
  have hLast := addPipe_last head addr dest
  split
  · next hEnds =>
      have hIndex : (head.addPipe addr dest).index a b = some head.pcount := by
        rw [h'.index_eq, hLast]
        exact ⟨Nat.lt_succ_self _, hEnds.1.symm, hEnds.2.symm⟩
      simp only [BusHead.between, hIndex, Function.update_self]
  · next hEnds =>
      cases hIndex : head.index a b with
      | none =>
          have hNone : (head.addPipe addr dest).index a b = none := by
            apply h'.index_none
            intro i hi hFrom hTo
            have hSplit : i < head.pcount ∨ i = head.pcount := Nat.lt_succ_iff_lt_or_eq.mp hi
            cases hSplit with
            | inl hOld =>
                rw [hGrows.pipes hOld] at hFrom hTo
                have hSome := h.index_eq.mpr ⟨hOld, hFrom, hTo⟩
                rw [hIndex] at hSome
                cases hSome
            | inr hEq =>
                rw [hEq, hLast] at hFrom hTo
                exact hEnds ⟨hFrom.symm, hTo.symm⟩
          simp only [BusHead.between, hIndex, hNone]
      | some i =>
          obtain ⟨hi, hFrom, hTo⟩ := h.index_eq.mp hIndex
          have hSome : (head.addPipe addr dest).index a b = some i := by
            rw [h'.index_eq, hGrows.pipes hi]
            exact ⟨Nat.lt_succ_of_lt hi, hFrom, hTo⟩
          simp only [BusHead.between, hIndex, hSome, Function.update_of_ne (Nat.ne_of_lt hi)]

/-! ## What a look at the pipes throws away -/

/-- A pipe keeps its messages or loses them all. -/
theorem between_after (head : BusHead) (addr : Int) (known : Nat)
    (queues : Nat → List (List UInt8)) (a b : Int) :
    head.between (queuesAfter head addr known queues) a b = head.between queues a b ∨
      head.between (queuesAfter head addr known queues) a b = [] := by
  rw [BusHead.between, BusHead.between]
  cases head.index a b with
  | none => exact Or.inl rfl
  | some i =>
      simp only [queuesAfter]
      split
      · exact Or.inr rfl
      · exact Or.inl rfl

/-- Nothing is thrown away if and only if the pipes that were not known are empty. -/
theorem HeadRepr.between_after_iff (h : HeadRepr shm head queues) :
    (∀ a b, head.between (queuesAfter head addr known queues) a b = head.between queues a b) ↔
      ∀ i, known ≤ i → i < head.pcount → Own head addr i → queues i = [] := by
  constructor
  · intro hSame i hKnown hi hOwn
    have hHere := hSame (head.pipes i).fromAddr (head.pipes i).toAddr
    rw [BusHead.between, BusHead.between, h.index_eq.mpr ⟨hi, rfl, rfl⟩] at hHere
    simp only [queuesAfter] at hHere
    rw [if_pos ⟨hKnown, hOwn⟩] at hHere
    exact hHere.symm
  · intro hEmpty a b
    rw [BusHead.between, BusHead.between]
    cases hIndex : head.index a b with
    | none => rfl
    | some i =>
        obtain ⟨hi, -⟩ := h.index_eq.mp hIndex
        simp only [queuesAfter]
        split
        · next hOwn => exact (hEmpty i hOwn.1 hi hOwn.2).symm
        · rfl

/-! ## Sending -/

/-- A write to a pipe. -/
theorem busPipeWrite_spec (h : HeadRepr shm head queues) (hi : i < head.pcount)
    (buf : Option (List UInt8)) :
    ∃ code shm', busPipeWrite ⟨i, (head.pipes i).key⟩ shm buf = some (code, shm') ∧
      HeadRepr shm' head (Function.update queues i (queues i ++ accepted code buf)) ∧
      (buf = none → code ≠ 0) ∧ (buf = some [] → code = 0) := by
  obtain ⟨segment, hSegment, -, hRing⟩ := h.ring hi
  obtain ⟨code, r, hWrite, hRepr, hCode⟩ := rbufferWrite_accepts hRing buf
  refine ⟨code, shm.set (head.pipes i).key { segment with ring := r }, ?_, h.set hi hSegment hRepr,
    hCode⟩
  simp only [busPipeWrite, hSegment, hWrite, Option.bind_eq_bind, Option.bind_some]
  rfl

/-- Whether `bus_send` comes to a pipe. -/
def Reaches (shm : Shm) (head : BusHead) (bt : BusT) (dest : Int) : Prop :=
  idtableGet bt.opipes dest ≠ some none ∨ Registers shm head bt.self dest

/-- The messages in the pipes when `bus_send` writes. -/
def queuesSent (head : BusHead) (bt : BusT) (known : Nat) (queues : Nat → List (List UInt8))
    (dest : Int) : Nat → List (List UInt8) :=
  if idtableGet bt.opipes dest = some none then queuesAfter head bt.self known queues else queues

/-- What `bus_send` returns for what a write returned. -/
theorem sendCode_iff (code : Int) :
    (if code = 0 then busOk else busErrSendFail) = busOk ↔ code = 0 := by
  split
  · next hZero => simp [hZero]
  · next hZero => simp [hZero, busErrSendFail, busOk]

private theorem accepted_sendCode (code : Int) (buf : Option (List UInt8)) :
    accepted (if code = 0 then busOk else busErrSendFail) buf = accepted code buf := by
  by_cases hZero : code = 0
  · rw [if_pos hZero, hZero]
    rfl
  · rw [if_neg hZero, accepted, accepted, if_neg hZero]
    rfl

/-- `bus_send` -/
theorem busSend_spec (hHead : HeadRepr shm head queues) (h : TermRepr head addr known bt)
    (buf : Option (List UInt8)) (dest : Int) :
    ∃ code bt' shm' head' queues' known',
      busSend bt shm buf dest = some (code, bt', shm') ∧ HeadRepr shm' head' queues' ∧
      TermRepr head' addr known' bt' ∧ Grows head head' ∧
      (∀ i, head.pcount ≤ i → i < head'.pcount → (head'.pipes i).fromAddr = addr) ∧
      (∀ a b, head'.between queues' a b =
        head.between (queuesSent head bt known queues dest) a b ++
          if a = addr ∧ b = dest then accepted code buf else []) ∧
      (buf = none → code ≠ busOk) ∧ (code = busOk → Reaches shm head bt dest) ∧
      (buf = some [] → Reaches shm head bt dest → code = busOk) := by
  have hSelf := h.self
  cases h.opipes.cases dest with
  | inl hFound =>
      obtain ⟨i, hi, hFrom, hTo, hGet⟩ := hFound
      have hLess := lt_of_lt_of_le hi h.known_le
      obtain ⟨code, shm', hWrite, hHead', hNull, hNil⟩ := busPipeWrite_spec hHead hLess buf
      have hSame : queuesSent head bt known queues dest = queues := by
        rw [queuesSent, hGet, if_neg (by simp)]
      refine ⟨if code = 0 then busOk else busErrSendFail, bt, shm', head, _, known, ?_, hHead', h,
          Grows.refl head, ?_, ?_, ?_, ?_, ?_⟩
      · simp only [busSend, hGet, hWrite, Option.bind_eq_bind, Option.bind_some]
        rfl
      · intro j hLow hHigh
        exact absurd hHigh (Nat.not_lt_of_le hLow)
      · intro a b
        rw [hHead.between_update hLess, hSame, hFrom, hTo, accepted_sendCode]
        split
        · next hEnds =>
            rw [hEnds.1, hEnds.2, ← hFrom, ← hTo, hHead.between_self hLess]
        · rw [List.append_nil]
      · intro hNone
        rw [ne_eq, sendCode_iff]
        exact hNull hNone
      · intro _
        left
        rw [hGet]
        simp
      · intro hEmpty _
        exact (sendCode_iff code).mpr (hNil hEmpty)
  | inr hFree =>
      obtain ⟨hNone, hGet⟩ := hFree
      have hNew : ∀ i, i < head.pcount → (head.pipes i).fromAddr = addr →
          (head.pipes i).toAddr ≠ dest :=
        fun i hi hFrom => hNone i (h.own hi hFrom) hFrom
      have hLook : queuesSent head bt known queues dest = queuesAfter head addr known queues := by
        rw [queuesSent, if_pos hGet, hSelf]
      have hReach : Reaches shm head bt dest ↔ Registers shm head addr dest := by
        rw [Reaches, hGet, hSelf]
        simp
      cases busRegisterPipe_spec hHead h hNew with
      | inl hFail =>
          obtain ⟨hNot, bt', head', shm', hRegister, hHead', hTerm', hGrows, hCount⟩ := hFail
          refine ⟨busErrPipeFail, bt', shm', head', _, _, ?_, hHead', hTerm', hGrows, ?_, ?_, ?_,
            ?_, ?_⟩
          · simp only [busSend, hGet, hRegister, Option.bind_eq_bind, Option.bind_some]
            rfl
          · intro j hLow hHigh
            rw [hCount] at hHigh
            exact absurd hHigh (Nat.not_lt_of_le hLow)
          · intro a b
            have hNothing : accepted busErrPipeFail buf = [] := rfl
            rw [hNothing, ite_self, List.append_nil, hLook, BusHead.between, BusHead.between,
              hHead.index_congr hHead' hGrows hCount]
          · intro _
            decide
          · intro hOk
            cases hOk
          · intro _ hReaches
            exact absurd (hReach.mp hReaches) hNot
      | inr hDone =>
          obtain ⟨hRegisters, bt', shm₁, hRegister, hHead₁, hTerm'⟩ := hDone
          have hLess : head.pcount < (head.addPipe addr dest).pcount := Nat.lt_succ_self _
          have hLast := addPipe_last head addr dest
          obtain ⟨code, shm', hWrite, hHead', hNull, hNil⟩ := busPipeWrite_spec hHead₁ hLess buf
          rw [Function.update_self, List.nil_append, Function.update_idem] at hHead'
          rw [hLast] at hWrite
          refine ⟨if code = 0 then busOk else busErrSendFail, bt', shm', head.addPipe addr dest, _,
            _, ?_, hHead', hTerm', grows_addPipe head addr dest, ?_, ?_, ?_, ?_, ?_⟩
          · simp only [busSend, hGet, hRegister, Option.bind_eq_bind, Option.bind_some]
            show (busPipeWrite ⟨head.pcount, (head.nextPipe addr dest).key⟩ shm₁ buf).bind _ = _
            rw [hWrite]
            rfl
          · intro j hLow hHigh
            have hEq : j = head.pcount := Nat.le_antisymm (Nat.le_of_lt_succ hHigh) hLow
            rw [hEq, hLast]
            rfl
          · intro a b
            rw [hHead.between_addPipe hHead', hLook, accepted_sendCode]
            split
            · next hEnds =>
                have hIndex := hHead.index_none hNew
                rw [hEnds.1, hEnds.2, BusHead.between, hIndex]
                rfl
            · rw [List.append_nil]
          · intro hNone'
            rw [ne_eq, sendCode_iff]
            exact hNull hNone'
          · intro _
            exact hReach.mpr hRegisters
          · intro hEmpty _
            exact (sendCode_iff code).mpr (hNil hEmpty)

/-! ## Receiving -/

/-- A read from a pipe. -/
theorem busPipeRead_spec (h : HeadRepr shm head queues) (hi : i < head.pcount)
    (bufSize : Option Nat) :
    (oldest (queues i) bufSize = none ∧
      busPipeRead ⟨i, (head.pipes i).key⟩ shm bufSize = some (none, shm)) ∨
    ∃ message rest shm', queues i = message :: rest ∧
      oldest (queues i) bufSize = some message ∧
      busPipeRead ⟨i, (head.pipes i).key⟩ shm bufSize = some (some message, shm') ∧
      HeadRepr shm' head (Function.update queues i rest) := by
  obtain ⟨segment, hSegment, -, hRing⟩ := h.ring hi
  simp only [busPipeRead, hSegment, Option.bind_eq_bind, Option.bind_some]
  cases rbufferRead_spec hRing bufSize with
  | inl hNone =>
      left
      refine ⟨hNone.1, ?_⟩
      have hSame : shm.set (head.pipes i).key segment = shm := by
        rw [Shm.set, ← hSegment, Function.update_eq_self]
      rw [hNone.2, Option.bind_some]
      exact congrArg (fun shm => some (none, shm)) hSame
  | inr hSome =>
      right
      obtain ⟨message, rest, r, hQueue, hOldest, hRead, hRepr⟩ := hSome
      refine ⟨message, rest, _, hQueue, hOldest, ?_, h.set hi hSegment hRepr⟩
      rw [hRead]
      rfl

/-- `bus_recv` -/
theorem busRecv_spec (hHead : HeadRepr shm head queues) (h : TermRepr head addr known bt)
    (bufSize : Option Nat) (source : Int) :
    (idtableGet bt.ipipes source = some none ∧
      busRecv bt shm bufSize source = some (busErrPeerNotFound, none, shm)) ∨
    ∃ i, i < known ∧ (head.pipes i).fromAddr = source ∧ (head.pipes i).toAddr = addr ∧
      idtableGet bt.ipipes source = some (some ⟨i, (head.pipes i).key⟩) ∧
      (busRecv bt shm bufSize source = some (busOk, none, shm) ∨
        ∃ message rest shm', queues i = message :: rest ∧
          busRecv bt shm bufSize source = some (busErrEmpty, some message, shm') ∧
          HeadRepr shm' head (Function.update queues i rest)) := by
  cases h.ipipes.cases source with
  | inr hFree =>
      left
      refine ⟨hFree.2, ?_⟩
      simp only [busRecv, hFree.2, Option.bind_eq_bind, Option.bind_some]
      rfl
  | inl hFound =>
      right
      obtain ⟨i, hi, hTo, hFrom, hGet⟩ := hFound
      refine ⟨i, hi, hFrom, hTo, hGet, ?_⟩
      simp only [busRecv, hGet, Option.bind_eq_bind, Option.bind_some]
      cases busPipeRead_spec hHead (lt_of_lt_of_le hi h.known_le) bufSize with
      | inl hNone =>
          left
          rw [hNone.2]
          rfl
      | inr hSome =>
          right
          obtain ⟨message, rest, shm', hQueue, -, hRead, hHead'⟩ := hSome
          refine ⟨message, rest, shm', hQueue, ?_, hHead'⟩
          rw [hRead]
          rfl

/-- The nodes of the table are the pipes to the terminal. -/
theorem Table.node {mine other : HeadT → Int} {self : Int} {table : IdtableT PipeT}
    (h : Table head mine other self known table) {n : Nat} (hn : n < table.count)
    (hUsed : (table.table n).id ≠ invalidId) :
    ∃ i, i < known ∧ mine (head.pipes i) = self ∧ other (head.pipes i) = (table.table n).id ∧
      (table.table n).ptr = some ⟨i, (head.pipes i).key⟩ := by
  obtain ⟨entries, hInv, -, hEntries⟩ := h
  obtain ⟨bp, hPtr⟩ := Option.ne_none_iff_exists'.mp (hInv.ptr n hn hUsed)
  have hEntry : entries (table.table n).id = some bp :=
    (hInv.map_some hn (hInv.sign n hn hUsed) rfl).trans hPtr
  obtain ⟨hLess, hMine, hOther, hKey⟩ := hEntries.mp hEntry
  refine ⟨bp.head, hLess, hMine, hOther, ?_⟩
  rw [hPtr, ← hKey]

/-- The pipe at an index is in a node. -/
theorem Table.node_of {mine other : HeadT → Int} {self : Int} {table : IdtableT PipeT}
    (h : Table head mine other self known table) (hi : i < known)
    (hMine : mine (head.pipes i) = self) (hSign : 0 ≤ other (head.pipes i)) :
    ∃ n, n < table.count ∧ (table.table n).id ≠ invalidId ∧
      (table.table n).ptr = some ⟨i, (head.pipes i).key⟩ := by
  obtain ⟨entries, hInv, -, hEntries⟩ := h
  have hEntry := hEntries.mpr
    (⟨hi, hMine, rfl, rfl⟩ : (PipeT.mk i (head.pipes i).key).head < known ∧ _)
  obtain ⟨n, hn, hId, hPtr⟩ := (hInv.held _ hSign _).mp hEntry
  refine ⟨n, hn, ?_, hPtr⟩
  rw [hId]
  exact ne_invalid hSign

/-- `_bus_recv_loop` at a pipe, when nothing has been received. -/
theorem busRecvLoop_spec (h : HeadRepr shm head queues) (hi : i < head.pcount) (bufSize : Nat) :
    (oldest (queues i) (some bufSize) = none ∧
      busRecvLoop bufSize (some ⟨i, (head.pipes i).key⟩) (none, shm) = some (0, none, shm)) ∨
    ∃ message rest shm', queues i = message :: rest ∧
      oldest (queues i) (some bufSize) = some message ∧
      busRecvLoop bufSize (some ⟨i, (head.pipes i).key⟩) (none, shm) =
        some (1, some (message, (head.pipes i).fromAddr), shm') ∧
      HeadRepr shm' head (Function.update queues i rest) := by
  simp only [busRecvLoop, Option.bind_eq_bind]
  cases busPipeRead_spec h hi (some bufSize) with
  | inl hNone =>
      left
      refine ⟨hNone.1, ?_⟩
      rw [hNone.2]
      rfl
  | inr hSome =>
      right
      obtain ⟨message, rest, shm', hQueue, hOldest, hRead, hHead'⟩ := hSome
      refine ⟨message, rest, shm', hQueue, hOldest, ?_, hHead'⟩
      simp only [hRead, Option.bind_some, hHead'.head_eq]
      rfl

/-- `bus_recv_all` -/
theorem busRecvAll_spec (hHead : HeadRepr shm head queues) (h : TermRepr head addr known bt)
    (bufSize : Nat) {index : Int} (hLow : -2 ^ 31 ≤ index) (hHigh : index < 2 ^ 31) :
    (busRecvAll bt shm (some bufSize) index = some (busErrEmpty, none, shm) ∧
      ∀ i, i < known → (head.pipes i).toAddr = addr → oldest (queues i) (some bufSize) = none) ∨
    ∃ i message rest shm', i < known ∧ (head.pipes i).toAddr = addr ∧
      queues i = message :: rest ∧ oldest (queues i) (some bufSize) = some message ∧
      busRecvAll bt shm (some bufSize) index =
        some (busOk, some (message, (head.pipes i).fromAddr), shm') ∧
      HeadRepr shm' head (Function.update queues i rest) := by
  obtain ⟨-, -, hCount, -⟩ := h.ipipes
  have hLoop := @idtableLoop_spec _ bt.ipipes _ (busRecvLoop bufSize)
    ((none, shm) : Received × Shm) index hCount hLow hHigh (by
      intro n hn hUsed
      obtain ⟨i, hi, -, -, hPtr⟩ := h.ipipes.node hn hUsed
      rw [hPtr]
      cases busRecvLoop_spec hHead (lt_of_lt_of_le hi h.known_le) bufSize with
      | inl hNone => exact Or.inl hNone.2
      | inr hSome =>
          obtain ⟨message, rest, shm', -, -, hTurn, -⟩ := hSome
          exact Or.inr ⟨1, _, by decide, hTurn⟩)
  simp only [busRecvAll, Option.bind_eq_bind]
  cases hLoop with
  | inl hStop =>
      right
      obtain ⟨n, ret, t, hn, hUsed, hRet, hTurn, hAll⟩ := hStop
      obtain ⟨i, hi, hTo, -, hPtr⟩ := h.ipipes.node hn hUsed
      rw [hPtr] at hTurn
      cases busRecvLoop_spec hHead (lt_of_lt_of_le hi h.known_le) bufSize with
      | inl hNone =>
          rw [hNone.2] at hTurn
          cases hTurn
          exact absurd rfl hRet
      | inr hSome =>
          obtain ⟨message, rest, shm', hQueue, hOldest, hTurn', hHead'⟩ := hSome
          rw [hTurn'] at hTurn
          cases hTurn
          refine ⟨i, message, rest, shm', hi, hTo, hQueue, hOldest, ?_, hHead'⟩
          rw [hAll]
          rfl
  | inr hNone =>
      left
      obtain ⟨hTurns, hAll⟩ := hNone
      constructor
      · rw [hAll]
        rfl
      · intro i hi hTo
        have hLess := lt_of_lt_of_le hi h.known_le
        obtain ⟨n, hn, hUsed, hPtr⟩ := h.ipipes.node_of hi hTo (hHead.nonneg (hHead.fromAddr hLess))
        have hTurn := hTurns n hn hUsed
        rw [hPtr] at hTurn
        cases busRecvLoop_spec hHead hLess bufSize with
        | inl hNone => exact hNone.1
        | inr hSome =>
            obtain ⟨message, rest, shm', -, -, hTurn', -⟩ := hSome
            rw [hTurn'] at hTurn
            cases hTurn

end

end Gbase.Logic.Bus
