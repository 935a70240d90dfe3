import Gbase.Logic.BusRepr

/-!
# The calls of a terminal (`logic/bus.c`)

What each call does to the head, to the pipes and to the terminal that makes it.  A call that looks
at the pipes empties those that the terminal did not know; a call that fails to register a pipe has
looked at them too.

## Main results

* `busPoll_spec`, `busCreate_spec`, `busRegisterPipe_spec`: each call keeps what the head and the
  terminal are.
* `busRegisterPipe_none`: a pipe that is not registered leaves no trace in the table of pipes.
-/

namespace Gbase.Logic.Bus

open Gbase.Base.Idtable
open Gbase.Base.Rbuffer
open Gbase.Core.OsDef
open Gbase.Lib.Run

section

variable {shm shm' : Shm} {head head' : BusHead} {queues : Nat → List (List UInt8)}
variable {addr dest : Int} {known i : Nat} {bt bt' : BusT}

/-! ## Polling -/

theorem TermRepr.update_terminals (hHead : HeadRepr shm head queues)
    (h : TermRepr head addr known bt) :
    TermRepr head addr known (busUpdateTerminals head bt) :=
  { h with
    tver := hHead.tver
    tcount := le_rfl
    terms := fun hi => if_pos hi }

/-- `bus_poll` -/
theorem busPoll_spec (hHead : HeadRepr shm head queues) (h : TermRepr head addr known bt) :
    ∃ bt' shm', busPoll bt shm = some (bt', shm') ∧ TermRepr head addr head.pcount bt' ∧
      Attached head addr known shm shm' := by
  have hTerm : TermRepr head addr known
      (if head.tver ≠ bt.tver then busUpdateTerminals head bt else bt) := by
    split
    · exact h.update_terminals hHead
    · exact h
  simp only [busPoll, hHead.head_eq, Option.bind_eq_bind, Option.bind_some]
  generalize (if head.tver ≠ bt.tver then busUpdateTerminals head bt else bt) = bt₁ at hTerm ⊢
  by_cases hPver : head.pver ≠ bt₁.pver
  · have hSelf := hTerm.self
    have hOut := hTerm.opipes
    have hIn := hTerm.ipipes
    have hReg := hTerm.registered
    rw [← hSelf] at hOut hIn hReg
    obtain ⟨s, hLoop, hLooked⟩ := busUpdatePipes_spec hHead hReg hTerm.known_le hOut hIn
    obtain ⟨hTerm', hAttached⟩ := hLooked.term hHead hSelf hTerm.registered hTerm.tver
      hTerm.tcount hTerm.terms hTerm.known_le
    refine ⟨s.1, s.2, ?_, hTerm', hAttached⟩
    rw [if_pos hPver, hLoop]
  · -- the terminal knows all pipes
    have hKnown : known = head.pcount := by
      have hOld := hTerm.pver
      have hNew := hHead.pver
      omega
    subst hKnown
    refine ⟨bt₁, shm, ?_, hTerm, attached_refl head addr shm⟩
    rw [if_neg hPver]
    rfl

/-! ## Creating a terminal -/

/-- The first terminal makes the head. -/
theorem busCreate_first (hNone : shm.head = none) (hFree : shm.segments shm.headKey = none)
    (hAddr : 0 ≤ addr) :
    ∃ bt head, busCreate shm addr = some (some bt, { shm with head := some head }) ∧
      HeadRepr { shm with head := some head } head (fun _ => []) ∧ TermRepr head addr 0 bt := by
  obtain ⟨table, hCreate, hTable⟩ := table_create (busHeadInit shm.headKey addr zeroHead) addr
  have hHas : ¬ shm.has shm.headKey = true := by
    rw [Shm.has, hNone, hFree]
    simp
  have hFirst : ∀ {i}, i < (busHeadInit shm.headKey addr zeroHead).tcount → i = 0 := by
    intro i hi
    exact Nat.lt_one_iff.mp hi
  have hTerm : (busHeadInit shm.headKey addr zeroHead).terms 0 = addr := by
    simp [busHeadInit]
  refine ⟨{ busUpdateTerminals (busHeadInit shm.headKey addr zeroHead)
      ⟨addr, 0, 0, 0, fun _ => 0, table, table⟩ with pver := 1 },
    busHeadInit shm.headKey addr zeroHead, ?_, ?_, ?_⟩
  · simp only [busCreate, hCreate, Option.bind_eq_bind, Option.bind_some, busHeadCreate,
      if_neg hHas]
    rw [if_pos trivial]
    rfl
  · exact {
      head_eq := rfl
      headKey := hFree
      key := rfl
      size := rfl
      tver := rfl
      tcount := (by decide : 1 ≤ 64)
      terms := fun hi hj _ => (hFirst hi).trans (hFirst hj).symm
      sign := by
        intro i hi
        rw [hFirst hi, hTerm]
        exact hAddr
      pver := rfl
      pcount := Nat.zero_le _
      apart := fun hi => absurd hi (Nat.not_lt_zero _)
      fromAddr := fun hi => absurd hi (Nat.not_lt_zero _)
      toAddr := fun hi => absurd hi (Nat.not_lt_zero _)
      pairs := fun hi => absurd hi (Nat.not_lt_zero _)
      keys := fun hi => absurd hi (Nat.not_lt_zero _)
      pipeSize := fun hi => absurd hi (Nat.not_lt_zero _)
      ring := fun hi => absurd hi (Nat.not_lt_zero _) }
  · exact {
      self := rfl
      registered := ⟨0, Nat.one_pos, hTerm⟩
      tver := rfl
      tcount := le_rfl
      terms := fun hi => if_pos hi
      pver := rfl
      known_le := le_rfl
      own := fun hi => absurd hi (Nat.not_lt_zero _)
      opipes := hTable _ _
      ipipes := hTable _ _ }

/-- The head with one more terminal. -/
def BusHead.register (head : BusHead) (addr : Int) : BusHead :=
  { head with
    terms := Function.update head.terms head.tcount addr
    tcount := head.tcount + 1
    tver := toUint32 (head.tver + 1) }

private theorem grows_register (head : BusHead) (addr : Int) : Grows head (head.register addr) where
  tcount_le := Nat.le_succ _
  terms := fun hi => Function.update_of_ne (Nat.ne_of_lt hi) _ _
  pcount_le := le_rfl
  pipes := fun _ => rfl

private theorem registered_register (head : BusHead) (addr : Int) :
    Registered (head.register addr) addr := by
  refine ⟨head.tcount, Nat.lt_succ_self _, ?_⟩
  simp [BusHead.register]

/-- Another terminal is registered. -/
theorem HeadRepr.register (h : HeadRepr shm head queues) (hAddr : 0 ≤ addr)
    (hNew : ¬ Registered head addr) (hRoom : head.tcount < busMaxTerminalCount) :
    HeadRepr { shm with head := some (head.register addr) } (head.register addr) queues := by
  have hGrows := grows_register head addr
  have hLast : (head.register addr).terms head.tcount = addr := by
    simp [BusHead.register]
  have hCases : ∀ {i}, i < (head.register addr).tcount → i < head.tcount ∨ i = head.tcount := by
    intro i hi
    exact Nat.lt_succ_iff_lt_or_eq.mp hi
  -- the address is none of those before
  have hApart : ∀ {i}, i < head.tcount →
      (head.register addr).terms i ≠ (head.register addr).terms head.tcount := by
    intro i hi hEq
    rw [hGrows.terms hi, hLast] at hEq
    exact hNew ⟨i, hi, hEq⟩
  exact { h with
    head_eq := rfl
    tver := by
      have hTver := h.tver
      have hMax : busMaxTerminalCount = 64 := rfl
      show toUint32 ((head.tver : Int) + 1) = head.tcount + 1
      rw [toUint32]
      omega
    tcount := hRoom
    terms := by
      intro i j hi hj hEq
      cases hCases hi with
      | inl hOld =>
          cases hCases hj with
          | inl hOld' =>
              rw [hGrows.terms hOld, hGrows.terms hOld'] at hEq
              exact h.terms hOld hOld' hEq
          | inr hEnd =>
              rw [hEnd] at hEq
              exact absurd hEq (hApart hOld)
      | inr hEnd =>
          cases hCases hj with
          | inl hOld =>
              rw [hEnd] at hEq
              exact absurd hEq.symm (hApart hOld)
          | inr hEnd' => rw [hEnd, hEnd']
    sign := by
      intro i hi
      cases hCases hi with
      | inl hOld =>
          rw [hGrows.terms hOld]
          exact h.sign hOld
      | inr hEnd =>
          rw [hEnd, hLast]
          exact hAddr
    fromAddr := fun hi => hGrows.registered (h.fromAddr hi)
    toAddr := fun hi => hGrows.registered (h.toAddr hi) }

/-- `_bus_create_attach` -/
theorem busCreateAttach_spec (h : HeadRepr shm head queues) (hAddr : 0 ≤ addr) :
    (¬ Registered head addr ∧ busCreateAttach shm addr = some (-1, shm)) ∨
    ∃ head', busCreateAttach shm addr = some (0, { shm with head := some head' }) ∧
      HeadRepr { shm with head := some head' } head' queues ∧ Registered head' addr ∧
      Grows head head' ∧ head'.pcount = head.pcount := by
  have hValid : ¬ (head.key ≠ shm.headKey ∨ head.size ≠ busHeadSize) := by
    rw [h.key, h.size]
    simp
  simp only [busCreateAttach, h.head_eq, Option.bind_eq_bind, Option.bind_some, if_neg hValid]
  by_cases hReg : head.registered addr = true
  · have hSame : { shm with head := some head } = shm := by
      rw [← h.head_eq]
    refine Or.inr ⟨head, ?_, ?_, registered_iff.mp hReg, Grows.refl head, rfl⟩
    · rw [if_pos hReg, hSame]
      rfl
    · rw [hSame]
      exact h
  · rw [if_neg hReg]
    by_cases hFull : head.tcount ≥ busMaxTerminalCount
    · left
      refine ⟨fun hRegistered => hReg (registered_iff.mpr hRegistered), ?_⟩
      rw [if_pos hFull]
      rfl
    · right
      refine ⟨head.register addr, ?_, ?_, registered_register head addr, grows_register head addr,
        rfl⟩
      · rw [if_neg hFull]
        rfl
      · apply h.register hAddr _ (by omega)
        rwa [← registered_iff]

/-- Another terminal is created, or none if there are too many. -/
theorem busCreate_spec (h : HeadRepr shm head queues) (hAddr : 0 ≤ addr) :
    (¬ Registered head addr ∧ busCreate shm addr = some (none, shm)) ∨
    ∃ bt head' shm', busCreate shm addr = some (some bt, shm') ∧
      HeadRepr shm' head' (queuesAfter head' addr 0 queues) ∧
      TermRepr head' addr head'.pcount bt ∧ Grows head head' ∧ head'.pcount = head.pcount := by
  have hHas : shm.has shm.headKey = true := by
    rw [Shm.has, h.head_eq]
    simp
  have hStart : busHeadCreate shm addr = (-1, shm) := by
    rw [busHeadCreate, if_pos hHas]
  cases busCreateAttach_spec h hAddr with
  | inl hFull =>
      left
      obtain ⟨table, hCreate, -⟩ := table_create head addr
      refine ⟨hFull.1, ?_⟩
      simp only [busCreate, hCreate, hStart, hFull.2, Option.bind_eq_bind, Option.bind_some]
      rfl
  | inr hAttach =>
      right
      obtain ⟨head', hAttach, hHead, hReg, hGrows, hCount⟩ := hAttach
      obtain ⟨table, hCreate, hTable⟩ := table_create head' addr
      obtain ⟨s, hLoop, hLooked⟩ := @busUpdatePipes_spec _ _ _
        (busUpdateTerminals head' ⟨addr, 0, 0, 0, fun _ => 0, table, table⟩) 0 hHead hReg
        (Nat.zero_le _) (hTable _ _) (hTable _ _)
      obtain ⟨hTerm, hAttached⟩ := hLooked.term hHead rfl hReg hHead.tver le_rfl
        (fun hi => if_pos hi) (Nat.zero_le _)
      refine ⟨s.1, head', s.2, ?_, hHead.attached hAttached, hTerm, hGrows, hCount⟩
      simp only [busCreate, hCreate, hStart, hAttach, Option.bind_eq_bind, Option.bind_some]
      rw [if_pos trivial, hLoop]
      rfl

/-! ## Registering a pipe -/

/-- The key of the next pipe. -/
def BusHead.nextKey (head : BusHead) : Int := toInt (head.key + (head.ckey + 1).bmod (2 ^ 16))

/-- The next pipe of a terminal. -/
def BusHead.nextPipe (head : BusHead) (addr dest : Int) : HeadT :=
  { key := head.nextKey, size := busPipeDefaultSize, fromAddr := addr, toAddr := dest }

/-- The entry of a pipe is written. -/
def BusHead.propose (head : BusHead) (phead : HeadT) : BusHead :=
  { head with
    ckey := (head.ckey + 1).bmod (2 ^ 16)
    pipes := Function.update head.pipes head.pcount phead }

/-- The entry that is written counts. -/
def BusHead.extend (head : BusHead) : BusHead :=
  { head with
    pcount := head.pcount + 1
    pver := toUint32 (head.pver + 1) }

/-- A pipe from `addr` to `dest` can be registered. -/
def Registers (shm : Shm) (head : BusHead) (addr dest : Int) : Prop :=
  head.pcount < busMaxPipeCount ∧ head.registered dest = true ∧ dest ≠ addr ∧
    shm.has head.nextKey = false

instance : Decidable (Registers shm head addr dest) := by
  unfold Registers
  infer_instance

theorem grows_propose (head : BusHead) (phead : HeadT) : Grows head (head.propose phead) where
  tcount_le := le_rfl
  terms := fun _ => rfl
  pcount_le := le_rfl
  pipes := fun hi => Function.update_of_ne (Nat.ne_of_lt hi) _ _

private theorem grows_extend (head : BusHead) : Grows head head.extend where
  tcount_le := le_rfl
  terms := fun _ => rfl
  pcount_le := Nat.le_succ _
  pipes := fun _ => rfl

theorem Grows.trans {head'' : BusHead} (h : Grows head head') (h' : Grows head' head'') :
    Grows head head'' where
  tcount_le := h.tcount_le.trans h'.tcount_le
  terms := by
    intro i hi
    rw [h'.terms (lt_of_lt_of_le hi h.tcount_le), h.terms hi]
  pcount_le := h.pcount_le.trans h'.pcount_le
  pipes := by
    intro i hi
    rw [h'.pipes (lt_of_lt_of_le hi h.pcount_le), h.pipes hi]

/-- An entry that does not count is not seen. -/
theorem HeadRepr.propose (h : HeadRepr shm head queues) (phead : HeadT) :
    HeadRepr { shm with head := some (head.propose phead) } (head.propose phead) queues := by
  have hPipes : ∀ {i}, i < head.pcount → (head.propose phead).pipes i = head.pipes i :=
    fun hi => (grows_propose head phead).pipes hi
  exact { h with
    head_eq := rfl
    apart := by
      intro i hi
      rw [hPipes hi]
      exact h.apart hi
    fromAddr := by
      intro i hi
      rw [hPipes hi]
      exact h.fromAddr hi
    toAddr := by
      intro i hi
      rw [hPipes hi]
      exact h.toAddr hi
    pairs := by
      intro i j hi hj
      rw [hPipes hi, hPipes hj]
      exact h.pairs hi hj
    keys := by
      intro i j hi hj
      rw [hPipes hi, hPipes hj]
      exact h.keys hi hj
    pipeSize := by
      intro i hi
      rw [hPipes hi]
      exact h.pipeSize hi
    ring := by
      intro i hi
      rw [hPipes hi]
      exact h.ring hi }

/-- What holds of the entries that count, and of the one behind them. -/
theorem forall_extend {p : Nat → Prop} (hOld : ∀ i, i < head.pcount → p i) (hLast : p head.pcount) :
    ∀ {i}, i < head.extend.pcount → p i := by
  intro i hi
  cases Nat.lt_succ_iff_lt_or_eq.mp hi with
  | inl hLess => exact hOld i hLess
  | inr hEq =>
      rw [hEq]
      exact hLast

/-- The entry behind those that count has a new segment, and counts from now on. -/
theorem HeadRepr.extend (h : HeadRepr shm head queues) (hRoom : head.pcount < busMaxPipeCount)
    {phead : HeadT} (hLast : head.pipes head.pcount = phead)
    (hApart : phead.fromAddr ≠ phead.toAddr) (hFrom : Registered head phead.fromAddr)
    (hTo : Registered head phead.toAddr)
    (hNew : ∀ i, i < head.pcount → (head.pipes i).fromAddr = phead.fromAddr →
      (head.pipes i).toAddr ≠ phead.toAddr)
    (hSize : phead.size = busPipeDefaultSize) (hFree : shm.has phead.key = false)
    {segment : SegmentT} (hSegment : segment.size = pipeSegmentSize)
    (hRing : Repr segment.ring []) :
    HeadRepr { shm.set phead.key segment with head := some head.extend } head.extend
      (Function.update queues head.pcount []) := by
  subst hLast
  have hCases : ∀ {i}, i < head.extend.pcount → i < head.pcount ∨ i = head.pcount :=
    fun hi => Nat.lt_succ_iff_lt_or_eq.mp hi
  have hUnused : shm.segments (head.pipes head.pcount).key = none := by
    cases hSegments : shm.segments (head.pipes head.pcount).key with
    | none => rfl
    | some segment' =>
        rw [Shm.has, hSegments] at hFree
        simp at hFree
  have hKeys : ∀ {i}, i < head.pcount →
      (head.pipes i).key ≠ (head.pipes head.pcount).key := by
    intro i hi hEq
    obtain ⟨segment', hUsed, -⟩ := h.ring hi
    rw [hEq, hUnused] at hUsed
    cases hUsed
  have hHeadKey : shm.headKey ≠ (head.pipes head.pcount).key := by
    intro hEq
    rw [← hEq, Shm.has, h.head_eq] at hFree
    simp at hFree
  exact { h with
    head_eq := rfl
    headKey := by
      have hKept := Function.update_of_ne hHeadKey (some segment) shm.segments
      rw [h.headKey] at hKept
      exact hKept
    pver := by
      have hPver := h.pver
      have hMax : busMaxPipeCount = 1024 := rfl
      show toUint32 ((head.pver : Int) + 1) = head.pcount + 1 + 1
      rw [toUint32]
      omega
    pcount := hRoom
    apart := forall_extend (fun _ => h.apart) hApart
    fromAddr := forall_extend (fun _ => h.fromAddr) hFrom
    toAddr := forall_extend (fun _ => h.toAddr) hTo
    pairs := by
      intro i j hi hj hSame hSame'
      cases hCases hi with
      | inl hOld =>
          cases hCases hj with
          | inl hOld' => exact h.pairs hOld hOld' hSame hSame'
          | inr hLast =>
              rw [hLast] at hSame hSame'
              exact absurd hSame' (hNew i hOld hSame)
      | inr hLast =>
          cases hCases hj with
          | inl hOld =>
              rw [hLast] at hSame hSame'
              exact absurd hSame'.symm (hNew j hOld hSame.symm)
          | inr hLast' => rw [hLast, hLast']
    keys := by
      intro i j hi hj hSame
      cases hCases hi with
      | inl hOld =>
          cases hCases hj with
          | inl hOld' => exact h.keys hOld hOld' hSame
          | inr hLast =>
              rw [hLast] at hSame
              exact absurd hSame (hKeys hOld)
      | inr hLast =>
          cases hCases hj with
          | inl hOld =>
              rw [hLast] at hSame
              exact absurd hSame.symm (hKeys hOld)
          | inr hLast' => rw [hLast, hLast']
    pipeSize := forall_extend (fun _ => h.pipeSize) hSize
    ring := by
      apply forall_extend
      · intro i hOld
        obtain ⟨segment', hUsed, hRest⟩ := h.ring hOld
        refine ⟨segment', ?_, ?_⟩
        · rw [← hUsed]
          exact Function.update_of_ne (hKeys hOld) (some segment) shm.segments
        · rwa [Function.update_of_ne (Nat.ne_of_lt hOld)]
      · refine ⟨segment, ?_, hSegment, ?_⟩
        · exact Function.update_self (head.pipes head.pcount).key (some segment) shm.segments
        · rwa [Function.update_self] }

/-- The head with one more pipe of a terminal. -/
def BusHead.addPipe (head : BusHead) (addr dest : Int) : BusHead :=
  (head.propose (head.nextPipe addr dest)).extend

theorem grows_addPipe (head : BusHead) (addr dest : Int) : Grows head (head.addPipe addr dest) :=
  (grows_propose head _).trans (grows_extend _)

@[simp] theorem addPipe_last (head : BusHead) (addr dest : Int) :
    (head.addPipe addr dest).pipes head.pcount = head.nextPipe addr dest := by
  simp [BusHead.addPipe, BusHead.propose, BusHead.extend]

/-- The memory with the segment of one more pipe. -/
def Shm.addPipe (shm : Shm) (head : BusHead) (addr dest : Int) : Shm :=
  { shm.set head.nextKey (SegmentT.attach ⟨pipeSegmentSize, zeros⟩) with
    head := some (head.addPipe addr dest) }

theorem HeadRepr.has_key (h : HeadRepr shm head queues) (key : Int) :
    shm.has key = (key == shm.headKey || (shm.segments key).isSome) := by
  rw [Shm.has, h.head_eq, Option.isSome_some, Bool.and_true]

/-- A pipe that can be registered is added. -/
theorem HeadRepr.addPipe (h : HeadRepr shm head queues) (hReg : Registers shm head addr dest)
    (hSelf : Registered head addr)
    (hNew : ∀ i, i < head.pcount → (head.pipes i).fromAddr = addr →
      (head.pipes i).toAddr ≠ dest) :
    HeadRepr (shm.addPipe head addr dest) (head.addPipe addr dest)
      (Function.update queues head.pcount []) := by
  obtain ⟨hRoom, hDest, hOther, hFree⟩ := hReg
  have hPropose := h.propose (head.nextPipe addr dest)
  have hUnused : Shm.has { shm with head := some (head.propose (head.nextPipe addr dest)) }
      (head.nextPipe addr dest).key = false := by
    rw [hPropose.has_key]
    rw [h.has_key] at hFree
    exact hFree
  refine hPropose.extend hRoom (addPipe_last head addr dest) (Ne.symm hOther) hSelf
    (registered_iff.mp hDest) ?_ rfl hUnused rfl (attach_repr _)
  intro i hi hFrom
  rw [(grows_propose head _).pipes hi] at hFrom ⊢
  exact hNew i hi hFrom

/-- A terminal that has put a new pipe into its table knows all pipes of the head. -/
theorem TermRepr.addPipe {queues' : Nat → List (List UInt8)}
    (h : TermRepr head addr head.pcount bt)
    (hHead : HeadRepr shm (head.addPipe addr dest) queues') (hOther : dest ≠ addr) :
    ∃ opipes, idtableAdd bt.opipes (head.nextPipe addr dest).toAddr
        (some ⟨head.pcount, (head.nextPipe addr dest).key⟩) = some (0, opipes) ∧
      TermRepr (head.addPipe addr dest) addr (head.pcount + 1)
        { bt with opipes := opipes, pver := (head.addPipe addr dest).pver } := by
  have hGrows := grows_addPipe head addr dest
  have hReg := hGrows.registered h.registered
  have hLast := addPipe_last head addr dest
  have hOut : Table (head.addPipe addr dest) HeadT.fromAddr HeadT.toAddr addr head.pcount
      bt.opipes := h.opipes.congr fun i hi => hGrows.pipes hi
  have hIn : Table (head.addPipe addr dest) HeadT.toAddr HeadT.fromAddr addr head.pcount
      bt.ipipes := h.ipipes.congr fun i hi => hGrows.pipes hi
  obtain ⟨opipes, hAdd, hOut'⟩ := hHead.add_opipe hReg (Nat.lt_succ_self head.pcount)
    (by rw [hLast]; rfl) hOut
  rw [hLast] at hAdd
  refine ⟨opipes, hAdd, ?_⟩
  exact {
    self := h.self
    registered := hReg
    tver := h.tver
    tcount := h.tcount
    terms := h.terms
    pver := hHead.pver
    known_le := le_rfl
    own := fun hi _ => hi
    opipes := hOut'
    ipipes := hIn.skip (by
      rw [hLast]
      exact hOther) }

/-- `_bus_register_pipe` for a pipe that is not there. -/
theorem busRegisterPipe_spec (hHead : HeadRepr shm head queues) (h : TermRepr head addr known bt)
    (hNew : ∀ i, i < head.pcount → (head.pipes i).fromAddr = addr →
      (head.pipes i).toAddr ≠ dest) :
    (¬ Registers shm head addr dest ∧ ∃ bt' head' shm',
      busRegisterPipe bt shm dest busPipeDefaultSize = some (none, bt', shm') ∧
      HeadRepr shm' head' (queuesAfter head addr known queues) ∧
      TermRepr head' addr head'.pcount bt' ∧ Grows head head' ∧ head'.pcount = head.pcount) ∨
    (Registers shm head addr dest ∧ ∃ bt' shm',
      busRegisterPipe bt shm dest busPipeDefaultSize =
        some (some ⟨head.pcount, head.nextKey⟩, bt', shm') ∧
      HeadRepr shm' (head.addPipe addr dest)
        (Function.update (queuesAfter head addr known queues) head.pcount []) ∧
      TermRepr (head.addPipe addr dest) addr (head.pcount + 1) bt') := by
  obtain ⟨bt₁, shm₁, hPoll, hTerm, hAttached⟩ := busPoll_spec hHead h
  have hHead₁ := hHead.attached hAttached
  have hSelf := hTerm.self
  have hVersion : ¬ bt₁.pver ≠ head.pver := by
    rw [hTerm.pver, hHead.pver]
    simp
  simp only [busRegisterPipe, hPoll, hHead₁.head_eq, Option.bind_eq_bind, Option.bind_some,
    if_neg hVersion]
  by_cases hFull : head.pcount ≥ busMaxPipeCount
  · left
    refine ⟨fun hRegisters => absurd hRegisters.1 (Nat.not_lt_of_le hFull), bt₁, head, shm₁, ?_,
      hHead₁, hTerm, Grows.refl head, rfl⟩
    rw [if_pos hFull]
    rfl
  rw [if_neg hFull]
  by_cases hPeer : ¬ head.registered dest = true ∨ dest = bt₁.self
  · left
    refine ⟨?_, bt₁, head, shm₁, ?_, hHead₁, hTerm, Grows.refl head, rfl⟩
    · rintro ⟨-, hReg, hOther, -⟩
      rw [hSelf] at hPeer
      cases hPeer with
      | inl hNot => exact hNot hReg
      | inr hSame => exact hOther hSame
    · rw [if_pos hPeer]
      rfl
  rw [if_neg hPeer]
  rw [hSelf, not_or, not_not] at hPeer
  have hBph : (HeadT.mk (toInt (head.key + (head.ckey + 1).bmod (2 ^ 16))) busPipeDefaultSize
      bt₁.self dest) = head.nextPipe addr dest := by
    rw [hSelf]
    rfl
  rw [hBph]
  change (_ ∧ ∃ bt' head' shm', (busPipeCreate
    { shm₁ with head := some (head.propose (head.nextPipe addr dest)) } head.pcount
    (head.nextPipe addr dest) 0).bind _ = _ ∧ _) ∨ _ ∧ ∃ bt' shm', (busPipeCreate
    { shm₁ with head := some (head.propose (head.nextPipe addr dest)) } head.pcount
    (head.nextPipe addr dest) 0).bind _ = _ ∧ _
  have hPropose := hHead₁.propose (head.nextPipe addr dest)
  have hHas : Shm.has { shm₁ with head := some (head.propose (head.nextPipe addr dest)) }
      (head.nextPipe addr dest).key = shm.has head.nextKey := by
    rw [← hAttached.has, hPropose.has_key, hHead₁.has_key]
    rfl
  cases hKey : shm.has head.nextKey with
  | true =>
      left
      refine ⟨?_, bt₁, head.propose (head.nextPipe addr dest), _, ?_, hPropose, ?_,
        grows_propose head _, rfl⟩
      · rintro ⟨-, -, -, hFree⟩
        rw [hKey] at hFree
        cases hFree
      · rw [busPipeCreate_exists (hHas.trans hKey)]
        rfl
      · apply hTerm.mono (grows_propose head _)
        intro i hLow hHigh
        exact absurd hHigh (Nat.not_lt_of_le hLow)
  | false =>
      right
      have hRegisters : Registers shm head addr dest :=
        ⟨Nat.lt_of_not_le hFull, hPeer.1, hPeer.2, hKey⟩
      have hRegisters₁ : Registers shm₁ head addr dest :=
        ⟨hRegisters.1, hPeer.1, hPeer.2, (hAttached.has _).trans hKey⟩
      have hNewHead := hHead₁.addPipe hRegisters₁ h.registered hNew
      obtain ⟨opipes, hAdd, hTerm'⟩ := hTerm.addPipe hNewHead hPeer.2
      refine ⟨hRegisters, _, shm₁.addPipe head addr dest, ?_, hNewHead, hTerm'⟩
      rw [busPipeCreate_new rfl (hHas.trans hKey)]
      change (idtableAdd bt₁.opipes (head.nextPipe addr dest).toAddr
        (some ⟨head.pcount, (head.nextPipe addr dest).key⟩)).bind _ = _
      rw [hAdd]
      rfl

/-! ## A pipe that is not registered -/

theorem shmCreate_head {key excl : Int} {size : Nat} (h : shmCreate shm key size excl = some shm') :
    shm'.head = shm.head := by
  rw [shmCreate] at h
  split_ifs at h
  · cases h
    rfl
  · cases h
    rfl

/-- The head is not changed when a pipe is created. -/
theorem busPipeCreate_head {phead : HeadT} {create : Int} {bp : Option PipeT}
    (h : busPipeCreate shm i phead create = some (bp, shm')) : shm'.head = shm.head := by
  rw [busPipeCreate] at h
  cases hShm : shmCreate shm phead.key (phead.size + rbufferHeadSize) create with
  | none =>
      rw [hShm] at h
      cases h
      rfl
  | some shm₁ =>
      have hSame := shmCreate_head hShm
      simp only [hShm, Option.bind_eq_bind] at h
      obtain ⟨segment, -, hRest⟩ := Option.bind_eq_some_iff.mp h
      cases hAttach : rbufferAttach (some segment.ring.buffer) (phead.size + rbufferHeadSize) with
      | none =>
          rw [hAttach] at hRest
          cases hRest
          exact hSame
      | some r =>
          rw [hAttach] at hRest
          cases hRest
          exact hSame

/-- A turn of the loop over the pipes does not change the head. -/
theorem busUpdatePipe_head {s s' : BusT × Shm} (h : busUpdatePipe head s i = some s') :
    s'.2.head = s.2.head := by
  -- a pipe is created and enters one of the tables
  have hAttach : ∀ (table : IdtableT PipeT) (id : Int) (f : IdtableT PipeT → BusT),
      ((busPipeCreate s.2 i (head.pipes i) 1).bind fun p =>
        if p.1.isNone then none
        else (idtableAdd table id p.1).bind fun q =>
          if q.1 = 0 then some (f q.2, p.2) else none) = some s' → s'.2.head = s.2.head := by
    intro table id f h
    obtain ⟨p, hCreate, h⟩ := Option.bind_eq_some_iff.mp h
    split_ifs at h
    obtain ⟨q, -, h⟩ := Option.bind_eq_some_iff.mp h
    split_ifs at h
    cases h
    exact busPipeCreate_head hCreate
  simp only [busUpdatePipe, Option.bind_eq_bind] at h
  obtain ⟨opipe, -, h⟩ := Option.bind_eq_some_iff.mp h
  obtain ⟨ipipe, -, h⟩ := Option.bind_eq_some_iff.mp h
  split_ifs at h
  · exact hAttach s.1.opipes _ (fun opipes => { s.1 with opipes := opipes }) h
  · exact hAttach s.1.ipipes _ (fun ipipes => { s.1 with ipipes := ipipes }) h
  · cases h
    rfl

private theorem busPoll_head (h : busPoll bt shm = some (bt', shm')) : shm'.head = shm.head := by
  simp only [busPoll, Option.bind_eq_bind] at h
  obtain ⟨head, -, h⟩ := Option.bind_eq_some_iff.mp h
  generalize (if head.tver ≠ bt.tver then busUpdateTerminals head bt else bt) = bt₁ at h
  split_ifs at h
  · have hLoop : ∀ (is : List Nat) (s s' : BusT × Shm),
        is.foldlM (busUpdatePipe head) s = some s' → s'.2.head = s.2.head := by
      intro is
      induction is with
      | nil =>
          intro s s' h
          cases h
          rfl
      | cons i is ih =>
          intro s s' h
          rw [List.foldlM_cons] at h
          obtain ⟨t, hTurn, hRest⟩ := Option.bind_eq_some_iff.mp h
          rw [ih t s' hRest, busUpdatePipe_head hTurn]
    exact hLoop _ _ _ h
  · cases h
    rfl

/-- If no pipe is registered, the entries that count are those that there were. -/
theorem busRegisterPipe_none {sz : Nat} (hHead : shm.head = some head)
    (h : busRegisterPipe bt shm dest sz = some (none, bt', shm')) :
    ∃ head', shm'.head = some head' ∧ head'.pcount = head.pcount ∧ head'.pver = head.pver ∧
      ∀ i, i < head.pcount → head'.pipes i = head.pipes i := by
  simp only [busRegisterPipe, Option.bind_eq_bind] at h
  obtain ⟨⟨bt₁, shm₁⟩, hPoll, h⟩ := Option.bind_eq_some_iff.mp h
  have hSame : shm₁.head = some head := (busPoll_head hPoll).trans hHead
  simp only [hSame, Option.bind_some] at h
  split_ifs at h
  · cases h
    exact ⟨head, hSame, rfl, rfl, fun _ _ => rfl⟩
  · cases h
    exact ⟨head, hSame, rfl, rfl, fun _ _ => rfl⟩
  · cases h
    exact ⟨head, hSame, rfl, rfl, fun _ _ => rfl⟩
  · obtain ⟨⟨bp, shm₂⟩, hCreate, h⟩ := Option.bind_eq_some_iff.mp h
    have hProposed := busPipeCreate_head hCreate
    split_ifs at h
    · cases h
      refine ⟨_, hProposed, rfl, rfl, ?_⟩
      intro i hi
      exact Function.update_of_ne (Nat.ne_of_lt hi) _ _
    · obtain ⟨⟨ret, opipes⟩, -, h⟩ := Option.bind_eq_some_iff.mp h
      split_ifs at h
      cases h
      contradiction

end

end Gbase.Logic.Bus
