import Gbase.Base.Buffer
import Gbase.Lib.Run
import Gbase.Net.Reactor

/-!
# The output of a connector (`net/connector.c`)

`con_send` puts bytes into the write buffer and asks the reactor for writable events, and at such an
event the connector hands the bytes to `write()`, which takes some of them or none.  Once it has
taken all, the connector asks for readable events only.  The reactor is taken to do as it is asked.

## Main results

* `conStep_spec`: one call or event keeps the stream whole.
* `connector_stream`: so does every run, and a buffer that is not empty has its event asked for.
-/

namespace Gbase.Net.Connector

open Gbase.Base.Buffer
open Gbase.Lib.Ring
open Gbase.Lib.Run
open Gbase.Net.Reactor

/-- `CONNECTOR_BUFFER_SIZE` -/
def connectorBufferSize : Int := 64 * 1024

/-- `INVALID_SOCK` -/
def invalidSock : Int := -1

/-- `EAGAIN` -/
def eagain : Int := 11

/-- `con_t`, with the events that the reactor watches for its handler. -/
structure ConT where
  fd : Int
  rbuf : Option BufferT
  wbuf : Option BufferT
  events : Nat

/-- `reactor_register`, when it returns `ret`. -/
def ConT.register (con : ConT) (events : Nat) (ret : Int) : ConT :=
  if ret = 0 then { con with events := events } else con

/-- `reactor_modify` -/
def ConT.modify (con : ConT) (events : Nat) : ConT := { con with events := events }

/-- `con_start`, with the memory that the allocations give and what `reactor_register` returns. -/
def conStart (con : ConT) (rmemory wmemory : Nat → UInt8) (ret : Int) : Option (Int × ConT) :=
  if con.fd = invalidSock then some (-1, con)
  else do
    let rbuf ←
      (match con.rbuf with
      | some rbuf => some rbuf
      | none => bufferCreate connectorBufferSize rmemory)
    let wbuf ←
      (match con.wbuf with
      | some wbuf => some wbuf
      | none => bufferCreate connectorBufferSize wmemory)
    let con := { con with rbuf := some rbuf, wbuf := some wbuf }
    return (ret, con.register eventIn ret)

/-- `con_send` from some memory, if `buffer` is not `NULL`. -/
def conSend (con : ConT) (buffer : Option (Nat → UInt8)) (buflen : Int) : Option (Int × ConT) :=
  if con.fd = invalidSock then some (-1, con)
  else
    match con.wbuf, buffer with
    | none, _ => some (-1, con)
    | _, none => some (-1, con)
    | some wbuf, some buffer =>
        if buflen < 0 then some (-1, con)
        else if buflen > bufferWriteLen wbuf then some (-1, con)
        else do
          let (_, wbuf) ← bufferWrite wbuf (some (slice buffer 0 buflen.toNat)) buflen
          return (0, { con with wbuf := some wbuf }.modify (eventIn ||| eventOut))

/-- `_con_write`, when `write()` returns `res` and leaves `errno`, with the bytes that it took;
undefined without a write buffer. -/
def conWrite (con : ConT) (res errno : Int) : Option (Int × List UInt8 × ConT) :=
  match con.wbuf with
  | none => none
  | some wbuf =>
      let nwrite := bufferReadLen wbuf
      if nwrite = 0 then some (0, [], con)
      else if res < 0 then
        if eagain = errno ∨ eintr = errno then some (0, [], con) else some (-errno, [], con)
      else if 0 = res then some (-1, [], con)
      else do
        let taken := slice wbuf.buffer wbuf.readPos res.toNat
        let (_, wbuf) ← bufferReadNocopy wbuf res
        let con := { con with wbuf := some wbuf }
        return (0, taken, if res = nwrite then con.modify eventIn else con)

/-! ## Runs -/

/-- A connector, with the bytes that `write()` took and those that `con_send` accepted. -/
structure State where
  con : ConT
  taken : List UInt8
  accepted : List UInt8

inductive ConOp where
  | send (buffer : Option (Nat → UInt8)) (buflen : Int)
  /-- The connector can be written to; `write()` returns `res` and leaves `errno`. -/
  | writable (res errno : Int)

/-- The buffer of a call that returned 0. -/
def sent (buffer : Option (Nat → UInt8)) (buflen code : Int) : List UInt8 :=
  match buffer with
  | none => []
  | some buffer => if code = 0 then slice buffer 0 buflen.toNat else []

def conStep : Step State ConOp Int
  | s, .send buffer buflen =>
      (conSend s.con buffer buflen).map fun (code, con) =>
        (code, { s with con := con, accepted := s.accepted ++ sent buffer buflen code })
  | s, .writable res errno =>
      (conWrite s.con res errno).map fun (code, taken, con) =>
        (code, { s with con := con, taken := s.taken ++ taken })

/-- `write()` takes between one byte and all that it is offered, or leaves `EAGAIN`. -/
def Writes (s : State) : ConOp → Prop
  | .send _ _ => True
  | .writable res errno =>
      ∀ wbuf ∈ s.con.wbuf, bufferReadLen wbuf ≠ 0 →
        (1 ≤ res ∧ res ≤ bufferReadLen wbuf) ∨ (res < 0 ∧ errno = eagain)

instance (s : State) : ∀ op, Decidable (Writes s op)
  | .send _ _ => inferInstanceAs (Decidable True)
  | .writable _ _ => inferInstanceAs (Decidable (∀ wbuf ∈ s.con.wbuf, _))

/-- The bytes that `write()` took and those in the write buffer are the ones accepted, in order, and
while there are any in the buffer the reactor watches for `EVENT_OUT`. -/
def Whole (s : State) : Prop :=
  ∃ wbuf, s.con.wbuf = some wbuf ∧ s.accepted = s.taken ++ wbuf.content ∧
    (wbuf.content ≠ [] → eventOut &&& s.con.events ≠ 0)

/-- What each call and event should do. -/
def Sound (s : State) (op : ConOp) (code : Int) (s' : State) : Prop :=
  Whole s' ∧
    match op with
    | .send _ _ => s'.taken = s.taken ∧ (code ≠ 0 → s' = s)
    | .writable _ _ => code = 0 ∧ s'.accepted = s.accepted

/-- The write buffer holds the bytes accepted that `write()` has not taken. -/
def Inv (s : State) : Prop :=
  ∃ wbuf content, s.con.wbuf = some wbuf ∧ Holds wbuf content ∧
    s.accepted = s.taken ++ content ∧ (content ≠ [] → eventOut &&& s.con.events ≠ 0)

section

variable {s : State}

theorem Inv.whole (hInv : Inv s) : Whole s := by
  obtain ⟨wbuf, content, hWbuf, hHolds, hAccepted, hEvents⟩ := hInv
  refine ⟨wbuf, hWbuf, ?_, ?_⟩
  · rw [hHolds.content_eq, hAccepted]
  · rw [hHolds.content_eq]
    exact hEvents

/-- A call or an event that changes nothing. -/
theorem Inv.refused (hInv : Inv s) {buffer : Option (Nat → UInt8)} {buflen : Int}
    (hSend : conSend s.con buffer buflen = some (-1, s.con)) :
    Does conStep (fun s op code s' => Sound s op code s' ∧ Inv s') s (.send buffer buflen) := by
  have hNone : sent buffer buflen (-1) = [] := by
    cases buffer with
    | none => rfl
    | some buffer => rw [sent, if_neg (by decide)]
  refine ⟨-1, s, ?_, ⟨hInv.whole, rfl, fun _ => rfl⟩, hInv⟩
  simp only [conStep, hSend, Option.map_some, hNone, List.append_nil]

/-- `con_send` takes the whole buffer or nothing. -/
theorem conSend_step (hInv : Inv s) (buffer : Option (Nat → UInt8)) (buflen : Int) :
    Does conStep (fun s op code s' => Sound s op code s' ∧ Inv s') s (.send buffer buflen) := by
  obtain ⟨wbuf, content, hWbuf, hHolds, hAccepted, hEvents⟩ := id hInv
  by_cases hFd : s.con.fd = invalidSock
  · exact hInv.refused (if_pos hFd)
  cases buffer with
  | none =>
      apply hInv.refused
      simp only [conSend, if_neg hFd, hWbuf]
  | some buffer =>
      by_cases hLen : buflen < 0 ∨ buflen > bufferWriteLen wbuf
      · apply hInv.refused
        simp only [conSend, if_neg hFd, hWbuf]
        cases hLen with
        | inl hNeg => rw [if_pos hNeg]
        | inr hBig =>
            have hRoom := hHolds.room
            rw [if_neg (by omega), if_pos hBig]
      · rw [not_or] at hLen
        obtain ⟨hNeg, hFits⟩ := hLen
        have hMin : min buflen (bufferWriteLen wbuf) = buflen := min_eq_left (by omega)
        obtain ⟨wbuf', hWrite, hHolds', -, -⟩ :=
          @bufferWrite_spec wbuf content (slice buffer 0 buflen.toNat) buflen hHolds (by omega)
            (by rw [length_slice]; omega)
        rw [hMin, take_slice 0 le_rfl] at hHolds'
        let con' := { s.con with wbuf := some wbuf' }.modify (eventIn ||| eventOut)
        let bytes := slice buffer 0 buflen.toNat
        have hInv' : Inv { s with con := con', accepted := s.accepted ++ bytes } := by
          have hOut : eventOut &&& (eventIn ||| eventOut) ≠ 0 := by decide
          refine ⟨wbuf', content ++ bytes, rfl, hHolds', ?_, fun _ => hOut⟩
          show s.accepted ++ bytes = s.taken ++ (content ++ bytes)
          rw [hAccepted, List.append_assoc]
        refine ⟨0, _, ?_, ⟨hInv'.whole, rfl, fun h => absurd rfl h⟩, hInv'⟩
        simp only [conStep, conSend, if_neg hFd, hWbuf, if_neg hNeg, if_neg hFits, hWrite,
          Option.bind_eq_bind, Option.bind_some, sent]
        rfl

/-- At a writable event the bytes that `write()` takes leave the buffer. -/
theorem conWrite_step (hInv : Inv s) {res errno : Int} (hWrites : Writes s (.writable res errno)) :
    Does conStep (fun s op code s' => Sound s op code s' ∧ Inv s') s (.writable res errno) := by
  obtain ⟨wbuf, content, hWbuf, hHolds, hAccepted, hEvents⟩ := id hInv
  have hLength := hHolds.readLen
  by_cases hEmpty : bufferReadLen wbuf = 0
  · refine ⟨0, s, ?_, ⟨hInv.whole, rfl, rfl⟩, hInv⟩
    simp only [conStep, conWrite, hWbuf, if_pos hEmpty, Option.map_some, List.append_nil]
  · cases hWrites wbuf hWbuf hEmpty with
    | inr hAgain =>
        refine ⟨0, s, ?_, ⟨hInv.whole, rfl, rfl⟩, hInv⟩
        simp only [conStep, conWrite, hWbuf, if_neg hEmpty, if_pos hAgain.1,
          if_pos (Or.inl hAgain.2.symm : eagain = errno ∨ eintr = errno), Option.map_some,
          List.append_nil]
    | inl hTaken =>
        obtain ⟨wbuf', hRead, hHolds', -, -⟩ := bufferReadNocopy_spec hHolds (by omega : 0 ≤ res)
        have hSlice : slice wbuf.buffer wbuf.readPos res.toNat = content.take res.toNat := by
          have hLoad := hHolds.load_some (by omega : res.toNat ≤ content.length)
          have hWrite := hHolds.write
          have hFits := hHolds.fits
          rw [BufferT.load, if_pos (by omega)] at hLoad
          exact Option.some.inj hLoad
        let con := { s.con with wbuf := some wbuf' }
        let con' := if res = bufferReadLen wbuf then con.modify eventIn else con
        have hNext : con'.wbuf = some wbuf' := by
          show (ite _ _ _ : ConT).wbuf = _
          split <;> rfl
        have hWatched : content.drop res.toNat ≠ [] → eventOut &&& con'.events ≠ 0 := by
          intro hRest
          have hLess : res.toNat < content.length := by
            by_contra hAll
            exact hRest (List.drop_eq_nil_of_le (by omega))
          have hSame : con' = con := if_neg (by omega)
          rw [hSame]
          apply hEvents
          intro hNil
          rw [hNil] at hLess
          exact absurd hLess (Nat.not_lt_zero _)
        have hInv' : Inv { s with con := con', taken := s.taken ++ content.take res.toNat } := by
          refine ⟨wbuf', content.drop res.toNat, hNext, hHolds', ?_, hWatched⟩
          show s.accepted = s.taken ++ content.take res.toNat ++ content.drop res.toNat
          rw [List.append_assoc, List.take_append_drop, hAccepted]
        refine ⟨0, _, ?_, ⟨hInv'.whole, rfl, rfl⟩, hInv'⟩
        simp only [conStep, conWrite, hWbuf, if_neg hEmpty, if_neg (by omega : ¬ res < 0),
          if_neg (by omega : ¬ 0 = res), hRead, Option.bind_eq_bind, Option.bind_some, hSlice]
        rfl

/-- One call or event keeps the stream whole. -/
theorem conStep_spec (hInv : Inv s) (op : ConOp) (hWrites : Writes s op) :
    Does conStep (fun s op code s' => Sound s op code s' ∧ Inv s') s op := by
  cases op with
  | send buffer buflen => exact conSend_step hInv buffer buflen
  | writable res errno => exact conWrite_step hInv hWrites

end

/-- A connector that `con_start` has started with an empty write buffer. -/
def Started (con : ConT) : Prop :=
  ∃ before rmemory wmemory, (∀ wbuf, before.wbuf = some wbuf → Holds wbuf []) ∧
    conStart before rmemory wmemory 0 = some (0, con)

theorem Started.inv {con : ConT} (h : Started con) : Inv ⟨con, [], []⟩ := by
  obtain ⟨before, rmemory, wmemory, hEmpty, hStart⟩ := h
  rw [conStart] at hStart
  split at hStart
  · cases hStart
  · obtain ⟨rbuf, -, hRest⟩ := Option.bind_eq_some_iff.mp hStart
    obtain ⟨wbuf, hWbuf, hCon⟩ := Option.bind_eq_some_iff.mp hRest
    have hHolds : Holds wbuf [] := by
      cases hOld : before.wbuf with
      | some old =>
          simp only [hOld, Option.some.injEq] at hWbuf
          rw [← hWbuf]
          exact hEmpty old hOld
      | none =>
          simp only [hOld, bufferCreate, if_neg (by decide : ¬ connectorBufferSize ≤ 0),
            Option.some.injEq] at hWbuf
          rw [← hWbuf]
          exact Holds.empty (by decide) (by decide)
    obtain ⟨-, rfl⟩ := Prod.mk.inj (Option.some.inj hCon)
    exact ⟨wbuf, [], rfl, hHolds, rfl, fun h => absurd rfl h⟩

/-- Along every run of a started connector, the bytes that `write()` took and those in the write
buffer are the buffers that `con_send` accepted, each whole and in order, and while there are bytes
in the write buffer the reactor watches for `EVENT_OUT`. -/
theorem connector_stream {con : ConT} (hStart : Started con) {ops : List ConOp}
    (hWrites : Along conStep Writes ⟨con, [], []⟩ ops) :
    Whole ⟨con, [], []⟩ ∧ Along conStep (Does conStep Sound) ⟨con, [], []⟩ ops := by
  refine ⟨hStart.inv.whole, ?_⟩
  exact along_of_spec Inv (fun s op hInv hLegal => conStep_spec hInv op hLegal) hStart.inv hWrites

/-- A partial write, a full socket, a send behind the rest, a send that does not fit and a write of
everything. -/
theorem connector_stream_partial :
    ∃ con, conStart ⟨5, none, none, 0⟩ UInt8.ofNat UInt8.ofNat 0 = some (0, con) ∧
      Whole ⟨con, [], []⟩ ∧ Along conStep (Does conStep Sound) ⟨con, [], []⟩
        [.send (some UInt8.ofNat) 3, .writable 2 0, .writable (-1) eagain,
          .send (some UInt8.ofNat) 2, .send (some UInt8.ofNat) 65536, .writable 3 0,
          .writable 0 0] := by
  have hNone : ∀ wbuf, (⟨5, none, none, 0⟩ : ConT).wbuf = some wbuf → Holds wbuf [] := by
    intro wbuf hSome
    cases hSome
  exact ⟨_, rfl, connector_stream ⟨⟨5, none, none, 0⟩, UInt8.ofNat, UInt8.ofNat, hNone, rfl⟩
    (by decide)⟩

end Gbase.Net.Connector
