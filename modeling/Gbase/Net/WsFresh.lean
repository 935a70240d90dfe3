import Gbase.Net.WsRestart
import Gbase.Net.WsSend
import Gbase.Net.WsTwin

/-!
# A restarted websocket connection is fresh, or not (`net/wsconn.c`)

Until the handshake is done, nothing is stored in the buffers but what was received.  So the
receive buffer decides whether a connection that never got that far starts anew.

The handshake is parsed only when its end has come, and what is answered goes to the buffer for
writing.  Two things can be left behind in the receive buffer, bytes and a gap in front of them; the
gap takes room that a request may need.

## Main results

* `Reached.sound`: what every history leaves behind.
* `wsconnRestart_fresh_iff`: a restarted connection behaves like a new one if and only if its
  handshake was not done and nothing is left of what was received.
-/

namespace Gbase.Net.Wsconn

open Gbase.Base.Buffer
open Gbase.Lib.Lockstep
open Gbase.Lib.Run
open Gbase.Net.Connector (invalidSock eagain)

variable {α : Type}

/-- A connection before the handshake: the other buffers were never used, and a request that is
there as a whole was refused. -/
structure Before (con : WsconnT α) : Prop where
  status : con.status = .init
  wbuf : Holds con.wbuf []
  wstart : con.wbuf.writePos = 0
  rrbuf : Holds con.rrbuf []
  rrstart : con.rrbuf.writePos = 0
  rbuf : ∃ rest, Holds con.rbuf rest ∧ (rest = [] ∨ handshakeEnd rest ≠ none)

/-- What holds of a connection at any time. -/
structure Sound (con : WsconnT α) : Prop where
  rbuf : 0 < con.rbuf.bufferSize
  rrbuf : 0 < con.rrbuf.bufferSize
  wbuf : ∃ out, Holds con.wbuf out
  before : con.status ≠ .established → Before con

section

variable {env : HandshakeEnv} {con con' : WsconnT α} {out rest bytes : List UInt8} {res : Int}
  {fd : Int}

/-! ## Reading before the handshake -/

/-- Bytes without the end of a request are passed over. -/
theorem wsconnRead_quiet (hStatus : con.status ≠ .established) (h : Holds con.rbuf rest)
    (hNe : bytes ≠ []) (hRoom : (bytes.length : Int) ≤ bufferWriteLen con.rbuf)
    (hEnd : handshakeEnd (rest ++ bytes) = none) :
    ∃ rbuf, wsconnRead env con (.data bytes) = some (0, { con with rbuf := rbuf }) ∧
      Holds rbuf ((rest ++ bytes).drop bytes.length) ∧ rbuf.bufferSize = con.rbuf.bufferSize := by
  obtain ⟨rbuf, hHolds, -, hSize, hRead⟩ := @wsconnRead_data α env con rest bytes h hNe hRoom
  obtain ⟨rbuf', hNocopy, hHolds', -, hSize'⟩ :=
    @bufferReadNocopy_spec rbuf _ bytes.length hHolds (Int.natCast_nonneg _)
  rw [Int.toNat_natCast] at hHolds'
  have hClosed : wsconnEstablished { con with rbuf := rbuf } ≠ 0 := by
    rw [wsconnEstablished, if_neg hStatus]
    decide
  refine ⟨rbuf', ?_, hHolds', hSize'.trans hSize⟩
  rw [hRead, wsconnProcess, if_pos hClosed, hEnd]
  simp only [Option.bind_eq_bind, Option.bind_some,
    if_neg (by omega : ¬ (bytes.length : Int) < 0), hNocopy]
  rfl

/-- Bytes that end a request: it is refused and stays, or it is answered. -/
theorem wsconnRead_request (hStatus : con.status ≠ .established) (h : Holds con.rbuf rest)
    (hWbuf : Holds con.wbuf out) (hNe : bytes ≠ [])
    (hRoom : (bytes.length : Int) ≤ bufferWriteLen con.rbuf)
    (hEnd : handshakeEnd (rest ++ bytes) ≠ none)
    (hRun : wsconnRead env con (.data bytes) = some (res, con')) :
    (res = -1 ∧ ∃ rbuf, con' = { con with rbuf := rbuf } ∧ Holds rbuf (rest ++ bytes)) ∨
      con'.status = .established ∧ con'.rbuf.bufferSize = con.rbuf.bufferSize ∧
        con'.rrbuf = con.rrbuf ∧ ∃ more, more ≠ [] ∧ Holds con'.wbuf (out ++ more) := by
  obtain ⟨rbuf, hHolds, -, hSize, hRead⟩ := @wsconnRead_data α env con rest bytes h hNe hRoom
  obtain ⟨start, hStart⟩ := Option.ne_none_iff_exists'.mp hEnd
  have hClosed : wsconnEstablished { con with rbuf := rbuf } ≠ 0 := by
    rw [wsconnEstablished, if_neg hStatus]
    decide
  rw [hRead, wsconnProcess, if_pos hClosed, hStart] at hRun
  obtain ⟨⟨ret, con₁⟩, hShake, hRun⟩ := Option.bind_eq_some_iff.mp hRun
  rcases @wsconnHandshake_cases α env { con with rbuf := rbuf } con₁ out _ ret hWbuf hShake with
    ⟨rfl, rfl⟩ | ⟨hRet, hEst, hRbuf, hRrbuf, more, hMore, hHolds'⟩
  · cases hRun
    exact Or.inl ⟨rfl, rbuf, rfl, hHolds⟩
  · simp only [if_neg (by omega : ¬ ret < 0)] at hRun
    obtain ⟨⟨count, rbuf'⟩, hNocopy, hRun⟩ := Option.bind_eq_some_iff.mp hRun
    have hLast := size_bufferReadNocopy hNocopy
    rw [hRbuf] at hLast
    cases hRun
    exact Or.inr ⟨hEst, hLast.trans hSize, hRrbuf, more, hMore, hHolds'⟩

/-! ## Every history -/

theorem Before.setRbuf (h : Before con) {rbuf : BufferT} (hHolds : Holds rbuf rest)
    (hRest : rest = [] ∨ handshakeEnd rest ≠ none) : Before { con with rbuf := rbuf } where
  status := h.status
  wbuf := h.wbuf
  wstart := h.wstart
  rrbuf := h.rrbuf
  rrstart := h.rrstart
  rbuf := ⟨rest, hHolds, hRest⟩

theorem Before.sound (h : Before con) : Sound con where
  rbuf := by
    obtain ⟨rest, hHolds, -⟩ := h.rbuf
    exact hHolds.size
  rrbuf := h.rrbuf.size
  wbuf := ⟨[], h.wbuf⟩
  before := fun _ => h

theorem Before.read (h : Before con) {socket : SockRead}
    (hRoom : (socket.bytes.length : Int) ≤ bufferWriteLen con.rbuf)
    (hRun : wsconnRead env con socket = some (res, con')) : Sound con' := by
  have hStatus : con.status ≠ .established := by
    rw [h.status]
    decide
  obtain ⟨rest, hHolds, hRest⟩ := h.rbuf
  by_cases hNothing : socket.bytes = []
  · obtain ⟨ret, hRead⟩ := @wsconnRead_nothing α env rest con hHolds socket hNothing
    rw [hRead] at hRun
    cases hRun
    exact h.sound
  cases socket with
  | again => exact absurd rfl hNothing
  | error errno => exact absurd rfl hNothing
  | data bytes =>
    by_cases hEnd : handshakeEnd (rest ++ bytes) = none
    · obtain ⟨rbuf, hRead, hHolds', -⟩ :=
        @wsconnRead_quiet α env con rest bytes hStatus hHolds hNothing hRoom hEnd
      rw [hRead] at hRun
      cases hRun
      have hWas : rest = [] := by
        cases hRest with
        | inl hNil => exact hNil
        | inr hThere =>
          obtain ⟨start, hStart⟩ := Option.ne_none_iff_exists'.mp hThere
          have hStill := (@handshakeEnd_append rest bytes start hStart).1
          rw [hEnd] at hStill
          cases hStill
      have hLeft : (rest ++ bytes).drop bytes.length = [] := by
        rw [hWas, List.nil_append, List.drop_length]
      exact (h.setRbuf hHolds' (Or.inl hLeft)).sound
    · rcases wsconnRead_request hStatus hHolds h.wbuf hNothing hRoom hEnd hRun with
        ⟨-, rbuf, rfl, hHolds'⟩ | ⟨hEst, hRbuf, hRrbuf, more, -, hHolds'⟩
      · exact (h.setRbuf hHolds' (Or.inr hEnd)).sound
      · exact {
          rbuf := hRbuf ▸ hHolds.size
          rrbuf := hRrbuf ▸ h.rrbuf.size
          wbuf := ⟨_, hHolds'⟩
          before := fun hNot => absurd hEst hNot }

theorem Sound.kept (h : Sound con) (hEst : con.status = .established) (hKept : Kept con con') :
    Sound con' where
  rbuf := hKept.rbuf ▸ h.rbuf
  rrbuf := hKept.rrbuf ▸ h.rrbuf
  wbuf := hKept.wbuf h.wbuf
  before := fun hNot => absurd (hKept.status.trans hEst) hNot

theorem Sound.read (h : Sound con) {socket : SockRead}
    (hRoom : con.status ≠ .established →
      (socket.bytes.length : Int) ≤ bufferWriteLen con.rbuf)
    (hRun : wsconnRead env con socket = some (res, con')) : Sound con' := by
  by_cases hEst : con.status = .established
  · exact h.kept hEst (wsconnRead_kept hEst hRun)
  · exact (h.before hEst).read (hRoom hEst) hRun

/-- Nothing is sent before the handshake. -/
theorem wsconnSend_before (hStatus : con.status ≠ .established) (buffer : Option (List UInt8))
    (buflen : Int) : wsconnSend con buffer buflen = some (-1, con) := by
  have hClosed : wsconnEstablished con ≠ 0 := by
    rw [wsconnEstablished, if_neg hStatus]
    decide
  cases buffer with
  | none => rfl
  | some buffer =>
    rw [wsconnSend]
    by_cases hNeg : buflen < 0
    · exact if_pos hNeg
    · rw [if_neg hNeg, if_pos hClosed]

private theorem wsconnWrite_nothing (h : Holds con.wbuf []) (count errno : Int) :
    wsconnWrite con count errno = some (0, con) := by
  rw [wsconnWrite]
  exact if_pos h.readLen

private theorem bytes_fromQueue (queue : List UInt8) {room : Int} (hRoom : 0 ≤ room) :
    ((fromQueue queue room).bytes.length : Int) ≤ room := by
  rw [fromQueue]
  split
  · exact hRoom
  · show ((queue.take room.toNat).length : Int) ≤ room
    rw [List.length_take]
    omega

theorem Sound.step (h : Sound con) {queue queue' : List UInt8} {op : LinkOp}
    {out : Int × List UInt8 × α}
    (hStep : linkStep env ⟨con, queue⟩ op = some (out, ⟨con', queue'⟩)) : Sound con' := by
  obtain ⟨⟨ret, con₁⟩, hCall, hEq⟩ := Option.map_eq_some_iff.mp hStep
  cases hEq
  have hRoom : con.status ≠ .established → 0 ≤ bufferWriteLen con.rbuf := by
    intro hNot
    obtain ⟨rest, hHolds, -⟩ := (h.before hNot).rbuf
    exact hHolds.room.1
  cases op with
  | receive bytes => exact h.read (fun hNot => bytes_fromQueue _ (hRoom hNot)) hCall
  | eof => exact @Sound.read α env con con₁ ret h (.data []) hRoom hCall
  | fail errno => exact @Sound.read α env con con₁ ret h (.error errno) hRoom hCall
  | send buffer buflen =>
    by_cases hEst : con.status = .established
    · exact h.kept hEst (wsconnSend_kept hCall)
    · have hSame := (wsconnSend_before hEst buffer buflen).symm.trans hCall
      cases hSame
      exact h
  | write count errno =>
    by_cases hEst : con.status = .established
    · exact h.kept hEst (wsconnWrite_kept hCall)
    · have hSame := (wsconnWrite_nothing (h.before hEst).wbuf count errno).symm.trans hCall
      cases hSame
      exact h

/-- A buffer that was just created. -/
theorem created_holds {size : Nat} {memory : Nat → UInt8} {cb : BufferT} (hInt : size < 2 ^ 31)
    (h : bufferCreate size memory = some cb) : Holds cb [] ∧ cb.writePos = 0 := by
  rw [bufferCreate] at h
  by_cases hSize : (size : Int) ≤ 0
  · rw [if_pos hSize] at h
    cases h
  · rw [if_neg hSize] at h
    cases h
    have hHolds := @Holds.empty size memory (by omega) hInt
    exact ⟨hHolds, rfl⟩

private theorem size_bufferCreate {size : Nat} {memory : Nat → UInt8} {cb : BufferT}
    (h : bufferCreate size memory = some cb) : cb.bufferSize = size := by
  rw [bufferCreate] at h
  split at h
  · cases h
  · cases h
    rfl

theorem wsconnNew_eq (rbuf rrbuf wbuf : BufferT) (onBuild : Option (Int → α → α))
    (onRead : Option (Int → α → List UInt8 → Int × α)) (arg : α) (hFd : fd ≠ invalidSock) :
    (wsconnStart (wsconnSetFd (wsconnCreate rbuf rrbuf wbuf onBuild onRead arg) fd)).2 =
      ⟨fd, eventIn, rbuf, rrbuf, wbuf, onBuild, onRead, arg, .init⟩ := by
  exact wsconnStart_setFd (wsconnCreate rbuf rrbuf wbuf onBuild onRead arg) hFd

/-- Neither the descriptor nor the callbacks matter. -/
theorem Sound.other (h : Sound con) (fd : Int) (events : Nat) (onBuild : Option (Int → α → α))
    (onRead : Option (Int → α → List UInt8 → Int × α)) (arg : α) :
    Sound ⟨fd, events, con.rbuf, con.rrbuf, con.wbuf, onBuild, onRead, arg, con.status⟩ where
  rbuf := h.rbuf
  rrbuf := h.rrbuf
  wbuf := h.wbuf
  before := by
    intro hNot
    have hBefore := h.before hNot
    exact { hBefore with }

/-- What every history leaves behind. -/
theorem Reached.sound {s : Link α} (h : Reached env s) : Sound s.con := by
  induction h with
  | @start rsize rrsize wsize rbuf rrbuf wbuf hCreated hRsize hRrsize hWsize fd hFd onBuild onRead
      arg =>
    obtain ⟨rmemory, hRbuf⟩ := hCreated.rbuf
    obtain ⟨rrmemory, hRrbuf⟩ := hCreated.rrbuf
    obtain ⟨wmemory, hWbuf⟩ := hCreated.wbuf
    have hBefore : Before (⟨fd, eventIn, rbuf, rrbuf, wbuf, onBuild, onRead, arg, .init⟩ :
        WsconnT α) := {
      status := rfl
      wbuf := (created_holds hWsize hWbuf).1
      wstart := (created_holds hWsize hWbuf).2
      rrbuf := (created_holds hRrsize hRrbuf).1
      rrstart := (created_holds hRrsize hRrbuf).2
      rbuf := ⟨[], (created_holds hRsize hRbuf).1, Or.inl rfl⟩ }
    rw [wsconnNew_eq rbuf rrbuf wbuf onBuild onRead arg hFd]
    exact hBefore.sound
  | step h hStep ih => exact ih.step hStep
  | @set s h onBuild onRead arg ih =>
    exact ih.other s.con.fd s.con.events onBuild onRead arg
  | @restart s h fd hFd ih =>
    rw [wsconnRestart_eq s.con hFd]
    exact ih.other fd eventIn s.con.onBuild s.con.onRead s.con.arg

/-! ## A connection that starts anew -/

/-- Two links that look the same. -/
def LinkTwin (s t : Link α) : Prop := Twin s.con t.con ∧ s.queue = t.queue

private theorem wsconnWrite_twin {c d : WsconnT α} (h : Twin c d) (count errno : Int) :
    Option.Rel (Both Twin) (wsconnWrite c count errno) (wsconnWrite d count errno) := by
  simp only [wsconnWrite, ← h.wbuf.readLen]
  split
  · exact .some ⟨rfl, h⟩
  split
  · split
    · exact .some ⟨rfl, h⟩
    · exact .some ⟨rfl, h⟩
  split
  · exact .some ⟨rfl, h⟩
  · apply rel_bind (bufferReadNocopy_alike h.wbuf count)
    intro x y hBoth
    have hTwin := h.setWbuf hBoth.2
    split
    · exact .some ⟨rfl, hTwin.modify _⟩
    · exact .some ⟨rfl, hTwin⟩

/-- No operation tells such links apart. -/
theorem linkStep_twin : InStep (linkStep (α := α) env) LinkTwin := by
  intro s t op h
  obtain ⟨c, queue⟩ := s
  obtain ⟨d, queue'⟩ := t
  have hTwin : Twin c d := h.1
  have hQueue : queue = queue' := h.2
  subst hQueue
  have hCall : Option.Rel (Both Twin) (linkCall env ⟨c, queue⟩ op).1
      (linkCall env ⟨d, queue⟩ op).1 := by
    cases op with
    | receive bytes =>
      simp only [linkCall, ← hTwin.rbuf.writeLen]
      exact wsconnRead_twin hTwin _
    | eof => exact @wsconnRead_twin α env c d hTwin (.data [])
    | fail errno => exact @wsconnRead_twin α env c d hTwin (.error errno)
    | send buffer buflen => exact wsconnSend_twin hTwin buffer buflen
    | write count errno => exact wsconnWrite_twin hTwin count errno
  have hLeft : (linkCall env ⟨c, queue⟩ op).2 = (linkCall env ⟨d, queue⟩ op).2 := by
    cases op with
    | receive bytes => simp only [linkCall, ← hTwin.rbuf.writeLen]
    | eof => rfl
    | fail errno => rfl
    | send buffer buflen => rfl
    | write count errno => rfl
  apply rel_map hCall
  intro x y hBoth
  refine ⟨?_, hBoth.2, hLeft⟩
  show shown x = shown y
  rw [shown, shown, hBoth.1, hBoth.2.wbuf.content, hBoth.2.arg]

/-- An empty buffer with its positions at the start, and a new one. -/
theorem Holds.alike_created {cb new : BufferT} {memory : Nat → UInt8} (h : Holds cb [])
    (hStart : cb.writePos = 0) (hNew : bufferCreate cb.bufferSize memory = some new) :
    Alike cb new := by
  have hRead : cb.readPos = 0 := by
    have hWrite := h.write
    rw [hStart, List.length_nil] at hWrite
    omega
  have hSize := h.size
  rw [bufferCreate, if_neg (by omega : ¬ (cb.bufferSize : Int) ≤ 0)] at hNew
  cases hNew
  refine ⟨rfl, hRead, hStart, h.drift, ?_⟩
  intro i _ hLast
  rw [hStart] at hLast
  exact absurd hLast (Nat.not_lt_zero i)

/-- Nothing was stored since the buffers were created. -/
theorem Before.fresh (h : Before con) (hEmpty : Holds con.rbuf [])
    (hStart : con.rbuf.writePos = 0) : RestartsFresh env con := by
  intro fd hFd rbuf rrbuf wbuf hCreated ops
  obtain ⟨rmemory, hRbuf⟩ := hCreated.rbuf
  obtain ⟨rrmemory, hRrbuf⟩ := hCreated.rrbuf
  obtain ⟨wmemory, hWbuf⟩ := hCreated.wbuf
  have hTwin : Twin (wsconnRestart con fd) (wsconnStart (wsconnSetFd
      (wsconnCreate rbuf rrbuf wbuf con.onBuild con.onRead con.arg) fd)).2 := by
    rw [wsconnRestart_eq con hFd, wsconnNew_eq rbuf rrbuf wbuf con.onBuild con.onRead con.arg hFd,
      h.status]
    exact .mk (Holds.alike_created hEmpty hStart hRbuf)
      (Holds.alike_created h.rrbuf h.rrstart hRrbuf) (Holds.alike_created h.wbuf h.wstart hWbuf)
  have hLink : LinkTwin (⟨wsconnRestart con fd, []⟩ : Link α) ⟨(wsconnStart (wsconnSetFd
      (wsconnCreate rbuf rrbuf wbuf con.onBuild con.onRead con.arg) fd)).2, []⟩ := ⟨hTwin, rfl⟩
  exact linkStep_twin.outputs hLink ops

/-! ## Too small for a handshake -/

/-- A connection with a receive buffer in which no request ever ends. -/
structure Tiny (con : WsconnT α) : Prop where
  status : con.status ≠ .established
  wbuf : Holds con.wbuf []
  rbuf : Holds con.rbuf []
  small : con.rbuf.bufferSize < 4

/-- What every operation returns there. -/
def idleRet : LinkOp → Int
  | .receive _ => 0
  | .eof => -1
  | .fail errno => -errno
  | .send _ _ => -1
  | .write _ _ => 0

theorem Tiny.room (h : Tiny con) : 0 < bufferWriteLen con.rbuf := by
  have hRoom := h.rbuf.room
  have hSize := h.rbuf.size
  rw [List.length_nil] at hRoom
  omega

theorem Tiny.read (h : Tiny con) {socket : SockRead} (hNe : socket.bytes ≠ [])
    (hRoom : (socket.bytes.length : Int) ≤ bufferWriteLen con.rbuf) :
    ∃ rbuf, wsconnRead env con socket = some (0, { con with rbuf := rbuf }) ∧
      Tiny { con with rbuf := rbuf } := by
  cases socket with
  | again => exact absurd rfl hNe
  | error errno => exact absurd rfl hNe
  | data bytes =>
    have hEnd : handshakeEnd ([] ++ bytes) = none := by
      by_contra hThere
      obtain ⟨start, hStart⟩ := Option.ne_none_iff_exists'.mp hThere
      have hFour := (@handshakeEnd_append ([] ++ bytes) [] start hStart).2
      have hSize := h.rbuf.room
      have hSmall := h.small
      have hLength : (bytes.length : Int) ≤ bufferWriteLen con.rbuf := hRoom
      rw [List.nil_append] at hFour
      rw [List.length_nil] at hSize
      omega
    obtain ⟨rbuf, hRead, hHolds, hSize⟩ :=
      @wsconnRead_quiet α env con [] bytes h.status h.rbuf hNe hRoom hEnd
    rw [List.nil_append, List.drop_length] at hHolds
    exact ⟨rbuf, hRead, {
      status := h.status
      wbuf := h.wbuf
      rbuf := hHolds
      small := hSize ▸ h.small }⟩

theorem Tiny.call (h : Tiny con) (queue : List UInt8) (op : LinkOp) :
    ∃ rbuf, (linkCall env ⟨con, queue⟩ op).1 = some (idleRet op, { con with rbuf := rbuf }) ∧
      Tiny { con with rbuf := rbuf } := by
  have hRoom := h.room
  have hLow : ¬ bufferWriteLen con.rbuf < 0 := by omega
  have hFull : ¬ 0 = bufferWriteLen con.rbuf := by omega
  cases op with
  | receive bytes =>
    by_cases hNone : queue ++ bytes = []
    · have hSocket : fromQueue (queue ++ bytes) (bufferWriteLen con.rbuf) = .again := if_pos hNone
      refine ⟨con.rbuf, ?_, h⟩
      simp only [linkCall, hSocket, wsconnRead, if_neg hLow, if_neg hFull, idleRet]
    · have hSome : (fromQueue (queue ++ bytes) (bufferWriteLen con.rbuf)).bytes ≠ [] := by
        rw [fromQueue, if_neg hNone]
        show (queue ++ bytes).take _ ≠ []
        rw [ne_eq, List.take_eq_nil_iff]
        exact not_or.mpr ⟨by omega, hNone⟩
      exact h.read hSome (bytes_fromQueue _ (Int.le_of_lt hRoom))
  | eof =>
    refine ⟨con.rbuf, ?_, h⟩
    simp only [linkCall, wsconnRead, if_neg hLow, if_neg hFull, idleRet]
  | fail errno =>
    refine ⟨con.rbuf, ?_, h⟩
    simp only [linkCall, wsconnRead, if_neg hLow, if_neg hFull, idleRet]
  | send buffer buflen => exact ⟨con.rbuf, wsconnSend_before h.status buffer buflen, h⟩
  | write count errno => exact ⟨con.rbuf, wsconnWrite_nothing h.wbuf count errno, h⟩

/-- Two such connections. -/
def BothTiny (s t : Link α) : Prop := Tiny s.con ∧ Tiny t.con ∧ s.con.arg = t.con.arg

private theorem linkStep_tiny : InStep (linkStep (α := α) env) BothTiny := by
  intro s t op h
  obtain ⟨c, queue⟩ := s
  obtain ⟨d, queue'⟩ := t
  obtain ⟨hLeft, hRight, hArg⟩ := h
  have hSame : c.arg = d.arg := hArg
  obtain ⟨rbuf, hCall, hTiny⟩ := @Tiny.call α env c hLeft queue op
  obtain ⟨rbuf', hCall', hTiny'⟩ := @Tiny.call α env d hRight queue' op
  simp only [linkStep, hCall, hCall', Option.map_some]
  refine .some ⟨?_, hTiny, hTiny', hSame⟩
  show shown (idleRet op, { c with rbuf := rbuf }) = shown (idleRet op, { d with rbuf := rbuf' })
  have hEmpty := hTiny.wbuf.content_eq
  have hEmpty' := hTiny'.wbuf.content_eq
  rw [shown, shown, hEmpty, hEmpty', hSame]

theorem Before.fresh_tiny (h : Before con) (hEmpty : Holds con.rbuf [])
    (hSmall : con.rbuf.bufferSize < 4) : RestartsFresh env con := by
  intro fd hFd rbuf rrbuf wbuf hCreated ops
  obtain ⟨rmemory, hRbuf⟩ := hCreated.rbuf
  obtain ⟨wmemory, hWbuf⟩ := hCreated.wbuf
  have hNew := created_holds hEmpty.int hRbuf
  have hOld : Tiny (wsconnRestart con fd) := by
    rw [wsconnRestart_eq con hFd]
    exact {
      status := by
        show con.status ≠ .established
        rw [h.status]
        decide
      wbuf := h.wbuf
      rbuf := hEmpty
      small := hSmall }
  have hSize : rbuf.bufferSize = con.rbuf.bufferSize := size_bufferCreate hRbuf
  have hLink : BothTiny (⟨wsconnRestart con fd, []⟩ : Link α) ⟨(wsconnStart (wsconnSetFd
      (wsconnCreate rbuf rrbuf wbuf con.onBuild con.onRead con.arg) fd)).2, []⟩ := by
    refine ⟨hOld, ?_, ?_⟩
    · rw [wsconnNew_eq rbuf rrbuf wbuf con.onBuild con.onRead con.arg hFd]
      exact {
        status := WsStatus.noConfusion
        wbuf := (created_holds h.wbuf.int hWbuf).1
        rbuf := hNew.1
        small := hSize ▸ hSmall }
    · rw [wsconnNew_eq rbuf rrbuf wbuf con.onBuild con.onRead con.arg hFd, wsconnRestart_eq con hFd]
  exact linkStep_tiny.outputs hLink ops

/-! ## A connection that does not start anew -/

theorem seen_one (op : LinkOp) :
    seen env con [op] = (linkCall env ⟨con, []⟩ op).1.map fun out => [shown out] := by
  simp only [seen, run, linkStep]
  cases (linkCall env ⟨con, []⟩ op).1 with
  | none => rfl
  | some out => rfl

/-- An empty buffer of the same size. -/
def blank (cb : BufferT) : BufferT where
  bufferSize := cb.bufferSize
  readPos := 0
  writePos := 0
  driftThreshold := cb.bufferSize / 2
  buffer := fun _ => 0

/-- The connection, restarted. -/
def reused (con : WsconnT α) : WsconnT α := { con with fd := 0, events := eventIn }

/-- A new connection in its place. -/
def renewed (con : WsconnT α) : WsconnT α where
  fd := 0
  events := eventIn
  rbuf := blank con.rbuf
  rrbuf := blank con.rrbuf
  wbuf := blank con.wbuf
  onBuild := con.onBuild
  onRead := con.onRead
  arg := con.arg
  status := .init

theorem bufferCreate_blank {cb : BufferT} (hSize : 0 < cb.bufferSize) :
    bufferCreate cb.bufferSize (fun _ => 0) = some (blank cb) := by
  rw [bufferCreate, if_neg (by omega : ¬ (cb.bufferSize : Int) ≤ 0)]
  rfl

/-- One operation is enough to compare the two. -/
theorem RestartsFresh.one (h : RestartsFresh env con) (hSound : Sound con) (op : LinkOp) :
    (linkCall env ⟨reused con, []⟩ op).1.map shown =
      (linkCall env ⟨renewed con, []⟩ op).1.map shown := by
  obtain ⟨out, hHolds⟩ := hSound.wbuf
  have hFd : (0 : Int) ≠ invalidSock := by decide
  have hCreated : Created con.rbuf.bufferSize con.rrbuf.bufferSize con.wbuf.bufferSize
      (blank con.rbuf) (blank con.rrbuf) (blank con.wbuf) := {
    rbuf := ⟨_, bufferCreate_blank hSound.rbuf⟩
    rrbuf := ⟨_, bufferCreate_blank hSound.rrbuf⟩
    wbuf := ⟨_, bufferCreate_blank hHolds.size⟩ }
  have hSame := h 0 hFd _ _ _ hCreated [op]
  rw [wsconnNew_eq _ _ _ _ _ _ hFd, wsconnRestart_eq con hFd, seen_one, seen_one] at hSame
  have hFirst := congrArg (Option.map fun outs => outs.head?) hSame
  rw [Option.map_map, Option.map_map] at hFirst
  apply Option.map_injective (Option.some_injective _)
  rw [Option.map_map, Option.map_map]
  exact hFirst

/-- A connection that is established sends at once. -/
theorem Sound.not_fresh_established (h : Sound con) (hEst : con.status = .established) :
    ¬ RestartsFresh env con := by
  intro hFresh
  have hOne := hFresh.one h (.send (some []) 0)
  have hNew : wsconnSend (renewed con) (some []) 0 = some (-1, renewed con) :=
    wsconnSend_before WsStatus.noConfusion (some []) 0
  have hRight : (linkCall env ⟨renewed con, []⟩ (.send (some []) 0)).1.map shown =
      some (-1, [], con.arg) := congrArg (Option.map shown) hNew
  rw [hRight] at hOne
  obtain ⟨⟨ret, con'⟩, hSend, hShown⟩ := Option.map_eq_some_iff.mp hOne
  have hRun : wsconnSend (reused con) (some []) ([] : List UInt8).length = some (ret, con') := hSend
  obtain ⟨hRet, hRest⟩ := Prod.mk.inj hShown
  have hNothing : con'.wbuf.content = [] := (Prod.mk.inj hRest).1
  obtain ⟨out, hHolds⟩ := h.wbuf
  have hReused : Holds (reused con).wbuf out := hHolds
  by_cases hRoom : bufferWriteLen (reused con).wbuf < sentSize 0
  · rw [@wsconnSend_short α (reused con) [] hEst hRoom, if_neg (by decide)] at hRun
    by_cases hFull : bufferWriteLen (reused con).wbuf = 0
    · rw [WsconnT.write_full hFull] at hRun
      cases hRun
      have hSize := hReused.room
      have hPos := hReused.size
      rw [hReused.content_eq] at hNothing
      rw [hNothing, List.length_nil] at hSize
      omega
    · have hLeast := hReused.room.1
      obtain ⟨wbuf, hWrite, hHolds', -⟩ :=
        @WsconnT.write_spec α (reused con) out hReused [0x81] 1 (by omega) le_rfl
      rw [Nat.cast_one] at hWrite
      rw [hWrite] at hRun
      cases hRun
      rw [hHolds'.content_eq] at hNothing
      exact List.cons_ne_nil _ _ (List.append_eq_nil_iff.mp hNothing).2
  · obtain ⟨wbuf, hSent, -⟩ := @wsconnSend_spec α (reused con) out hReused hEst [] (by decide)
      (Int.not_lt.mp hRoom)
    rw [hSent] at hRun
    cases hRun
    have hMinus : (0 : Int) = -1 := hRet
    exact absurd hMinus (by decide)

/-- A read that brings no end of a request, as it is seen. -/
theorem receive_quiet {bytes : List UInt8} (hStatus : con.status ≠ .established)
    (hWbuf : Holds con.wbuf []) (h : Holds con.rbuf [])
    (hTake : bytes.take (bufferWriteLen con.rbuf).toNat ≠ [])
    (hEnd : handshakeEnd (bytes.take (bufferWriteLen con.rbuf).toNat) = none) :
    (linkCall env ⟨con, []⟩ (.receive bytes)).1.map shown = some (0, [], con.arg) := by
  have hRoom := h.room.1
  have hNe : bytes ≠ [] := by
    intro hNil
    rw [hNil, List.take_nil] at hTake
    exact hTake rfl
  have hLength : ((bytes.take (bufferWriteLen con.rbuf).toNat).length : Int) ≤
      bufferWriteLen con.rbuf := by
    rw [List.length_take]
    omega
  obtain ⟨rbuf, hRead, -⟩ := @wsconnRead_quiet α env con [] _ hStatus h hTake hLength hEnd
  simp only [linkCall, List.nil_append, fromQueue, if_neg hNe, hRead, Option.map_some]
  show some (0, con.wbuf.content, con.arg) = _
  rw [hWbuf.content_eq]

/-- A read that brings the end of a request shows something else. -/
theorem receive_request {bytes : List UInt8} {arg : α} (hStatus : con.status ≠ .established)
    (hWbuf : Holds con.wbuf []) (h : Holds con.rbuf rest)
    (hEnd : handshakeEnd (rest ++ bytes.take (bufferWriteLen con.rbuf).toNat) ≠ none)
    (hNe : bytes ≠ []) :
    (linkCall env ⟨con, []⟩ (.receive bytes)).1.map shown ≠ some (0, [], arg) := by
  intro hSame
  have hRoom := h.room.1
  obtain ⟨⟨ret, con'⟩, hCall, hShown⟩ := Option.map_eq_some_iff.mp hSame
  obtain ⟨hRet, hRest⟩ := Prod.mk.inj hShown
  have hNothing : con'.wbuf.content = [] := (Prod.mk.inj hRest).1
  have hZero : ret = 0 := hRet
  simp only [linkCall, List.nil_append, fromQueue, if_neg hNe] at hCall
  by_cases hFull : 0 = bufferWriteLen con.rbuf
  · simp only [wsconnRead, if_neg (by omega : ¬ bufferWriteLen con.rbuf < 0), if_pos hFull] at hCall
    cases hCall
    cases hZero
  have hTake : bytes.take (bufferWriteLen con.rbuf).toNat ≠ [] := by
    rw [ne_eq, List.take_eq_nil_iff]
    exact not_or.mpr ⟨by omega, hNe⟩
  have hLength : ((bytes.take (bufferWriteLen con.rbuf).toNat).length : Int) ≤
      bufferWriteLen con.rbuf := by
    rw [List.length_take]
    omega
  rcases wsconnRead_request hStatus h hWbuf hTake hLength hEnd hCall with
    ⟨hRefused, -⟩ | ⟨-, -, -, more, hMore, hHolds⟩
  · rw [hZero] at hRefused
    cases hRefused
  · rw [hHolds.content_eq] at hNothing
    exact hMore hNothing

theorem blank_empty {cb : BufferT} (h : Holds cb rest) : Holds (blank cb) [] :=
  Holds.empty h.size h.int

theorem bufferWriteLen_blank (cb : BufferT) : bufferWriteLen (blank cb) = cb.bufferSize := by
  rw [bufferWriteLen]
  exact Int.sub_zero _

/-- A refused request that is still there is refused again. -/
theorem Before.not_fresh_rest (h : Before con) (hHolds : Holds con.rbuf rest)
    (hEnd : handshakeEnd rest ≠ none) : ¬ RestartsFresh env con := by
  intro hFresh
  have hOne := hFresh.one h.sound (.receive [0x61])
  have hStatus : (reused con).status ≠ .established := by
    show con.status ≠ .established
    rw [h.status]
    exact WsStatus.noConfusion
  have hSize := hHolds.size
  have hAll : [(0x61 : UInt8)].take (bufferWriteLen (renewed con).rbuf).toNat = [0x61] := by
    apply List.take_of_length_le
    show [(0x61 : UInt8)].length ≤ (bufferWriteLen (blank con.rbuf)).toNat
    rw [bufferWriteLen_blank, Int.toNat_natCast]
    exact hSize
  have hNew : (linkCall env ⟨renewed con, []⟩ (.receive [0x61])).1.map shown =
      some (0, [], con.arg) := by
    apply receive_quiet WsStatus.noConfusion (blank_empty h.wbuf) (blank_empty hHolds)
    · rw [hAll]
      exact List.cons_ne_nil _ _
    · rw [hAll]
      decide
  rw [hNew] at hOne
  obtain ⟨start, hStart⟩ := Option.ne_none_iff_exists'.mp hEnd
  have hStill : handshakeEnd (rest ++ [0x61].take (bufferWriteLen (reused con).rbuf).toNat) ≠
      none := by
    rw [(handshakeEnd_append hStart).1]
    exact Option.some_ne_none start
  exact receive_request hStatus h.wbuf hHolds hStill (List.cons_ne_nil _ _) hOne

/-- A text with an end of a request, the last thing in it. -/
def filled (count : Nat) : List UInt8 := List.replicate count 0x61 ++ [0x0d, 0x0a, 0x0d, 0x0a]

private theorem handshakeEnd_filled (count : Nat) : handshakeEnd (filled count) = some count := by
  induction count with
  | zero => decide
  | succ count ih =>
    have hNot : ¬ [0x0d, 0x0a, 0x0d, 0x0a] <+: 0x61 :: filled count := by
      intro hPrefix
      have hHead := (List.cons_prefix_cons.mp hPrefix).1
      exact absurd hHead (by decide)
    rw [filled, List.replicate_succ, List.cons_append, handshakeEnd]
    show (if [0x0d, 0x0a, 0x0d, 0x0a] <+: 0x61 :: filled count then some 0
      else (handshakeEnd (filled count)).map (· + 1)) = _
    rw [if_neg hNot, ih]
    rfl

private theorem length_filled (count : Nat) : (filled count).length = count + 4 := by
  rw [filled, List.length_append, List.length_replicate]
  rfl

/-- Where there is less room than in a new buffer, a request that fits there does not fit. -/
theorem Before.not_fresh_gap (h : Before con) (hHolds : Holds con.rbuf [])
    (hGap : con.rbuf.writePos ≠ 0) (hSize : 4 ≤ con.rbuf.bufferSize) :
    ¬ RestartsFresh env con := by
  intro hFresh
  have hOne := hFresh.one h.sound (.receive (filled (con.rbuf.bufferSize - 4)))
  have hStatus : (reused con).status ≠ .established := by
    show con.status ≠ .established
    rw [h.status]
    exact WsStatus.noConfusion
  have hLength := length_filled (con.rbuf.bufferSize - 4)
  have hEnd := handshakeEnd_filled (con.rbuf.bufferSize - 4)
  have hRoom := hHolds.room
  rw [List.length_nil] at hRoom
  have hLess : bufferWriteLen con.rbuf < con.rbuf.bufferSize := by
    rw [bufferWriteLen]
    omega
  generalize hText : filled (con.rbuf.bufferSize - 4) = text at hOne hLength hEnd
  have hOld : (linkCall env ⟨reused con, []⟩ (.receive text)).1.map shown =
      some (0, [], con.arg) := by
    apply receive_quiet hStatus h.wbuf hHolds
    · rw [ne_eq, List.take_eq_nil_iff, ← List.length_eq_zero_iff]
      show ¬ ((bufferWriteLen con.rbuf).toNat = 0 ∨ text.length = 0)
      omega
    · show handshakeEnd (text.take (bufferWriteLen con.rbuf).toNat) = none
      by_contra hThere
      obtain ⟨start, hStart⟩ := Option.ne_none_iff_exists'.mp hThere
      obtain ⟨hSame, hFour⟩ :=
        @handshakeEnd_append _ (text.drop (bufferWriteLen con.rbuf).toNat) start hStart
      rw [List.take_append_drop, hEnd] at hSame
      rw [List.length_take] at hFour
      cases hSame
      omega
  rw [hOld] at hOne
  have hAll : text.take (bufferWriteLen (renewed con).rbuf).toNat = text := by
    apply List.take_of_length_le
    show text.length ≤ (bufferWriteLen (blank con.rbuf)).toNat
    rw [bufferWriteLen_blank, Int.toNat_natCast]
    omega
  have hStill : handshakeEnd ([] ++ text.take (bufferWriteLen (renewed con).rbuf).toNat) ≠
      none := by
    rw [List.nil_append, hAll, hEnd]
    exact Option.some_ne_none _
  have hSome : text ≠ [] := List.ne_nil_of_length_pos (by omega)
  exact receive_request WsStatus.noConfusion (blank_empty h.wbuf) (blank_empty hHolds) hStill hSome
    hOne.symm

end

/-- Whatever came before, a restarted connection behaves like a new one if and only if its handshake
was not done and nothing is left of what was received. -/
theorem wsconnRestart_fresh_iff {env : HandshakeEnv} {s : Link α} (h : Reached env s) :
    RestartsFresh env s.con ↔ Untouched s.con := by
  have hSound := h.sound
  by_cases hEst : s.con.status = .established
  · exact iff_of_false (hSound.not_fresh_established hEst) fun hClean => hClean.1 hEst
  have hBefore := hSound.before hEst
  obtain ⟨rest, hHolds, hRest⟩ := hBefore.rbuf
  rw [Untouched, hHolds.content_eq, and_iff_right hEst]
  cases hRest with
  | inr hEnd =>
    apply iff_of_false (hBefore.not_fresh_rest hHolds hEnd)
    intro hClean
    rw [hClean.1] at hEnd
    exact hEnd rfl
  | inl hNil =>
    rw [hNil] at hHolds
    rw [and_iff_right hNil]
    by_cases hStart : s.con.rbuf.writePos = 0
    · exact iff_of_true (hBefore.fresh hHolds hStart) (Or.inl hStart)
    by_cases hSmall : s.con.rbuf.bufferSize < 4
    · exact iff_of_true (hBefore.fresh_tiny hHolds hSmall) (Or.inr hSmall)
    · apply iff_of_false (hBefore.not_fresh_gap hHolds hStart (by omega))
      exact not_or.mpr ⟨hStart, hSmall⟩

/-- A new connection with buffers of the default size. -/
def newLink : Link Nat where
  con := (wsconnStart (wsconnSetFd
    (wsconnCreate startedBuffer startedBuffer startedBuffer none none 0) 5)).2
  queue := []

theorem newLink_reached : Reached plainEnv newLink := by
  have hBuffer : ∃ memory, bufferCreate wsconnBufferSize memory = some startedBuffer :=
    ⟨fun _ => 0, rfl⟩
  exact Reached.start ⟨hBuffer, hBuffer, hBuffer⟩ (by decide) (by decide) (by decide) (by decide)
    none none 0

/-- The connection after a send that was refused, a read that failed, a new argument for the
callbacks and a restart with another socket. -/
def usedLink : Link Nat := ⟨wsconnRestart { newLink.con with arg := 3 } 6, []⟩

theorem usedLink_reached : Reached plainEnv usedLink := by
  have hSend : linkStep plainEnv newLink (.send (some [104, 105]) 2) = some ((-1, [], 0), newLink) :=
    rfl
  have hFail : linkStep plainEnv newLink (.fail 104) = some ((-104, [], 0), newLink) := rfl
  have hFailed := (newLink_reached.step hSend).step hFail
  exact (hFailed.set none none 3).restart (by decide)

theorem wsconnRestart_fresh_new :
    RestartsFresh plainEnv newLink.con ∧ RestartsFresh plainEnv usedLink.con := by
  have hEmpty := startedBuffer_empty.content_eq
  exact ⟨(wsconnRestart_fresh_iff newLink_reached).mpr ⟨WsStatus.noConfusion, hEmpty, Or.inl rfl⟩,
    (wsconnRestart_fresh_iff usedLink_reached).mpr ⟨WsStatus.noConfusion, hEmpty, Or.inl rfl⟩⟩

/-- After a handshake, a restarted connection takes what is to be sent before the next one. -/
theorem wsconnRestart_established : ∃ out s,
    linkStep plainEnv newLink (.receive plainRequest) = some (out, s) ∧ Reached plainEnv s ∧
      ¬ RestartsFresh plainEnv s.con := by
  have hAccepted : (linkStep plainEnv newLink (.receive plainRequest)).map
      (fun out => out.2.con.status) = some .established := by
    decide +kernel
  obtain ⟨⟨out, s⟩, hStep, hEst⟩ := Option.map_eq_some_iff.mp hAccepted
  have hReached := newLink_reached.step hStep
  exact ⟨out, s, hStep, hReached, hReached.sound.not_fresh_established hEst⟩

end Gbase.Net.Wsconn
