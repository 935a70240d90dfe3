import Gbase.Net.Connector
import Gbase.Net.WsStream

/-!
# Restarting a websocket connection (`net/wsconn.c`)

A connection is stopped, given another socket and started again.  `wsconn_stop` leaves the status
and the three buffers as they are, while `con_stop` of the plain connector resets its buffers.

The reactor calls `_wsconn_read` when bytes have arrived and `_wsconn_write` when the socket takes
some; the bytes that `_wsconn_read` has no room for stay in the socket.  The socket is closed by
`wsconn_stop`, with what is left in it.

## Main results

* `wsconnSend_kept`, `wsconnWrite_kept`, `wsconnRead_kept`: what an operation leaves alone.
* `wsconnHandshake_cases`: a request is refused and changes nothing, or it is answered.
-/

namespace Gbase.Net.Wsconn

open Gbase.Base.Buffer
open Gbase.Lib.Run
open Gbase.Net.Connector (invalidSock eagain)
open Gbase.Net.Reactor (eintr)

variable {α : Type}

/-- `_wsconn_write`, when `write()` returns `res` and leaves `errno`. -/
def wsconnWrite (con : WsconnT α) (res errno : Int) : Option (Int × WsconnT α) :=
  let nwrite := bufferReadLen con.wbuf
  if nwrite = 0 then some (0, con)
  else if res < 0 then
    if eagain = errno ∨ eintr = errno then some (0, con) else some (-errno, con)
  else if 0 = res then some (-1, con)
  else do
    let (_, wbuf) ← bufferReadNocopy con.wbuf res
    let con := { con with wbuf := wbuf }
    return (0, if res = nwrite then reactorModify con eventIn else con)

/-- `wsconn_create`, with the buffers and the callbacks that are set then. -/
def wsconnCreate (rbuf rrbuf wbuf : BufferT) (onBuild : Option (Int → α → α))
    (onRead : Option (Int → α → List UInt8 → Int × α)) (arg : α) : WsconnT α where
  fd := invalidSock
  events := 0
  rbuf := rbuf
  rrbuf := rrbuf
  wbuf := wbuf
  onBuild := onBuild
  onRead := onRead
  arg := arg
  status := .init

/-- `wsconn_set_fd` -/
def wsconnSetFd (con : WsconnT α) (fd : Int) : WsconnT α := { con with fd := fd }

/-- `wsconn_start`, when the reactor takes the connection. -/
def wsconnStart (con : WsconnT α) : Int × WsconnT α :=
  if con.fd = invalidSock then (-1, con) else (0, { con with events := eventIn })

/-- `wsconn_stop` -/
def wsconnStop (con : WsconnT α) : Int × WsconnT α :=
  if con.fd = invalidSock then (-1, con) else (0, { con with fd := invalidSock, events := 0 })

/-- `wsconn_stop`, `wsconn_set_fd` and `wsconn_start`. -/
def wsconnRestart (con : WsconnT α) (fd : Int) : WsconnT α :=
  (wsconnStart (wsconnSetFd (wsconnStop con).2 fd)).2

/-! ## Runs -/

/-- A connection, with the bytes that wait in its socket. -/
structure Link (α : Type) where
  con : WsconnT α
  queue : List UInt8

/-- What happens to a connection: bytes arrive, or nothing more does, or the socket fails, and it is
read; the application sends; the socket takes bytes. -/
inductive LinkOp where
  | receive (bytes : List UInt8)
  | eof
  | fail (errno : Nat)
  | send (buffer : Option (List UInt8)) (buflen : Int)
  | write (res errno : Int)

/-- What is seen of an operation: the value returned, the bytes to write, and what the callbacks
have done. -/
def shown (out : Int × WsconnT α) : Int × List UInt8 × α := (out.1, out.2.wbuf.content, out.2.arg)

/-- What the socket gives to a read that has so much room. -/
def fromQueue (queue : List UInt8) (room : Int) : SockRead :=
  if queue = [] then .again else .data (queue.take room.toNat)

/-- One operation, and what is left in the socket then. -/
def linkCall (env : HandshakeEnv) (s : Link α) : LinkOp → Option (Int × WsconnT α) × List UInt8
  | .receive bytes =>
      let room := bufferWriteLen s.con.rbuf
      (wsconnRead env s.con (fromQueue (s.queue ++ bytes) room),
        (s.queue ++ bytes).drop room.toNat)
  | .eof => (wsconnRead env s.con (.data []), s.queue)
  | .fail errno => (wsconnRead env s.con (.error errno), s.queue)
  | .send buffer buflen => (wsconnSend s.con buffer buflen, s.queue)
  | .write res errno => (wsconnWrite s.con res errno, s.queue)

/-- One operation, with what is seen of it. -/
def linkStep (env : HandshakeEnv) : Step (Link α) LinkOp (Int × List UInt8 × α) := fun s op =>
  (linkCall env s op).1.map fun out => (shown out, ⟨out.2, (linkCall env s op).2⟩)

/-- What is seen of a run. -/
def seen (env : HandshakeEnv) (con : WsconnT α) (ops : List LinkOp) :
    Option (List (Int × List UInt8 × α)) :=
  (run (linkStep env) ⟨con, []⟩ ops).map Prod.fst

/-- The three buffers, just created with the given sizes. -/
structure Created (rsize rrsize wsize : Nat) (rbuf rrbuf wbuf : BufferT) : Prop where
  rbuf : ∃ memory, bufferCreate rsize memory = some rbuf
  rrbuf : ∃ memory, bufferCreate rrsize memory = some rrbuf
  wbuf : ∃ memory, bufferCreate wsize memory = some wbuf

/-- Every history of a connection: it is created with buffers of some sizes, of type `int`, and
started; there are operations, and the application sets callbacks; it is restarted. -/
inductive Reached (env : HandshakeEnv) : Link α → Prop
  | start {rsize rrsize wsize : Nat} {rbuf rrbuf wbuf : BufferT}
      (hCreated : Created rsize rrsize wsize rbuf rrbuf wbuf) (hRsize : rsize < 2 ^ 31)
      (hRrsize : rrsize < 2 ^ 31) (hWsize : wsize < 2 ^ 31) {fd : Int} (hFd : fd ≠ invalidSock)
      (onBuild : Option (Int → α → α)) (onRead : Option (Int → α → List UInt8 → Int × α))
      (arg : α) :
      Reached env
        ⟨(wsconnStart (wsconnSetFd (wsconnCreate rbuf rrbuf wbuf onBuild onRead arg) fd)).2, []⟩
  | step {s t : Link α} {op : LinkOp} {out : Int × List UInt8 × α} (h : Reached env s)
      (hStep : linkStep env s op = some (out, t)) : Reached env t
  | set {s : Link α} (h : Reached env s) (onBuild : Option (Int → α → α))
      (onRead : Option (Int → α → List UInt8 → Int × α)) (arg : α) :
      Reached env ⟨{ s.con with onBuild := onBuild, onRead := onRead, arg := arg }, s.queue⟩
  | restart {s : Link α} (h : Reached env s) {fd : Int} (hFd : fd ≠ invalidSock) :
      Reached env ⟨wsconnRestart s.con fd, []⟩

/-- The connection, restarted, shows what a new one shows that has the same callbacks and empty
buffers of the same size. -/
def RestartsFresh (env : HandshakeEnv) (con : WsconnT α) : Prop :=
  ∀ fd, fd ≠ invalidSock → ∀ rbuf rrbuf wbuf,
    Created con.rbuf.bufferSize con.rrbuf.bufferSize con.wbuf.bufferSize rbuf rrbuf wbuf →
    ∀ ops, seen env (wsconnRestart con fd) ops =
      seen env (wsconnStart (wsconnSetFd
        (wsconnCreate rbuf rrbuf wbuf con.onBuild con.onRead con.arg) fd)).2 ops

/-- The handshake is not done, and nothing is left of what was received: no bytes, and no gap that
they have left in front.  In less than four bytes no handshake ever ends, and the gap does not
matter. -/
def Untouched (con : WsconnT α) : Prop :=
  con.status ≠ .established ∧ con.rbuf.content = [] ∧
    (con.rbuf.writePos = 0 ∨ con.rbuf.bufferSize < 4)

/-! ## What an operation leaves alone -/

section

variable {env : HandshakeEnv} {con con' : WsconnT α} {out rest bytes data text : List UInt8}
  {res count : Int} {fd : Int}

theorem wsconnStart_setFd (con : WsconnT α) (hFd : fd ≠ invalidSock) :
    (wsconnStart (wsconnSetFd con fd)).2 = { con with fd := fd, events := eventIn } := by
  rw [wsconnStart, if_neg (show ¬ (wsconnSetFd con fd).fd = invalidSock from hFd)]
  rfl

theorem wsconnRestart_eq (con : WsconnT α) (hFd : fd ≠ invalidSock) :
    wsconnRestart con fd = { con with fd := fd, events := eventIn } := by
  rw [wsconnRestart, wsconnStop]
  split
  · exact wsconnStart_setFd con hFd
  · exact wsconnStart_setFd { con with fd := invalidSock, events := 0 } hFd

/-- The status stays, and so do the sizes of the buffers; the bytes to write are still a buffer. -/
structure Kept (con con' : WsconnT α) : Prop where
  status : con'.status = con.status
  rbuf : con'.rbuf.bufferSize = con.rbuf.bufferSize
  rrbuf : con'.rrbuf.bufferSize = con.rrbuf.bufferSize
  wbuf : (∃ out, Holds con.wbuf out) → ∃ out, Holds con'.wbuf out

theorem Kept.trans {con'' : WsconnT α} (h : Kept con con') (h' : Kept con' con'') :
    Kept con con'' where
  status := h'.status.trans h.status
  rbuf := h'.rbuf.trans h.rbuf
  rrbuf := h'.rrbuf.trans h.rrbuf
  wbuf := fun hWbuf => h'.wbuf (h.wbuf hWbuf)

theorem kept_of_eq (hStatus : con'.status = con.status) (hWbuf : con'.wbuf = con.wbuf)
    (hRbuf : con'.rbuf.bufferSize = con.rbuf.bufferSize)
    (hRrbuf : con'.rrbuf.bufferSize = con.rrbuf.bufferSize) : Kept con con' where
  status := hStatus
  rbuf := hRbuf
  rrbuf := hRrbuf
  wbuf := fun hHolds => hWbuf ▸ hHolds

theorem size_store {cb cb' : BufferT} {start : Nat} (h : cb.store start bytes = some cb') :
    cb'.bufferSize = cb.bufferSize := by
  rw [BufferT.store] at h
  split at h
  · cases h
    rfl
  · cases h

private theorem size_bufferWriteNocopy {cb cb' : BufferT} {len : Int}
    (h : bufferWriteNocopy cb len = some (res, cb')) : cb'.bufferSize = cb.bufferSize := by
  simp only [bufferWriteNocopy] at h
  generalize (if bufferWriteLen cb < len then bufferWriteLen cb else len) = count at h
  split at h
  · cases h
    rfl
  split at h
  · cases h
  · cases h
    rfl

private theorem size_bufferWrite {cb cb' : BufferT} {src : Option (List UInt8)} {len : Int}
    (h : bufferWrite cb src len = some (res, cb')) : cb'.bufferSize = cb.bufferSize := by
  cases src with
  | none =>
    cases h
    rfl
  | some src =>
    simp only [bufferWrite] at h
    generalize (if 0 < len ∧ bufferWriteLen cb < len then bufferWriteLen cb else len) = count at h
    split at h
    · cases h
      rfl
    split at h
    · cases h
      rfl
    split at h
    · cases h
    · obtain ⟨filled, hStore, h⟩ := Option.bind_eq_some_iff.mp h
      exact (size_bufferWriteNocopy h).trans (size_store hStore)

theorem size_bufferReadNocopy {cb cb' : BufferT} {len : Int}
    (h : bufferReadNocopy cb len = some (res, cb')) : cb'.bufferSize = cb.bufferSize := by
  simp only [bufferReadNocopy] at h
  generalize (if len > bufferReadLen cb then bufferReadLen cb else len.toNat) = count at h
  split at h
  · cases h
    rfl
  split at h
  · cases h
  split at h
  · obtain ⟨rest, -, h⟩ := Option.bind_eq_some_iff.mp h
    split at h
    · cases h
    · obtain ⟨moved, hStore, h⟩ := Option.bind_eq_some_iff.mp h
      have hSize := size_store hStore
      cases h
      exact hSize
  · cases h
    rfl

/-- What is written to a buffer, whatever the length, leaves a buffer. -/
theorem bufferWrite_holds {cb cb' : BufferT} {src : Option (List UInt8)} {len : Int}
    (h : Holds cb out) (hWrite : bufferWrite cb src len = some (res, cb')) :
    ∃ out, Holds cb' out := by
  cases src with
  | none =>
    cases hWrite
    exact ⟨out, h⟩
  | some src =>
    by_cases hNeg : len < 0
    · rw [bufferWrite_negative hNeg] at hWrite
      cases hWrite
      exact ⟨out, h⟩
    · by_cases hSrc : min len (bufferWriteLen cb) ≤ src.length
      · obtain ⟨cb₁, hEq, hHolds, -⟩ := bufferWrite_spec h (by omega) hSrc
        rw [hEq] at hWrite
        cases hWrite
        exact ⟨_, hHolds⟩
      · have hRoom := h.room
        have hClamp : (if 0 < len ∧ bufferWriteLen cb < len then bufferWriteLen cb else len) =
            min len (bufferWriteLen cb) := by
          split <;> omega
        simp only [bufferWrite, hClamp, if_neg (by omega : ¬ min len (bufferWriteLen cb) < 0),
          if_neg (by omega : ¬ 0 = min len (bufferWriteLen cb)),
          if_pos (by omega : src.length < (min len (bufferWriteLen cb)).toNat)] at hWrite
        cases hWrite

theorem write_kept {src : List UInt8} {len : Int} (h : con.write src len = some con') :
    Kept con con' := by
  rw [WsconnT.write] at h
  obtain ⟨⟨count, wbuf⟩, hWrite, rfl⟩ := Option.map_eq_some_iff.mp h
  exact {
    status := rfl
    rbuf := rfl
    rrbuf := rfl
    wbuf := fun hWbuf => by
      obtain ⟨out, hHolds⟩ := hWbuf
      exact bufferWrite_holds hHolds hWrite }

theorem wsconnSend_kept {buffer : Option (List UInt8)} {buflen : Int}
    (h : wsconnSend con buffer buflen = some (res, con')) : Kept con con' := by
  cases buffer with
  | none =>
    cases h
    exact kept_of_eq rfl rfl rfl rfl
  | some buffer =>
    simp only [wsconnSend] at h
    split at h
    · cases h
      exact kept_of_eq rfl rfl rfl rfl
    split at h
    · cases h
      exact kept_of_eq rfl rfl rfl rfl
    obtain ⟨con₁, hHead, h⟩ := Option.bind_eq_some_iff.mp h
    have hKept := write_kept hHead
    split at h
    · split at h
      · cases h
        exact hKept
      · iterate 2
          obtain ⟨con₁, hNext, h⟩ := Option.bind_eq_some_iff.mp h
          replace hKept := hKept.trans (write_kept hNext)
        cases h
        exact hKept.trans (kept_of_eq rfl rfl rfl rfl)
    split at h
    · split at h
      · cases h
        exact hKept
      · iterate 4
          obtain ⟨con₁, hNext, h⟩ := Option.bind_eq_some_iff.mp h
          replace hKept := hKept.trans (write_kept hNext)
        cases h
        exact hKept.trans (kept_of_eq rfl rfl rfl rfl)
    split at h
    · cases h
    split at h
    · cases h
      exact hKept
    · iterate 10
        obtain ⟨con₁, hNext, h⟩ := Option.bind_eq_some_iff.mp h
        replace hKept := hKept.trans (write_kept hNext)
      cases h
      exact hKept.trans (kept_of_eq rfl rfl rfl rfl)

theorem wsconnWrite_kept {errno : Int}
    (h : wsconnWrite con count errno = some (res, con')) : Kept con con' := by
  simp only [wsconnWrite, Option.bind_eq_bind] at h
  split at h
  · cases h
    exact kept_of_eq rfl rfl rfl rfl
  split at h
  · split at h <;> cases h <;> exact kept_of_eq rfl rfl rfl rfl
  split at h
  · cases h
    exact kept_of_eq rfl rfl rfl rfl
  · obtain ⟨⟨taken, wbuf⟩, hRead, h⟩ := Option.bind_eq_some_iff.mp h
    have hWbuf : (∃ out, Holds con.wbuf out) → ∃ out, Holds wbuf out := by
      intro hSome
      obtain ⟨out, hHolds⟩ := hSome
      obtain ⟨wbuf', hEq, hHolds', -⟩ := @bufferReadNocopy_spec con.wbuf out count hHolds (by omega)
      rw [hEq] at hRead
      cases hRead
      exact ⟨_, hHolds'⟩
    cases h
    split
    · exact ⟨rfl, rfl, rfl, hWbuf⟩
    · exact ⟨rfl, rfl, rfl, hWbuf⟩

theorem wsconnFrame_kept {data' : List UInt8} (h : wsconnFrame con data = some (res, con', data')) :
    Kept con con' := by
  obtain ⟨head, -, h⟩ := Option.bind_eq_some_iff.mp h
  cases head with
  | error ret =>
    cases h
    exact kept_of_eq rfl rfl rfl rfl
  | ok frame =>
    simp only [wsconnFramePayload, Option.bind_eq_bind] at h
    obtain ⟨plain, -, h⟩ := Option.bind_eq_some_iff.mp h
    obtain ⟨⟨ret, rrbuf⟩, hWrite, h⟩ := Option.bind_eq_some_iff.mp h
    have hSize := size_bufferWrite hWrite
    split at h
    · cases h
      exact kept_of_eq rfl rfl rfl hSize
    split at h
    · cases h
    obtain ⟨buffer, -, h⟩ := Option.bind_eq_some_iff.mp h
    by_cases hTaken : (con.answer buffer ret).1 > 0
    · rw [if_pos hTaken] at h
      obtain ⟨⟨count, rrbuf'⟩, hRead, h⟩ := Option.bind_eq_some_iff.mp h
      obtain ⟨hCon, -⟩ := Prod.mk.inj (Prod.mk.inj (Option.some.inj h)).2
      rw [← hCon]
      exact kept_of_eq rfl rfl rfl ((size_bufferReadNocopy hRead).trans hSize)
    · rw [if_neg hTaken] at h
      cases h
      exact kept_of_eq rfl rfl rfl hSize

/-- Once the handshake is done, a read leaves the bytes to write alone. -/
theorem wsconnProcess_kept {rbuf : BufferT} (hEst : con.status = .established)
    (hSize : rbuf.bufferSize = con.rbuf.bufferSize)
    (h : wsconnProcess env { con with rbuf := rbuf } data count = some (res, con')) :
    Kept con con' := by
  have hOpen : ¬ wsconnEstablished { con with rbuf := rbuf } ≠ 0 := by
    rw [wsconnEstablished, if_pos hEst]
    exact not_not_intro rfl
  rw [wsconnProcess, if_neg hOpen] at h
  obtain ⟨⟨ret, con₁, left⟩, hFrame, h⟩ := Option.bind_eq_some_iff.mp h
  obtain ⟨rbuf', hStore, h⟩ := Option.bind_eq_some_iff.mp h
  cases h
  have hRbuf : Kept con { con with rbuf := rbuf } := kept_of_eq rfl rfl hSize rfl
  have hKept : Kept con con₁ := hRbuf.trans (wsconnFrame_kept hFrame)
  exact hKept.trans (kept_of_eq rfl rfl (size_store hStore) rfl)

theorem wsconnRead_kept {socket : SockRead} (hEst : con.status = .established)
    (h : wsconnRead env con socket = some (res, con')) : Kept con con' := by
  simp only [wsconnRead, Option.bind_eq_bind] at h
  split at h
  · cases h
  split at h
  · cases h
    exact kept_of_eq rfl rfl rfl rfl
  split at h
  · cases h
    exact kept_of_eq rfl rfl rfl rfl
  · cases h
    exact kept_of_eq rfl rfl rfl rfl
  · cases h
    exact kept_of_eq rfl rfl rfl rfl
  obtain ⟨filled, hStore, h⟩ := Option.bind_eq_some_iff.mp h
  obtain ⟨⟨count, rbuf⟩, hNocopy, h⟩ := Option.bind_eq_some_iff.mp h
  split at h
  · cases h
  obtain ⟨buffer, -, h⟩ := Option.bind_eq_some_iff.mp h
  obtain ⟨⟨ret, con₁⟩, hProcess, h⟩ := Option.bind_eq_some_iff.mp h
  have hSize := (size_bufferWriteNocopy hNocopy).trans (size_store hStore)
  have hKept : Kept con con₁ := wsconnProcess_kept hEst hSize hProcess
  split at h
  · cases h
    exact hKept
  · obtain ⟨⟨taken, rbuf'⟩, hRead, h⟩ := Option.bind_eq_some_iff.mp h
    cases h
    exact hKept.trans (kept_of_eq rfl rfl (size_bufferReadNocopy hRead) rfl)

/-! ## The handshake -/

theorem wsconnReply_cases (h : Holds con.wbuf out) (hText : text ≠ [])
    (hReply : wsconnReply con text = some (res, con')) :
    res = -1 ∧ con' = con ∨
      res = 0 ∧ con'.rbuf = con.rbuf ∧ con'.rrbuf = con.rrbuf ∧
        ∃ more, more ≠ [] ∧ Holds con'.wbuf (out ++ more) := by
  have hSome : text.take (wsHandshakeMaxSize - 1) ≠ [] := by
    rw [ne_eq, List.take_eq_nil_iff]
    exact not_or.mpr ⟨by decide, hText⟩
  simp only [wsconnReply] at hReply
  generalize text.take (wsHandshakeMaxSize - 1) = more at hReply hSome
  by_cases hRoom : bufferWriteLen con.wbuf < more.length
  · rw [if_pos hRoom] at hReply
    cases hReply
    exact Or.inl ⟨rfl, rfl⟩
  · obtain ⟨wbuf, hWrite, hHolds, -⟩ :=
      @WsconnT.write_spec α con out h more more.length (by omega) le_rfl
    rw [if_neg hRoom, hWrite] at hReply
    rw [List.take_length] at hHolds
    cases hReply
    exact Or.inr ⟨rfl, rfl, rfl, more, hSome, hHolds⟩

/-- A request is refused, or some text answers it. -/
theorem wsconnProcReq_cases {request : RequestT}
    (h : wsconnProcReq env con request = some (res, con')) :
    res = -1 ∧ con' = con ∨ ∃ text, text ≠ [] ∧ wsconnReply con text = some (res, con') := by
  have hSome : ∀ (line : List UInt8) (rest : List UInt8), line ≠ [] → line ++ rest ≠ [] :=
    fun line rest hLine hNil => hLine (List.append_eq_nil_iff.mp hNil).1
  rw [wsconnProcReq] at h
  split at h
  · simp only [wsconnProcMd5Req, Option.bind_eq_bind, Option.bind_eq_some_iff] at h
    obtain ⟨_, -, _, -, _, -, _, -, _, -, _, -, hReply⟩ := h
    refine Or.inr ⟨_, ?_, hReply⟩
    simp only [List.append_assoc]
    exact hSome _ _ (by decide)
  split at h
  · simp only [wsconnProcSha1Req, Option.bind_eq_bind, Option.bind_eq_some_iff] at h
    obtain ⟨_, -, _, -, hReply⟩ := h
    refine Or.inr ⟨_, ?_, hReply⟩
    simp only [List.append_assoc]
    exact hSome _ _ (by decide)
  split at h
  · simp only [wsconnProcFlashReq, Option.bind_eq_bind, Option.bind_eq_some_iff] at h
    obtain ⟨_, -, _, -, _, -, hReply⟩ := h
    refine Or.inr ⟨_, ?_, hReply⟩
    simp only [List.append_assoc]
    exact hSome _ _ (by decide)
  · cases h
    exact Or.inl ⟨rfl, rfl⟩

private theorem build_leaves (con : WsconnT α) :
    con.build.status = con.status ∧ con.build.rbuf = con.rbuf ∧ con.build.rrbuf = con.rrbuf ∧
      con.build.wbuf = con.wbuf := by
  rw [WsconnT.build]
  cases con.onBuild with
  | none => exact ⟨rfl, rfl, rfl, rfl⟩
  | some onBuild => exact ⟨rfl, rfl, rfl, rfl⟩

theorem wsconnHandshake_cases (h : Holds con.wbuf out)
    (hRun : wsconnHandshake env con data = some (res, con')) :
    res = -1 ∧ con' = con ∨
      0 ≤ res ∧ con'.status = .established ∧ con'.rbuf = con.rbuf ∧ con'.rrbuf = con.rrbuf ∧
        ∃ more, more ≠ [] ∧ Holds con'.wbuf (out ++ more) := by
  simp only [wsconnHandshake, Option.bind_eq_bind, Option.bind_eq_some_iff] at hRun
  obtain ⟨⟨code, request⟩, -, hRun⟩ := hRun
  by_cases hCode : code < 0
  · rw [if_pos hCode] at hRun
    cases hRun
    exact Or.inl ⟨rfl, rfl⟩
  rw [if_neg hCode] at hRun
  simp only [Option.bind_eq_some_iff] at hRun
  obtain ⟨⟨ret, con₁⟩, hProc, hRun⟩ := hRun
  have hRet : ret = -1 ∧ con₁ = con ∨
      ret = 0 ∧ con₁.rbuf = con.rbuf ∧ con₁.rrbuf = con.rrbuf ∧
        ∃ more, more ≠ [] ∧ Holds con₁.wbuf (out ++ more) := by
    cases wsconnProcReq_cases hProc with
    | inl hRefused => exact Or.inl hRefused
    | inr hReply =>
      obtain ⟨text, hText, hReply⟩ := hReply
      exact wsconnReply_cases h hText hReply
  rcases hRet with ⟨rfl, rfl⟩ | ⟨rfl, hRbuf, hRrbuf, more, hMore, hHolds⟩
  · cases hRun
    exact Or.inl ⟨rfl, rfl⟩
  · cases hRun
    obtain ⟨hStatus, hRbuf', hRrbuf', hWbuf⟩ :=
      build_leaves { con₁ with status := .established }
    rw [← hWbuf] at hHolds
    exact Or.inr ⟨Int.natCast_nonneg _, hStatus, hRbuf'.trans hRbuf, hRrbuf'.trans hRrbuf, more,
      hMore, hHolds⟩

end

end Gbase.Net.Wsconn
