import Gbase.Net.WsSession

/-!
# A websocket connection from its first byte on

The request of the handshake, ended by an empty line, and text frames behind it come from the
socket in pieces.  One call of `_wsconn_read` looks for the end of the request only in what it has
just read, and it processes one frame at most.

## Main results

* `wsconn_segmentation`: how the stream is cut makes no difference, as long as the request comes
  in one piece and no read leaves a whole frame behind.
-/

namespace Gbase.Net.Wsconn

open Gbase.Base.Buffer
open Gbase.Lib.CString
open Gbase.Lib.Run

variable {α : Type}

/-- What the application sees of a run: the status of the connection, whether it is closed, and
the bytes that `on_read` took. -/
def outcome (env : HandshakeEnv) (s : WsSession α) (reads : List (List UInt8)) :
    Option (WsStatus × Bool × List UInt8) :=
  (run (sessionStep env) s (reads.map SockRead.data)).map fun (_, s') =>
    (s'.con.status, s'.closed, s'.con.arg.2)

/-- What it should see: the payloads, unless the request is refused. -/
def expected (env : HandshakeEnv) (s : WsSession α) (request payloads : List UInt8) :
    Option (WsStatus × Bool × List UInt8) :=
  (wsconnHandshake env s.con request).map fun (res, con) =>
    if res < 0 then (con.status, true, []) else (.established, false, payloads)

/-- The socket gives bytes, and no more than fit. -/
def Gives (s : WsSession α) (socket : SockRead) : Prop :=
  s.closed = false → socket.bytes ≠ [] ∧
    (socket.bytes.length : Int) ≤ bufferWriteLen s.con.rbuf

/-- The condition on one read: it brings the whole request, or one whole frame at most, with a
payload that there is room for, and no whole frame is left behind. -/
def Alone (s : WsSession α) (socket : SockRead) : Prop :=
  s.closed = false →
    let data := s.con.rbuf.content ++ socket.bytes
    if s.con.status = .established then
      HeadWhole data → 0 < declaredLen data ∧
          (declaredLen data : Int) ≤ bufferWriteLen s.con.rrbuf ∧
        ¬ HeadWhole (data.drop (frameLen (frameOf data)))
    else ∃ start ∈ handshakeEnd data, ¬ HeadWhole (data.drop (start + 4))

instance Gives.decidable (s : WsSession α) (socket : SockRead) : Decidable (Gives s socket) :=
  inferInstanceAs (Decidable (_ → _ ∧ _))

instance Alone.decidable (s : WsSession α) (socket : SockRead) : Decidable (Alone s socket) :=
  inferInstanceAs (Decidable (_ → ite _ (_ → _ ∧ _ ∧ _) (∃ start ∈ handshakeEnd _, _)))

/-- A connection that was just accepted, with callbacks that take everything and leave the
record. -/
structure Accepted (onRead : Int → α → List UInt8 → Int × α) (s : WsSession α) : Prop where
  running : s.closed = false
  status : s.con.status = .init
  callback : s.con.onRead = some (recording onRead)
  all : ∀ arg buffer, (onRead s.con.fd arg buffer).1 = buffer.length
  build : ∀ onBuild, s.con.onBuild = some onBuild → ∀ fd arg, (onBuild fd arg).2 = arg.2
  rbuf : Holds s.con.rbuf []
  rrbuf : Holds s.con.rrbuf []
  taken : s.con.arg.2 = []

/-! ## The handshake -/

section

variable {env : HandshakeEnv} {con con' : WsconnT α} {bytes more data : List UInt8} {start : Nat}
  {res : Int} {rbuf : BufferT}

/-- The end of a request stays where it is when more bytes come. -/
theorem handshakeEnd_append (h : handshakeEnd bytes = some start) :
    handshakeEnd (bytes ++ more) = some start ∧ start + 4 ≤ bytes.length := by
  induction bytes generalizing start with
  | nil => cases h
  | cons byte bytes ih =>
      rw [handshakeEnd] at h
      rw [List.cons_append, handshakeEnd]
      by_cases hHere : [0x0d, 0x0a, 0x0d, 0x0a] <+: byte :: bytes
      · rw [if_pos hHere] at h
        cases h
        have hThere : [0x0d, 0x0a, 0x0d, 0x0a] <+: byte :: (bytes ++ more) :=
          hHere.trans (List.prefix_append (byte :: bytes) more)
        exact ⟨if_pos hThere, hHere.length_le⟩
      · rw [if_neg hHere] at h
        obtain ⟨start', hStart, rfl⟩ := Option.map_eq_some_iff.mp h
        obtain ⟨hMore, hLength⟩ := ih hStart
        have hNot : ¬ [0x0d, 0x0a, 0x0d, 0x0a] <+: byte :: (bytes ++ more) := by
          intro hThere
          apply hHere
          apply List.prefix_of_prefix_length_le hThere (List.prefix_append (byte :: bytes) more)
          rw [List.length_cons, List.length_cons, List.length_cons, List.length_cons,
            List.length_cons, List.length_nil]
          omega
        refine ⟨by rw [if_neg hNot, hMore]; rfl, ?_⟩
        rw [List.length_cons]
        omega

/-- A result with another receive buffer. -/
def putRbuf (rbuf : BufferT) (out : Int × WsconnT α) : Int × WsconnT α :=
  (out.1, { out.2 with rbuf := rbuf })

/-- The answer does not depend on the receive buffer. -/
theorem wsconnReply_rbuf (con : WsconnT α) (rbuf : BufferT) (text : List UInt8) :
    wsconnReply { con with rbuf := rbuf } text = (wsconnReply con text).map (putRbuf rbuf) := by
  simp only [wsconnReply, WsconnT.write]
  split
  · rfl
  · cases bufferWrite con.wbuf (some (text.take (wsHandshakeMaxSize - 1)))
      (text.take (wsHandshakeMaxSize - 1)).length <;> rfl

private theorem wsconnProcReq_rbuf (con : WsconnT α) (rbuf : BufferT) (request : RequestT) :
    wsconnProcReq env { con with rbuf := rbuf } request =
      (wsconnProcReq env con request).map (putRbuf rbuf) := by
  simp only [wsconnProcReq]
  split
  · simp only [wsconnProcMd5Req, wsconnReply_rbuf, Option.bind_eq_bind, Option.map_bind,
      Function.comp_def]
  · split
    · simp only [wsconnProcSha1Req, wsconnReply_rbuf, Option.bind_eq_bind, Option.map_bind,
        Function.comp_def]
    · split
      · simp only [wsconnProcFlashReq, wsconnReply_rbuf, Option.bind_eq_bind, Option.map_bind,
          Function.comp_def]
      · rfl

private theorem build_rbuf (con : WsconnT α) (rbuf : BufferT) :
    { con with rbuf := rbuf }.build = { con.build with rbuf := rbuf } := by
  obtain ⟨fd, events, rbuf', rrbuf, wbuf, onBuild, onRead, arg, status⟩ := con
  cases onBuild <;> rfl

private theorem wsconnHandshake_rbuf (con : WsconnT α) (rbuf : BufferT) (data : List UInt8) :
    wsconnHandshake env { con with rbuf := rbuf } data =
      (wsconnHandshake env con data).map (putRbuf rbuf) := by
  simp only [wsconnHandshake, Option.bind_eq_bind, Option.map_bind, Function.comp_def]
  congr 1
  funext parsed
  obtain ⟨code, request⟩ := parsed
  by_cases hCode : code < 0
  · simp only [if_pos hCode]
    rfl
  · simp only [if_neg hCode, wsconnProcReq_rbuf, Option.map_bind, Function.comp_def,
      Option.bind_map]
    congr 1
    funext out
    obtain ⟨ret, con'⟩ := out
    by_cases hRet : ret = 0
    · have hBuild := build_rbuf { con' with status := .established } rbuf
      subst hRet
      exact congrArg (fun con => some ((data.length : Int), con)) hBuild
    · simp [putRbuf, hRet]

/-- What an answer changes. -/
theorem wsconnReply_kept {text : List UInt8} (h : wsconnReply con text = some (res, con')) :
    ∃ wbuf events, con' = { con with wbuf := wbuf, events := events } := by
  simp only [wsconnReply, WsconnT.write] at h
  split at h
  · cases h
    exact ⟨con.wbuf, con.events, rfl⟩
  · cases hWrite : bufferWrite con.wbuf (some (text.take (wsHandshakeMaxSize - 1)))
      (text.take (wsHandshakeMaxSize - 1)).length with
    | none =>
        rw [hWrite] at h
        cases h
    | some out =>
        rw [hWrite] at h
        cases h
        exact ⟨out.2, eventIn ||| eventOut, rfl⟩

private theorem wsconnProcReq_kept {request : RequestT}
    (h : wsconnProcReq env con request = some (res, con')) :
    ∃ wbuf events, con' = { con with wbuf := wbuf, events := events } := by
  rw [wsconnProcReq] at h
  split at h
  · simp only [wsconnProcMd5Req, Option.bind_eq_bind, Option.bind_eq_some_iff] at h
    obtain ⟨_, -, _, -, _, -, _, -, _, -, _, -, hReply⟩ := h
    exact wsconnReply_kept hReply
  · split at h
    · simp only [wsconnProcSha1Req, Option.bind_eq_bind, Option.bind_eq_some_iff] at h
      obtain ⟨_, -, _, -, hReply⟩ := h
      exact wsconnReply_kept hReply
    · split at h
      · simp only [wsconnProcFlashReq, Option.bind_eq_bind, Option.bind_eq_some_iff] at h
        obtain ⟨_, -, _, -, _, -, hReply⟩ := h
        exact wsconnReply_kept hReply
      · cases h
        exact ⟨con.wbuf, con.events, rfl⟩

/-- What a handshake changes: an accepted request is passed over and establishes the connection. -/
theorem wsconnHandshake_kept (h : wsconnHandshake env con data = some (res, con')) :
    ∃ wbuf events,
      res = -1 ∧ con' = { con with wbuf := wbuf, events := events } ∨
      res = data.length ∧
        con' = { con with wbuf := wbuf, events := events, status := .established }.build := by
  simp only [wsconnHandshake, Option.bind_eq_bind, Option.bind_eq_some_iff] at h
  obtain ⟨⟨code, request⟩, -, h⟩ := h
  by_cases hCode : code < 0
  · rw [if_pos hCode] at h
    cases h
    exact ⟨con.wbuf, con.events, Or.inl ⟨rfl, rfl⟩⟩
  · rw [if_neg hCode] at h
    simp only [Option.bind_eq_some_iff] at h
    obtain ⟨⟨ret, con₁⟩, hProc, h⟩ := h
    obtain ⟨wbuf, events, rfl⟩ := wsconnProcReq_kept hProc
    refine ⟨wbuf, events, ?_⟩
    split at h
    · cases h
      exact Or.inr ⟨rfl, rfl⟩
    · cases h
      exact Or.inl ⟨rfl, rfl⟩

end

/-! ## Runs -/

/-- An open connection that has passed all payloads on. -/
structure Serving (onRead : Int → α → List UInt8 → Int × α) (s : WsSession α)
    (rest taken : List UInt8) : Prop where
  running : s.closed = false
  status : s.con.status = .established
  callback : s.con.onRead = some (recording onRead)
  all : ∀ arg buffer, (onRead s.con.fd arg buffer).1 = buffer.length
  rbuf : Holds s.con.rbuf rest
  rrbuf : Holds s.con.rrbuf []
  taken : s.con.arg.2 = taken

section

variable {env : HandshakeEnv} {onRead : Int → α → List UInt8 → Int × α} {s s' : WsSession α}
  {rest taken bytes behind : List UInt8} {f : TextFrame} {res : Int}

theorem outcome_cons {reads : List (List UInt8)}
    (hStep : sessionStep env s (.data bytes) = some (res, s')) :
    outcome env s (bytes :: reads) = outcome env s' reads := by
  rw [outcome, outcome, List.map_cons, run, hStep]
  cases hRun : run (sessionStep env) s' (reads.map SockRead.data) with
  | none => simp only [hRun]
  | some out =>
      simp only [hRun]
      rfl

/-- Nothing is read once the connection is closed. -/
theorem outcome_closed (hClosed : s.closed = true) (reads : List (List UInt8)) :
    outcome env s reads = some (s.con.status, true, s.con.arg.2) := by
  induction reads with
  | nil =>
      have hOutcome : outcome env s [] = some (s.con.status, s.closed, s.con.arg.2) := rfl
      rw [hOutcome, hClosed]
  | cons bytes reads ih =>
      have hStep : sessionStep env s (.data bytes) = some (0, s) := by
        rw [sessionStep, if_pos hClosed]
      rw [outcome_cons hStep, ih]

/-- A step after which the first frame is not there as a whole. -/
theorem Serving.step_wait (h : Serving onRead s rest taken) (hNe : bytes ≠ [])
    (hRoom : (bytes.length : Int) ≤ bufferWriteLen s.con.rbuf)
    (hPrefix : rest ++ bytes <+: f.bytes) (hPart : rest ++ bytes ≠ f.bytes)
    (hLong : f.bytes.length < 2 ^ 64) :
    ∃ s', sessionStep env s (.data bytes) = some (0, s') ∧
      Serving onRead s' (rest ++ bytes) taken := by
  obtain ⟨rbuf, hRead, hHolds⟩ := @wsconnRead_wait _ env s.con rest bytes h.status h.rbuf hNe hRoom
    fun con => f.parse_part hPrefix hPart hLong
  refine ⟨_, sessionStep_of_read h.running hRead, ?_⟩
  exact {
    running := rfl
    status := h.status
    callback := h.callback
    all := h.all
    rbuf := hHolds
    rrbuf := h.rrbuf
    taken := h.taken }

/-- A step that takes the first frame off. -/
theorem Serving.step_frame (h : Serving onRead s rest taken) (hNe : bytes ≠ [])
    (hRoom : (bytes.length : Int) ≤ bufferWriteLen s.con.rbuf)
    (hData : rest ++ bytes = f.bytes ++ behind) (hPos : 0 < declaredLen (rest ++ bytes))
    (hFree : (declaredLen (rest ++ bytes) : Int) ≤ bufferWriteLen s.con.rrbuf) :
    ∃ s', sessionStep env s (.data bytes) = some (0, s') ∧
      Serving onRead s' behind (taken ++ f.payload) := by
  have hInt := h.rbuf.length_append_lt hRoom
  have hHead := f.parse behind (by rwa [← hData])
  have hFits := f.fits behind
  have hPayload := f.payloadOf_eq behind
  have hLen := f.frameLen_eq behind
  have hDeclared := f.declaredLen_eq behind
  rw [← hData] at hHead hFits hPayload hLen hDeclared
  rw [hDeclared] at hPos hFree
  have hStored : storedOf s.con (frameOf (rest ++ bytes)) (rest ++ bytes) = f.payload := by
    rw [storedOf, hPayload]
    exact List.take_of_length_le (by omega)
  rcases hAnswer : s.con.answer
    ([] ++ storedOf s.con (frameOf (rest ++ bytes)) (rest ++ bytes))
    (storedOf s.con (frameOf (rest ++ bytes)) (rest ++ bytes)).length with ⟨res, arg⟩
  have hSome : [] ++ storedOf s.con (frameOf (rest ++ bytes)) (rest ++ bytes) ≠ [] := by
    rw [hStored, List.nil_append]
    exact List.ne_nil_of_length_pos hPos
  obtain ⟨rbuf, rrbuf, hRead, hRbuf, hRrbuf⟩ :=
    @wsconnRead_frame _ env s.con rest [] bytes h.status h.rbuf h.rrbuf hNe hRoom _ hHead hFits
      hSome res arg hAnswer
  have hArg := recorded h.callback hAnswer
  rw [hStored, List.nil_append] at hArg hRrbuf
  -- the callback takes the payload as a whole
  have hRes : res = f.payload.length := by
    rw [hStored, List.nil_append, WsconnT.answer, h.callback] at hAnswer
    have hAll := h.all s.con.arg.1 f.payload
    exact (congrArg Prod.fst hAnswer).symm.trans hAll
  have hTaken : res > 0 := by omega
  have hBehind : (unmasked (frameOf (rest ++ bytes)) (rest ++ bytes)).drop
      (frameLen (frameOf (rest ++ bytes))) = behind := by
    rw [drop_unmasked hFits, hLen, hData, List.drop_left]
  rw [if_pos hTaken, hBehind] at hRbuf
  rw [if_pos hTaken, hRes, Int.toNat_natCast, List.drop_length] at hRrbuf
  rw [hRes, Int.toNat_natCast, List.take_length, h.taken] at hArg
  rw [min_eq_right (by omega)] at hRead
  refine ⟨_, sessionStep_of_read h.running hRead, ?_⟩
  exact {
    running := rfl
    status := h.status
    callback := h.callback
    all := h.all
    rbuf := hRbuf
    rrbuf := hRrbuf
    taken := hArg }

/-- However the frames are cut, all of them are passed on. -/
theorem Serving.delivers {reads : List (List UInt8)} {todo : List TextFrame}
    (h : Serving onRead s rest taken) (hFrames : ∀ f, f ∈ todo → f.bytes.length < 2 ^ 64)
    (hStream : rest ++ reads.flatten = streamOf todo) (hPart : ¬ HeadWhole rest)
    (hGives : Along (sessionStep env) Gives s (reads.map SockRead.data))
    (hAlone : Along (sessionStep env) Alone s (reads.map SockRead.data)) :
    outcome env s reads = some (.established, false, taken ++ payloadsOf todo) := by
  induction reads generalizing s rest taken todo with
  | nil =>
      rw [List.flatten_nil, List.append_nil] at hStream
      have hTodo : todo = [] := by
        cases todo with
        | nil => rfl
        | cons f todo =>
            rw [streamOf_cons] at hStream
            have hAll : rest <+: f.bytes ++ streamOf todo := ⟨[], by rw [List.append_nil, hStream]⟩
            exact absurd ((headWhole_iff hAll).mpr ⟨streamOf todo, hStream.symm⟩) hPart
      have hOutcome : outcome env s [] = some (s.con.status, s.closed, s.con.arg.2) := rfl
      rw [hOutcome, h.status, h.running, h.taken, hTodo, payloadsOf, List.flatMap_nil,
        List.append_nil]
  | cons bytes reads ih =>
      obtain ⟨hNe, hRoom⟩ := hGives.head h.running
      have hNow := hAlone.head h.running
      simp only [h.rbuf.content_eq, if_pos h.status, SockRead.bytes] at hNe hRoom hNow
      rw [List.flatten_cons, ← List.append_assoc] at hStream
      cases todo with
      | nil =>
          rw [streamOf_nil, List.append_eq_nil_iff, List.append_eq_nil_iff] at hStream
          exact absurd hStream.1.2 hNe
      | cons f todo =>
          rw [streamOf_cons] at hStream
          have hAll : rest ++ bytes <+: f.bytes ++ streamOf todo := ⟨reads.flatten, hStream⟩
          have hWhole := headWhole_iff hAll
          have hLong := hFrames f List.mem_cons_self
          by_cases hDone : f.bytes <+: rest ++ bytes
          · obtain ⟨hPos, hFree, hAlone'⟩ := hNow (hWhole.mpr hDone)
            obtain ⟨behind, hData⟩ := hDone
            obtain ⟨s', hStep, hServing⟩ :=
              @Serving.step_frame _ env _ _ _ _ _ behind f h hNe hRoom hData.symm hPos hFree
            have hLen := f.frameLen_eq behind
            rw [← hData, hLen, List.drop_left] at hAlone'
            rw [← hData, List.append_assoc] at hStream
            rw [outcome_cons hStep, ih hServing
              (fun g hMem => hFrames g (List.mem_cons_of_mem f hMem))
              (List.append_cancel_left hStream) hAlone' (hGives.tail hStep) (hAlone.tail hStep),
              List.append_assoc]
            rfl
          · have hPrefix : rest ++ bytes <+: f.bytes :=
              (List.prefix_or_prefix_of_prefix hAll (List.prefix_append _ _)).resolve_right hDone
            obtain ⟨s', hStep, hServing⟩ := @Serving.step_wait _ env _ _ _ _ _ f h hNe hRoom
              hPrefix (fun hEq => hDone (hEq ▸ List.prefix_rfl)) hLong
            rw [outcome_cons hStep]
            exact ih hServing hFrames hStream (fun hHead => hDone (hWhole.mp hHead))
              (hGives.tail hStep) (hAlone.tail hStep)

/-- The call of `on_build` leaves the record. -/
theorem build_kept {con : WsconnT (α × List UInt8)}
    (h : ∀ onBuild, con.onBuild = some onBuild → ∀ fd arg, (onBuild fd arg).2 = arg.2) :
    ∃ arg, con.build = { con with arg := arg } ∧ arg.2 = con.arg.2 := by
  obtain ⟨fd, events, rbuf, rrbuf, wbuf, onBuild, onRead, arg, status⟩ := con
  cases onBuild with
  | none => exact ⟨arg, rfl, rfl⟩
  | some onBuild => exact ⟨onBuild fd arg, rfl, h onBuild rfl fd arg⟩

/-- What the read that brings the request does. -/
theorem Accepted.step (h : Accepted onRead s) {request : List UInt8}
    (hEnd : handshakeEnd request = some (request.length - 4))
    (hRoom : ((request ++ behind).length : Int) ≤ bufferWriteLen s.con.rbuf) :
    wsconnHandshake env s.con request = none ∧
        sessionStep env s (.data (request ++ behind)) = none ∨
      ∃ res con res' s', wsconnHandshake env s.con request = some (res, con) ∧
        sessionStep env s (.data (request ++ behind)) = some (res', s') ∧
        (res < 0 ∧ s'.closed = true ∧ s'.con.status = con.status ∧ s'.con.arg.2 = [] ∨
          ¬ res < 0 ∧ Serving onRead s' behind []) := by
  obtain ⟨hThere, hLength⟩ := @handshakeEnd_append request behind _ hEnd
  have hNe : request ++ behind ≠ [] := by
    apply List.ne_nil_of_length_pos
    rw [List.length_append]
    omega
  obtain ⟨rbuf, hHolds, -, -, hRead⟩ := @wsconnRead_data _ env s.con [] _ h.rbuf hNe hRoom
  have hInit : wsconnEstablished { s.con with rbuf := rbuf } ≠ 0 := by
    simp only [wsconnEstablished, h.status]
    decide
  have hTake : (request ++ behind).take (request.length - 4 + 4) = request := by
    rw [Nat.sub_add_cancel (by omega), List.take_left]
  rw [List.nil_append] at hHolds hRead
  simp only [wsconnProcess, if_pos hInit, hThere, hTake, wsconnHandshake_rbuf] at hRead
  cases hHandshake : wsconnHandshake env s.con request with
  | none =>
      left
      refine ⟨rfl, ?_⟩
      rw [sessionStep_open h.running, hRead, hHandshake]
      rfl
  | some out =>
      right
      obtain ⟨res, con⟩ := out
      rw [hHandshake] at hRead
      obtain ⟨wbuf, events, ⟨rfl, rfl⟩ | ⟨rfl, rfl⟩⟩ := wsconnHandshake_kept hHandshake
      · have hRefused : wsconnRead env s.con (.data (request ++ behind)) =
            some (-1, { s.con with rbuf := rbuf, wbuf := wbuf, events := events }) := hRead
        exact ⟨_, _, _, _, rfl, sessionStep_of_read h.running hRefused,
          Or.inl ⟨by decide, rfl, rfl, h.taken⟩⟩
      · obtain ⟨rbuf', hNocopy, hHolds', -, -⟩ :=
          @bufferReadNocopy_spec rbuf _ request.length hHolds (Int.natCast_nonneg _)
        rw [Int.toNat_natCast, List.drop_left] at hHolds'
        obtain ⟨arg, hBuild, hArg⟩ := @build_kept _
          { s.con with wbuf := wbuf, events := events, status := .established } h.build
        rw [hBuild] at hRead ⊢
        have hAccepted : wsconnRead env s.con (.data (request ++ behind)) = some (0,
            { s.con with
              rbuf := rbuf', wbuf := wbuf, events := events, status := .established,
              arg := arg }) := by
          rw [hRead]
          simp only [Option.map_some, putRbuf, Option.bind_eq_bind, Option.bind_some,
            if_neg (by omega : ¬ (request.length : Int) < 0), hNocopy]
          rfl
        refine ⟨_, _, _, _, rfl, sessionStep_of_read h.running hAccepted,
          Or.inr ⟨by omega, ?_⟩⟩
        exact {
          running := rfl
          status := rfl
          callback := h.callback
          all := h.all
          rbuf := hHolds'
          rrbuf := h.rrbuf
          taken := hArg.trans h.taken }

private theorem expected_refused {request payloads : List UInt8} {con : WsconnT (α × List UInt8)}
    (hSome : wsconnHandshake env s.con request = some (res, con)) (hFail : res < 0) :
    expected env s request payloads = some (con.status, true, []) := by
  rw [expected, hSome]
  exact congrArg some (if_pos hFail)

private theorem expected_accepted {request payloads : List UInt8} {con : WsconnT (α × List UInt8)}
    (hSome : wsconnHandshake env s.con request = some (res, con)) (hFine : ¬ res < 0) :
    expected env s request payloads = some (.established, false, payloads) := by
  rw [expected, hSome]
  exact congrArg some (if_neg hFine)

/-- However the stream is cut under the condition, the application sees what it should. -/
theorem Accepted.delivers (h : Accepted onRead s) {request : List UInt8} {frames : List TextFrame}
    {reads : List (List UInt8)} (hEnd : handshakeEnd request = some (request.length - 4))
    (hFrames : ∀ f, f ∈ frames → f.bytes.length < 2 ^ 64)
    (hReads : reads.flatten = request ++ streamOf frames)
    (hGives : Along (sessionStep env) Gives s (reads.map SockRead.data))
    (hAlone : Along (sessionStep env) Alone s (reads.map SockRead.data)) :
    outcome env s reads = expected env s request (payloadsOf frames) := by
  obtain ⟨-, hLength⟩ := @handshakeEnd_append request [] _ hEnd
  cases reads with
  | nil =>
      have hLengths := congrArg List.length hReads
      rw [List.flatten_nil, List.length_nil, List.length_append] at hLengths
      omega
  | cons bytes reads =>
      obtain ⟨-, hRoom⟩ := hGives.head h.running
      have hNow := hAlone.head h.running
      have hInit : ¬ s.con.status = .established := by
        rw [h.status]
        decide
      simp only [h.rbuf.content_eq, if_neg hInit, SockRead.bytes, List.nil_append] at hRoom hNow
      rw [List.flatten_cons] at hReads
      -- the first read has the whole request
      obtain ⟨start, hFirst, hPart⟩ := hNow
      obtain ⟨hStart, hWithin⟩ := @handshakeEnd_append bytes reads.flatten start hFirst
      obtain ⟨hStart', -⟩ := @handshakeEnd_append request (streamOf frames) _ hEnd
      rw [hReads, hStart', Option.some_inj] at hStart
      have hWhole : request <+: bytes := by
        apply List.prefix_of_prefix_length_le (List.prefix_append request (streamOf frames))
        · exact ⟨reads.flatten, hReads⟩
        · omega
      obtain ⟨behind, rfl⟩ := hWhole
      rw [List.append_assoc] at hReads
      have hBehind := List.append_cancel_left hReads
      rw [← hStart, Nat.sub_add_cancel (by omega), List.drop_left] at hPart
      rcases @Accepted.step _ env _ _ _ h request hEnd hRoom with
        ⟨hNone, hStep⟩ | ⟨res, con, res', s', hSome, hStep, hRefused | hServing⟩
      · rw [outcome, expected, hNone, List.map_cons, run, hStep]
        rfl
      · obtain ⟨hFail, hClosed, hStatus, hTaken⟩ := hRefused
        rw [outcome_cons hStep, outcome_closed hClosed, hStatus, hTaken,
          expected_refused hSome hFail]
      · obtain ⟨hFine, hServing⟩ := hServing
        rw [outcome_cons hStep, hServing.delivers hFrames hBehind hPart (hGives.tail hStep)
          (hAlone.tail hStep), expected_accepted hSome hFine]
        rfl

end

/-- However the request and the frames behind it are cut, the application sees the same, as long
as the request comes in one piece and no read leaves a whole frame behind. -/
theorem wsconn_segmentation {env : HandshakeEnv} {onRead : Int → α → List UInt8 → Int × α}
    {s : WsSession α} {request : List UInt8} {frames : List TextFrame}
    {reads reads' : List (List UInt8)} (hAccepted : Accepted onRead s)
    (hEnd : handshakeEnd request = some (request.length - 4))
    (hFrames : ∀ f, f ∈ frames → f.bytes.length < 2 ^ 64)
    (hReads : reads.flatten = request ++ streamOf frames)
    (hReads' : reads'.flatten = request ++ streamOf frames)
    (hGives : Along (sessionStep env) Gives s (reads.map SockRead.data))
    (hGives' : Along (sessionStep env) Gives s (reads'.map SockRead.data))
    (hAlone : Along (sessionStep env) Alone s (reads.map SockRead.data))
    (hAlone' : Along (sessionStep env) Alone s (reads'.map SockRead.data)) :
    outcome env s reads = expected env s request (payloadsOf frames) ∧
      outcome env s reads = outcome env s reads' := by
  have hOne := hAccepted.delivers hEnd hFrames hReads hGives hAlone
  have hOther := hAccepted.delivers hEnd hFrames hReads' hGives' hAlone'
  exact ⟨hOne, hOne.trans hOther.symm⟩

/-- A connection that was just accepted. -/
def acceptedSession (onRead : List UInt8 → Int) : WsSession Unit :=
  let s := startedSession onRead
  { s with con := { s.con with status := .init } }

private theorem acceptedSession_accepted :
    Accepted (fun _ arg buffer => ((buffer.length : Int), arg))
      (acceptedSession fun buffer => buffer.length) where
  running := rfl
  status := rfl
  callback := rfl
  all := fun _ _ => rfl
  build := fun onBuild h => by cases h
  rbuf := startedBuffer_empty
  rrbuf := startedBuffer_empty
  taken := rfl

/-- A request without keys. -/
def plainRequest : List UInt8 :=
  ascii "GET / HTTP/1.1\r\nUpgrade: websocket\r\nConnection: upgrade\r\nHost: a\r\n" ++
    ascii "Origin: b\r\n\r\n"

/-- The request and the frame come one after the other. -/
theorem apart_reads : Along (sessionStep plainEnv) (fun s socket => Gives s socket ∧ Alone s socket)
    (acceptedSession fun buffer => buffer.length)
    ([plainRequest, hiFrame.bytes].map SockRead.data) := by
  decide +kernel

/-- The request with a piece of a frame, and the frame alone behind the request. -/
theorem wsconn_segmentation_two :
    outcome plainEnv (acceptedSession fun buffer => buffer.length)
        [plainRequest ++ hiFrame.bytes.take 3, hiFrame.bytes.drop 3] =
      outcome plainEnv (acceptedSession fun buffer => buffer.length)
        [plainRequest, hiFrame.bytes] := by
  have hCut : Along (sessionStep plainEnv) (fun s socket => Gives s socket ∧ Alone s socket)
      (acceptedSession fun buffer => buffer.length)
      ([plainRequest ++ hiFrame.bytes.take 3, hiFrame.bytes.drop 3].map SockRead.data) := by
    decide +kernel
  have hEnd : handshakeEnd plainRequest = some (plainRequest.length - 4) := by decide +kernel
  have hReads : [plainRequest ++ hiFrame.bytes.take 3, hiFrame.bytes.drop 3].flatten =
      plainRequest ++ streamOf [hiFrame] := by decide +kernel
  exact (wsconn_segmentation acceptedSession_accepted hEnd (by decide) hReads (by decide +kernel)
    (hCut.imp fun _ _ h => h.1) (apart_reads.imp fun _ _ h => h.1)
    (hCut.imp fun _ _ h => h.2) (apart_reads.imp fun _ _ h => h.2)).2

/-- A frame that comes with the request is not passed on, and a request in two pieces is lost. -/
theorem wsconn_not_segmentation :
    ¬ (∀ reads reads' : List (List UInt8), reads.flatten = plainRequest ++ streamOf [hiFrame] →
        reads'.flatten = plainRequest ++ streamOf [hiFrame] →
        Along (sessionStep plainEnv) Gives (acceptedSession fun buffer => buffer.length)
          (reads.map SockRead.data) →
        Along (sessionStep plainEnv) Gives (acceptedSession fun buffer => buffer.length)
          (reads'.map SockRead.data) →
        outcome plainEnv (acceptedSession fun buffer => buffer.length) reads =
          outcome plainEnv (acceptedSession fun buffer => buffer.length) reads') ∧
      outcome plainEnv (acceptedSession fun buffer => buffer.length)
        [plainRequest.take 20, plainRequest.drop 20, hiFrame.bytes] = some (.init, true, []) := by
  have hApart : outcome plainEnv (acceptedSession fun buffer => buffer.length)
      [plainRequest, hiFrame.bytes] = some (.established, false, [0x48, 0x69]) := by
    decide +kernel
  have hTogether : outcome plainEnv (acceptedSession fun buffer => buffer.length)
      [plainRequest ++ hiFrame.bytes] = some (.established, false, []) := by
    decide +kernel
  refine ⟨fun h => ?_, by decide +kernel⟩
  have hSame := h [plainRequest, hiFrame.bytes] [plainRequest ++ hiFrame.bytes]
    (by decide +kernel) (by decide +kernel) (apart_reads.imp fun _ _ h => h.1)
    ⟨by decide +kernel, fun _ _ _ => trivial⟩
  rw [hApart, hTogether] at hSame
  cases hSame

end Gbase.Net.Wsconn
