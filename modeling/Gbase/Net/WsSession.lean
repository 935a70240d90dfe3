import Gbase.Net.WsRead

/-!
# Frames of an established connection

A client sends text frames one behind the other, and then, maybe, a frame of another kind with
anything behind it; the socket gives all this to `_wsconn_read` in pieces of any size.  The
application's callback is wrapped so that it writes down the bytes it takes: these, followed by the
bytes that still wait in `rrbuf`, are the bytes that were stored there.  `_wsconn_frame` refuses the
first frame that is not a text frame, so that what comes behind it is never looked at.

## Main results

* `sessionStep_iff`: one read stores every payload once and in full if and only if its frame meets
  a condition.
* `frames_once_iff`: the same over whole runs.
-/

namespace Gbase.Net.Wsconn

open Gbase.Base.Buffer
open Gbase.Lib.Run

/-- The frames as they go over the network. -/
def streamOf (frames : List TextFrame) : List UInt8 := frames.flatMap TextFrame.bytes

/-- The payloads, one behind the other. -/
def payloadsOf (frames : List TextFrame) : List UInt8 := frames.flatMap TextFrame.payload

variable {α : Type}

/-- A callback that also writes down the bytes it takes. -/
def recording (onRead : Int → α → List UInt8 → Int × α) (fd : Int) (arg : α × List UInt8)
    (buffer : List UInt8) : Int × (α × List UInt8) :=
  let (res, next) := onRead fd arg.1 buffer
  (res, next, arg.2 ++ buffer.take res.toNat)

/-- A connection with all bytes that came from the socket; it is closed after a negative result. -/
structure WsSession (α : Type) where
  con : WsconnT (α × List UInt8)
  received : List UInt8
  closed : Bool

def SockRead.bytes : SockRead → List UInt8
  | .data bytes => bytes
  | .again => []
  | .error _ => []

/-- The reactor calls `_wsconn_read`, unless the connection is closed. -/
def sessionStep (env : HandshakeEnv) : Step (WsSession α) SockRead Int
  | s, socket =>
      if s.closed then some (0, s)
      else
        (wsconnRead env s.con socket).map fun (res, con) =>
          (res, { con := con, received := s.received ++ socket.bytes, closed := decide (res < 0) })

/-- The socket gives the bytes of the frames and then the others, and no more of them than fit. -/
def Sends (frames : List TextFrame) (others : List UInt8) (s : WsSession α) (socket : SockRead) :
    Prop :=
  s.closed = false → s.received ++ socket.bytes <+: streamOf frames ++ others ∧
    (socket.bytes.length : Int) ≤ bufferWriteLen s.con.rbuf

/-- The bytes begin with a frame that is not a text frame, or with too little to tell. -/
def NoText (others : List UInt8) : Prop := others.length < 2 ∨ ¬ IsText others

/-- Some of the text frames are processed, and nothing else, and their payloads were stored, each
once and in full; or the connection is closed. -/
def Once (frames : List TextFrame) (s : WsSession α) : Prop :=
  s.closed = true ∨ ∃ count, streamOf (frames.take count) ++ s.con.rbuf.content = s.received ∧
    s.con.arg.2 ++ s.con.rrbuf.content = payloadsOf (frames.take count)

/-- The first frame is there as a whole. -/
def HeadWhole (data : List UInt8) : Prop :=
  2 ≤ data.length ∧ IsText data ∧ declaredLen data + headSize data + maskSize data ≤ data.length

/-- Some bytes wait for `on_read` behind the first frame, and it refuses them, or it takes some and
there was room for the whole payload; or the frame is as it was, where nothing could be stored. -/
def Accepts (con : WsconnT α) (data : List UInt8) : Prop :=
  let frame := frameOf data
  let stored := storedOf con frame data
  let offered := con.rrbuf.content ++ stored
  let res := (con.answer offered stored.length).1
  offered ≠ [] ∧
    (res < 0 ∨ 0 < res ∧ frame.payloadLen ≤ bufferWriteLen con.rrbuf ∨
      res = 0 ∧ stored = [] ∧ unmasked frame data = data)

/-- The condition on one read. -/
def FrameAccepted (s : WsSession α) (socket : SockRead) : Prop :=
  s.closed = false → socket.bytes ≠ [] → HeadWhole (s.con.rbuf.content ++ socket.bytes) →
    Accepts s.con (s.con.rbuf.content ++ socket.bytes)

instance Sends.decidable (frames : List TextFrame) (others : List UInt8) (s : WsSession α)
    (socket : SockRead) : Decidable (Sends frames others s socket) :=
  inferInstanceAs (Decidable (_ → _ ∧ _))

instance NoText.decidable (others : List UInt8) : Decidable (NoText others) :=
  inferInstanceAs (Decidable (_ ∨ _))

instance HeadWhole.decidable (data : List UInt8) : Decidable (HeadWhole data) :=
  inferInstanceAs (Decidable (_ ∧ _ ∧ _))

instance Accepts.decidable (con : WsconnT α) (data : List UInt8) : Decidable (Accepts con data) :=
  inferInstanceAs (Decidable (_ ∧ (_ ∨ _ ∧ _ ∨ _ ∧ _ ∧ _)))

instance FrameAccepted.decidable (s : WsSession α) (socket : SockRead) :
    Decidable (FrameAccepted s socket) :=
  inferInstanceAs (Decidable (_ → _ → _ → _))

/-! ## Streams -/

section

variable {frames : List TextFrame} {others data rest : List UInt8} {f : TextFrame} {i j : Nat}

@[simp] theorem streamOf_nil : streamOf [] = [] := rfl

@[simp] theorem streamOf_cons : streamOf (f :: frames) = f.bytes ++ streamOf frames :=
  List.flatMap_cons

/-- The number of bytes tells the number of frames. -/
theorem take_eq_of_length
    (h : (streamOf (frames.take i)).length = (streamOf (frames.take j)).length) :
    frames.take i = frames.take j := by
  induction frames generalizing i j with
  | nil => simp
  | cons f frames ih =>
      have hHead := f.two_le_head
      have hLength := f.length_bytes
      cases i with
      | zero =>
          cases j with
          | zero => rfl
          | succ j =>
              simp only [List.take_zero, List.take_succ_cons, streamOf_nil, streamOf_cons,
                List.length_nil, List.length_append] at h
              omega
      | succ i =>
          cases j with
          | zero =>
              simp only [List.take_zero, List.take_succ_cons, streamOf_nil, streamOf_cons,
                List.length_nil, List.length_append] at h
              omega
          | succ j =>
              simp only [List.take_succ_cons, streamOf_cons, List.length_append] at h ⊢
              rw [ih (Nat.add_left_cancel h)]

/-- What is received behind some whole frames begins the rest of the stream. -/
theorem prefix_drop (h : streamOf (frames.take i) ++ data <+: streamOf frames ++ others) :
    data <+: streamOf (frames.drop i) ++ others := by
  have hSplit : streamOf frames = streamOf (frames.take i) ++ streamOf (frames.drop i) := by
    rw [streamOf, streamOf, streamOf, ← List.flatMap_append, List.take_append_drop]
  rw [hSplit, List.append_assoc] at h
  exact (List.prefix_append_right_inj _).mp h

/-- What begins a frame that is not a text frame is never a whole text frame. -/
theorem NoText.not_headWhole (hOthers : NoText others) (h : data <+: others) :
    ¬ HeadWhole data := by
  rintro ⟨hTwo, hText, -⟩
  have hLength := h.length_le
  cases hOthers with
  | inl hShort => omega
  | inr hNot => exact hNot ((prefix_isText h hTwo).mp hText)

/-- The parser waits for the second byte of such a frame, and then refuses it. -/
theorem NoText.parse (hOthers : NoText others) (h : data <+: others) (con : WsconnT α) :
    wsconnFrame con data = some (if data.length < 2 then 0 else -1, con, data) := by
  apply wsconnFrame_error
  rw [wsconnFrameHead_eq]
  by_cases hTwo : data.length < 2
  · rw [if_pos hTwo, if_pos hTwo]
  · have hLength := h.length_le
    have hNot : ¬ IsText data := fun hText =>
      hOthers.resolve_left (by omega) ((prefix_isText h (by omega)).mp hText)
    rw [if_neg hTwo, if_neg hTwo, if_pos hNot]

/-- The first frame is there as a whole if and only if all its bytes are. -/
theorem headWhole_iff (h : data <+: f.bytes ++ rest) : HeadWhole data ↔ f.bytes <+: data := by
  have hHead := f.two_le_head
  have hLength := f.length_bytes
  constructor
  · rintro ⟨hTwo, -, hWhole⟩
    cases List.prefix_or_prefix_of_prefix h (List.prefix_append f.bytes rest) with
    | inr hDone => exact hDone
    | inl hPrefix =>
        have hLen := f.frameLen_eq []
        rw [List.append_nil, frameLen_frameOf] at hLen
        rw [prefix_declaredLen hPrefix hTwo (by omega), prefix_headSize hPrefix hTwo, maskSize,
          prefix_isMasked hPrefix hTwo, ← maskSize, hLen] at hWhole
        exact ⟨[], by rw [List.append_nil, hPrefix.eq_of_length_le hWhole]⟩
  · rintro ⟨more, rfl⟩
    have hLen := f.frameLen_eq more
    obtain ⟨hText, -⟩ := f.read_head (f.maskBytes ++ (f.carried ++ more))
    rw [← f.bytes_append] at hText
    rw [frameLen_frameOf] at hLen
    refine ⟨?_, hText, ?_⟩
    · rw [List.length_append]
      omega
    · rw [hLen, List.length_append]
      omega

end

/-! ## Runs -/

/-- The state of a connection that is open: which frames are processed, and which bytes wait. -/
structure Live (onRead : Int → α → List UInt8 → Int × α) (frames : List TextFrame)
    (s : WsSession α) (count : Nat) (rest waiting : List UInt8) : Prop where
  running : s.closed = false
  status : s.con.status = .established
  callback : s.con.onRead = some (recording onRead)
  rbuf : Holds s.con.rbuf rest
  rrbuf : Holds s.con.rrbuf waiting
  stream : streamOf (frames.take count) ++ rest = s.received
  taken : s.con.arg.2 ++ waiting = payloadsOf (frames.take count)

section

variable {env : HandshakeEnv} {onRead : Int → α → List UInt8 → Int × α} {frames : List TextFrame}
  {others : List UInt8} {s : WsSession α} {count : Nat} {rest waiting bytes : List UInt8}
  {f : TextFrame}

theorem sessionStep_open (hOpen : s.closed = false) (socket : SockRead) :
    sessionStep env s socket = (wsconnRead env s.con socket).map fun (res, con) =>
      (res,
        { con := con, received := s.received ++ socket.bytes, closed := decide (res < 0) }) := by
  rw [sessionStep, hOpen, if_neg Bool.false_ne_true]

/-- A step by what `_wsconn_read` does. -/
theorem sessionStep_of_read (hOpen : s.closed = false) {socket : SockRead} {res : Int}
    {con : WsconnT (α × List UInt8)} (hRead : wsconnRead env s.con socket = some (res, con)) :
    sessionStep env s socket = some (res,
      { con := con, received := s.received ++ socket.bytes, closed := decide (res < 0) }) := by
  rw [sessionStep_open hOpen, hRead]
  rfl

theorem Live.once (h : Live onRead frames s count rest waiting) : Once frames s :=
  Or.inr ⟨count, by rw [h.rbuf.content_eq, h.stream], by rw [h.rrbuf.content_eq, h.taken]⟩

/-- The recorded bytes, after the callback took some of the offered ones. -/
theorem recorded {con : WsconnT (α × List UInt8)} (hRead : con.onRead = some (recording onRead))
    {offered : List UInt8} {stored res : Int} {arg : α × List UInt8}
    (hAnswer : con.answer offered stored = (res, arg)) :
    arg.2 = con.arg.2 ++ offered.take res.toNat := by
  rw [WsconnT.answer, hRead] at hAnswer
  cases hAnswer
  rfl

/-- The states between two steps of a run that goes well. -/
def SessionInv (onRead : Int → α → List UInt8 → Int × α) (frames : List TextFrame)
    (s : WsSession α) : Prop :=
  s.closed = true ∨ ∃ count rest waiting, Live onRead frames s count rest waiting

/-- A step that goes well. -/
def StepsWell (env : HandshakeEnv) (onRead : Int → α → List UInt8 → Int × α)
    (frames : List TextFrame) (s : WsSession α) (socket : SockRead) : Prop :=
  ∃ res s', sessionStep env s socket = some (res, s') ∧ SessionInv onRead frames s'

/-- A step that goes wrong. -/
def StepsWrong (env : HandshakeEnv) (frames : List TextFrame) (s : WsSession α)
    (socket : SockRead) : Prop :=
  sessionStep env s socket = none ∨
    ∃ res s', sessionStep env s socket = some (res, s') ∧ ¬ Once frames s'

/-- A read without bytes leaves the connection as it is. -/
theorem wsconnRead_nothing {con : WsconnT α} (h : Holds con.rbuf rest) {socket : SockRead}
    (hNothing : socket.bytes = []) : ∃ res, wsconnRead env con socket = some (res, con) := by
  have hRoom := h.room
  have hLow : ¬ bufferWriteLen con.rbuf < 0 := by omega
  by_cases hFull : 0 = bufferWriteLen con.rbuf
  · refine ⟨-1, ?_⟩
    cases socket <;> simp only [wsconnRead, if_neg hLow, if_pos hFull]
  · cases socket with
    | again => exact ⟨0, by simp only [wsconnRead, if_neg hLow, if_neg hFull]⟩
    | error errno => exact ⟨-errno, by simp only [wsconnRead, if_neg hLow, if_neg hFull]⟩
    | data bytes =>
        cases hNothing
        exact ⟨-1, by simp only [wsconnRead, if_neg hLow, if_neg hFull]⟩

/-- A step in which no bytes come. -/
theorem Live.step_nothing (h : Live onRead frames s count rest waiting) {socket : SockRead}
    (hNothing : socket.bytes = []) : StepsWell env onRead frames s socket := by
  obtain ⟨res, hRead⟩ := @wsconnRead_nothing _ env rest s.con h.rbuf socket hNothing
  refine ⟨res, _, sessionStep_of_read h.running hRead, ?_⟩
  by_cases hFail : res < 0
  · exact Or.inl (decide_eq_true hFail)
  · refine Or.inr ⟨count, rest, waiting, ?_⟩
    exact { h with
      running := decide_eq_false hFail
      stream := by rw [hNothing, List.append_nil, h.stream] }

/-- A step after which the first frame is not there as a whole. -/
theorem Live.step_wait (h : Live onRead frames s count rest waiting) (hNe : bytes ≠ [])
    (hRoom : (bytes.length : Int) ≤ bufferWriteLen s.con.rbuf)
    (hWait : ∀ con : WsconnT (α × List UInt8),
      wsconnFrame con (rest ++ bytes) = some (0, con, rest ++ bytes)) :
    StepsWell env onRead frames s (.data bytes) := by
  obtain ⟨rbuf, hRead, hHolds⟩ :=
    @wsconnRead_wait _ env s.con rest bytes h.status h.rbuf hNe hRoom hWait
  refine ⟨0, _, sessionStep_of_read h.running hRead,
    Or.inr ⟨count, rest ++ bytes, waiting, ?_⟩⟩
  exact {
    running := rfl
    status := h.status
    callback := h.callback
    rbuf := hHolds
    rrbuf := h.rrbuf
    stream := by
      show _ = s.received ++ bytes
      rw [← List.append_assoc, h.stream]
    taken := h.taken }

/-- A step with bytes of a frame that is not a text frame. -/
theorem Live.step_others (h : Live onRead frames s count rest waiting) (hNe : bytes ≠ [])
    (hRoom : (bytes.length : Int) ≤ bufferWriteLen s.con.rbuf) (hOthers : NoText others)
    (hPrefix : rest ++ bytes <+: others) : StepsWell env onRead frames s (.data bytes) := by
  have hParse := @hOthers.parse (α × List UInt8) _ _ hPrefix
  by_cases hTwo : (rest ++ bytes).length < 2
  · rw [if_pos hTwo] at hParse
    exact h.step_wait hNe hRoom hParse
  · rw [if_neg hTwo] at hParse
    obtain ⟨con, hRead⟩ :=
      @wsconnRead_refused _ env s.con rest bytes h.status h.rbuf hNe hRoom hParse
    exact ⟨-1, _, sessionStep_of_read h.running hRead, Or.inl rfl⟩

/-- The condition, by what is stored and answered. -/
theorem accepts_iff {con : WsconnT α} {data stored : List UInt8} {res : Int} {arg : α}
    (hWaiting : Holds con.rrbuf waiting) (hStored : storedOf con (frameOf data) data = stored)
    (hAnswer : con.answer (waiting ++ stored) stored.length = (res, arg)) :
    Accepts con data ↔ waiting ++ stored ≠ [] ∧
      (res < 0 ∨ 0 < res ∧ (declaredLen data : Int) ≤ bufferWriteLen con.rrbuf ∨
        res = 0 ∧ stored = [] ∧ unmasked (frameOf data) data = data) := by
  subst hStored
  simp only [Accepts, hWaiting.content_eq, hAnswer, payloadLen_frameOf]

/-- The frames up to the next one. -/
theorem take_succ_of_drop {more : List TextFrame} (hDrop : frames.drop count = f :: more) :
    streamOf (frames.take (count + 1)) = streamOf (frames.take count) ++ f.bytes ∧
      payloadsOf (frames.take (count + 1)) = payloadsOf (frames.take count) ++ f.payload := by
  have hTake : frames.take (count + 1) = frames.take count ++ [f] := by
    rw [List.take_add, hDrop]
    rfl
  rw [hTake, streamOf, payloadsOf, List.flatMap_append, List.flatMap_append,
    List.flatMap_singleton, List.flatMap_singleton]
  exact ⟨rfl, rfl⟩

/-- An open connection that stands well has processed as many frames as its bytes say. -/
theorem once_iff {con : WsconnT (α × List UInt8)} {received : List UInt8} {i : Nat}
    {behind behind' waiting' : List UInt8} (hRbuf : Holds con.rbuf behind')
    (hRrbuf : Holds con.rrbuf waiting') (hReceived : streamOf (frames.take i) ++ behind = received)
    (hLength : behind'.length = behind.length) :
    Once frames { con := con, received := received, closed := false } ↔
      behind' = behind ∧ con.arg.2 ++ waiting' = payloadsOf (frames.take i) := by
  have hOnce : Once frames { con := con, received := received, closed := false } ↔
      ∃ count, streamOf (frames.take count) ++ con.rbuf.content = received ∧
        con.arg.2 ++ con.rrbuf.content = payloadsOf (frames.take count) :=
    or_iff_right Bool.false_ne_true
  rw [hOnce, hRbuf.content_eq, hRrbuf.content_eq, ← hReceived]
  constructor
  · rintro ⟨count, hStream, hTaken⟩
    have hSame : frames.take count = frames.take i := by
      apply take_eq_of_length
      have hLengths := congrArg List.length hStream
      rw [List.length_append, List.length_append] at hLengths
      omega
    rw [hSame] at hStream hTaken
    exact ⟨List.append_cancel_left hStream, hTaken⟩
  · rintro ⟨rfl, hTaken⟩
    exact ⟨i, rfl, hTaken⟩

/-- The connection after `on_read` was offered bytes and returned `res`: `kept` is the first frame
with what is behind it, as it stands in the buffer after parsing. -/
structure Answered (onRead : Int → α → List UInt8 → Int × α) (s : WsSession α)
    (kept behind offered : List UInt8) (res : Int) (con : WsconnT (α × List UInt8)) : Prop where
  rbuf : Holds con.rbuf (if res > 0 then behind else kept)
  rrbuf : Holds con.rrbuf (if res > 0 then offered.drop res.toNat else offered)
  status : con.status = .established
  callback : con.onRead = some (recording onRead)
  arg : con.arg.2 = s.con.arg.2 ++ offered.take res.toNat

/-- The read that completes a frame. -/
theorem Live.answered (h : Live onRead frames s count rest waiting) (hNe : bytes ≠ [])
    (hRoom : (bytes.length : Int) ≤ bufferWriteLen s.con.rbuf) {frame : FrameT}
    {behind stored : List UInt8} (hHead : wsconnFrameHead (rest ++ bytes) = some (.ok frame))
    (hFits : frame.payloadShift + frame.payloadLen ≤ (rest ++ bytes).length)
    (hBehind : (unmasked frame (rest ++ bytes)).drop (frameLen frame) = behind)
    (hStored : storedOf s.con frame (rest ++ bytes) = stored) (hSome : waiting ++ stored ≠ [])
    {res : Int} {arg : α × List UInt8}
    (hAnswer : s.con.answer (waiting ++ stored) stored.length = (res, arg)) :
    ∃ con, wsconnRead env s.con (.data bytes) = some (min res 0, con) ∧
      Answered onRead s (unmasked frame (rest ++ bytes)) behind (waiting ++ stored) res con := by
  subst hStored
  obtain ⟨rbuf, rrbuf, hRead, hRbuf, hRrbuf⟩ :=
    @wsconnRead_frame _ env s.con rest waiting bytes h.status h.rbuf h.rrbuf hNe hRoom _ hHead
      hFits hSome res arg hAnswer
  rw [hBehind] at hRbuf
  exact ⟨_, hRead, hRbuf, hRrbuf, h.status, h.callback, recorded h.callback hAnswer⟩

/-- A frame that `on_read` takes nothing of stays, without its mask: that is well exactly if
nothing was stored of it and the mask changed nothing. -/
theorem Live.stays (h : Live onRead frames s count rest waiting) {kept behind stored : List UInt8}
    {con : WsconnT (α × List UInt8)}
    (hCon : Answered onRead s kept behind (waiting ++ stored) 0 con)
    (hLength : kept.length = (rest ++ bytes).length) :
    (stored = [] ∧ kept = rest ++ bytes →
      SessionInv onRead frames ⟨con, s.received ++ bytes, false⟩) ∧
    (Once frames ⟨con, s.received ++ bytes, false⟩ → stored = [] ∧ kept = rest ++ bytes) := by
  obtain ⟨hRbuf, hRrbuf, hStatus, hCallback, hArg⟩ := hCon
  rw [if_neg (by omega)] at hRbuf hRrbuf
  rw [Int.toNat_zero, List.take_zero, List.append_nil] at hArg
  have hReceived : streamOf (frames.take count) ++ (rest ++ bytes) = s.received ++ bytes := by
    rw [← List.append_assoc, h.stream]
  constructor
  · rintro ⟨rfl, rfl⟩
    rw [List.append_nil] at hRrbuf
    refine Or.inr ⟨count, rest ++ bytes, waiting, ?_⟩
    exact {
      running := rfl
      status := hStatus
      callback := hCallback
      rbuf := hRbuf
      rrbuf := hRrbuf
      stream := hReceived
      taken := by
        show con.arg.2 ++ waiting = _
        rw [hArg, h.taken] }
  · intro hOnce
    obtain ⟨hSame, hAll⟩ := (once_iff hRbuf hRrbuf hReceived hLength).mp hOnce
    rw [hArg, ← List.append_assoc, h.taken] at hAll
    exact ⟨List.append_right_eq_self.mp hAll, hSame⟩

/-- A frame that `on_read` takes something of is taken off, and what was stored of it stays: that
is well exactly if all of it was stored. -/
theorem Live.takenOff (h : Live onRead frames s count rest waiting) {more : List TextFrame}
    {kept behind stored : List UInt8} {res : Int} {con : WsconnT (α × List UInt8)}
    (hDrop : frames.drop count = f :: more) (hData : rest ++ bytes = f.bytes ++ behind)
    (hCon : Answered onRead s kept behind (waiting ++ stored) res con) (hTaken : 0 < res) :
    (stored = f.payload → SessionInv onRead frames ⟨con, s.received ++ bytes, false⟩) ∧
    (Once frames ⟨con, s.received ++ bytes, false⟩ → stored = f.payload) := by
  obtain ⟨hRbuf, hRrbuf, hStatus, hCallback, hArg⟩ := hCon
  rw [if_pos hTaken] at hRbuf hRrbuf
  obtain ⟨hStream, hPayloads⟩ := take_succ_of_drop hDrop
  have hNext : streamOf (frames.take (count + 1)) ++ behind = s.received ++ bytes := by
    rw [← h.stream, List.append_assoc, hData, hStream, List.append_assoc]
  have hTakenAll : con.arg.2 ++ (waiting ++ stored).drop res.toNat =
      payloadsOf (frames.take count) ++ stored := by
    rw [hArg, List.append_assoc, List.take_append_drop, ← List.append_assoc, h.taken]
  constructor
  · rintro rfl
    refine Or.inr ⟨count + 1, behind, (waiting ++ f.payload).drop res.toNat, ?_⟩
    exact {
      running := rfl
      status := hStatus
      callback := hCallback
      rbuf := hRbuf
      rrbuf := hRrbuf
      stream := hNext
      taken := by
        show con.arg.2 ++ _ = _
        rw [hTakenAll, hPayloads] }
  · intro hOnce
    obtain ⟨-, hAll⟩ := (once_iff hRbuf hRrbuf hNext rfl).mp hOnce
    rw [hTakenAll, hPayloads] at hAll
    exact List.append_cancel_left hAll

/-- A step after which the first frame is there as a whole. -/
theorem Live.step_frame (h : Live onRead frames s count rest waiting) (hNe : bytes ≠ [])
    (hRoom : (bytes.length : Int) ≤ bufferWriteLen s.con.rbuf) {more : List TextFrame}
    {behind : List UInt8} (hDrop : frames.drop count = f :: more)
    (hData : rest ++ bytes = f.bytes ++ behind) :
    Accepts s.con (rest ++ bytes) ∧ StepsWell env onRead frames s (.data bytes) ∨
      ¬ Accepts s.con (rest ++ bytes) ∧ StepsWrong env frames s (.data bytes) := by
  have hInt := h.rbuf.length_append_lt hRoom
  have hHead := f.parse behind (by rwa [← hData])
  have hFits := f.fits behind
  have hPayload := f.payloadOf_eq behind
  have hLen := f.frameLen_eq behind
  have hDeclared := f.declaredLen_eq behind
  rw [← hData] at hHead hFits hPayload hLen hDeclared
  have hBehind : (unmasked (frameOf (rest ++ bytes)) (rest ++ bytes)).drop
      (frameLen (frameOf (rest ++ bytes))) = behind := by
    rw [drop_unmasked hFits, hLen, hData, List.drop_left]
  generalize hStored : storedOf s.con (frameOf (rest ++ bytes)) (rest ++ bytes) = stored
  rcases hAnswer : s.con.answer (waiting ++ stored) stored.length with ⟨res, arg⟩
  rw [accepts_iff h.rrbuf hStored hAnswer, hDeclared]
  by_cases hNone : waiting ++ stored = []
  · right
    refine ⟨fun hAccepts => hAccepts.1 hNone, Or.inl ?_⟩
    rw [sessionStep_open h.running, wsconnRead_none h.status h.rbuf h.rrbuf hNe hRoom hHead hFits
      (by rwa [hStored])]
    rfl
  obtain ⟨con, hRead, hCon⟩ := h.answered hNe hRoom hHead hFits hBehind hStored hNone hAnswer
  have hStep := sessionStep_of_read h.running hRead
  by_cases hFail : res < 0
  · left
    refine ⟨⟨hNone, Or.inl hFail⟩, _, _, hStep, Or.inl ?_⟩
    exact decide_eq_true (by omega)
  have hClosed : decide (min res 0 < 0) = false := decide_eq_false (by omega)
  rw [hClosed] at hStep
  rcases (Int.not_lt.mp hFail).eq_or_lt with rfl | hTaken
  · obtain ⟨hWell, hOnly⟩ := h.stays hCon (length_unmasked hFits)
    by_cases hSame : stored = [] ∧
        unmasked (frameOf (rest ++ bytes)) (rest ++ bytes) = rest ++ bytes
    · left
      exact ⟨⟨hNone, Or.inr (Or.inr ⟨rfl, hSame⟩)⟩, _, _, hStep, hWell hSame⟩
    · right
      refine ⟨?_, Or.inr ⟨_, _, hStep, fun hOnce => hSame (hOnly hOnce)⟩⟩
      rintro ⟨-, hNeg | hGood | hNothing⟩
      · omega
      · omega
      · exact hSame hNothing.2
  · obtain ⟨hWell, hOnly⟩ := h.takenOff hDrop hData hCon hTaken
    have hRestRoom := h.rrbuf.room
    rw [storedOf, hPayload] at hStored
    have hWhole : stored = f.payload ↔
        (f.payload.length : Int) ≤ bufferWriteLen s.con.rrbuf := by
      rw [← hStored]
      constructor
      · intro hAll
        have hLengths := congrArg List.length hAll
        rw [List.length_take] at hLengths
        omega
      · intro hLow
        exact List.take_of_length_le (by omega)
    by_cases hAll : stored = f.payload
    · left
      exact ⟨⟨hNone, Or.inr (Or.inl ⟨hTaken, hWhole.mp hAll⟩)⟩, _, _, hStep, hWell hAll⟩
    · right
      refine ⟨?_, Or.inr ⟨_, _, hStep, fun hOnce => hAll (hOnly hOnce)⟩⟩
      rintro ⟨-, hNeg | hGood | hNothing⟩
      · omega
      · exact hAll (hWhole.mpr hGood.2)
      · omega

theorem SessionInv.once (h : SessionInv onRead frames s) : Once frames s := by
  cases h with
  | inl hClosed => exact Or.inl hClosed
  | inr hLive =>
      obtain ⟨count, rest, waiting, hLive⟩ := hLive
      exact hLive.once

/-- One step goes well under the condition, and wrong without it. -/
theorem sessionStep_cases (hFrames : ∀ f, f ∈ frames → f.bytes.length < 2 ^ 64)
    (hOthers : NoText others) (hInv : SessionInv onRead frames s) {socket : SockRead}
    (hSends : Sends frames others s socket) :
    FrameAccepted s socket ∧ StepsWell env onRead frames s socket ∨
      ¬ FrameAccepted s socket ∧ StepsWrong env frames s socket := by
  cases hInv with
  | inl hClosed =>
      left
      refine ⟨fun hOpen => ?_, 0, s, by rw [sessionStep, if_pos hClosed], Or.inl hClosed⟩
      rw [hClosed] at hOpen
      cases hOpen
  | inr hLive =>
      obtain ⟨count, rest, waiting, hLive⟩ := hLive
      by_cases hNothing : socket.bytes = []
      · exact Or.inl ⟨fun _ hNe => absurd hNothing hNe, hLive.step_nothing hNothing⟩
      · obtain ⟨bytes, rfl⟩ : ∃ bytes, socket = .data bytes := by
          cases socket with
          | data bytes => exact ⟨bytes, rfl⟩
          | again => exact absurd rfl hNothing
          | error errno => exact absurd rfl hNothing
        have hNe : bytes ≠ [] := hNothing
        obtain ⟨hPrefix, hRoom⟩ := hSends hLive.running
        have hAccepted : FrameAccepted s (.data bytes) ↔
            (HeadWhole (rest ++ bytes) → Accepts s.con (rest ++ bytes)) := by
          rw [FrameAccepted, hLive.rbuf.content_eq]
          exact ⟨fun h => h hLive.running hNe, fun h _ _ => h⟩
        have hAll : rest ++ bytes <+: streamOf (frames.drop count) ++ others := by
          apply prefix_drop
          rw [← List.append_assoc, hLive.stream]
          exact hPrefix
        rw [hAccepted]
        cases hDrop : frames.drop count with
        | nil =>
            rw [hDrop, streamOf_nil, List.nil_append] at hAll
            exact Or.inl ⟨fun hHead => absurd hHead (hOthers.not_headWhole hAll),
              hLive.step_others hNe hRoom hOthers hAll⟩
        | cons f more =>
            rw [hDrop, streamOf_cons, List.append_assoc] at hAll
            have hMem : f ∈ frames := by
              apply List.mem_of_mem_drop
              rw [hDrop]
              exact List.mem_cons_self
            have hWhole := headWhole_iff hAll
            by_cases hDone : f.bytes <+: rest ++ bytes
            · obtain ⟨behind, hData⟩ := hDone
              rw [imp_iff_right (hWhole.mpr ⟨behind, hData⟩)]
              exact hLive.step_frame hNe hRoom hDrop hData.symm
            · left
              refine ⟨fun hHead => absurd (hWhole.mp hHead) hDone, ?_⟩
              have hPart : rest ++ bytes <+: f.bytes :=
                (List.prefix_or_prefix_of_prefix hAll (List.prefix_append _ _)).resolve_right hDone
              exact hLive.step_wait hNe hRoom fun con =>
                f.parse_part hPart (fun hEq => hDone (hEq ▸ List.prefix_rfl)) (hFrames f hMem)

/-- One step stores every payload once and in full if and only if its frame meets the condition. -/
theorem sessionStep_iff (hFrames : ∀ f, f ∈ frames → f.bytes.length < 2 ^ 64)
    (hOthers : NoText others) (hInv : SessionInv onRead frames s) {socket : SockRead}
    (hSends : Sends frames others s socket) :
    Does (sessionStep env) (fun _ _ _ s' => Once frames s') s socket ↔ FrameAccepted s socket := by
  cases @sessionStep_cases _ env _ _ _ _ hFrames hOthers hInv socket hSends with
  | inl hWell =>
      obtain ⟨hAccepted, res, s', hStep, hInv'⟩ := hWell
      exact ⟨fun _ => hAccepted, fun _ => ⟨res, s', hStep, hInv'.once⟩⟩
  | inr hWrong =>
      obtain ⟨hAccepted, hWrong⟩ := hWrong
      refine ⟨?_, fun h => absurd h hAccepted⟩
      rintro ⟨res, s', hStep, hOnce⟩
      cases hWrong with
      | inl hNone =>
          rw [hNone] at hStep
          cases hStep
      | inr hSome =>
          obtain ⟨res', s'', hStep', hNot⟩ := hSome
          rw [hStep] at hStep'
          cases hStep'
          exact absurd hOnce hNot

end

/-- A connection that was just established. -/
structure Fresh (onRead : Int → α → List UInt8 → Int × α) (s : WsSession α) : Prop where
  running : s.closed = false
  status : s.con.status = .established
  callback : s.con.onRead = some (recording onRead)
  rbuf : Holds s.con.rbuf []
  rrbuf : Holds s.con.rrbuf []
  received : s.received = []
  taken : s.con.arg.2 = []

/-- Along a run every payload is stored once and in full, or the connection is closed, if and only
if every frame that is processed meets the condition. -/
theorem frames_once_iff {env : HandshakeEnv} {onRead : Int → α → List UInt8 → Int × α}
    {frames : List TextFrame} {others : List UInt8} {s : WsSession α} {reads : List SockRead}
    (hFrames : ∀ f, f ∈ frames → f.bytes.length < 2 ^ 64) (hOthers : NoText others)
    (hFresh : Fresh onRead s) (hSends : Along (sessionStep env) (Sends frames others) s reads) :
    Along (sessionStep env) (Does (sessionStep env) fun _ _ _ s' => Once frames s') s reads ↔
      Along (sessionStep env) FrameAccepted s reads := by
  have hStart : SessionInv onRead frames s := by
    refine Or.inr ⟨0, [], [], ?_⟩
    exact {
      running := hFresh.running
      status := hFresh.status
      callback := hFresh.callback
      rbuf := hFresh.rbuf
      rrbuf := hFresh.rrbuf
      stream := hFresh.received.symm
      taken := by rw [hFresh.taken]; rfl }
  apply along_iff_of_inv (SessionInv onRead frames) _ _ hStart hSends
  · intro s socket hInv hLegal
    exact sessionStep_iff hFrames hOthers hInv hLegal
  · intro s socket res s' hInv hLegal hGood hStep
    have hAccepted := (sessionStep_iff hFrames hOthers hInv hLegal).mp hGood
    cases @sessionStep_cases _ env _ _ _ _ hFrames hOthers hInv socket hLegal with
    | inl hWell =>
        obtain ⟨-, res', s'', hStep', hInv'⟩ := hWell
        rw [hStep] at hStep'
        cases hStep'
        exact hInv'
    | inr hWrong => exact absurd hAccepted hWrong.1

/-- An established connection with an `on_read` that has no state. -/
def startedSession (onRead : List UInt8 → Int) : WsSession Unit where
  con :=
    { startedCon with
      onBuild := none
      onRead := some (recording fun _ arg buffer => (onRead buffer, arg))
      arg := ((), []) }
  received := []
  closed := false

private theorem startedSession_fresh (onRead : List UInt8 → Int) :
    Fresh (fun _ arg buffer => (onRead buffer, arg)) (startedSession onRead) where
  running := rfl
  status := rfl
  callback := rfl
  rbuf := startedBuffer_empty
  rrbuf := startedBuffer_empty
  received := rfl
  taken := rfl

/-- No digests, and zeros where the parser has its array. -/
def plainEnv : HandshakeEnv where
  sha1 := fun _ _ => []
  md5 := fun _ _ => []
  stack := List.replicate wsHandshakeMaxSize 0

/-- A masked frame with two bytes. -/
def hiFrame : TextFrame where
  first := 0x81
  form := .short
  mask := some ![1, 2, 3, 4]
  payload := [0x48, 0x69]
  text := text_byte
  holds := (by decide : 2 < 126)

/-- A frame in two pieces, taken as a whole, and a ping behind it. -/
theorem frames_once_two :
    Along (sessionStep plainEnv) (Does (sessionStep plainEnv) fun _ _ _ s' => Once [hiFrame] s')
      (startedSession fun buffer => buffer.length)
      [.data (hiFrame.bytes.take 3), .data (hiFrame.bytes.drop 3 ++ [0x89]), .data [0x00]] := by
  have hPing : NoText [0x89, 0x00] := by decide
  exact (frames_once_iff (by decide) hPing (startedSession_fresh _) (by decide)).mpr (by decide)

/-- Where the callback takes nothing, the frame is processed again: its payload is stored twice,
the second time garbled. -/
theorem frames_not_once :
    ∃ results s', run (sessionStep plainEnv) (startedSession fun _ => 0)
        [.data hiFrame.bytes, .data hiFrame.bytes] = some (results, s') ∧
      s'.closed = false ∧
      ∀ count, s'.con.arg.2 ++ s'.con.rrbuf.content ≠
        payloadsOf ([hiFrame, hiFrame].take count) := by
  have hRun : (run (sessionStep plainEnv) (startedSession fun _ => 0)
      [.data hiFrame.bytes, .data hiFrame.bytes]).map
        (fun out => (out.2.closed, out.2.con.arg.2 ++ out.2.con.rrbuf.content)) =
      some (false, [0x48, 0x69, 0x49, 0x6b]) := by
    decide +kernel
  obtain ⟨⟨results, s'⟩, hSome, hOut⟩ := Option.map_eq_some_iff.mp hRun
  rw [Prod.mk.injEq] at hOut
  refine ⟨results, s', hSome, hOut.1, fun count => ?_⟩
  rw [hOut.2]
  match count with
  | 0 => decide
  | 1 => decide
  | count + 2 =>
      rw [List.take_of_length_le (Nat.le_add_left 2 count)]
      decide

end Gbase.Net.Wsconn
