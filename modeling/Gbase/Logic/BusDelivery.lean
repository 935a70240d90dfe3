import Gbase.Logic.BusRuns

/-!
# Delivery of messages on a bus (`logic/bus.c`)

`bus_recv` gives back `BUS_ERR_EMPTY` when it has read a message and `BUS_OK` when it has not, as
`rbuffer_read` gives back 0 for a message.  A terminal that attaches to a pipe empties it, so
messages that were sent before are lost; and an empty message is accepted but not written.

## Main results

* `busRecv_receives_iff`: a call that receives does what it should exactly if it is not `bus_recv`
  for a pipe that the terminal has.
* `bus_conserves_iff`: all messages that are accepted are received in order or still there, along
  exactly the runs in which no terminal attaches to a pipe with messages and no empty message is
  accepted.
-/

namespace Gbase.Logic.Bus

open Gbase.Base.Idtable
open Gbase.Base.Rbuffer
open Gbase.Core.OsDef
open Gbase.Lib.Run

/-! ## Results of receiving -/

/-- The oldest message of one pipe has been removed, and no other. -/
def Removed (s s' : System) (source dest : Int) (message : List UInt8) : Prop :=
  s.shm.unread source dest = message :: s'.shm.unread source dest ∧
    ∀ a b, ¬ (a = source ∧ b = dest) → s'.shm.unread a b = s.shm.unread a b

/-- The oldest message of a pipe that the terminal has from `source` fits the caller's buffer. -/
def Fits (s : System) (addr : Int) (bufSize : Option Nat) (source : Int) (message : List UInt8) :
    Prop :=
  ∃ bt bp size, s.terminals addr = some bt ∧ idtableGet bt.ipipes source = some (some bp) ∧
    bufSize = some size ∧ message.length ≤ size ∧
    (s.shm.unread source addr).head? = some message

/-- What the calls that receive should do: either the code is `BUS_OK` and one message is removed
and given to the caller, or it is an error and nothing changes.  `bus_recv_all` gives an error only
if no message fits. -/
def Receives (s : System) (op : BusOp) (result : BusResult) (s' : System) : Prop :=
  match op, result with
  | .recv addr _ source, .received code received =>
      (code = busOk ∧ ∃ message, received = some (message, source) ∧
        Removed s s' source addr message) ∨
      (code < 0 ∧ received = none ∧ s' = s)
  | .recvAll addr bufSize _, .received code received =>
      (code = busOk ∧ ∃ message source, received = some (message, source) ∧
        Fits s addr bufSize source message ∧ Removed s s' source addr message) ∨
      (code < 0 ∧ received = none ∧ s' = s ∧
        ∀ source message, ¬ Fits s addr bufSize source message)
  | .recv _ _ _, _ => False
  | .recvAll _ _ _, _ => False
  | _, _ => True

/-- `bus_recv` is not called for a pipe that the terminal has. -/
def Unconnected (s : System) : BusOp → Prop
  | .recv addr _ source => ∀ bt, s.terminals addr = some bt →
      idtableGet bt.ipipes source = some none
  | _ => True

section

variable {s s' : System} {shm' : Shm} {head : BusHead} {queues : Nat → List (List UInt8)}
variable {addr source : Int} {known i : Nat} {bt : BusT} {bufSize : Option Nat}

theorem SystemRepr.removed (h : SystemRepr s head queues) (hi : i < head.pcount)
    {message : List UInt8} {rest : List (List UInt8)} (hQueue : queues i = message :: rest)
    (hHead' : HeadRepr shm' head (Function.update queues i rest)) (received : Received) :
    Removed s (s.receive addr shm' received) (head.pipes i).fromAddr (head.pipes i).toAddr
      message := by
  have hHead := h.shared
  have hUnread : ∀ a b, shm'.unread a b =
      if a = (head.pipes i).fromAddr ∧ b = (head.pipes i).toAddr then rest
      else s.shm.unread a b := by
    intro a b
    rw [hHead'.unread, hHead.between_update hi, hHead.unread]
  constructor
  · show s.shm.unread _ _ = message :: shm'.unread _ _
    rw [hUnread, if_pos ⟨rfl, rfl⟩, hHead.unread, hHead.between_self hi, hQueue]
  · intro a b hOther
    show shm'.unread a b = _
    rw [hUnread, if_neg hOther]

/-- `bus_recv` -/
theorem recv_receives_iff (hInv : BusInv s) :
    Does busStep Receives s (.recv addr bufSize source) ↔
      Unconnected s (.recv addr bufSize source) := by
  cases hBt : s.terminals addr with
  | none =>
      have hStep : busStep s (.recv addr bufSize source) =
          some (.received busErrFail none, s) := by
        simp only [busStep, hBt]
      constructor
      · intro _ bt hSome
        rw [hBt] at hSome
        cases hSome
      · intro _
        exact ⟨_, _, hStep, Or.inr ⟨by decide, rfl, rfl⟩⟩
  | some bt =>
      obtain ⟨head, queues, h⟩ := hInv.repr hBt
      obtain ⟨known, hTerm⟩ := h.terminal hBt
      cases busRecv_spec h.shared hTerm bufSize source with
      | inl hNone =>
          have hStep : busStep s (.recv addr bufSize source) =
              some (.received busErrPeerNotFound none, s) := by
            simp only [busStep, hBt, hNone.2, Option.bind_eq_bind, Option.bind_some]
            rfl
          constructor
          · intro _ bt' hSome
            rw [hBt] at hSome
            cases hSome
            exact hNone.1
          · intro _
            exact ⟨_, _, hStep, Or.inr ⟨by decide, rfl, rfl⟩⟩
      | inr hFound =>
          obtain ⟨i, -, -, -, hGet, hRecv⟩ := hFound
          -- the code says the opposite of what was done
          have hNot : ¬ Does busStep Receives s (.recv addr bufSize source) := by
            rintro ⟨result, s', hStep, hReceives⟩
            cases hRecv with
            | inl hNothing =>
                simp only [busStep, hBt, hNothing, Option.bind_eq_bind, Option.bind_some,
                  Option.map_none] at hStep
                cases hStep
                rcases hReceives with ⟨-, message, hSome, -⟩ | ⟨hError, -⟩
                · cases hSome
                · cases hError
            | inr hTaken =>
                obtain ⟨message, rest, shm', -, hRecv, -⟩ := hTaken
                simp only [busStep, hBt, hRecv, Option.bind_eq_bind, Option.bind_some,
                  Option.map_some] at hStep
                cases hStep
                rcases hReceives with ⟨hOk, -⟩ | ⟨-, hNone, -⟩
                · cases hOk
                · cases hNone
          constructor
          · intro hDoes
            exact absurd hDoes hNot
          · intro hUnconnected
            have hNone := hUnconnected bt hBt
            rw [hGet] at hNone
            cases hNone

/-- A message that fits is the oldest in its pipe. -/
theorem fits_iff (h : SystemRepr s head queues) (hBt : s.terminals addr = some bt)
    (hTerm : TermRepr head addr known bt) {size : Nat} {message : List UInt8} :
    Fits s addr (some size) source message ↔ ∃ i, i < known ∧ (head.pipes i).toAddr = addr ∧
      (head.pipes i).fromAddr = source ∧ oldest (queues i) (some size) = some message := by
  have hHead := h.shared
  have hOldest : ∀ {i}, oldest (queues i) (some size) = some message ↔
      message.length ≤ size ∧ (queues i).head? = some message := by
    intro i
    cases queues i with
    | nil => simp [oldest]
    | cons first rest =>
        rw [oldest, List.head?_cons]
        split
        · next hLe =>
            constructor
            · intro hEq
              cases hEq
              exact ⟨hLe, rfl⟩
            · exact fun hBoth => hBoth.2
        · next hLarge =>
            constructor
            · intro hNone
              cases hNone
            · rintro ⟨hLe, hEq⟩
              cases hEq
              exact absurd hLe hLarge
  constructor
  · rintro ⟨bt', bp, size', hBt', hGet, hSize, hLe, hFirst⟩
    rw [hBt] at hBt'
    cases hBt'
    cases hSize
    cases hTerm.ipipes.cases source with
    | inr hFree =>
        rw [hFree.2] at hGet
        cases hGet
    | inl hFound =>
        obtain ⟨i, hi, hTo, hFrom, -⟩ := hFound
        refine ⟨i, hi, hTo, hFrom, hOldest.mpr ⟨hLe, ?_⟩⟩
        rw [hHead.unread, ← hFrom, ← hTo,
          hHead.between_self (lt_of_lt_of_le hi hTerm.known_le)] at hFirst
        exact hFirst
  · rintro ⟨i, hi, hTo, hFrom, hSome⟩
    obtain ⟨hLe, hFirst⟩ := hOldest.mp hSome
    refine ⟨bt, _, size, hBt, hTerm.ipipes.get hi hTo hFrom, rfl, hLe, ?_⟩
    rw [hHead.unread, ← hFrom, ← hTo, hHead.between_self (lt_of_lt_of_le hi hTerm.known_le)]
    exact hFirst

/-- `bus_recv_all` -/
theorem recvAll_receives (hInv : BusInv s) {index : Int} (hLow : -2 ^ 31 ≤ index)
    (hHigh : index < 2 ^ 31) : Does busStep Receives s (.recvAll addr bufSize index) := by
  cases hBt : s.terminals addr with
  | none =>
      refine ⟨.received busErrFail none, s, by simp only [busStep, hBt],
        Or.inr ⟨by decide, rfl, rfl, ?_⟩⟩
      rintro source message ⟨bt, bp, size, hSome, -⟩
      rw [hBt] at hSome
      cases hSome
  | some bt =>
      obtain ⟨head, queues, h⟩ := hInv.repr hBt
      obtain ⟨known, hTerm⟩ := h.terminal hBt
      cases bufSize with
      | none =>
          refine ⟨.received busErrFail none, s, ?_, Or.inr ⟨by decide, rfl, rfl, ?_⟩⟩
          · simp only [busStep, hBt, busRecvAll, Option.bind_eq_bind, Option.bind_some]
            rfl
          · rintro source message ⟨bt', bp, size, -, -, hSize, -⟩
            cases hSize
      | some size =>
          cases busRecvAll_spec h.shared hTerm size hLow hHigh with
          | inl hNone =>
              refine ⟨.received busErrEmpty none, s, ?_, Or.inr ⟨by decide, rfl, rfl, ?_⟩⟩
              · simp only [busStep, hBt, hNone.1, Option.bind_eq_bind, Option.bind_some]
                rfl
              · intro source message hFits
                obtain ⟨i, hi, hTo, -, hSome⟩ := (fits_iff h hBt hTerm).mp hFits
                rw [hNone.2 i hi hTo] at hSome
                cases hSome
          | inr hTaken =>
              obtain ⟨i, message, rest, shm', hi, hTo, hQueue, hOldest, hRecv, hHead'⟩ :=
                hTaken
              refine ⟨.received busOk (some (message, (head.pipes i).fromAddr)),
                s.receive addr shm' (some (message, (head.pipes i).fromAddr)), ?_,
                Or.inl ⟨rfl, message, (head.pipes i).fromAddr, rfl, ?_, ?_⟩⟩
              · simp only [busStep, hBt, hRecv, Option.bind_eq_bind, Option.bind_some]
                rfl
              · exact (fits_iff h hBt hTerm).mpr ⟨i, hi, hTo, rfl, hOldest⟩
              · have hRemoved := @SystemRepr.removed _ _ _ _ addr i h
                  (lt_of_lt_of_le hi hTerm.known_le) _ _ hQueue hHead'
                  (some (message, (head.pipes i).fromAddr))
                rw [hTo] at hRemoved
                exact hRemoved

end

/-- In every state that a run leads to, a call that receives does what it should if and only if it
is not `bus_recv` for a pipe that the terminal has. -/
theorem busRecv_receives_iff (key : Int) (foreign : Int → Option SegmentT) {ops : List BusOp}
    (hLegal : ∀ op, op ∈ ops → Legal op) {op : BusOp} (hOp : Legal op) :
    ∃ results s, run busStep (busStart key foreign) ops = some (results, s) ∧
      (Does busStep Receives s op ↔ Unconnected s op) := by
  obtain ⟨results, s, hRun, hInv⟩ := bus_runs key foreign hLegal
  refine ⟨results, s, hRun, ?_⟩
  have hTrue : Does busStep (fun _ _ _ _ => True) s op := by
    obtain ⟨result, s', hStep, -⟩ := busStep_spec hInv hOp
    exact ⟨result, s', hStep, trivial⟩
  cases op with
  | create addr => exact ⟨fun _ => trivial, fun _ => hTrue⟩
  | poll addr => exact ⟨fun _ => trivial, fun _ => hTrue⟩
  | send addr buf dest => exact ⟨fun _ => trivial, fun _ => hTrue⟩
  | recv addr bufSize source => exact recv_receives_iff hInv
  | recvAll addr bufSize index =>
      exact ⟨fun _ => trivial, fun _ => recvAll_receives hInv hOp.1 hOp.2⟩

/-- A call of each kind in a run with a pipe that its receiver has. -/
theorem busRecv_receives_all :
    ∃ results s, run busStep (busStart 1 fun _ => none)
        [.create 1, .create 2, .send 1 (some [7]) 2, .poll 2, .send 1 (some [8]) 2] =
          some (results, s) ∧
      (Does busStep Receives s (.recvAll 2 (some 8) 5) ↔
        Unconnected s (.recvAll 2 (some 8) 5)) :=
  busRecv_receives_iff 1 (fun _ => none) (by simp [Legal]) (by decide : -2 ^ 31 ≤ (5 : Int) ∧ _)

/-- `bus_recv` reads a message and gives back `BUS_ERR_EMPTY`. -/
theorem busRecv_inverts :
    ∃ results s, run busStep (busStart 1 fun _ => none)
        [.create 1, .create 2, .send 1 (some [7]) 2, .poll 2, .send 1 (some [8]) 2] =
          some (results, s) ∧
      ¬ Does busStep Receives s (.recv 2 (some 8) 1) := by
  have hResult : ((run busStep (busStart 1 fun _ => none)
      [.create 1, .create 2, .send 1 (some [7]) 2, .poll 2, .send 1 (some [8]) 2]).bind
        fun r => (busStep r.2 (.recv 2 (some 8) 1)).map Prod.fst) =
      some (.received busErrEmpty (some ([8], 1))) := by
    decide +kernel
  obtain ⟨⟨results, s⟩, hRun, hStep⟩ := Option.bind_eq_some_iff.mp hResult
  refine ⟨results, s, hRun, ?_⟩
  rintro ⟨result, s', hStep', hReceives⟩
  rw [hStep'] at hStep
  cases hStep
  rcases hReceives with ⟨hOk, -⟩ | ⟨-, hNone, -⟩
  · cases hOk
  · cases hNone

/-! ## Conservation of messages -/

/-- The messages that were accepted are those that were received, and then those in the pipe. -/
def Conserved (s : System) : Prop :=
  ∀ a b, s.accepted a b = s.received a b ++ s.shm.unread a b

/-- Messages are conserved by a call if and only if it loses none. -/
theorem Moves.conserved_iff {s s' : System}
    {kept sent entered taken : Int → Int → List (List UInt8)}
    (h : Moves s s' kept sent entered taken) (hConserved : Conserved s) :
    Conserved s' ↔ Keeps s kept sent entered := by
  -- what both sides of the equation have in common is left out
  have hIff : Conserved s' ↔ ∀ a b, s.shm.unread a b ++ sent a b = kept a b ++ entered a b := by
    constructor
    · intro hAfter a b
      have hHere := hAfter a b
      rw [h.accepted, h.received, hConserved, List.append_assoc, List.append_assoc,
        ← h.unread] at hHere
      exact List.append_cancel_left hHere
    · intro hSame a b
      rw [h.accepted, h.received, hConserved, List.append_assoc, List.append_assoc, ← h.unread,
        hSame]
  rw [hIff]
  constructor
  · intro hSame
    have hBoth : ∀ a b, kept a b = s.shm.unread a b ∧ entered a b = sent a b := by
      intro a b
      have hHere := hSame a b
      have hLength := congrArg List.length hHere
      rw [List.length_append, List.length_append] at hLength
      have hKept : (kept a b).length ≤ (s.shm.unread a b).length := by
        cases h.kept_cases a b with
        | inl hEq => rw [hEq]
        | inr hNil =>
            rw [hNil]
            exact Nat.zero_le _
      have hEntered : (entered a b).length ≤ (sent a b).length := by
        cases h.entered_cases a b with
        | inl hEq => rw [hEq]
        | inr hNil =>
            rw [hNil]
            exact Nat.zero_le _
      obtain ⟨hFirst, hSecond⟩ := List.append_inj hHere (by omega)
      exact ⟨hFirst.symm, hSecond.symm⟩
    exact ⟨fun a b => (hBoth a b).1, fun a b => (hBoth a b).2⟩
  · rintro ⟨hKept, hEntered⟩ a b
    rw [hKept, hEntered]

/-- Along every run, all messages are conserved in every state if and only if no call loses one:
what was sent from one terminal to another is what was received and what waits, in this order. -/
theorem bus_conserves_iff (key : Int) (foreign : Int → Option SegmentT) {ops : List BusOp}
    (hLegal : ∀ op, op ∈ ops → Legal op) :
    Along busStep (Does busStep fun _ _ _ s' => Conserved s') (busStart key foreign) ops ↔
      Along busStep Lossless (busStart key foreign) ops := by
  apply @along_iff_of_inv _ _ _ busStep (fun _ op => Legal op) _ _
    (fun s => BusInv s ∧ Conserved s) _ _ _ _ _ (along_of_forall hLegal)
  · rintro s op ⟨hInv, hConserved⟩ hOp
    obtain ⟨result, s', hStep, -, kept, sent, entered, taken, hMoves, hLossless⟩ :=
      busStep_spec hInv hOp
    rw [hLossless, ← hMoves.conserved_iff hConserved]
    exact does_iff hStep
  · rintro s op result s' ⟨hInv, -⟩ hOp hDoes hStep
    obtain ⟨result₁, s₁, hStep₁, hMoved⟩ := busStep_spec hInv hOp
    rw [hStep] at hStep₁
    cases hStep₁
    exact ⟨hMoved.1, (does_iff hStep).mp hDoes⟩
  · refine ⟨busInv_start key foreign, ?_⟩
    intro a b
    rfl

/-- A pipe is attached to while it is empty, and a message crosses it. -/
theorem bus_conserves_attached :
    Along busStep (Does busStep fun _ _ _ s' => Conserved s') (busStart 1 fun _ => none)
        [.create 1, .send 1 (some [7]) 2, .create 2, .poll 1] ↔
      Along busStep Lossless (busStart 1 fun _ => none)
        [.create 1, .send 1 (some [7]) 2, .create 2, .poll 1] :=
  bus_conserves_iff 1 (fun _ => none) (by simp [Legal])

/-- A message that is sent before its receiver has attached to the pipe is lost. -/
theorem bus_attach_loses :
    ∃ results s, run busStep (busStart 1 fun _ => none)
        [.create 1, .create 2, .send 1 (some [7]) 2, .poll 2] = some (results, s) ∧
      ¬ Conserved s := by
  have hState : ((run busStep (busStart 1 fun _ => none)
      [.create 1, .create 2, .send 1 (some [7]) 2, .poll 2]).map fun r =>
        (r.2.accepted 1 2, r.2.received 1 2, r.2.shm.unread 1 2)) = some ([[7]], [], []) := by
    decide +kernel
  obtain ⟨⟨results, s⟩, hRun, hEq⟩ := Option.map_eq_some_iff.mp hState
  refine ⟨results, s, hRun, ?_⟩
  intro hConserved
  have hHere := hConserved 1 2
  simp only [Prod.mk.injEq] at hEq
  rw [hEq.1, hEq.2.1, hEq.2.2] at hHere
  cases hHere

end Gbase.Logic.Bus
