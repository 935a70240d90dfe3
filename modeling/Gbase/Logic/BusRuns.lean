import Gbase.Logic.BusMessages

/-!
# Runs of a bus (`logic/bus.c`)

One step lemma says of every call that it is defined, keeps the head and the terminals as they
should be, and moves messages: some are sent, those that are kept and those that have entered are
taken or stay.

## Main results

* `busStep_spec`: what a call does in a state that runs lead to.
* `bus_wellformed`: the tables of the head along every run.
* `bus_coherent`: a terminal with the version of the head has its tables.
-/

namespace Gbase.Logic.Bus

open Gbase.Base.Idtable
open Gbase.Base.Rbuffer
open Gbase.Core.OsDef
open Gbase.Lib.Run

/-- There is a head, and each terminal is one of its. -/
structure SystemRepr (s : System) (head : BusHead) (queues : Nat → List (List UInt8)) : Prop where
  shared : HeadRepr s.shm head queues
  terminal : ∀ {addr bt}, s.terminals addr = some bt → ∃ known, TermRepr head addr known bt

/-- No terminal was created yet. -/
structure Fresh (s : System) : Prop where
  head : s.shm.head = none
  headKey : s.shm.segments s.shm.headKey = none
  terminals : ∀ addr, s.terminals addr = none

/-- What holds in all states that runs lead to. -/
def BusInv (s : System) : Prop := Fresh s ∨ ∃ head queues, SystemRepr s head queues

/-- A terminal is one of a head. -/
theorem BusInv.repr {s : System} {addr : Int} {bt : BusT} (hInv : BusInv s)
    (hBt : s.terminals addr = some bt) : ∃ head queues, SystemRepr s head queues := by
  cases hInv with
  | inl hFresh =>
      rw [hFresh.terminals] at hBt
      cases hBt
  | inr hRuns => exact hRuns

/-! ## What a call loses -/

/-- There is no message in a pipe. -/
def Empty (shm : Shm) (phead : HeadT) : Prop :=
  ∀ segment, shm.segments phead.key = some segment → segment.ring.used = 0

/-- A pipe of the terminal is not in its id tables. -/
def Missing (bt : BusT) (phead : HeadT) : Prop :=
  phead.fromAddr = bt.self ∧ idtableGet bt.opipes phead.toAddr = some none ∨
    phead.toAddr = bt.self ∧ idtableGet bt.ipipes phead.fromAddr = some none

/-- No pipe that the terminal will attach to holds a message, and no empty message is accepted. -/
def Lossless (s : System) : BusOp → Prop
  | .create addr => ∀ head, s.shm.head = some head →
      ∀ i, i < head.pcount → Own head addr i → Empty s.shm (head.pipes i)
  | .poll addr => ∀ bt head, s.terminals addr = some bt → s.shm.head = some head →
      ∀ i, i < head.pcount → Missing bt (head.pipes i) → Empty s.shm (head.pipes i)
  | .send addr buf dest => ∀ bt head, s.terminals addr = some bt → s.shm.head = some head →
      (idtableGet bt.opipes dest = some none →
        ∀ i, i < head.pcount → Missing bt (head.pipes i) → Empty s.shm (head.pipes i)) ∧
      (buf = some [] → ¬ Reaches s.shm head bt dest)
  | _ => True

/-- A call moves messages between each two addresses: `sent` are accepted, `kept` and then
`entered` are in the pipe when `taken` are received. -/
structure Moves (s s' : System) (kept sent entered taken : Int → Int → List (List UInt8)) :
    Prop where
  accepted : ∀ a b, s'.accepted a b = s.accepted a b ++ sent a b
  received : ∀ a b, s'.received a b = s.received a b ++ taken a b
  unread : ∀ a b, kept a b ++ entered a b = taken a b ++ s'.shm.unread a b
  kept_cases : ∀ a b, kept a b = s.shm.unread a b ∨ kept a b = []
  entered_cases : ∀ a b, entered a b = sent a b ∨ entered a b = []

/-- No message is lost by the call. -/
def Keeps (s : System) (kept sent entered : Int → Int → List (List UInt8)) : Prop :=
  (∀ a b, kept a b = s.shm.unread a b) ∧ ∀ a b, entered a b = sent a b

/-- A call is defined, keeps the bus as it should be, and loses messages exactly if it is not
`Lossless`. -/
def Moved (s : System) (op : BusOp) (_ : BusResult) (s' : System) : Prop :=
  BusInv s' ∧ ∃ kept sent entered taken, Moves s s' kept sent entered taken ∧
    (Lossless s op ↔ Keeps s kept sent entered)

section

variable {s s' : System} {shm shm' : Shm} {head head' : BusHead}
variable {queues queues' : Nat → List (List UInt8)} {addr dest source : Int} {known i : Nat}
variable {bt bt' : BusT}

theorem HeadRepr.empty_iff (h : HeadRepr shm head queues) (hi : i < head.pcount) :
    Empty shm (head.pipes i) ↔ queues i = [] := by
  obtain ⟨segment, hSegment, -, hRing⟩ := h.ring hi
  constructor
  · intro hEmpty
    exact hRing.used_eq_zero.mp (hEmpty segment hSegment)
  · intro hQueue segment' hSegment'
    rw [hSegment] at hSegment'
    cases hSegment'
    exact hRing.used_eq_zero.mpr hQueue

/-- The pipes that are missing are those behind the ones that the terminal knows. -/
theorem TermRepr.missing_iff (h : TermRepr head addr known bt) (hHead : HeadRepr shm head queues)
    (hi : i < head.pcount) :
    Missing bt (head.pipes i) ↔ known ≤ i ∧ Own head addr i := by
  have hUnknown : ∀ {mine other : HeadT → Int} {table : IdtableT PipeT},
      Table head mine other addr known table → mine (head.pipes i) = addr →
      (∀ j, j < head.pcount → mine (head.pipes j) = mine (head.pipes i) →
        other (head.pipes j) = other (head.pipes i) → j = i) →
      (idtableGet table (other (head.pipes i)) = some none ↔ known ≤ i) := by
    intro mine other table hTable hMine hPairs
    constructor
    · intro hNone
      by_contra hLess
      rw [hTable.get (Nat.lt_of_not_le hLess) hMine rfl] at hNone
      cases hNone
    · intro hKnown
      apply hTable.get_none
      intro j hj hMine' hOther
      have hLe := h.known_le
      have hSame := hPairs j (by omega) (hMine'.trans hMine.symm) hOther
      omega
  have hSelf := h.self
  constructor
  · rintro (⟨hFrom, hNone⟩ | ⟨hTo, hNone⟩)
    · rw [hSelf] at hFrom
      have hIff := hUnknown h.opipes hFrom fun j hj => hHead.pairs hj hi
      exact ⟨hIff.mp hNone, Or.inl hFrom⟩
    · rw [hSelf] at hTo
      have hIff := hUnknown h.ipipes hTo fun j hj hSame hSame' => hHead.pairs hj hi hSame' hSame
      exact ⟨hIff.mp hNone, Or.inr hTo⟩
  · rintro ⟨hKnown, hFrom | hTo⟩
    · have hIff := hUnknown h.opipes hFrom fun j hj => hHead.pairs hj hi
      exact Or.inl ⟨hFrom.trans hSelf.symm, hIff.mpr hKnown⟩
    · have hIff := hUnknown h.ipipes hTo fun j hj hSame hSame' => hHead.pairs hj hi hSame' hSame
      exact Or.inr ⟨hTo.trans hSelf.symm, hIff.mpr hKnown⟩

/-- A look at the pipes keeps all messages exactly if the missing ones are empty. -/
theorem TermRepr.look_iff (h : TermRepr head addr known bt) (hHead : HeadRepr shm head queues) :
    (∀ a b, head.between (queuesAfter head addr known queues) a b = shm.unread a b) ↔
      ∀ i, i < head.pcount → Missing bt (head.pipes i) → Empty shm (head.pipes i) := by
  have hIff := @HeadRepr.between_after_iff shm head queues addr known hHead
  simp only [hHead.unread]
  rw [hIff]
  constructor
  · intro hQueues i hi hMissing
    obtain ⟨hKnown, hOwn⟩ := (h.missing_iff hHead hi).mp hMissing
    exact (hHead.empty_iff hi).mpr (hQueues i hKnown hi hOwn)
  · intro hEmpty i hKnown hi hOwn
    exact (hHead.empty_iff hi).mp (hEmpty i hi ((h.missing_iff hHead hi).mpr ⟨hKnown, hOwn⟩))

private theorem record_apply (messages : Int → Int → List (List UInt8)) (source dest : Int)
    (message : List UInt8) (a b : Int) :
    record messages source dest message a b =
      messages a b ++ if a = source ∧ b = dest then [message] else [] := by
  rw [record]
  by_cases hSource : a = source
  · subst hSource
    rw [Function.update_self]
    by_cases hDest : b = dest
    · subst hDest
      rw [Function.update_self, if_pos ⟨rfl, rfl⟩]
    · rw [Function.update_of_ne hDest, if_neg (fun h => hDest h.2), List.append_nil]
  · rw [Function.update_of_ne hSource, if_neg (fun h => hSource h.1), List.append_nil]

/-- Nothing is sent and nothing is received. -/
theorem moves_quiet {kept : Int → Int → List (List UInt8)} (hAccepted : s'.accepted = s.accepted)
    (hReceived : s'.received = s.received) (hUnread : ∀ a b, kept a b = s'.shm.unread a b)
    (hKept : ∀ a b, kept a b = s.shm.unread a b ∨ kept a b = []) :
    Moves s s' kept (fun _ _ => []) (fun _ _ => []) (fun _ _ => []) where
  accepted := by
    intro a b
    rw [hAccepted, List.append_nil]
  received := by
    intro a b
    rw [hReceived, List.append_nil]
  unread := by
    intro a b
    rw [List.append_nil, List.nil_append]
    exact hUnread a b
  kept_cases := hKept
  entered_cases := fun _ _ => Or.inl rfl

/-- A call that changes nothing. -/
theorem moved_same {op : BusOp} {result : BusResult} (hInv : BusInv s) (hLossless : Lossless s op) :
    Moved s op result s :=
  ⟨hInv, s.shm.unread, fun _ _ => [], fun _ _ => [], fun _ _ => [],
    moves_quiet rfl rfl (fun _ _ => rfl) (fun _ _ => Or.inl rfl),
    ⟨fun _ => ⟨fun _ _ => rfl, fun _ _ => rfl⟩, fun _ => hLossless⟩⟩

/-- The terminals after one of them and the head have changed. -/
theorem SystemRepr.terminals (h : SystemRepr s head queues) (hGrows : Grows head head')
    (hOthers : ∀ i, head.pcount ≤ i → i < head'.pcount → (head'.pipes i).fromAddr = addr)
    {bt? : Option BusT} (hTerm : ∀ bt, bt? = some bt → ∃ known, TermRepr head' addr known bt)
    {a : Int} {bt : BusT} (hSome : Function.update s.terminals addr bt? a = some bt) :
    ∃ known, TermRepr head' a known bt := by
  by_cases hHere : a = addr
  · subst hHere
    rw [Function.update_self] at hSome
    exact hTerm bt hSome
  · rw [Function.update_of_ne hHere] at hSome
    obtain ⟨known, hOld⟩ := h.terminal hSome
    refine ⟨known, hOld.mono hGrows ?_⟩
    intro i hLow hHigh hFrom
    rw [hOthers i hLow hHigh] at hFrom
    exact hHere hFrom.symm

/-! ## Steps -/

theorem Fresh.unread (h : Fresh s) (a b : Int) : s.shm.unread a b = [] := by
  rw [Shm.unread, h.head]

/-- What is thrown away depends only on the pipes. -/
theorem HeadRepr.after_congr (h : HeadRepr shm head queues) (h' : HeadRepr shm' head' queues')
    (hGrows : Grows head head') (hCount : head'.pcount = head.pcount) (a b : Int) :
    head'.between (queuesAfter head' addr known queues) a b =
      head.between (queuesAfter head addr known queues) a b := by
  rw [BusHead.between, BusHead.between, h.index_congr h' hGrows hCount]
  cases hIndex : head.index a b with
  | none => rfl
  | some i =>
      obtain ⟨hi, -⟩ := h.index_eq.mp hIndex
      simp only [queuesAfter, hGrows.pipes hi]

/-- The first terminal is created. -/
theorem create_first (hFresh : Fresh s) (hAddr : 0 ≤ addr) :
    Does busStep Moved s (.create addr) := by
  obtain ⟨bt, head, hCreate, hHead, hTerm⟩ := busCreate_first hFresh.head hFresh.headKey hAddr
  refine ⟨.terminal true, { s with
    shm := { s.shm with head := some head }
    terminals := Function.update s.terminals addr (some bt) }, ?_, ?_⟩
  · simp only [busStep, hCreate, Option.bind_eq_bind, Option.bind_some]
    rfl
  refine ⟨Or.inr ⟨head, _, hHead, ?_⟩, s.shm.unread, _, _, _, moves_quiet rfl rfl ?_
    (fun _ _ => Or.inl rfl), ?_⟩
  · intro a bt' hSome
    by_cases hHere : a = addr
    · rw [hHere] at hSome ⊢
      have hBt := Function.update_self addr (some bt) s.terminals
      rw [← Option.some.inj (hBt.symm.trans hSome)]
      exact ⟨0, hTerm⟩
    · have hOld := Function.update_of_ne hHere (some bt) s.terminals
      rw [hFresh.terminals] at hOld
      cases hOld.symm.trans hSome
  · intro a b
    rw [hFresh.unread, hHead.unread, BusHead.between]
    split <;> rfl
  · constructor
    · intro _
      exact ⟨fun _ _ => rfl, fun _ _ => rfl⟩
    · intro _ head' hSome
      rw [hFresh.head] at hSome
      cases hSome

/-- Another terminal is created, or none. -/
theorem create_moved (h : SystemRepr s head queues) (hAddr : 0 ≤ addr) :
    Does busStep Moved s (.create addr) := by
  have hHead := h.shared
  cases busCreate_spec hHead hAddr with
  | inl hFull =>
      obtain ⟨hUnregistered, hCreate⟩ := hFull
      refine ⟨.terminal false, { s with terminals := Function.update s.terminals addr none }, ?_,
        Or.inr ⟨head, queues, hHead, ?_⟩, s.shm.unread, _, _, _,
        moves_quiet rfl rfl (fun _ _ => rfl) (fun _ _ => Or.inl rfl), ?_⟩
      · simp only [busStep, hCreate, Option.bind_eq_bind, Option.bind_some]
        rfl
      · apply h.terminals (Grows.refl head)
        · intro i hLow hHigh
          exact absurd hHigh (Nat.not_lt_of_le hLow)
        · intro bt hNone
          cases hNone
      · constructor
        · intro _
          exact ⟨fun _ _ => rfl, fun _ _ => rfl⟩
        · intro _ head' hSome i hi hOwn
          rw [hHead.head_eq] at hSome
          cases hSome
          cases hOwn with
          | inl hFrom => exact absurd (hFrom ▸ hHead.fromAddr hi) hUnregistered
          | inr hTo => exact absurd (hTo ▸ hHead.toAddr hi) hUnregistered
  | inr hCreated =>
      obtain ⟨bt, head', shm', hCreate, hHead', hTerm, hGrows, hCount⟩ := hCreated
      have hBetween : ∀ a b,
          shm'.unread a b = head.between (queuesAfter head addr 0 queues) a b := by
        intro a b
        rw [hHead'.unread, hHead.after_congr hHead' hGrows hCount]
      refine ⟨.terminal true, { s with
        shm := shm'
        terminals := Function.update s.terminals addr (some bt) }, ?_,
        Or.inr ⟨head', _, hHead', ?_⟩, shm'.unread, _, _, _,
        moves_quiet rfl rfl (fun _ _ => rfl) ?_, ?_⟩
      · simp only [busStep, hCreate, Option.bind_eq_bind, Option.bind_some]
        rfl
      · apply h.terminals hGrows
        · intro i hLow hHigh
          rw [hCount] at hHigh
          exact absurd hHigh (Nat.not_lt_of_le hLow)
        · intro bt' hSome
          cases hSome
          exact ⟨_, hTerm⟩
      · intro a b
        rw [hBetween, hHead.unread]
        exact between_after head addr 0 queues a b
      · have hIff := @HeadRepr.between_after_iff _ _ _ addr 0 hHead
        constructor
        · intro hLossless
          refine ⟨?_, fun _ _ => rfl⟩
          intro a b
          rw [hBetween, hHead.unread]
          apply hIff.mpr
          intro i _ hi hOwn
          exact (hHead.empty_iff hi).mp (hLossless head hHead.head_eq i hi hOwn)
        · rintro ⟨hSame, -⟩ head₁ hSome i hi hOwn
          rw [hHead.head_eq] at hSome
          cases hSome
          rw [hHead.empty_iff hi]
          refine hIff.mp ?_ i (Nat.zero_le i) hi hOwn
          intro a b
          rw [← hBetween, hSame, hHead.unread]

/-- A terminal polls. -/
theorem poll_moved (h : SystemRepr s head queues) (addr : Int) :
    Does busStep Moved s (.poll addr) := by
  have hHead := h.shared
  cases hBt : s.terminals addr with
  | none =>
      refine ⟨.done, s, ?_, moved_same (Or.inr ⟨head, queues, h⟩) ?_⟩
      · simp only [busStep, hBt]
      · intro bt head' hSome
        rw [hBt] at hSome
        cases hSome
  | some bt =>
      obtain ⟨known, hTerm⟩ := h.terminal hBt
      obtain ⟨bt', shm', hPoll, hTerm', hAttached⟩ := busPoll_spec hHead hTerm
      have hHead' := hHead.attached hAttached
      have hIff := hTerm.look_iff hHead
      refine ⟨.done, { s.setTerminal addr bt' with shm := shm' }, ?_,
        Or.inr ⟨head, _, hHead', ?_⟩, shm'.unread, _, _, _,
        moves_quiet rfl rfl (fun _ _ => rfl) ?_, ?_⟩
      · simp only [busStep, hBt, hPoll, Option.bind_eq_bind, Option.bind_some]
        rfl
      · apply h.terminals (Grows.refl head)
        · intro i hLow hHigh
          exact absurd hHigh (Nat.not_lt_of_le hLow)
        · intro bt₁ hSome
          cases hSome
          exact ⟨_, hTerm'⟩
      · intro a b
        rw [hHead'.unread, hHead.unread]
        exact between_after head addr known queues a b
      · constructor
        · intro hLossless
          refine ⟨?_, fun _ _ => rfl⟩
          intro a b
          rw [hHead'.unread]
          exact hIff.mpr (hLossless bt head hBt hHead.head_eq) a b
        · rintro ⟨hSame, -⟩ bt₁ head₁ hSome hSome'
          rw [hBt] at hSome
          rw [hHead.head_eq] at hSome'
          cases hSome
          cases hSome'
          apply hIff.mp
          intro a b
          rw [← hSame, hHead'.unread]

/-- All that is accepted enters the pipe, except for an empty message. -/
theorem accepted_eq_iff (code : Int) (buf : Option (List UInt8)) :
    accepted code buf = (if code = busOk then buf.toList else []) ↔
      ¬ (code = busOk ∧ buf = some []) := by
  by_cases hOk : code = busOk
  · have hZero : code = 0 := hOk
    rw [accepted, if_pos hZero, if_pos hOk]
    cases buf with
    | none => simp
    | some message =>
        by_cases hNil : message = []
        · simp [hNil, hOk]
        · simp [hNil]
  · have hZero : ¬ code = 0 := hOk
    rw [accepted, if_neg hZero, if_neg hOk]
    exact ⟨fun _ h => hOk h.1, fun _ => rfl⟩

private theorem accepted_cases (code : Int) (buf : Option (List UInt8)) :
    accepted code buf = (if code = busOk then buf.toList else []) ∨ accepted code buf = [] := by
  by_cases hEmpty : code = busOk ∧ buf = some []
  · right
    rw [hEmpty.2, accepted]
    split <;> rfl
  · exact Or.inl ((accepted_eq_iff code buf).mpr hEmpty)

/-- A terminal sends. -/
theorem send_moved (h : SystemRepr s head queues) (addr : Int) (buf : Option (List UInt8))
    (dest : Int) : Does busStep Moved s (.send addr buf dest) := by
  have hHead := h.shared
  cases hBt : s.terminals addr with
  | none =>
      refine ⟨.status busErrFail, s, ?_, moved_same (Or.inr ⟨head, queues, h⟩) ?_⟩
      · simp only [busStep, hBt]
      · intro bt head' hSome
        rw [hBt] at hSome
        cases hSome
  | some bt =>
      obtain ⟨known, hTerm⟩ := h.terminal hBt
      obtain ⟨code, bt', shm', head', queues', known', hSend, hHead', hTerm', hGrows, hOthers,
        hUnread, hNull, hReach, hNil⟩ := busSend_spec hHead hTerm buf dest
      refine ⟨.status code, { s.setTerminal addr bt' with
          shm := shm'
          accepted := match buf with
            | some message => if code = busOk then record s.accepted addr dest message
                else s.accepted
            | none => s.accepted }, ?_,
        Or.inr ⟨head', queues', hHead', ?_⟩,
        head.between (queuesSent head bt known queues dest),
        fun a b => if a = addr ∧ b = dest then (if code = busOk then buf.toList else []) else [],
        fun a b => if a = addr ∧ b = dest then accepted code buf else [],
        fun _ _ => [], ?_, ?_⟩
      · simp only [busStep, hBt, hSend, Option.bind_eq_bind, Option.bind_some]
        cases buf <;> rfl
      · apply h.terminals hGrows hOthers
        intro bt₁ hSome
        cases hSome
        exact ⟨_, hTerm'⟩
      · refine ⟨?_, ?_, ?_, ?_, ?_⟩
        · intro a b
          cases buf with
          | none =>
              show s.accepted a b = _
              simp
          | some message =>
              show
                (if code = busOk then record s.accepted addr dest message else s.accepted) a b = _
              by_cases hOk : code = busOk
              · rw [if_pos hOk, if_pos hOk, record_apply]
                rfl
              · rw [if_neg hOk, if_neg hOk, ite_self, List.append_nil]
        · intro a b
          exact (List.append_nil _).symm
        · intro a b
          rw [List.nil_append]
          exact (hHead'.unread a b).trans (hUnread a b) |>.symm
        · intro a b
          rw [hHead.unread, queuesSent]
          split
          · exact between_after head bt.self known queues a b
          · exact Or.inl rfl
        · intro a b
          show (if a = addr ∧ b = dest then accepted code buf else []) =
            (if a = addr ∧ b = dest then (if code = busOk then buf.toList else []) else []) ∨
            (if a = addr ∧ b = dest then accepted code buf else []) = []
          by_cases hEnds : a = addr ∧ b = dest
          · simp only [if_pos hEnds]
            exact accepted_cases code buf
          · rw [if_neg hEnds]
            exact Or.inr rfl
      · have hLook : (∀ a b, head.between (queuesSent head bt known queues dest) a b =
            s.shm.unread a b) ↔ (idtableGet bt.opipes dest = some none →
              ∀ i, i < head.pcount → Missing bt (head.pipes i) →
                Empty s.shm (head.pipes i)) := by
          rw [queuesSent]
          by_cases hGet : idtableGet bt.opipes dest = some none
          · rw [if_pos hGet, hTerm.self, hTerm.look_iff hHead]
            exact ⟨fun h _ => h, fun h => h hGet⟩
          · rw [if_neg hGet]
            exact ⟨fun _ h => absurd h hGet, fun _ a b => (hHead.unread a b).symm⟩
        have hEnter : (∀ a b, (if a = addr ∧ b = dest then accepted code buf else []) =
            (if a = addr ∧ b = dest then (if code = busOk then buf.toList else []) else [])) ↔
            (buf = some [] → ¬ Reaches s.shm head bt dest) := by
          constructor
          · intro hSame hEmpty hReaches
            have hHere := hSame addr dest
            rw [if_pos ⟨rfl, rfl⟩, if_pos ⟨rfl, rfl⟩, accepted_eq_iff] at hHere
            exact hHere ⟨hNil hEmpty hReaches, hEmpty⟩
          · intro hNot a b
            have hHere := (accepted_eq_iff code buf).mpr fun h => hNot h.2 (hReach h.1)
            rw [hHere]
        constructor
        · intro hLossless
          obtain ⟨hQuiet, hSome⟩ := hLossless bt head hBt hHead.head_eq
          exact ⟨hLook.mpr hQuiet, hEnter.mpr hSome⟩
        · rintro ⟨hSame, hSent⟩ bt₁ head₁ hSome hSome'
          rw [hBt] at hSome
          rw [hHead.head_eq] at hSome'
          cases hSome
          cases hSome'
          exact ⟨hLook.mp hSame, hEnter.mp hSent⟩

/-- The oldest message of a pipe is taken. -/
theorem taken_moved {op : BusOp} {result : BusResult} (h : SystemRepr s head queues)
    (hi : i < head.pcount) (hTo : (head.pipes i).toAddr = addr) {message : List UInt8}
    {rest : List (List UInt8)} (hQueue : queues i = message :: rest)
    (hHead' : HeadRepr shm' head (Function.update queues i rest)) (hLossless : Lossless s op) :
    Moved s op result (s.receive addr shm' (some (message, (head.pipes i).fromAddr))) := by
  have hHead := h.shared
  refine ⟨Or.inr ⟨head, _, hHead', fun hSome => h.terminal hSome⟩, s.shm.unread, fun _ _ => [],
    fun _ _ => [],
    fun a b => if a = (head.pipes i).fromAddr ∧ b = addr then [message] else [], ?_,
    ⟨fun _ => ⟨fun _ _ => rfl, fun _ _ => rfl⟩, fun _ => hLossless⟩⟩
  refine ⟨?_, ?_, ?_, fun _ _ => Or.inl rfl, fun _ _ => Or.inl rfl⟩
  · intro a b
    exact (List.append_nil _).symm
  · intro a b
    exact record_apply s.received (head.pipes i).fromAddr addr message a b
  · intro a b
    show s.shm.unread a b ++ [] = _ ++ shm'.unread a b
    rw [List.append_nil, hHead'.unread, hHead.between_update hi, hHead.unread, hTo]
    split
    · next hEnds => rw [hEnds.1, hEnds.2, ← hTo, hHead.between_self hi, hQueue,
        List.singleton_append]
    · rw [List.nil_append]

/-- A terminal receives from an address. -/
theorem recv_moved (h : SystemRepr s head queues) (addr : Int) (bufSize : Option Nat)
    (source : Int) : Does busStep Moved s (.recv addr bufSize source) := by
  have hSame : ∀ {result}, Moved s (.recv addr bufSize source) result s :=
    moved_same (Or.inr ⟨head, queues, h⟩) trivial
  cases hBt : s.terminals addr with
  | none => exact ⟨.received busErrFail none, s, by simp only [busStep, hBt], hSame⟩
  | some bt =>
      obtain ⟨known, hTerm⟩ := h.terminal hBt
      cases busRecv_spec h.shared hTerm bufSize source with
      | inl hNone =>
          refine ⟨.received busErrPeerNotFound none, s, ?_, hSame⟩
          simp only [busStep, hBt, hNone.2, Option.bind_eq_bind, Option.bind_some]
          rfl
      | inr hFound =>
          obtain ⟨i, hi, hFrom, hTo, -, hRecv⟩ := hFound
          cases hRecv with
          | inl hNothing =>
              refine ⟨.received busOk none, s, ?_, hSame⟩
              simp only [busStep, hBt, hNothing, Option.bind_eq_bind, Option.bind_some]
              rfl
          | inr hTaken =>
              obtain ⟨message, rest, shm', hQueue, hRecv, hHead'⟩ := hTaken
              refine ⟨.received busErrEmpty (some (message, source)),
                s.receive addr shm' (some (message, source)), ?_, ?_⟩
              · simp only [busStep, hBt, hRecv, Option.bind_eq_bind, Option.bind_some]
                rfl
              · rw [← hFrom]
                exact taken_moved h (lt_of_lt_of_le hi hTerm.known_le) hTo hQueue hHead' trivial

/-- A terminal receives from any address. -/
theorem recvAll_moved (h : SystemRepr s head queues) (addr : Int) (bufSize : Option Nat)
    {index : Int} (hLow : -2 ^ 31 ≤ index) (hHigh : index < 2 ^ 31) :
    Does busStep Moved s (.recvAll addr bufSize index) := by
  have hSame : ∀ {result}, Moved s (.recvAll addr bufSize index) result s :=
    moved_same (Or.inr ⟨head, queues, h⟩) trivial
  cases hBt : s.terminals addr with
  | none => exact ⟨.received busErrFail none, s, by simp only [busStep, hBt], hSame⟩
  | some bt =>
      obtain ⟨known, hTerm⟩ := h.terminal hBt
      cases bufSize with
      | none =>
          refine ⟨.received busErrFail none, s, ?_, hSame⟩
          simp only [busStep, hBt, busRecvAll, Option.bind_eq_bind, Option.bind_some]
          rfl
      | some bufSize =>
          cases busRecvAll_spec h.shared hTerm bufSize hLow hHigh with
          | inl hNone =>
              refine ⟨.received busErrEmpty none, s, ?_, hSame⟩
              simp only [busStep, hBt, hNone.1, Option.bind_eq_bind, Option.bind_some]
              rfl
          | inr hTaken =>
              obtain ⟨i, message, rest, shm', hi, hTo, hQueue, -, hRecv, hHead'⟩ := hTaken
              refine ⟨.received busOk (some (message, (head.pipes i).fromAddr)),
                s.receive addr shm' (some (message, (head.pipes i).fromAddr)), ?_,
                taken_moved h (lt_of_lt_of_le hi hTerm.known_le) hTo hQueue hHead' trivial⟩
              simp only [busStep, hBt, hRecv, Option.bind_eq_bind, Option.bind_some]
              rfl

/-- A call in any state that runs lead to. -/
theorem busStep_spec (hInv : BusInv s) {op : BusOp} (hLegal : Legal op) :
    Does busStep Moved s op := by
  cases hInv with
  | inl hFresh =>
      -- there is no terminal that could call
      have hSame : ∀ {result}, Lossless s op → Moved s op result s :=
        fun hLossless => moved_same (Or.inl hFresh) hLossless
      cases op with
      | create addr => exact create_first hFresh hLegal
      | poll addr =>
          refine ⟨.done, s, by simp only [busStep, hFresh.terminals], hSame ?_⟩
          intro bt head hSome
          rw [hFresh.terminals] at hSome
          cases hSome
      | send addr buf dest =>
          refine ⟨.status busErrFail, s, by simp only [busStep, hFresh.terminals], hSame ?_⟩
          intro bt head hSome
          rw [hFresh.terminals] at hSome
          cases hSome
      | recv addr bufSize source =>
          exact ⟨.received busErrFail none, s, by simp only [busStep, hFresh.terminals],
            hSame trivial⟩
      | recvAll addr bufSize index =>
          exact ⟨.received busErrFail none, s, by simp only [busStep, hFresh.terminals],
            hSame trivial⟩
  | inr hRuns =>
      obtain ⟨head, queues, h⟩ := hRuns
      cases op with
      | create addr => exact create_moved h hLegal
      | poll addr => exact poll_moved h addr
      | send addr buf dest => exact send_moved h addr buf dest
      | recv addr bufSize source => exact recv_moved h addr bufSize source
      | recvAll addr bufSize index => exact recvAll_moved h addr bufSize hLegal.1 hLegal.2

theorem busInv_start (key : Int) (foreign : Int → Option SegmentT) :
    BusInv (busStart key foreign) :=
  Or.inl ⟨rfl, Function.update_self _ _ _, fun _ => rfl⟩

/-- Every run of legal calls is defined. -/
theorem bus_runs (key : Int) (foreign : Int → Option SegmentT) {ops : List BusOp}
    (hLegal : ∀ op, op ∈ ops → Legal op) :
    ∃ results s, run busStep (busStart key foreign) ops = some (results, s) ∧ BusInv s := by
  apply @run_of_inv _ _ _ busStep (fun _ op => Legal op) BusInv _ _ _ (busInv_start key foreign)
    (along_of_forall hLegal)
  intro s op hInv hOp
  obtain ⟨result, s', hStep, hMoved⟩ := busStep_spec hInv hOp
  exact ⟨result, s', hStep, hMoved.1⟩

end

/-! ## The tables of the head -/

/-- The tables of the head are as they should be. -/
structure WellFormed (head : BusHead) : Prop where
  tcount_le : head.tcount ≤ busMaxTerminalCount
  terms : ∀ i j, i < head.tcount → j < head.tcount → head.terms i = head.terms j → i = j
  pcount_le : head.pcount ≤ busMaxPipeCount
  ends : ∀ i, i < head.pcount → Registered head (head.pipes i).fromAddr ∧
    Registered head (head.pipes i).toAddr ∧ (head.pipes i).fromAddr ≠ (head.pipes i).toAddr
  pairs : ∀ i j, i < head.pcount → j < head.pcount →
    (head.pipes i).fromAddr = (head.pipes j).fromAddr →
    (head.pipes i).toAddr = (head.pipes j).toAddr → i = j
  keys : ∀ i j, i < head.pcount → j < head.pcount →
    (head.pipes i).key = (head.pipes j).key → i = j

theorem HeadRepr.wellFormed {shm : Shm} {head : BusHead} {queues : Nat → List (List UInt8)}
    (h : HeadRepr shm head queues) : WellFormed head where
  tcount_le := h.tcount
  terms := fun _ _ => h.terms
  pcount_le := h.pcount
  ends := fun _ hi => ⟨h.fromAddr hi, h.toAddr hi, h.apart hi⟩
  pairs := fun _ _ => h.pairs
  keys := fun _ _ => h.keys

/-- After every run the tables of the head are as they should be, and a call of
`_bus_register_pipe` that fails leaves the table of pipes as it was. -/
theorem bus_wellformed (key : Int) (foreign : Int → Option SegmentT) {ops : List BusOp}
    (hLegal : ∀ op, op ∈ ops → Legal op) :
    ∃ results s, run busStep (busStart key foreign) ops = some (results, s) ∧
      (∀ head, s.shm.head = some head → WellFormed head) ∧
      ∀ addr bt dest sz bt' shm', s.terminals addr = some bt →
        busRegisterPipe bt s.shm dest sz = some (none, bt', shm') →
        ∃ head head', s.shm.head = some head ∧ shm'.head = some head' ∧
          head'.pcount = head.pcount ∧ head'.pver = head.pver ∧
          ∀ i, i < head.pcount → head'.pipes i = head.pipes i := by
  obtain ⟨results, s, hRun, hInv⟩ := bus_runs key foreign hLegal
  refine ⟨results, s, hRun, ?_, ?_⟩
  · intro head hHead
    cases hInv with
    | inl hFresh =>
        rw [hFresh.head] at hHead
        cases hHead
    | inr hRuns =>
        obtain ⟨head', queues, h⟩ := hRuns
        rw [h.shared.head_eq] at hHead
        cases hHead
        exact h.shared.wellFormed
  · intro addr bt dest sz bt' shm' hBt hRegister
    obtain ⟨head, queues, h⟩ := hInv.repr hBt
    obtain ⟨head', hSame⟩ := busRegisterPipe_none h.shared.head_eq hRegister
    exact ⟨head, head', h.shared.head_eq, hSame⟩

/-- Two terminals and a third one that comes again, with pipes both ways. -/
theorem bus_wellformed_three :
    ∃ results s, run busStep (busStart 1 fun _ => none)
        [.create 1, .create 2, .send 1 (some [7]) 2, .create 3, .send 2 (some [8]) 1, .poll 1,
          .create 3] = some (results, s) ∧
      (∀ head, s.shm.head = some head → WellFormed head) ∧
      ∀ addr bt dest sz bt' shm', s.terminals addr = some bt →
        busRegisterPipe bt s.shm dest sz = some (none, bt', shm') →
        ∃ head head', s.shm.head = some head ∧ shm'.head = some head' ∧
          head'.pcount = head.pcount ∧ head'.pver = head.pver ∧
          ∀ i, i < head.pcount → head'.pipes i = head.pipes i :=
  bus_wellformed 1 (fun _ => none) (by simp [Legal])

/-! ## The tables of a terminal -/

/-- An id table has the pipes that have the terminal at one end, and nothing else. -/
def Exact (head : BusHead) (mine other : HeadT → Int) (self : Int) (table : IdtableT PipeT) :
    Prop :=
  (∀ i, i < head.pcount → mine (head.pipes i) = self →
    idtableGet table (other (head.pipes i)) = some (some ⟨i, (head.pipes i).key⟩)) ∧
  ∀ n, n < table.count → (table.table n).id ≠ invalidId →
    ∃ i, i < head.pcount ∧ mine (head.pipes i) = self ∧
      other (head.pipes i) = (table.table n).id ∧
      (table.table n).ptr = some ⟨i, (head.pipes i).key⟩

/-- A terminal with the versions of the head has the tables of the head. -/
structure Coherent (head : BusHead) (addr : Int) (bt : BusT) : Prop where
  own : bt.self = addr
  terminals : bt.tver = head.tver → bt.tcount = head.tcount ∧
    ∀ i, i < head.tcount → bt.terms i = head.terms i
  opipes : bt.pver = head.pver → Exact head HeadT.fromAddr HeadT.toAddr addr bt.opipes
  ipipes : bt.pver = head.pver → Exact head HeadT.toAddr HeadT.fromAddr addr bt.ipipes

section

variable {shm : Shm} {head : BusHead} {queues : Nat → List (List UInt8)} {addr : Int}
variable {known : Nat} {bt : BusT}

theorem Table.exact {mine other : HeadT → Int} {table : IdtableT PipeT}
    (h : Table head mine other addr head.pcount table) : Exact head mine other addr table :=
  ⟨fun _ hi hMine => h.get hi hMine rfl, fun _ hn hUsed => h.node hn hUsed⟩

theorem TermRepr.coherent (h : TermRepr head addr known bt) (hHead : HeadRepr shm head queues) :
    Coherent head addr bt := by
  have hKnown : bt.pver = head.pver → known = head.pcount := by
    intro hSame
    rw [h.pver, hHead.pver] at hSame
    omega
  refine ⟨h.self, ?_, ?_, ?_⟩
  · intro hSame
    have hCount : bt.tcount = head.tcount := by
      rw [← h.tver, hSame, hHead.tver]
    exact ⟨hCount, fun i hi => h.terms (by omega)⟩
  · intro hSame
    have hOut := h.opipes
    rw [hKnown hSame] at hOut
    exact hOut.exact
  · intro hSame
    have hIn := h.ipipes
    rw [hKnown hSame] at hIn
    exact hIn.exact

end

/-- After every run, each terminal that has a version of the head has what belongs to it: the
terminals of the table that it knows, and its pipes in both directions. -/
theorem bus_coherent (key : Int) (foreign : Int → Option SegmentT) {ops : List BusOp}
    (hLegal : ∀ op, op ∈ ops → Legal op) :
    ∃ results s, run busStep (busStart key foreign) ops = some (results, s) ∧
      ∀ head addr bt, s.shm.head = some head → s.terminals addr = some bt →
        Coherent head addr bt := by
  obtain ⟨results, s, hRun, hInv⟩ := bus_runs key foreign hLegal
  refine ⟨results, s, hRun, ?_⟩
  intro head addr bt hHead hBt
  obtain ⟨head', queues, h⟩ := hInv.repr hBt
  rw [h.shared.head_eq] at hHead
  cases hHead
  obtain ⟨known, hTerm⟩ := h.terminal hBt
  exact hTerm.coherent h.shared

/-- A pipe is registered by a terminal that has not seen another one. -/
theorem bus_coherent_three :
    ∃ results s, run busStep (busStart 1 fun _ => none)
        [.create 1, .create 2, .create 3, .send 1 (some [7]) 3, .send 2 (some [8]) 1, .poll 3] =
          some (results, s) ∧
      ∀ head addr bt, s.shm.head = some head → s.terminals addr = some bt →
        Coherent head addr bt :=
  bus_coherent 1 (fun _ => none) (by simp [Legal])

end Gbase.Logic.Bus
