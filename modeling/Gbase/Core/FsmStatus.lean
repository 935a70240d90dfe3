import Gbase.Core.Fsm

/-!
# Statuses of a started machine

Once `fsm_start` succeeded, the status of a machine is one that was registered, whatever is
registered or triggered afterwards.  A rule can only lead to a status that was registered when
the rule was, and entries never leave the table of statuses.  The rule that is followed need not
be the one the map of rules has for the event, since another rule of the bucket may pass for
it, but it is one of the registered rules, and that is all the argument needs.

## Main results

* `fsmStep_status_safe`: what one call on a started machine does to its status.
* `fsm_status_safe`: the same over whole runs; no assertion fails in them.
-/

namespace Gbase.Core.Fsm

open Gbase.Base.Hash
open Gbase.Base.Idtable
open Gbase.Lib.Run

universe u

variable {β ω : Type u}

/-! ## What the calls should do -/

/-- `fsm_trigger`: an event that is not known and one without a rule change nothing; otherwise a
registered rule is followed, and the functions called are those between the two statuses. -/
def Transition (s : State β ω) (event : Int) (args : ω) (r : Int × List β) (s' : State β ω) :
    Prop :=
  match idtableGet s.fsm.eventsTable event with
  | some (some ev) =>
      match found s.fsm event (ev.handle args) with
      | some rule =>
          s.rules rule.input = some rule.output ∧ r.1 = fsmOk ∧ s' = s.move rule.output ∧
            Crosses s.fsm s'.fsm.current r.2
      | none => r = (fsmNotExisted, []) ∧ s' = s
  | _ => r = (fsmNotExisted, []) ∧ s' = s

/-- What the single calls do to the status; only a trigger calls functions of statuses. -/
def StatusStep (s : State β ω) : FsmOp β ω → Int × List β → State β ω → Prop
  | .status status enter exit, r, s' =>
      r.2 = [] ∧ s'.fsm.current = s.fsm.current ∧
        (r.1 = fsmOk → idtableGet s'.fsm.statusTable status = some (some ⟨status, enter, exit⟩))
  | .event _ _, r, s' => r.2 = [] ∧ s'.fsm.current = s.fsm.current
  | .rule _ _ _ _, r, s' => r.2 = [] ∧ s'.fsm.current = s.fsm.current
  | .start status, r, s' =>
      r.2 = [] ∧ s'.fsm.current = if r.1 = fsmOk then status else s.fsm.current
  | .trigger event args, r, s' => Transition s event args r s'

/-- A call does that, leaves the registered statuses as they are, and ends with the machine in a
registered status. -/
structure StatusSafe (s : State β ω) (op : FsmOp β ω) (r : Int × List β) (s' : State β ω) :
    Prop where
  step : StatusStep s op r s'
  keep : ∀ id st, idtableGet s.fsm.statusTable id = some (some st) →
    idtableGet s'.fsm.statusTable id = some (some st)
  current : Registered s'.fsm.statusTable s'.fsm.current

/-- The invariant of a started machine. -/
structure Running (s : State β ω) : Prop where
  inv : Inv s
  current : Registered s.fsm.statusTable s.fsm.current

/-- Neither a start nor a trigger. -/
def FsmOp.Registers : FsmOp β ω → Prop
  | .status _ _ _ | .event _ _ | .rule _ _ _ _ => True
  | _ => False

/-! ## Frames -/

section

variable {fsm fsm' : FsmT β ω} {code : Int}

/-- `fsm_register_event` does not touch the statuses. -/
theorem registerEvent_frame {event : Int} {handle : ω → Int}
    (h : fsmRegisterEvent fsm event handle = some (code, fsm')) :
    fsm'.statusTable = fsm.statusTable ∧ fsm'.current = fsm.current := by
  rw [fsmRegisterEvent] at h
  split at h
  · cases h
    exact ⟨rfl, rfl⟩
  split at h
  · cases h
    exact ⟨rfl, rfl⟩
  obtain ⟨old, -, h⟩ := Option.bind_eq_some_iff.mp h
  split at h
  · cases h
    exact ⟨rfl, rfl⟩
  obtain ⟨⟨ret, table⟩, -, h⟩ := Option.bind_eq_some_iff.mp h
  dsimp only at h
  split at h
  · cases h
    exact ⟨rfl, rfl⟩
  · cases h

/-- Nor does `fsm_register_rule`. -/
theorem registerRule_frame {event retCode fromStatus toStatus : Int}
    (h : fsmRegisterRule fsm event retCode fromStatus toStatus = some (code, fsm')) :
    fsm'.statusTable = fsm.statusTable ∧ fsm'.current = fsm.current := by
  rw [fsmRegisterRule] at h
  split at h
  · cases h
    exact ⟨rfl, rfl⟩
  split at h
  · cases h
    exact ⟨rfl, rfl⟩
  obtain ⟨et, -, h⟩ := Option.bind_eq_some_iff.mp h
  obtain ⟨fromSt, -, h⟩ := Option.bind_eq_some_iff.mp h
  obtain ⟨toSt, -, h⟩ := Option.bind_eq_some_iff.mp h
  split at h
  · cases h
    exact ⟨rfl, rfl⟩
  split at h
  · cases h
    exact ⟨rfl, rfl⟩
  dsimp only at h
  split at h
  · cases h
    exact ⟨rfl, rfl⟩
  · cases h
    exact ⟨rfl, rfl⟩

end

/-! ## One call -/

section

variable {s : State β ω}

/-- What was found under a key is one of the registered rules. -/
theorem Inv.found_registered (h : Inv s) {event retCode : Int} {rule : FsmRuleT}
    (hFound : found s.fsm event retCode = some rule) : s.rules rule.input = some rule.output := by
  have hFind : ∀ {key : FsmInputT}, hashFind s.fsm.rulesTable (some ⟨key, 0⟩) = some rule →
      s.rules rule.input = some rule.output := by
    intro key hFind
    rw [hashFind] at hFind
    exact h.rules.of_chain (List.mem_of_find?_eq_some hFind)
  rw [found] at hFound
  split at hFound
  · next rule' hExact =>
      cases hFound
      exact hFind hExact
  · exact hFind hFound

/-- `fsm_trigger` on a started machine. -/
theorem Running.trigger (h : Running s) (event : Int) (args : ω) :
    ∃ r s', fsmStep s (.trigger event args) = some (r, s') ∧ Transition s event args r s' ∧
      s'.fsm.statusTable = s.fsm.statusTable ∧ Running s' := by
  obtain ⟨entry, hEvent⟩ := h.inv.events.get event
  cases entry with
  | none =>
      refine ⟨(fsmNotExisted, []), s, ?_, ?_, rfl, h⟩
      · simp only [fsmStep, fsmTrigger, hEvent]
        rfl
      · rw [Transition, hEvent]
        exact ⟨rfl, rfl⟩
  | some ev =>
      cases hFound : found s.fsm event (ev.handle args) with
      | none =>
          refine ⟨(fsmNotExisted, []), s, Inv.trigger_none hEvent hFound, ?_, rfl, h⟩
          simp only [Transition, hEvent, hFound]
          exact ⟨trivial, trivial⟩
      | some rule =>
          have hRule := h.inv.found_registered hFound
          have hOut := h.inv.output _ _ hRule
          have hStarted : Started s.fsm rule.output := by
            refine Or.inl fun hWild => ?_
            have hPos := h.inv.status.not_negative h.current
            rw [hWild, fsmWildcardStatus] at hPos
            omega
          obtain ⟨called, hCrosses, hCall⟩ := (h.inv.follow hEvent hFound hOut).1 hStarted
          have hMove := h.inv.move hOut
          refine ⟨(fsmOk, called), s.move rule.output, ?_, ?_, rfl, hMove, ?_⟩
          · simp only [fsmStep, hCall]
            rfl
          · simp only [Transition, hEvent, hFound]
            exact ⟨hRule, trivial, trivial, hCrosses⟩
          · rw [State.move, next]
            dsimp only
            split
            · exact h.current
            · exact hOut.resolve_left ‹_›

/-- A registration never fails an assertion, whether or not the machine was started. -/
theorem Inv.registers (h : Inv s) {op : FsmOp β ω} (hOp : op.Registers) :
    ∃ r s', fsmStep s op = some (r, s') ∧ Inv s' := by
  cases op with
  | status status enter exit => exact h.registerStatus status enter exit
  | event event handle => exact h.registerEvent event handle
  | rule event retCode fromStatus toStatus =>
      obtain ⟨r, s', hStep, hInv, -⟩ :=
        @Inv.registerRule _ _ s event retCode fromStatus toStatus h
      exact ⟨r, s', hStep, hInv⟩
  | start status => cases hOp
  | trigger event args => cases hOp

/-- A call that changes neither the statuses nor which of them is the current one. -/
theorem Running.quiet (h : Running s) {op : FsmOp β ω} {r : Int × List β} {s' : State β ω}
    (hStep : fsmStep s op = some (r, s')) (hInv : Inv s')
    (hTable : s'.fsm.statusTable = s.fsm.statusTable) (hCurrent : s'.fsm.current = s.fsm.current)
    (hStatus : StatusStep s op r s') :
    ∃ r s', fsmStep s op = some (r, s') ∧ StatusSafe s op r s' ∧ Running s' := by
  have hRegistered : Registered s'.fsm.statusTable s'.fsm.current := by
    rw [hTable, hCurrent]
    exact h.current
  refine ⟨r, s', hStep, ⟨hStatus, ?_, hRegistered⟩, hInv, hRegistered⟩
  intro id st hGet
  rwa [hTable]

/-- One call on a started machine returns, does to its status what it should, and leaves it
started. -/
theorem fsmStep_status_safe (h : Running s) (op : FsmOp β ω) :
    ∃ r s', fsmStep s op = some (r, s') ∧ StatusSafe s op r s' ∧ Running s' := by
  cases op with
  | status status enter exit =>
      obtain ⟨r, s', hStep, hInv⟩ := h.inv.registerStatus status enter exit
      rcases h.inv.registerStatus_cases status enter exit with
        ⟨code, hCode, hCall⟩ | ⟨table', hNew, -, hGet, hCall⟩
      · have hRun : fsmStep s (.status status enter exit) = some ((code, []), s) := by
          simp only [fsmStep, hCall]
          rfl
        refine ⟨_, _, hRun, ⟨⟨rfl, rfl, ?_⟩, fun id st hId => hId, h.current⟩, h⟩
        intro hOk
        exact absurd hOk hCode
      · have hRun : fsmStep s (.status status enter exit) = some ((fsmOk, []),
            { s with fsm := { s.fsm with
              statusCount := s.fsm.statusCount + 1, statusTable := table' } }) := by
          simp only [fsmStep, hCall]
          rfl
        rw [hRun] at hStep
        cases hStep
        have hCurrent := Registered.add hGet h.current
        refine ⟨_, _, hRun, ⟨⟨rfl, rfl, ?_⟩, ?_, hCurrent⟩, hInv, hCurrent⟩
        · intro _
          exact (hGet status).trans (if_pos rfl)
        · intro id st hId
          refine (hGet id).trans ?_
          rw [if_neg]
          · exact hId
          · rintro rfl
            rw [hNew] at hId
            cases hId
  | event event handle =>
      obtain ⟨r, s', hStep, hInv⟩ := h.inv.registerEvent event handle
      obtain ⟨⟨code, fsm⟩, hCall, hEq⟩ := Option.map_eq_some_iff.mp hStep
      obtain ⟨hTable, hCurrent⟩ := registerEvent_frame hCall
      cases hEq
      exact h.quiet hStep hInv hTable hCurrent ⟨rfl, hCurrent⟩
  | rule event retCode fromStatus toStatus =>
      obtain ⟨r, s', hStep, hInv, -⟩ :=
        @Inv.registerRule _ _ s event retCode fromStatus toStatus h.inv
      obtain ⟨⟨code, fsm⟩, hCall, hEq⟩ := Option.map_eq_some_iff.mp hStep
      obtain ⟨hTable, hCurrent⟩ := registerRule_frame hCall
      cases hEq
      exact h.quiet hStep hInv hTable hCurrent ⟨rfl, hCurrent⟩
  | start status =>
      obtain ⟨r, s', hStep, hInv⟩ := h.inv.start status
      obtain ⟨st, hGet⟩ := h.inv.status.get status
      cases st with
      | none =>
          have hRun : fsmStep s (.start status) = some ((fsmFail, []), s) := by
            simp only [fsmStep, fsmStart, hGet]
            rfl
          refine ⟨_, _, hRun, ⟨⟨rfl, ?_⟩, fun id st hId => hId, h.current⟩, h⟩
          exact (if_neg (show ¬ fsmFail = fsmOk by decide)).symm
      | some st =>
          have hRun : fsmStep s (.start status) =
              some ((fsmOk, []), { s with fsm := { s.fsm with current := status } }) := by
            simp only [fsmStep, fsmStart, hGet]
            rfl
          rw [hRun] at hStep
          cases hStep
          exact ⟨_, _, hRun, ⟨⟨rfl, rfl⟩, fun id st hId => hId, ⟨st, hGet⟩⟩, hInv, ⟨st, hGet⟩⟩
  | trigger event args =>
      obtain ⟨r, s', hStep, hTransition, hTable, hRunning⟩ := h.trigger event args
      refine ⟨r, s', hStep, ⟨hTransition, ?_, hRunning.current⟩, hRunning⟩
      intro id st hGet
      rwa [hTable]

end

/-! ## Whole runs -/

/-- A successful `fsm_start` makes the machine run. -/
theorem running_of_start {s s' : State β ω} (h : Inv s) {status : Int}
    (hStart : fsmStep s (.start status) = some ((fsmOk, []), s')) : Running s' := by
  obtain ⟨r, s₁, hStep, hInv⟩ := h.start status
  rw [hStart] at hStep
  cases hStep
  obtain ⟨⟨code, fsm⟩, hCall, hEq⟩ := Option.map_eq_some_iff.mp hStart
  simp only [Prod.mk.injEq] at hEq
  obtain ⟨⟨rfl, -⟩, rfl⟩ := hEq
  obtain ⟨st, hGet, hCall⟩ := Option.bind_eq_some_iff.mp hCall
  split at hCall
  · cases hCall
  · next hSome =>
      cases hCall
      cases st with
      | none => exact absurd rfl hSome
      | some st => exact ⟨hInv, st, hGet⟩

/-- From a new machine, registrations never fail an assertion, and after a successful
`fsm_start` no call does: each does to the status what it should, and leaves the machine in a
registered status. -/
theorem fsm_status_safe {size : Int} {fsm : FsmT β ω}
    (hCreate : fsmCreate size = some (some fsm)) {setup : List (FsmOp β ω)} {status : Int}
    {rs : List (Int × List β)} {s s₀ : State β ω}
    (hSetup : run fsmStep ⟨fsm, fun _ => none⟩ setup = some (rs, s))
    (hStart : fsmStep s (.start status) = some ((fsmOk, []), s₀)) (ops : List (FsmOp β ω)) :
    Along fsmStep (fun s op => op.Registers → ∃ r s', fsmStep s op = some (r, s'))
        ⟨fsm, fun _ => none⟩ setup ∧
      Registered s₀.fsm.statusTable s₀.fsm.current ∧
      Along fsmStep (Does fsmStep StatusSafe) s₀ ops := by
  have hNew := inv_create hCreate
  have hKeep : ∀ s op r t, Inv s → @fsmStep β ω s op = some (r, t) → Inv t :=
    fun s op r t hInv hStep => (fsmStep_sound_iff hInv op).2 r t hStep
  have hInv : Inv s := inv_of_run Inv hKeep hNew hSetup
  have hRunning := running_of_start hInv hStart
  refine ⟨?_, hRunning.current, ?_⟩
  · apply along_of_inv Inv _ _ hNew (along_true _ setup)
    · intro s op hInv _ hOp
      obtain ⟨r, s', hStep, -⟩ := hInv.registers hOp
      exact ⟨r, s', hStep⟩
    · exact fun s op r t hInv _ hStep => hKeep s op r t hInv hStep
  · exact along_of_spec Running (fun s op hRun _ => fsmStep_status_safe hRun op) hRunning
      (along_true _ ops)

/-- Two statuses and a rule of each, then events that lead to and fro, stay, and are unknown. -/
theorem fsm_status_safe_to_and_fro :
    ∃ rs s s₀, run fsmStep ⟨smallFsm, fun _ => none⟩
        [.status 1 (some "enter 1") (some "exit 1"), .status 2 none (some "exit 2"),
          .event 1 (fun args => args), .rule 1 0 1 2, .rule 1 0 (-1) 1] = some (rs, s) ∧
      fsmStep s (.start 1) = some ((fsmOk, []), s₀) ∧
      Registered s₀.fsm.statusTable s₀.fsm.current ∧
      Along fsmStep (Does fsmStep StatusSafe) s₀
        [.trigger 1 0, .trigger 1 0, .rule 1 1 1 (-1), .trigger 1 1, .trigger 2 0] := by
  have hRun : ((run fsmStep ⟨smallFsm, fun _ => none⟩
      [.status 1 (some "enter 1") (some "exit 1"), .status 2 none (some "exit 2"),
        .event 1 (fun args => args), .rule 1 0 1 2, .rule 1 0 (-1) 1]).bind fun p =>
          (fsmStep p.2 (.start 1)).map Prod.fst) = some (fsmOk, []) := by
    decide +kernel
  obtain ⟨⟨rs, s⟩, hSetup, hMap⟩ := Option.bind_eq_some_iff.mp hRun
  obtain ⟨⟨r, s₀⟩, hStart, hEq⟩ := Option.map_eq_some_iff.mp hMap
  cases hEq
  obtain ⟨-, hCurrent, hAlong⟩ := fsm_status_safe smallFsm_create hSetup hStart
    [.trigger 1 0, .trigger 1 0, .rule 1 1 1 (-1), .trigger 1 1, .trigger 2 0]
  exact ⟨rs, s, s₀, hSetup, hStart, hCurrent, hAlong⟩

end Gbase.Core.Fsm
