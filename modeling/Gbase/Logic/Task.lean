import Gbase.Lib.Run
import Mathlib.Data.List.Nodup
import Mathlib.Logic.Function.Basic

/-!
# Tasks (`logic/task.c`)

A task runs its steps one after the other; a step that waits for something is resumed later from
outside, and a timer can end the task before.  Steps are nodes in memory that hang together as a
ring, and a pointer is a number or `none` for `NULL`.  What a step returns when it runs, and the
id that `timer_register` gives, come from outside.  The functions of a task and of its steps do
not call the task.

`task_step_resume` and `_task_timeout` do not look whether the task is finished, and a task that
finishes leaves its timer where it is.

## Main results

* `ring_push`: the steps pushed to a task hang together as a ring.
* `taskStep_sound_iff`: one event keeps the task from ending twice if and only if it is not a late
  one.
* `task_ends_once_iff`: the same over whole runs.
-/

namespace Gbase.Logic.Task

open Gbase.Lib.Run

/-- `task_step_t`; `owned` says that `t` points to the task. -/
structure TaskStepT where
  id : Nat
  owned : Bool
  next : Option Nat
  prev : Option Nat
  run : Option Nat
  param : Nat

/-- `task_t`, with the memory its steps live in. -/
structure TaskT where
  id : Nat
  current : Option Nat
  head : Option Nat
  param : Nat
  timerId : Int
  mem : Nat → TaskStepT

/-- `TASK_RET_FAIL` -/
def taskRetFail : Int := -1

/-- `TASK_RET_SUCCESS` -/
def taskRetSuccess : Int := 0

/-- `TASK_RET_NEXT` -/
def taskRetNext : Int := 1

/-- `TASK_RET_RUNNING` -/
def taskRetRunning : Int := 2

/-- `TIMER_INVALID_ID` -/
def timerInvalidId : Int := -1

/-- A function of a step or of the task that is called. -/
inductive Call where
  | run (ts : Nat)
  | onSuccess
  | onFail (isTimeout : Int)
  deriving DecidableEq

/-- `task_create` -/
def taskCreate (id param : Nat) (mem : Nat → TaskStepT) : TaskT :=
  { id := id, current := none, head := none, param := param, timerId := timerInvalidId, mem := mem }

def TaskT.set (t : TaskT) (ts : Nat) (change : TaskStepT → TaskStepT) : TaskT :=
  { t with mem := Function.update t.mem ts (change (t.mem ts)) }

/-- `task_push_back_step` -/
def taskPushBackStep (t : TaskT) (ts : Nat) : Option TaskT := do
  let t ←
    (match t.head with
    | none =>
        let t := { t with head := some ts }
        some (t.set ts fun s => { s with prev := some ts, next := some ts })
    | some head => do
        let last ← (t.mem head).prev
        let t := t.set last fun s => { s with next := some ts }
        let t := t.set ts fun s => { s with prev := some last }
        let t := t.set head fun s => { s with prev := some ts }
        return t.set ts fun s => { s with next := some head })
  return t.set ts fun s => { s with owned := true }

/-- `task_is_finished` -/
def taskIsFinished (t : TaskT) : Int := if t.current = none then 0 else -1

/-- `task_step_run`: the functions called and the return value, `ret` being what a step that runs
returns. -/
def taskStepRun (mem : Nat → TaskStepT) (ts : Option Nat) (ret : Int) : List Call × Int :=
  match ts with
  | some ts => if (mem ts).run.isSome then ([.run ts], ret) else ([], taskRetFail)
  | none => ([], taskRetFail)

/-- The loop of `_task_run`, undefined when it takes more than `fuel` turns.  `rets i` is what the
step run in turn `i` returns.  The result lists the functions called, and is where the loop
leaves `current`. -/
def runLoop (mem : Nat → TaskStepT) (head : Option Nat) (rets : Nat → Int) :
    Nat → Nat → Option Nat → Option (List Call × Option Nat)
  | 0, _, _ => none
  | fuel + 1, i, current =>
      let (called, ret) := taskStepRun mem current (rets i)
      if ret = taskRetNext then
        match current with
        | none => none
        | some ts =>
            let current := (mem ts).next
            if current = head then some (called ++ [.onSuccess], none)
            else (runLoop mem head rets fuel (i + 1) current).map fun (later, current) =>
              (called ++ later, current)
      else if ret = taskRetRunning then some (called, current)
      else if ret = taskRetSuccess then some (called ++ [.onSuccess], none)
      else some (called ++ [.onFail taskRetFail], none)

/-- `_task_run` -/
def taskRunLoop (fuel : Nat) (rets : Nat → Int) (t : TaskT) : Option (List Call × TaskT) :=
  if t.head = none ∨ t.current = none then some ([], t)
  else (runLoop t.mem t.head rets fuel 0 t.current).map fun (called, current) =>
    (called, { t with current := current })

/-- `task_run`; `timerId` is what `timer_register` gives, or `none` without a timer. -/
def taskRun (fuel : Nat) (rets : Nat → Int) (t : TaskT) (timerId : Option Int) :
    Option (List Call × TaskT) :=
  if t.head = none then some ([], t)
  else
    let t := { t with current := t.head }
    match timerId with
    | none => taskRunLoop fuel rets t
    | some timerId =>
        -- assert(t->timer_id != TIMER_INVALID_ID)
        if timerId = timerInvalidId then none
        else taskRunLoop fuel rets { t with timerId := timerId }

/-- `current` after some moves along a link. -/
def walk (mem : Nat → TaskStepT) (link : TaskStepT → Option Nat) :
    Nat → Option Nat → Option (Option Nat)
  | 0, current => some current
  | _ + 1, none => none
  | n + 1, some ts => walk mem link n (link (mem ts))

/-- `task_step_resume` -/
def taskStepResume (fuel : Nat) (rets : Nat → Int) (t : TaskT) (ts : Option Nat) (ret step : Int) :
    Option (List Call × TaskT) :=
  match ts with
  | none => some ([], t)
  | some ts =>
      if ret = taskRetRunning then some ([], t)
      else if (t.mem ts).owned = false then none
      else if ret = taskRetSuccess then some ([.onSuccess], { t with current := none })
      else if ret = taskRetNext then do
        let current ←
          (if step > 0 then walk t.mem TaskStepT.next step.toNat t.current
          else walk t.mem TaskStepT.prev (-step).toNat t.current)
        taskRunLoop fuel rets { t with current := current }
      else some ([.onFail taskRetFail], { t with current := none })

/-- `_task_timeout` -/
def taskTimeout (t : TaskT) : List Call × TaskT :=
  ([.onFail 0], { t with current := none, timerId := timerInvalidId })

/-! ## Runs -/

/-- A task from `task_run` on: whether it was run, whether its timer is registered, and how often
`on_success` or `on_fail` was called. -/
structure State where
  task : TaskT
  started : Bool
  pending : Bool
  ended : Nat

inductive TaskOp where
  | run (timerId : Option Int) (rets : Nat → Int)
  | resume (ts : Option Nat) (ret step : Int) (rets : Nat → Int)
  | timeout

def Call.ends : Call → Bool
  | .run _ => false
  | _ => true

/-- How many of the calls are to `on_success` or `on_fail`. -/
def endings (called : List Call) : Nat := called.countP Call.ends

/-- One event; loops take at most `fuel` turns. -/
def taskStep (fuel : Nat) : Step State TaskOp (List Call)
  | s, .run timerId rets =>
      (taskRun fuel rets s.task timerId).map fun (called, t) =>
        (called, ⟨t, true, timerId.isSome && s.task.head.isSome, s.ended + endings called⟩)
  | s, .resume ts ret step rets =>
      (taskStepResume fuel rets s.task ts ret step).map fun (called, t) =>
        (called, { s with task := t, ended := s.ended + endings called })
  | s, .timeout =>
      let (called, t) := taskTimeout s.task
      some (called, { s with task := t, pending := false, ended := s.ended + endings called })

/-- What can happen from `task_run` on: the task is run once and the timer can be registered, steps
of the task are resumed, and a timer that is registered expires. -/
def Legal (steps : List Nat) (s : State) : TaskOp → Prop
  | .run timerId _ => s.started = false ∧ timerId ≠ some timerInvalidId
  | .resume ts _ _ _ => s.started = true ∧ ∀ step, step ∈ ts → step ∈ steps
  | .timeout => s.pending = true

/-- The task has ended once at most, and a finished task stays as it is. -/
def Sound (s : State) (_ : TaskOp) (_ : List Call) (s' : State) : Prop :=
  s'.ended ≤ 1 ∧ (s.started = true → s.task.current = none → s' = s)

/-- Nothing comes late: when the task is finished, its timer does not expire, and no step is
resumed but to wait on or to go on by no step. -/
def NotLate (s : State) (op : TaskOp) : Prop :=
  s.started = true → s.task.current = none →
    match op with
    | .run _ _ => True
    | .resume none _ _ _ => True
    | .resume (some _) ret step _ => ret = taskRetRunning ∨ ret = taskRetNext ∧ step = 0
    | .timeout => False

instance Legal.decidable (steps : List Nat) (s : State) : ∀ op, Decidable (Legal steps s op)
  | .run _ _ => inferInstanceAs (Decidable (_ ∧ _))
  | .resume ts _ _ _ => inferInstanceAs (Decidable (_ ∧ ∀ step, step ∈ ts → step ∈ steps))
  | .timeout => inferInstanceAs (Decidable (_ = _))

instance NotLate.decidable (s : State) : ∀ op, Decidable (NotLate s op)
  | .run _ _ => isTrue fun _ _ => trivial
  | .resume none _ _ _ => isTrue fun _ _ => trivial
  | .resume (some _) ret step _ =>
      inferInstanceAs (Decidable (_ → _ → ret = taskRetRunning ∨ ret = taskRetNext ∧ step = 0))
  | .timeout => inferInstanceAs (Decidable (_ → _ → False))

/-! ## The ring of steps -/

/-- The steps hang together as a ring, in this order. -/
structure Ring (t : TaskT) (steps : List Nat) : Prop where
  nodup : steps.Nodup
  head : t.head = steps.head?
  next : ∀ i ts, steps[i]? = some ts → (t.mem ts).next = steps[(i + 1) % steps.length]?
  prev : ∀ i ts, steps[i]? = some ts →
    (t.mem ts).prev = steps[(i + (steps.length - 1)) % steps.length]?
  owned : ∀ ts, ts ∈ steps → (t.mem ts).owned = true

section

variable {t : TaskT} {steps : List Nat} {ts fuel : Nat} {rets : Nat → Int}

/-- A new task has no steps. -/
theorem ring_create (id param : Nat) (mem : Nat → TaskStepT) :
    Ring (taskCreate id param mem) [] where
  nodup := List.nodup_nil
  head := rfl
  next := fun _ _ h => nomatch h
  prev := fun _ _ h => nomatch h
  owned := fun _ h => absurd h List.not_mem_nil

/-- Every place of the ring holds a step. -/
theorem step_at {j : Nat} (hj : j < steps.length) : ∃ ts, ts ∈ steps ∧ steps[j]? = some ts :=
  ⟨steps[j], List.getElem_mem hj, List.getElem?_eq_getElem hj⟩

theorem Ring.next_mem (h : Ring t steps) (hIn : ts ∈ steps) :
    ∃ ts', ts' ∈ steps ∧ (t.mem ts).next = some ts' := by
  obtain ⟨i, hi, hAt⟩ := List.mem_iff_getElem.mp hIn
  have hAt' : steps[i]? = some ts := by rw [List.getElem?_eq_getElem hi, hAt]
  rw [h.next i ts hAt']
  exact step_at (Nat.mod_lt _ (by omega))

theorem Ring.prev_mem (h : Ring t steps) (hIn : ts ∈ steps) :
    ∃ ts', ts' ∈ steps ∧ (t.mem ts).prev = some ts' := by
  obtain ⟨i, hi, hAt⟩ := List.mem_iff_getElem.mp hIn
  have hAt' : steps[i]? = some ts := by rw [List.getElem?_eq_getElem hi, hAt]
  rw [h.prev i ts hAt']
  exact step_at (Nat.mod_lt _ (by omega))

/-- Along a link that stays in the ring, a walk does. -/
theorem walk_mem {mem : Nat → TaskStepT} {link : TaskStepT → Option Nat}
    (hLink : ∀ ts, ts ∈ steps → ∃ ts', ts' ∈ steps ∧ link (mem ts) = some ts') (n : Nat)
    (hIn : ts ∈ steps) : ∃ ts', ts' ∈ steps ∧ walk mem link n (some ts) = some (some ts') := by
  induction n generalizing ts with
  | zero => exact ⟨ts, hIn, rfl⟩
  | succ n ih =>
      obtain ⟨ts', hIn', hNext⟩ := hLink ts hIn
      rw [walk, hNext]
      exact ih hIn'

/-- Where a loop or a resume leaves the task: finished with one ending, or at a step with none. -/
def Left (steps : List Nat) (called : List Call) (current : Option Nat) : Prop :=
  (current = none ∧ endings called = 1) ∨
    ∃ ts, ts ∈ steps ∧ current = some ts ∧ endings called = 0

theorem endings_append (xs ys : List Call) : endings (xs ++ ys) = endings xs + endings ys :=
  List.countP_append

private theorem endings_taskStepRun (mem : Nat → TaskStepT) (ts : Option Nat) (ret : Int) :
    endings (taskStepRun mem ts ret).1 = 0 := by
  unfold taskStepRun
  split
  · split <;> rfl
  · rfl

/-- The loop goes around the ring once at most. -/
theorem Ring.runLoop (h : Ring t steps) {i k : Nat} (hAt : steps[i]? = some ts)
    (hFuel : steps.length ≤ i + fuel) :
    ∃ called current, runLoop t.mem t.head rets fuel k (some ts) = some (called, current) ∧
      Left steps called current := by
  have hi : i < steps.length := (List.getElem?_eq_some_iff.mp hAt).1
  induction fuel generalizing i k ts with
  | zero => omega
  | succ fuel ih =>
      have hNone := endings_taskStepRun t.mem (some ts) (rets k)
      rw [Task.runLoop]
      generalize taskStepRun t.mem (some ts) (rets k) = ran at hNone ⊢
      obtain ⟨called, ret⟩ := ran
      by_cases hNext : ret = taskRetNext
      · simp only [if_pos hNext, h.next i ts hAt]
        by_cases hLast : i + 1 = steps.length
        · -- behind the last step the ring is around
          have hAround : steps[(i + 1) % steps.length]? = t.head := by
            rw [hLast, Nat.mod_self, h.head, List.head?_eq_getElem?]
          rw [if_pos hAround]
          refine ⟨_, none, rfl, Or.inl ⟨rfl, ?_⟩⟩
          rw [endings_append, hNone]
          rfl
        · have hMod : (i + 1) % steps.length = i + 1 := Nat.mod_eq_of_lt (by omega)
          obtain ⟨ts', -, hAt'⟩ := @step_at steps (i + 1) (by omega)
          have hNot : ¬ steps[i + 1]? = t.head := by
            rw [h.head, List.head?_eq_getElem?]
            intro hSame
            have hZero := (List.getElem?_inj (by omega) h.nodup).mp hSame
            omega
          obtain ⟨later, current, hLoop, hLeft⟩ :=
            @ih ts' (i + 1) (k + 1) hAt' (by omega) (by omega)
          rw [hMod, if_neg hNot, hAt', hLoop]
          refine ⟨called ++ later, current, rfl, ?_⟩
          rw [Left, endings_append, hNone, Nat.zero_add]
          exact hLeft
      · by_cases hRunning : ret = taskRetRunning
        · simp only [if_neg hNext, if_pos hRunning]
          exact ⟨called, some ts, rfl, Or.inr ⟨ts, List.mem_of_getElem? hAt, rfl, hNone⟩⟩
        · have hEnd : ∀ call, call.ends = true → Left steps (called ++ [call]) none := by
            intro call hEnds
            refine Or.inl ⟨rfl, ?_⟩
            rw [endings_append, hNone, endings, List.countP_singleton, if_pos hEnds]
          by_cases hSuccess : ret = taskRetSuccess
          · simp only [if_neg hNext, if_neg hRunning, if_pos hSuccess]
            exact ⟨_, none, rfl, hEnd _ rfl⟩
          · simp only [if_neg hNext, if_neg hRunning, if_neg hSuccess]
            exact ⟨_, none, rfl, hEnd _ rfl⟩

theorem Ring.head_ne_none (h : Ring t steps) (hIn : ts ∈ steps) : t.head ≠ none := by
  obtain ⟨first, rest, rfl⟩ := List.exists_cons_of_ne_nil (List.ne_nil_of_mem hIn)
  rw [h.head]
  exact Option.some_ne_none _

/-- `_task_run` of a task that is at a step. -/
theorem Ring.taskRunLoop (h : Ring t steps) (hIn : ts ∈ steps) (hFuel : steps.length ≤ fuel)
    (hCurrent : t.current = some ts) :
    ∃ called current, taskRunLoop fuel rets t = some (called, { t with current := current }) ∧
      Left steps called current := by
  obtain ⟨i, hi, hAt⟩ := List.mem_iff_getElem.mp hIn
  have hAt' : steps[i]? = some ts := by rw [List.getElem?_eq_getElem hi, hAt]
  have hHead := h.head_ne_none hIn
  obtain ⟨called, current, hLoop, hLeft⟩ :=
    @Ring.runLoop t steps ts fuel rets h i 0 hAt' (by omega)
  refine ⟨called, current, ?_, hLeft⟩
  rw [Task.taskRunLoop, if_neg (by simp [hHead, hCurrent]), hCurrent, hLoop]
  rfl

/-! ## Pushing steps -/

/-- The links after a step was put between the last and the first. -/
theorem push_links {head last : Nat} (hHead : t.head = some head)
    (hLast : (t.mem head).prev = some last) (hNotHead : ts ≠ head) (hNotLast : ts ≠ last) :
    ∃ t', taskPushBackStep t ts = some t' ∧ t'.head = t.head ∧ t'.current = t.current ∧
      (∀ x, (t'.mem x).next =
        if x = ts then some head else if x = last then some ts else (t.mem x).next) ∧
      (∀ x, (t'.mem x).prev =
        if x = head then some ts else if x = ts then some last else (t.mem x).prev) ∧
      ∀ x, (t'.mem x).owned = if x = ts then true else (t.mem x).owned := by
  have hPush : taskPushBackStep t ts =
      some (((((t.set last fun s => { s with next := some ts }).set ts
      fun s => { s with prev := some last }).set head fun s => { s with prev := some ts }).set ts
      fun s => { s with next := some head }).set ts fun s => { s with owned := true }) := by
    simp only [taskPushBackStep, hHead, hLast, Option.bind_eq_bind, Option.bind_some]
    rfl
  refine ⟨_, hPush, rfl, rfl, ?_, ?_, ?_⟩
  · intro x
    simp only [TaskT.set, Function.update_apply]
    split_ifs <;> simp_all
  · intro x
    simp only [TaskT.set, Function.update_apply]
    split_ifs <;> simp_all
  · intro x
    simp only [TaskT.set, Function.update_apply]
    split_ifs <;> simp_all

/-- The first step that is pushed is a ring of its own. -/
theorem ring_push_first (hHead : t.head = none) :
    ∃ t', taskPushBackStep t ts = some t' ∧ Ring t' [ts] ∧ t'.current = t.current := by
  have hPush : taskPushBackStep t ts =
      some (({ t with head := some ts }.set ts fun s =>
        { s with prev := some ts, next := some ts }).set ts fun s => { s with owned := true }) := by
    simp only [taskPushBackStep, hHead, Option.bind_eq_bind, Option.bind_some]
    rfl
  have hOnly : ∀ i x, ([ts] : List Nat)[i]? = some x → x = ts := fun i x hAt =>
    List.mem_singleton.mp (List.mem_of_getElem? hAt)
  refine ⟨_, hPush, ?_, rfl⟩
  exact {
    nodup := List.nodup_singleton ts
    head := rfl
    next := by
      intro i x hAt
      rw [hOnly i x hAt]
      simp [TaskT.set, Nat.mod_one]
    prev := by
      intro i x hAt
      rw [hOnly i x hAt]
      simp [TaskT.set, Nat.mod_one]
    owned := by
      intro x hIn
      rw [List.mem_singleton.mp hIn]
      simp [TaskT.set] }

/-- A place of the ring with one step more is one of the ring before or that of the new step. -/
theorem push_place (hNew : ts ∉ steps) {i x : Nat} (hAt : (steps ++ [ts])[i]? = some x) :
    (i < steps.length ∧ steps[i]? = some x ∧ x ≠ ts) ∨ (i = steps.length ∧ x = ts) := by
  have hi := (List.getElem?_eq_some_iff.mp hAt).1
  rw [List.length_append, List.length_singleton] at hi
  by_cases hOld : i < steps.length
  · rw [List.getElem?_append_left hOld] at hAt
    exact Or.inl ⟨hOld, hAt, ne_of_mem_of_not_mem (List.mem_of_getElem? hAt) hNew⟩
  · have hEnd : i = steps.length := by omega
    rw [hEnd, List.getElem?_concat_length] at hAt
    exact Or.inr ⟨hEnd, (Option.some.inj hAt).symm⟩

/-- A step that is put between the last and the first one stands at the end of the ring. -/
theorem Ring.pushed {t' : TaskT} {head last : Nat} (h : Ring t steps) (hNew : ts ∉ steps)
    (hFirst : steps[0]? = some head) (hLastAt : steps[steps.length - 1]? = some last)
    (hHead : t'.head = some head)
    (hNext : ∀ x, (t'.mem x).next =
      if x = ts then some head else if x = last then some ts else (t.mem x).next)
    (hPrev : ∀ x, (t'.mem x).prev =
      if x = head then some ts else if x = ts then some last else (t.mem x).prev)
    (hOwned : ∀ x, (t'.mem x).owned = if x = ts then true else (t.mem x).owned) :
    Ring t' (steps ++ [ts]) := by
  have hPos : 0 < steps.length := (List.getElem?_eq_some_iff.mp hFirst).1
  have hLength : (steps ++ [ts]).length = steps.length + 1 := List.length_append
  have hOldAt : ∀ j, j < steps.length → (steps ++ [ts])[j]? = steps[j]? :=
    fun j hj => List.getElem?_append_left hj
  have hNewAt : (steps ++ [ts])[steps.length]? = some ts := List.getElem?_concat_length
  have hOnly : ∀ i j x, i < steps.length → steps[i]? = some x → steps[j]? = some x → i = j :=
    fun i j x hi hx hy => (List.getElem?_inj hi h.nodup).mp (hx.trans hy.symm)
  exact {
    nodup := by
      rw [← List.concat_eq_append]
      exact List.Nodup.concat hNew h.nodup
    head := by rw [hHead, List.head?_eq_getElem?, hOldAt 0 hPos, hFirst]
    next := by
      intro i x hAt
      rw [hNext, hLength]
      cases push_place hNew hAt with
      | inr hHere => rw [if_pos hHere.2, hHere.1, Nat.mod_self, hOldAt 0 hPos, hFirst]
      | inl hThere =>
          obtain ⟨hi, hOld, hNe⟩ := hThere
          rw [if_neg hNe, Nat.mod_eq_of_lt (by omega)]
          by_cases hEnd : i = steps.length - 1
          · rw [hEnd, hLastAt] at hOld
            rw [if_pos (Option.some.inj hOld).symm, (by omega : i + 1 = steps.length), hNewAt]
          · have hNotLast : x ≠ last := by
              rintro rfl
              exact hEnd (hOnly i _ x hi hOld hLastAt)
            rw [if_neg hNotLast, h.next i x hOld, Nat.mod_eq_of_lt (by omega),
              hOldAt (i + 1) (by omega)]
    prev := by
      intro i x hAt
      rw [hPrev, hLength, Nat.add_sub_cancel]
      cases push_place hNew hAt with
      | inr hHere =>
          have hNotHead : ts ≠ head :=
            (ne_of_mem_of_not_mem (List.mem_of_getElem? hFirst) hNew).symm
          rw [hHere.1, hHere.2, if_neg hNotHead, if_pos rfl,
            Nat.mod_eq_sub_mod (by omega), Nat.mod_eq_of_lt (by omega),
            (by omega : steps.length + steps.length - (steps.length + 1) = steps.length - 1),
            hOldAt _ (by omega), hLastAt]
      | inl hThere =>
          obtain ⟨hi, hOld, hNe⟩ := hThere
          by_cases hStart : i = 0
          · rw [hStart, hFirst] at hOld
            rw [if_pos (Option.some.inj hOld).symm, hStart, Nat.zero_add,
              Nat.mod_eq_of_lt (by omega), hNewAt]
          · have hNotHead : x ≠ head := by
              rintro rfl
              exact hStart (hOnly i _ x hi hOld hFirst)
            rw [if_neg hNotHead, if_neg hNe, h.prev i x hOld, Nat.mod_eq_sub_mod (by omega),
              Nat.mod_eq_of_lt (by omega), Nat.mod_eq_sub_mod (by omega : steps.length + 1 ≤ _),
              Nat.mod_eq_of_lt (by omega : _ < steps.length + 1), hOldAt _ (by omega)]
            congr 1
            omega
    owned := by
      intro x hIn
      rw [hOwned]
      cases List.mem_append.mp hIn with
      | inl hOld =>
          rw [h.owned x hOld]
          split <;> rfl
      | inr hHere => rw [if_pos (List.mem_singleton.mp hHere)] }

/-- A step that is pushed comes at the end of the ring. -/
theorem ring_push (h : Ring t steps) (hNew : ts ∉ steps) :
    ∃ t', taskPushBackStep t ts = some t' ∧ Ring t' (steps ++ [ts]) ∧ t'.current = t.current := by
  cases hHead : t.head with
  | none =>
      have hNil : steps = [] := List.head?_eq_none_iff.mp (h.head.symm.trans hHead)
      subst hNil
      exact ring_push_first hHead
  | some head =>
      have hFirst : steps[0]? = some head := by
        rw [← List.head?_eq_getElem?, ← h.head, hHead]
      have hPos : 0 < steps.length := (List.getElem?_eq_some_iff.mp hFirst).1
      obtain ⟨last, hLastIn, hLastAt⟩ := @step_at steps (steps.length - 1) (by omega)
      have hLast : (t.mem head).prev = some last := by
        rw [h.prev 0 head hFirst, Nat.zero_add, Nat.mod_eq_of_lt (by omega), hLastAt]
      obtain ⟨t', hPush, hHead', hCurrent, hNext, hPrev, hOwned⟩ :=
        push_links hHead hLast (ne_of_mem_of_not_mem (List.mem_of_getElem? hFirst) hNew).symm
          (ne_of_mem_of_not_mem hLastIn hNew).symm
      exact ⟨t', hPush, h.pushed hNew hFirst hLastAt (hHead'.trans hHead) hNext hPrev hOwned,
        hCurrent⟩

end

/-! ## Events -/

/-- What holds of a task from `task_run` on. -/
structure Inv (steps : List Nat) (s : State) : Prop where
  ring : Ring s.task steps
  fresh : s.started = false → s.task.current = none ∧ s.ended = 0
  current : ∀ ts, s.task.current = some ts → ts ∈ steps ∧ s.ended = 0
  pending : s.pending = true → s.started = true
  ended : s.ended ≤ 1

section

variable {steps : List Nat} {s : State} {fuel : Nat}

theorem Ring.congr {t t' : TaskT} (h : Ring t steps) (hHead : t'.head = t.head)
    (hMem : t'.mem = t.mem) : Ring t' steps where
  nodup := h.nodup
  head := hHead.trans h.head
  next := by
    rw [hMem]
    exact h.next
  prev := by
    rw [hMem]
    exact h.prev
  owned := by
    rw [hMem]
    exact h.owned

/-- After a task without endings has gone on, it has ended once or is at a step. -/
theorem inv_of_left (t : TaskT) (pending : Bool) {called : List Call} {current : Option Nat}
    (hRing : Ring t steps) (hNone : s.ended = 0) (hLeft : Left steps called current) :
    Inv steps ⟨{ t with current := current }, true, pending, s.ended + endings called⟩ where
  ring := hRing.congr rfl rfl
  fresh := nofun
  current := by
    intro ts hCurrent
    have hSome : current = some ts := hCurrent
    cases hLeft with
    | inl hEnd =>
        rw [hEnd.1] at hSome
        cases hSome
    | inr hAt =>
        obtain ⟨ts', hIn, hCurrent', hZero⟩ := hAt
        rw [hCurrent'] at hSome
        cases hSome
        exact ⟨hIn, by show s.ended + endings called = 0; omega⟩
  pending := fun _ => rfl
  ended := by
    show s.ended + endings called ≤ 1
    cases hLeft with
    | inl hEnd => omega
    | inr hAt =>
        obtain ⟨-, -, -, hZero⟩ := hAt
        omega

/-- A task is run. -/
theorem Inv.step_run (h : Inv steps s) (hFuel : steps.length ≤ fuel) {timerId : Option Int}
    {rets : Nat → Int} (hLegal : Legal steps s (.run timerId rets)) :
    ∃ called s', taskStep fuel s (.run timerId rets) = some (called, s') ∧ Inv steps s' := by
  obtain ⟨hFresh, hTimer⟩ := hLegal
  obtain ⟨hCurrent, hEnded⟩ := h.fresh hFresh
  cases hHead : s.task.head with
  | none =>
      refine ⟨[], ⟨s.task, true, false, s.ended⟩, ?_, h.ring, nofun, ?_, fun _ => rfl, h.ended⟩
      · simp [taskStep, taskRun, hHead, endings]
      · intro ts hSome
        have hSome' : s.task.current = some ts := hSome
        rw [hCurrent] at hSome'
        cases hSome'
  | some ts =>
      have hIn : ts ∈ steps := by
        apply List.mem_of_mem_head?
        rw [← h.ring.head, hHead]
        rfl
      have hGo : ∀ t, Ring t steps → t.current = some ts → ∃ called current,
          taskRunLoop fuel rets t = some (called, { t with current := current }) ∧
            Left steps called current :=
        fun t hRing hCurrent => hRing.taskRunLoop hIn hFuel hCurrent
      have hSome : ¬ s.task.head = none := by
        rw [hHead]
        exact Option.some_ne_none ts
      cases timerId with
      | none =>
          obtain ⟨called, current, hLoop, hLeft⟩ :=
            hGo { s.task with current := s.task.head } (h.ring.congr rfl rfl) hHead
          refine ⟨called, _, ?_, inv_of_left s.task ((none : Option Int).isSome &&
            s.task.head.isSome) h.ring hEnded hLeft⟩
          simp only [taskStep, taskRun, if_neg hSome, hLoop, Option.map_some]
      | some timerId =>
          have hId : timerId ≠ timerInvalidId := fun hSame => hTimer (congrArg some hSame)
          have hRing' : Ring { s.task with timerId := timerId } steps := h.ring.congr rfl rfl
          obtain ⟨called, current, hLoop, hLeft⟩ :=
            hGo { s.task with timerId := timerId, current := s.task.head }
              (h.ring.congr rfl rfl) hHead
          refine ⟨called, _, ?_, inv_of_left _ ((some timerId).isSome && s.task.head.isSome)
            hRing' hEnded hLeft⟩
          simp only [taskStep, taskRun, if_neg hSome, if_neg hId, hLoop, Option.map_some]

/-- A task at a step is resumed. -/
theorem Inv.step_resume (h : Inv steps s) (hFuel : steps.length ≤ fuel) {ts : Option Nat}
    {ret step : Int} {rets : Nat → Int} (hLegal : Legal steps s (.resume ts ret step rets))
    (hOpen : s.started = true → s.task.current ≠ none) :
    ∃ called s', taskStep fuel s (.resume ts ret step rets) = some (called, s') ∧
      Inv steps s' := by
  obtain ⟨hStarted, hMine⟩ := hLegal
  obtain ⟨current, hCurrent⟩ := Option.ne_none_iff_exists'.mp (hOpen hStarted)
  obtain ⟨hIn, hEnded⟩ := h.current current hCurrent
  cases ts with
  | none => exact ⟨[], s, rfl, h⟩
  | some ts =>
      have hOwned : ¬ (s.task.mem ts).owned = false := by
        rw [h.ring.owned ts (hMine ts rfl)]
        exact Bool.noConfusion
      by_cases hRunning : ret = taskRetRunning
      · refine ⟨[], s, ?_, h⟩
        simp only [taskStep, taskStepResume, if_pos hRunning, Option.map_some, endings]
        rfl
      have hDone : ∀ call, call.ends = true → Left steps [call] none := by
        intro call hEnds
        exact Or.inl ⟨rfl, by rw [endings, List.countP_singleton, if_pos hEnds]⟩
      have hState : ∀ t called, (⟨t, true, s.pending, s.ended + endings called⟩ : State) =
          { s with task := t, ended := s.ended + endings called } := by
        intro t called
        rw [← hStarted]
      by_cases hSuccess : ret = taskRetSuccess
      · refine ⟨[.onSuccess], _, ?_,
          inv_of_left s.task s.pending h.ring hEnded (hDone .onSuccess rfl)⟩
        simp only [taskStep, taskStepResume, if_neg hRunning, if_neg hOwned, if_pos hSuccess,
          Option.map_some, hState]
      by_cases hNext : ret = taskRetNext
      · obtain ⟨ts', hIn', hWalk⟩ : ∃ ts', ts' ∈ steps ∧
            (if step > 0 then walk s.task.mem TaskStepT.next step.toNat s.task.current
              else walk s.task.mem TaskStepT.prev (-step).toNat s.task.current) =
              some (some ts') := by
          rw [hCurrent]
          split
          · exact walk_mem (fun _ => h.ring.next_mem) _ hIn
          · exact walk_mem (fun _ => h.ring.prev_mem) _ hIn
        have hRing' : Ring { s.task with current := some ts' } steps := h.ring.congr rfl rfl
        obtain ⟨called, current', hLoop, hLeft⟩ := @Ring.taskRunLoop _ steps ts' fuel rets
          hRing' hIn' hFuel rfl
        refine ⟨called, _, ?_, inv_of_left s.task s.pending h.ring hEnded hLeft⟩
        simp only [taskStep, taskStepResume, if_neg hRunning, if_neg hOwned, if_neg hSuccess,
          if_pos hNext, hWalk, Option.bind_eq_bind, Option.bind_some, hLoop, Option.map_some,
          hState]
      · refine ⟨[.onFail taskRetFail], _, ?_,
          inv_of_left s.task s.pending h.ring hEnded (hDone (.onFail taskRetFail) rfl)⟩
        simp only [taskStep, taskStepResume, if_neg hRunning, if_neg hOwned, if_neg hSuccess,
          if_neg hNext, Option.map_some, hState]

/-- The events of a task that is not finished, or not run yet. -/
theorem Inv.step_open (h : Inv steps s) (hFuel : steps.length ≤ fuel) {op : TaskOp}
    (hLegal : Legal steps s op) (hOpen : s.started = true → s.task.current ≠ none) :
    ∃ called s', taskStep fuel s op = some (called, s') ∧ Inv steps s' := by
  cases op with
  | run timerId rets => exact h.step_run hFuel hLegal
  | resume ts ret step rets => exact h.step_resume hFuel hLegal hOpen
  | timeout =>
      have hStarted := h.pending hLegal
      obtain ⟨current, hCurrent⟩ := Option.ne_none_iff_exists'.mp (hOpen hStarted)
      obtain ⟨-, hEnded⟩ := h.current current hCurrent
      have hDone : Left steps [.onFail 0] none := Or.inl ⟨rfl, rfl⟩
      have hRing' : Ring { s.task with timerId := timerInvalidId } steps := h.ring.congr rfl rfl
      refine ⟨[.onFail 0], _, ?_, inv_of_left _ false hRing' hEnded hDone⟩
      simp only [taskStep, taskTimeout, hStarted]

/-- A step that calls `on_success` or `on_fail` changes a finished task. -/
theorem not_sound_of_ending (hStarted : s.started = true) (hNone : s.task.current = none)
    {op : TaskOp} {called : List Call} {s' : State} (hStep : taskStep fuel s op = some (called, s'))
    (hMore : s'.ended = s.ended + 1) : ¬ Does (taskStep fuel) Sound s op := by
  rw [does_iff hStep]
  rintro ⟨-, hSame⟩
  rw [hSame hStarted hNone] at hMore
  omega

/-- The events of a finished task: only those that are not late leave it as it is. -/
theorem Inv.step_finished (h : Inv steps s) {op : TaskOp} (hLegal : Legal steps s op)
    (hStarted : s.started = true) (hNone : s.task.current = none) :
    (NotLate s op ∧ taskStep fuel s op = some ([], s)) ∨
      (¬ NotLate s op ∧ ¬ Does (taskStep fuel) Sound s op) := by
  cases op with
  | run timerId rets =>
      rw [hLegal.1] at hStarted
      cases hStarted
  | timeout =>
      have hStep : taskStep fuel s .timeout = some ([.onFail 0],
          ⟨(taskTimeout s.task).2, s.started, false, s.ended + 1⟩) := rfl
      exact Or.inr ⟨fun hNot => hNot hStarted hNone, not_sound_of_ending hStarted hNone hStep rfl⟩
  | resume ts ret step rets =>
      cases ts with
      | none => exact Or.inl ⟨fun _ _ => trivial, rfl⟩
      | some ts =>
          have hOwned : ¬ (s.task.mem ts).owned = false := by
            rw [h.ring.owned ts (hLegal.2 ts rfl)]
            exact Bool.noConfusion
          by_cases hRunning : ret = taskRetRunning
          · refine Or.inl ⟨fun _ _ => Or.inl hRunning, ?_⟩
            simp only [taskStep, taskStepResume, if_pos hRunning, Option.map_some]
            rfl
          have hLate : ret ≠ taskRetNext → ¬ NotLate s (.resume (some ts) ret step rets) :=
            fun hNot hAll => (hAll hStarted hNone).elim hRunning fun hNext => hNot hNext.1
          by_cases hSuccess : ret = taskRetSuccess
          · have hStep : taskStep fuel s (.resume (some ts) ret step rets) = some ([.onSuccess],
                { s with task := { s.task with current := none }, ended := s.ended + 1 }) := by
              simp only [taskStep, taskStepResume, if_neg hRunning, if_neg hOwned, if_pos hSuccess]
              rfl
            refine Or.inr ⟨hLate ?_, not_sound_of_ending hStarted hNone hStep rfl⟩
            rw [hSuccess]
            decide
          by_cases hNext : ret = taskRetNext
          · have hResume : taskStepResume fuel rets s.task (some ts) ret step =
                (if step > 0 then walk s.task.mem TaskStepT.next step.toNat s.task.current
                  else walk s.task.mem TaskStepT.prev (-step).toNat s.task.current).bind
                fun current => taskRunLoop fuel rets { s.task with current := current } := by
              simp only [taskStepResume, if_neg hRunning, if_neg hOwned, if_neg hSuccess,
                if_pos hNext]
              rfl
            by_cases hZero : step = 0
            · refine Or.inl ⟨fun _ _ => Or.inr ⟨hNext, hZero⟩, ?_⟩
              subst hZero
              have hWalk : (if (0 : Int) > 0 then
                    walk s.task.mem TaskStepT.next (0 : Int).toNat s.task.current
                  else walk s.task.mem TaskStepT.prev (-(0 : Int)).toNat s.task.current) =
                  some none := by
                rw [hNone]
                rfl
              have hSame : { s.task with current := none } = s.task := by rw [← hNone]
              have hStay : taskRunLoop fuel rets { s.task with current := none } =
                  some ([], s.task) := by
                rw [hSame, taskRunLoop, if_pos (Or.inr hNone)]
              simp only [taskStep, hResume, hWalk, Option.bind_some, hStay]
              rfl
            · right
              have hStep : taskStep fuel s (.resume (some ts) ret step rets) = none := by
                have hStuck : (if step > 0 then
                      walk s.task.mem TaskStepT.next step.toNat s.task.current
                    else walk s.task.mem TaskStepT.prev (-step).toNat s.task.current) = none := by
                  rw [hNone]
                  split
                  · obtain ⟨n, hn⟩ : ∃ n, step.toNat = n + 1 := ⟨step.toNat - 1, by omega⟩
                    rw [hn]
                    rfl
                  · obtain ⟨n, hn⟩ : ∃ n, (-step).toNat = n + 1 := ⟨(-step).toNat - 1, by omega⟩
                    rw [hn]
                    rfl
                simp only [taskStep, hResume, hStuck]
                rfl
              constructor
              · intro hNot
                exact (hNot hStarted hNone).elim hRunning fun hBoth => hZero hBoth.2
              · rintro ⟨called, s', hStep', -⟩
                rw [hStep] at hStep'
                cases hStep'
          · have hStep : taskStep fuel s (.resume (some ts) ret step rets) =
                some ([.onFail taskRetFail],
                  { s with task := { s.task with current := none }, ended := s.ended + 1 }) := by
              simp only [taskStep, taskStepResume, if_neg hRunning, if_neg hOwned, if_neg hSuccess,
                if_neg hNext]
              rfl
            exact Or.inr ⟨hLate hNext, not_sound_of_ending hStarted hNone hStep rfl⟩

/-- One event keeps the task from ending twice, and a finished task as it is, if and only if it is
not late; and then it keeps the invariant. -/
theorem taskStep_sound_iff (h : Inv steps s) (hFuel : steps.length ≤ fuel) {op : TaskOp}
    (hLegal : Legal steps s op) :
    (Does (taskStep fuel) Sound s op ↔ NotLate s op) ∧
      (NotLate s op → ∀ called s', taskStep fuel s op = some (called, s') → Inv steps s') := by
  by_cases hFinished : s.started = true ∧ s.task.current = none
  · obtain ⟨hStarted, hNone⟩ := hFinished
    cases @Inv.step_finished steps s fuel h op hLegal hStarted hNone with
    | inl hFine =>
        obtain ⟨hNot, hStep⟩ := hFine
        refine ⟨iff_of_true ⟨[], s, hStep, h.ended, fun _ _ => rfl⟩ hNot, ?_⟩
        intro _ called s' hStep'
        rw [hStep] at hStep'
        cases hStep'
        exact h
    | inr hLate => exact ⟨iff_of_false hLate.2 hLate.1, fun hNot => absurd hNot hLate.1⟩
  · have hOpen : s.started = true → s.task.current ≠ none :=
      fun hStarted hNone => hFinished ⟨hStarted, hNone⟩
    obtain ⟨called, s', hStep, hInv'⟩ := h.step_open hFuel hLegal hOpen
    refine ⟨iff_of_true ⟨called, s', hStep, hInv'.ended, ?_⟩ ?_, ?_⟩
    · intro hStarted hNone
      exact absurd hNone (hOpen hStarted)
    · intro hStarted hNone
      exact absurd hNone (hOpen hStarted)
    · intro _ called₁ s₁ hStep₁
      rw [hStep] at hStep₁
      cases hStep₁
      exact hInv'

end

/-! ## Whole runs -/

/-- Steps that are pushed one after the other hang together as a ring. -/
theorem ring_push_all {t : TaskT} {done steps : List Nat} (h : Ring t done)
    (hNodup : (done ++ steps).Nodup) {t' : TaskT}
    (hPush : steps.foldlM taskPushBackStep t = some t') :
    Ring t' (done ++ steps) ∧ t'.current = t.current := by
  induction steps generalizing t done with
  | nil =>
      cases hPush
      rw [List.append_nil]
      exact ⟨h, rfl⟩
  | cons ts steps ih =>
      have hNew : ts ∉ done := by
        rw [List.nodup_append] at hNodup
        intro hIn
        exact hNodup.2.2 ts hIn ts List.mem_cons_self rfl
      obtain ⟨t₁, hFirst, hRing, hCurrent⟩ := ring_push h hNew
      rw [List.foldlM_cons, hFirst] at hPush
      rw [List.append_cons] at hNodup ⊢
      obtain ⟨hRing', hCurrent'⟩ := ih hRing hNodup hPush
      exact ⟨hRing', hCurrent'.trans hCurrent⟩

/-- Along every run of a task from `task_run` on, whatever its steps return: the task ends once at
most and a finished task stays as it is if and only if no event of the run is late. -/
theorem task_ends_once_iff {steps : List Nat} (hNodup : steps.Nodup) {id param : Nat}
    {mem : Nat → TaskStepT} {t : TaskT}
    (hPush : steps.foldlM taskPushBackStep (taskCreate id param mem) = some t) {fuel : Nat}
    (hFuel : steps.length ≤ fuel) {ops : List TaskOp}
    (hLegal : Along (taskStep fuel) (Legal steps) ⟨t, false, false, 0⟩ ops) :
    Along (taskStep fuel) (Does (taskStep fuel) Sound) ⟨t, false, false, 0⟩ ops ↔
      Along (taskStep fuel) NotLate ⟨t, false, false, 0⟩ ops := by
  obtain ⟨hRing, hCurrent⟩ := ring_push_all (ring_create id param mem) hNodup hPush
  have hInit : Inv steps ⟨t, false, false, 0⟩ := {
    ring := hRing
    fresh := fun _ => ⟨hCurrent, rfl⟩
    current := by
      intro ts hSome
      have hSome' : t.current = some ts := hSome
      rw [hCurrent] at hSome'
      cases hSome'
    pending := nofun
    ended := Nat.zero_le 1 }
  apply along_iff_of_inv (Inv steps) _ _ hInit hLegal
  · intro s op hInv hOp
    exact (taskStep_sound_iff hInv hFuel hOp).1
  · intro s op called s' hInv hOp hDoes hStep
    obtain ⟨hIff, hKeep⟩ := taskStep_sound_iff hInv hFuel hOp
    exact hKeep (hIff.mp hDoes) called s' hStep

/-- A task of three steps at the addresses 10, 20 and 30. -/
def smallTask : TaskT :=
  ([10, 20, 30].foldlM taskPushBackStep
    (taskCreate 1 0 fun _ => ⟨0, false, none, none, some 0, 0⟩)).get (by decide)

/-- The second step waits and is resumed, the third waits and goes back by one, the second then
fails; a late resume that waits on does nothing. -/
theorem task_ends_once_resumed :
    Along (taskStep 3) (Does (taskStep 3) Sound) ⟨smallTask, false, false, 0⟩
      [.run (some 7) fun i => if i = 0 then 1 else 2, .resume (some 20) 1 1 fun _ => 2,
        .resume (some 30) 1 (-1) fun _ => -1, .resume (some 20) 2 0 fun _ => 0] := by
  refine (task_ends_once_iff (by decide) (Option.some_get _).symm (Nat.le_refl 3) ?_).mpr ?_
  · decide
  · decide

/-- A task that succeeds leaves its timer registered, and the timer then fails it. -/
theorem task_times_out_after_success :
    (run (taskStep 3) ⟨smallTask, false, false, 0⟩ [.run (some 7) fun _ => 1, .timeout]).map
        Prod.fst = some [[.run 10, .run 20, .run 30, .onSuccess], [.onFail 0]] ∧
    Along (taskStep 3) (Legal [10, 20, 30]) ⟨smallTask, false, false, 0⟩
      [.run (some 7) fun _ => 1, .timeout] ∧
    ¬ Along (taskStep 3) (Does (taskStep 3) Sound) ⟨smallTask, false, false, 0⟩
      [.run (some 7) fun _ => 1, .timeout] := by
  refine ⟨by decide, by decide, ?_⟩
  intro hAlong
  obtain ⟨called, s', hStep, hOnce, -⟩ := (hAlong.tail rfl).head
  cases hStep
  exact absurd hOnce (by decide)

end Gbase.Logic.Task
