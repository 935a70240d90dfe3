import Gbase.Lib.Circular
import Gbase.Logic.Task

/-!
# Steps that are erased (`logic/task.c`)

`task_erase_step` takes a step out of the ring, and leaves `head` and `current` where they are.

If the erased step is the head or the current one, the task goes on with a step that is not in the
ring any more, and its links still lead to where it stood.  The result says exactly which runs meet
such a step.

## Main results

* `ring_cons_iff`: the ring of steps is a circle around the head.
* `ring_erase`: a step that is not the head is taken out of the ring.
* `task_steps_iff`: when the steps stay a ring with `current` in it, over whole runs.
-/

namespace Gbase.Logic.Task

open Gbase.Lib.Circular Gbase.Lib.Run

/-- `task_erase_step` -/
def taskEraseStep (t : TaskT) (ts : Nat) : Option TaskT := do
  let prev ← (t.mem ts).prev
  let t := t.set prev fun s => { s with next := (t.mem ts).next }
  let next ← (t.mem ts).next
  let t := t.set next fun s => { s with prev := (t.mem ts).prev }
  let t := t.set ts fun s => { s with prev := none }
  let t := t.set ts fun s => { s with next := none }
  return t.set ts fun s => { s with owned := false }

/-- A task with the steps pushed and not erased, in the order they were pushed. -/
structure Edited where
  task : TaskT
  steps : List Nat

inductive EditOp where
  | push (ts : Nat)
  | erase (ts : Nat)
  | run (timerId : Option Int) (rets : Nat → Int)
  | resume (ts : Option Nat) (ret step : Int) (rets : Nat → Int)
  | timeout

/-- One operation; a loop goes around the steps once at most. -/
def editStep : Step Edited EditOp (List Call)
  | s, .push ts => (taskPushBackStep s.task ts).map fun t => ([], ⟨t, s.steps ++ [ts]⟩)
  | s, .erase ts => (taskEraseStep s.task ts).map fun t => ([], ⟨t, s.steps.erase ts⟩)
  | s, .run timerId rets => (taskRun s.steps.length rets s.task timerId).map fun (called, t) =>
      (called, { s with task := t })
  | s, .resume ts ret step rets =>
      (taskStepResume s.steps.length rets s.task ts ret step).map fun (called, t) =>
        (called, { s with task := t })
  | s, .timeout => some ((taskTimeout s.task).1, { s with task := (taskTimeout s.task).2 })

/-- Fresh steps are pushed and steps of the task erased.  The steps that are resumed are those of
the task, and a finished task does not go on to another step. -/
def Permitted (s : Edited) : EditOp → Prop
  | .push ts => ts ∉ s.steps
  | .erase ts => ts ∈ s.steps
  | .run timerId _ => timerId ≠ some timerInvalidId
  | .resume ts ret step _ => (∀ x, x ∈ ts → x ∈ s.steps) ∧
      (ret = taskRetNext → step ≠ 0 → s.task.current ≠ none)
  | .timeout => True

/-- The steps pushed and not erased are the ring, and `current` is one of them or `NULL`. -/
structure WellFormed (s : Edited) : Prop where
  ring : Ring s.task s.steps
  current : ∀ ts, s.task.current = some ts → ts ∈ s.steps

/-- A step that is erased is neither the head nor the current one. -/
def Idle (s : Edited) : EditOp → Prop
  | .erase ts => s.task.head ≠ some ts ∧ s.task.current ≠ some ts
  | _ => True

instance Permitted.decidable (s : Edited) : ∀ op, Decidable (Permitted s op)
  | .push ts => inferInstanceAs (Decidable (ts ∉ s.steps))
  | .erase ts => inferInstanceAs (Decidable (ts ∈ s.steps))
  | .run timerId _ => inferInstanceAs (Decidable (timerId ≠ some timerInvalidId))
  | .resume ts _ _ _ => inferInstanceAs (Decidable ((∀ x, x ∈ ts → x ∈ s.steps) ∧ (_ → _ → _)))
  | .timeout => isTrue trivial

instance Idle.decidable (s : Edited) : ∀ op, Decidable (Idle s op)
  | .push _ => isTrue trivial
  | .erase _ => inferInstanceAs (Decidable (_ ∧ _))
  | .run _ _ => isTrue trivial
  | .resume _ _ _ _ => isTrue trivial
  | .timeout => isTrue trivial

/-! ## The ring as a circle -/

section

variable {t t' : TaskT} {steps rest : List Nat} {head ts : Nat}

theorem ring_cons_iff : Ring t (head :: rest) ↔ t.head = some head ∧
    Circle (fun x => (t.mem x).next) (fun x => (t.mem x).prev) head rest ∧
    ∀ ts, ts ∈ head :: rest → (t.mem ts).owned = true := by
  have hSize : (head :: rest).length = rest.length + 1 := List.length_cons
  constructor
  · intro h
    refine ⟨h.head, ⟨h.nodup, ?_⟩, h.owned⟩
    intro e he
    obtain ⟨i, hFrom, hTo⟩ := (mem_edges_iff head rest e).mp he
    have hi := (List.getElem?_eq_some_iff.mp hFrom).1
    refine ⟨(h.next i e.1 hFrom).trans hTo, (h.prev _ e.2 hTo).trans ?_⟩
    rw [← hFrom]
    congr 1
    rw [hSize] at hi ⊢
    by_cases hLast : i = rest.length
    · rw [hLast, Nat.mod_self, Nat.zero_add, Nat.mod_eq_of_lt (by omega)]
      omega
    · rw [Nat.mod_eq_of_lt (by omega : i + 1 < _), Nat.mod_eq_sub_mod (by omega),
        Nat.mod_eq_of_lt (by omega)]
      omega
  · rintro ⟨hHead, hCircle, hOwned⟩
    have hEdge : ∀ i a, (head :: rest)[i]? = some a → ∃ b,
        (head :: rest)[(i + 1) % (head :: rest).length]? = some b ∧ (t.mem a).next = some b ∧
          (t.mem b).prev = some a := by
      intro i a hAt
      obtain ⟨b, -, hBehind⟩ := @step_at (head :: rest) ((i + 1) % (head :: rest).length)
        (Nat.mod_lt _ (by omega))
      have hLinked := hCircle.linked (a, b) ((mem_edges_iff head rest (a, b)).mpr ⟨i, hAt, hBehind⟩)
      exact ⟨b, hBehind, hLinked⟩
    refine ⟨hCircle.nodup, hHead, ?_, ?_, hOwned⟩
    · intro i a hAt
      obtain ⟨b, hBehind, hNext, -⟩ := hEdge i a hAt
      rw [hNext, hBehind]
    · intro i b hAt
      have hi := (List.getElem?_eq_some_iff.mp hAt).1
      -- the edge that ends at `b` starts one place before
      obtain ⟨a, -, hBefore⟩ := @step_at (head :: rest)
        ((i + ((head :: rest).length - 1)) % (head :: rest).length) (Nat.mod_lt _ (by omega))
      obtain ⟨b', hBehind, -, hPrev⟩ := hEdge _ a hBefore
      have hPlace : ((i + ((head :: rest).length - 1)) % (head :: rest).length + 1) %
          (head :: rest).length = i := by
        rw [Nat.mod_add_mod, (by omega : i + ((head :: rest).length - 1) + 1 =
          i + (head :: rest).length), Nat.add_mod_right, Nat.mod_eq_of_lt hi]
      rw [hPlace, hAt] at hBehind
      cases hBehind
      rw [hPrev, hBefore]

/-! ## Erasing a step -/

/-- Neither `head` nor `current` is touched. -/
theorem taskEraseStep_kept (hErase : taskEraseStep t ts = some t') :
    t'.head = t.head ∧ t'.current = t.current := by
  rw [taskEraseStep] at hErase
  obtain ⟨prev, -, hErase⟩ := Option.bind_eq_some_iff.mp hErase
  obtain ⟨next, -, hErase⟩ := Option.bind_eq_some_iff.mp hErase
  cases hErase
  exact ⟨rfl, rfl⟩

/-- The links after a step between two others was erased. -/
theorem erase_links {prev next : Nat} (hPrev : (t.mem ts).prev = some prev)
    (hNext : (t.mem ts).next = some next) (hNotPrev : prev ≠ ts) (hNotNext : next ≠ ts) :
    ∃ t', taskEraseStep t ts = some t' ∧
      (∀ x, (t'.mem x).next =
        if x = ts then none else if x = prev then some next else (t.mem x).next) ∧
      (∀ x, (t'.mem x).prev =
        if x = ts then none else if x = next then some prev else (t.mem x).prev) ∧
      ∀ x, (t'.mem x).owned = if x = ts then false else (t.mem x).owned := by
  have hErase : taskEraseStep t ts =
      some (((((t.set prev fun s => { s with next := some next }).set next
      fun s => { s with prev := some prev }).set ts fun s => { s with prev := none }).set ts
      fun s => { s with next := none }).set ts fun s => { s with owned := false }) := by
    simp only [taskEraseStep, hPrev, hNext, TaskT.set, Function.update_of_ne hNotPrev.symm,
      Option.bind_eq_bind, Option.bind_some]
    rfl
  refine ⟨_, hErase, ?_, ?_, ?_⟩
  · intro x
    simp only [TaskT.set, Function.update_apply]
    split_ifs <;> simp_all
  · intro x
    simp only [TaskT.set, Function.update_apply]
    split_ifs <;> simp_all
  · intro x
    simp only [TaskT.set, Function.update_apply]
    split_ifs <;> simp_all

/-- A step that is not the head is taken out of the ring. -/
theorem ring_erase (h : Ring t steps) (hIn : ts ∈ steps) (hNotHead : t.head ≠ some ts) :
    ∃ t', taskEraseStep t ts = some t' ∧ Ring t' (steps.erase ts) := by
  obtain ⟨head, rest, rfl⟩ := List.exists_cons_of_ne_nil (List.ne_nil_of_mem hIn)
  obtain ⟨hHead, hCircle, hOwned⟩ := ring_cons_iff.mp h
  have hNe : head ≠ ts := by
    rintro rfl
    exact hNotHead hHead
  have hRest : ts ∈ rest := (List.mem_cons.mp hIn).resolve_left hNe.symm
  obtain ⟨xs, ys, rfl⟩ := List.append_of_mem hRest
  have hNodup : ts ∉ head :: (xs ++ ys) := by
    have hAll := hCircle.nodup
    rw [← List.cons_append, List.nodup_middle, List.nodup_cons] at hAll
    exact hAll.1
  have hBefore : (t.mem ts).prev = some (lastOf head xs) :=
    (@Circle.edge _ _ _ _ xs (ts :: ys) hCircle).2
  have hBehind : (t.mem ts).next = some (firstOf ys head) := by
    have hEdge := (@Circle.edge _ _ _ _ (xs ++ [ts]) ys (by rwa [List.append_cons] at hCircle)).1
    rwa [lastOf_append] at hEdge
  have hNotPrev : lastOf head xs ≠ ts := ne_of_mem_of_not_mem (lastOf_mem_ring head xs ys) hNodup
  have hNotNext : firstOf ys head ≠ ts :=
    ne_of_mem_of_not_mem (firstOf_mem_ring head xs ys) hNodup
  obtain ⟨t', hErase, hNext', hPrev', hOwned'⟩ :=
    erase_links hBefore hBehind hNotPrev hNotNext
  refine ⟨t', hErase, ?_⟩
  have hLess : (head :: (xs ++ ts :: ys)).erase ts = head :: (xs ++ ys) := by
    have hXs : ts ∉ xs :=
      fun hMem => hNodup (List.mem_cons_of_mem head (List.mem_append_left ys hMem))
    rw [List.erase_cons_tail (by simpa using hNe), List.erase_append_right _ hXs,
      List.erase_cons_head]
  rw [hLess]
  refine ring_cons_iff.mpr ⟨(taskEraseStep_kept hErase).1.trans hHead, ?_, ?_⟩
  · apply hCircle.erase
    · show (t'.mem (lastOf head xs)).next = some (firstOf ys head)
      rw [hNext', if_neg hNotPrev, if_pos rfl]
    · intro b hb hb'
      show (t'.mem b).next = (t.mem b).next
      rw [hNext', if_neg hb', if_neg hb]
    · show (t'.mem (firstOf ys head)).prev = some (lastOf head xs)
      rw [hPrev', if_neg hNotNext, if_pos rfl]
    · intro b hb hb'
      show (t'.mem b).prev = (t.mem b).prev
      rw [hPrev', if_neg hb', if_neg hb]
  · intro x hx
    rw [hOwned', if_neg (ne_of_mem_of_not_mem hx hNodup)]
    apply hOwned
    rw [← List.cons_append] at hx ⊢
    exact List.mem_append.mpr ((List.mem_append.mp hx).imp_right (List.mem_cons_of_mem ts))

end

/-! ## Whole runs -/

section

variable {s : Edited} {ts : Nat} {rets : Nat → Int}

/-- Where the loop leaves a task that is at one of its steps. -/
theorem WellFormed.loop (hRing : Ring s.task s.steps) (hIn : ts ∈ s.steps)
    (hCurrent : s.task.current = some ts) :
    ∃ called t', taskRunLoop s.steps.length rets s.task = some (called, t') ∧
      WellFormed { s with task := t' } := by
  obtain ⟨called, current, hLoop, hLeft⟩ := @Ring.taskRunLoop s.task s.steps ts s.steps.length rets
    hRing hIn (Nat.le_refl _) hCurrent
  refine ⟨called, _, hLoop, hRing.congr rfl rfl, ?_⟩
  intro x hAt
  have hSome : current = some x := hAt
  cases hLeft with
  | inl hEnd =>
      rw [hEnd.1] at hSome
      cases hSome
  | inr hStep =>
      obtain ⟨ts', hIn', hCurrent', -⟩ := hStep
      rw [hCurrent'] at hSome
      cases hSome
      exact hIn'

/-- A task that is left with no current step. -/
theorem WellFormed.finished (h : WellFormed s) {t' : TaskT} (hHead : t'.head = s.task.head)
    (hMem : t'.mem = s.task.mem) (hNone : t'.current = none) :
    WellFormed { s with task := t' } := by
  refine ⟨h.ring.congr hHead hMem, ?_⟩
  intro x hAt
  exact nomatch hNone.symm.trans hAt

/-- `task_run` keeps the steps. -/
theorem WellFormed.run (h : WellFormed s) {timerId : Option Int}
    (hTimer : timerId ≠ some timerInvalidId) :
    Does editStep (fun _ _ _ s' => WellFormed s') s (.run timerId rets) := by
  cases hHead : s.task.head with
  | none =>
      refine ⟨[], s, ?_, h⟩
      rw [editStep, taskRun, if_pos hHead]
      rfl
  | some head =>
      have hSome : ¬ s.task.head = none := by
        rw [hHead]
        exact Option.some_ne_none head
      have hIn : head ∈ s.steps := by
        apply List.mem_of_mem_head?
        rw [← h.ring.head, hHead]
        rfl
      have hGo : ∀ t, t.head = s.task.head → t.mem = s.task.mem → t.current = s.task.head →
          ∃ called t', taskRunLoop s.steps.length rets t = some (called, t') ∧
            WellFormed { s with task := t' } := by
        intro t hSame hMem hAt
        exact @WellFormed.loop { s with task := t } head rets (h.ring.congr hSame hMem) hIn
          (hAt.trans hHead)
      cases timerId with
      | none =>
          obtain ⟨called, t', hLoop, hWell⟩ :=
            hGo { s.task with current := s.task.head } rfl rfl rfl
          refine ⟨called, _, ?_, hWell⟩
          simp only [editStep, taskRun, if_neg hSome, hLoop, Option.map_some]
      | some timerId =>
          have hId : timerId ≠ timerInvalidId := fun hSame => hTimer (congrArg some hSame)
          obtain ⟨called, t', hLoop, hWell⟩ :=
            hGo { s.task with timerId := timerId, current := s.task.head } rfl rfl rfl
          refine ⟨called, _, ?_, hWell⟩
          simp only [editStep, taskRun, if_neg hSome, if_neg hId, hLoop, Option.map_some]

/-- `task_step_resume` keeps the steps. -/
theorem WellFormed.resume (h : WellFormed s) {which : Option Nat} {ret step : Int}
    (hMine : ∀ x, x ∈ which → x ∈ s.steps)
    (hOpen : ret = taskRetNext → step ≠ 0 → s.task.current ≠ none) :
    Does editStep (fun _ _ _ s' => WellFormed s') s (.resume which ret step rets) := by
  cases which with
  | none => exact ⟨[], s, rfl, h⟩
  | some ts =>
      have hOwned : ¬ (s.task.mem ts).owned = false := by
        rw [h.ring.owned ts (hMine ts rfl)]
        exact Bool.noConfusion
      have hFinished : WellFormed { s with task := { s.task with current := none } } :=
        h.finished rfl rfl rfl
      by_cases hRunning : ret = taskRetRunning
      · refine ⟨[], s, ?_, h⟩
        simp only [editStep, taskStepResume, if_pos hRunning, Option.map_some]
      by_cases hSuccess : ret = taskRetSuccess
      · refine ⟨[.onSuccess], _, ?_, hFinished⟩
        simp only [editStep, taskStepResume, if_neg hRunning, if_neg hOwned, if_pos hSuccess,
          Option.map_some]
      by_cases hNext : ret = taskRetNext
      · have hWalk : ∃ current,
            (if step > 0 then walk s.task.mem TaskStepT.next step.toNat s.task.current
              else walk s.task.mem TaskStepT.prev (-step).toNat s.task.current) = some current ∧
            ∀ x, current = some x → x ∈ s.steps := by
          cases hCurrent : s.task.current with
          | none =>
              have hZero : step = 0 := by
                by_contra hNot
                exact hOpen hNext hNot hCurrent
              refine ⟨none, ?_, ?_⟩
              · rw [hZero]
                rfl
              · intro x hSome
                cases hSome
          | some now =>
              have hIn := h.current now hCurrent
              split
              · obtain ⟨ts', hIn', hWalk⟩ := walk_mem (fun _ => h.ring.next_mem) step.toNat hIn
                exact ⟨some ts', hWalk, fun x hSome => Option.some.inj hSome ▸ hIn'⟩
              · obtain ⟨ts', hIn', hWalk⟩ := walk_mem (fun _ => h.ring.prev_mem) (-step).toNat hIn
                exact ⟨some ts', hWalk, fun x hSome => Option.some.inj hSome ▸ hIn'⟩
        obtain ⟨current, hWalk, hIn⟩ := hWalk
        have hLoop : ∃ called t',
            taskRunLoop s.steps.length rets { s.task with current := current } = some (called, t') ∧
              WellFormed { s with task := t' } := by
          cases hCurrent : current with
          | none =>
              refine ⟨[], { s.task with current := none }, ?_, hFinished⟩
              rw [taskRunLoop, if_pos (Or.inr rfl)]
          | some ts' =>
              exact @WellFormed.loop { s with task := { s.task with current := some ts' } } ts' rets
                (h.ring.congr rfl rfl) (hIn ts' hCurrent) rfl
        obtain ⟨called, t', hLoop, hWell⟩ := hLoop
        refine ⟨called, _, ?_, hWell⟩
        simp only [editStep, taskStepResume, if_neg hRunning, if_neg hOwned, if_neg hSuccess,
          if_pos hNext, hWalk, Option.bind_eq_bind, Option.bind_some, hLoop, Option.map_some]
      · refine ⟨[.onFail taskRetFail], _, ?_, hFinished⟩
        simp only [editStep, taskStepResume, if_neg hRunning, if_neg hOwned, if_neg hSuccess,
          if_neg hNext, Option.map_some]

/-- One operation keeps the steps well-formed if and only if it does not erase the head or the
current step. -/
theorem editStep_wellFormed_iff (h : WellFormed s) {op : EditOp} (hOp : Permitted s op) :
    Does editStep (fun _ _ _ s' => WellFormed s') s op ↔ Idle s op := by
  cases op with
  | push ts =>
      refine iff_of_true ?_ trivial
      obtain ⟨t', hPush, hRing, hCurrent⟩ := ring_push h.ring hOp
      refine ⟨[], ⟨t', s.steps ++ [ts]⟩, ?_, hRing, ?_⟩
      · rw [editStep, hPush, Option.map_some]
      · intro x hAt
        exact List.mem_append_left [ts] (h.current x (hCurrent.symm.trans hAt))
  | erase ts =>
      constructor
      · rintro ⟨called, s', hStep, hWell⟩
        obtain ⟨t', hErase, hEq⟩ := Option.map_eq_some_iff.mp hStep
        cases hEq
        obtain ⟨hHead, hCurrent⟩ := taskEraseStep_kept hErase
        have hGone : ts ∉ s.steps.erase ts := h.ring.nodup.not_mem_erase
        constructor
        · intro hAt
          apply hGone
          apply List.mem_of_mem_head?
          rw [← hWell.ring.head]
          exact hHead.trans hAt
        · intro hAt
          exact hGone (hWell.current ts (hCurrent.trans hAt))
      · rintro ⟨hNotHead, hNotCurrent⟩
        obtain ⟨t', hErase, hRing⟩ := ring_erase h.ring hOp hNotHead
        refine ⟨[], ⟨t', s.steps.erase ts⟩, ?_, hRing, ?_⟩
        · rw [editStep, hErase, Option.map_some]
        · intro x hAt
          have hWas : s.task.current = some x := (taskEraseStep_kept hErase).2.symm.trans hAt
          have hNe : x ≠ ts := by
            rintro rfl
            exact hNotCurrent hWas
          exact (List.mem_erase_of_ne hNe).mpr (h.current x hWas)
  | run timerId rets => exact iff_of_true (h.run hOp) trivial
  | resume ts ret step rets => exact iff_of_true (h.resume hOp.1 hOp.2) trivial
  | timeout =>
      have hFinished : (taskTimeout s.task).2.current = none := rfl
      exact iff_of_true ⟨_, _, rfl, h.finished rfl rfl hFinished⟩ trivial

end

/-- Along every run of a new task, its steps are the ring of those pushed and not erased, and
`current` is one of them or `NULL`, if and only if no step is erased while it is the head or the
current one. -/
theorem task_steps_iff (id param : Nat) (mem : Nat → TaskStepT) {ops : List EditOp}
    (hOps : Along editStep Permitted ⟨taskCreate id param mem, []⟩ ops) :
    Along editStep (Does editStep fun _ _ _ s' => WellFormed s')
      ⟨taskCreate id param mem, []⟩ ops ↔
    Along editStep Idle ⟨taskCreate id param mem, []⟩ ops := by
  have hInit : WellFormed ⟨taskCreate id param mem, []⟩ := ⟨ring_create id param mem, nofun⟩
  apply along_iff_of_inv WellFormed _ _ hInit hOps
  · intro s op hWell hOp
    exact editStep_wellFormed_iff hWell hOp
  · intro s op called s' hWell hOp hDoes hStep
    exact (does_iff hStep).mp hDoes

/-- Three steps are pushed, the second waits when the task runs, and the third is erased. -/
theorem task_steps_waiting :
    Along editStep (Does editStep fun _ _ _ s' => WellFormed s')
      ⟨taskCreate 1 0 fun _ => ⟨0, false, none, none, some 0, 0⟩, []⟩
      [.push 10, .push 20, .push 30, .run none fun i => if i = 0 then 1 else 2, .erase 30,
        .push 40] := by
  refine (task_steps_iff 1 0 _ ?_).mpr ?_
  · decide
  · decide

/-- A task whose only step is erased keeps it as its head. -/
theorem task_steps_erase_head :
    (run editStep ⟨taskCreate 1 0 fun _ => ⟨0, false, none, none, some 0, 0⟩, []⟩
      [.push 10, .erase 10]).map (fun out => (out.2.task.head, out.2.steps)) =
      some (some 10, []) ∧
    Along editStep Permitted ⟨taskCreate 1 0 fun _ => ⟨0, false, none, none, some 0, 0⟩, []⟩
      [.push 10, .erase 10] ∧
    ¬ Along editStep (Does editStep fun _ _ _ s' => WellFormed s')
      ⟨taskCreate 1 0 fun _ => ⟨0, false, none, none, some 0, 0⟩, []⟩ [.push 10, .erase 10] := by
  refine ⟨by decide, by decide, ?_⟩
  intro hAlong
  obtain ⟨called, s', hStep, hWell⟩ := (hAlong.tail rfl).head
  cases hStep
  have hHead := hWell.ring.head
  exact absurd hHead (by decide)

end Gbase.Logic.Task
