import Gbase.Logic.Task

/-!
# Results that come later (`logic/task.c`)

A step returns its result when it runs, or it returns that it waits and is resumed with the result
afterwards.  The loop of `_task_run` ends a task behind its last step, and `task_step_resume` goes
around the ring there.

A task that waits is resumed by another call with the result, which takes the place of the value
that the step would have returned.  The two ways are two functions of the source, and the comparison
runs both from the same state to the end.

## Main results

* `runLoop_mono`, `runLoop_answers`: what the turns of the loop depend on.
* `taskStepResume_agrees_iff`: when a result has the same effect in both ways.
-/

namespace Gbase.Logic.Task

/-- What the steps return, when the first one to run returns `ret`. -/
def answers (ret : Int) (rets : Nat → Int) : Nat → Int
  | 0 => ret
  | i + 1 => rets i

/-- The results of a step that is done, with the number of steps to go on by. -/
def results : List (Int × Int) := [(taskRetNext, 1), (taskRetSuccess, 0), (taskRetFail, 0)]

/-- The step at `current` returns its result. -/
def directly (fuel : Nat) (rets : Nat → Int) (t : TaskT) (ret : Int) :
    Option (List Call × TaskT) :=
  taskRunLoop fuel (answers ret rets) t

/-- The step at `current` waits and is resumed with its result. -/
def resumed (fuel : Nat) (rets : Nat → Int) (t : TaskT) (ts : Nat) (ret step : Int) :
    Option (List Call × TaskT) := do
  let (called, t) ← taskRunLoop fuel (answers taskRetRunning rets) t
  let (later, t) ← taskStepResume fuel rets t (some ts) ret step
  return (called ++ later, t)

/-- Both ways come to an end, with the same calls and the same task. -/
def Agrees (fuel : Nat) (rets : Nat → Int) (t : TaskT) (ts : Nat) (ret step : Int) : Prop :=
  ∃ out, directly fuel rets t ret = some out ∧ resumed fuel rets t ts ret step = some out

section

variable {mem : Nat → TaskStepT} {head current current' : Option Nat} {rets : Nat → Int}
  {fuel k ts : Nat} {called : List Call} {ret : Int}

/-- A loop that ends does so with more turns as well. -/
theorem runLoop_mono {fuel' : Nat} {out : List Call × Option Nat}
    (hLoop : runLoop mem head rets fuel k current = some out) (hLess : fuel ≤ fuel') :
    runLoop mem head rets fuel' k current = some out := by
  induction fuel generalizing fuel' k current out with
  | zero => cases hLoop
  | succ fuel ih =>
      obtain ⟨fuel', rfl⟩ := Nat.exists_eq_succ_of_ne_zero (by omega : fuel' ≠ 0)
      rw [runLoop] at hLoop ⊢
      generalize taskStepRun mem current (rets k) = ran at hLoop ⊢
      obtain ⟨calls, ret⟩ := ran
      by_cases hNext : ret = taskRetNext
      · simp only [if_pos hNext] at hLoop ⊢
        cases current with
        | none => cases hLoop
        | some ts =>
            simp only at hLoop ⊢
            split at hLoop
            · rename_i hHead
              rw [if_pos hHead]
              exact hLoop
            · rename_i hHead
              rw [if_neg hHead]
              obtain ⟨⟨later, current⟩, hLater, hEq⟩ := Option.map_eq_some_iff.mp hLoop
              rw [ih hLater (by omega)]
              exact congrArg some hEq
      · simp only [if_neg hNext] at hLoop ⊢
        exact hLoop

/-- Behind the first turn the others count on. -/
theorem runLoop_answers (ret : Int) : runLoop mem head (answers ret rets) fuel (k + 1) current =
    runLoop mem head rets fuel k current := by
  induction fuel generalizing k current with
  | zero => rfl
  | succ fuel ih =>
      rw [runLoop, runLoop]
      simp only [ih]
      rfl

/-- A step runs, or the task fails, before anything else is called. -/
theorem runLoop_first (hLoop : runLoop mem head rets fuel k (some ts) = some (called, current')) :
    called.head? ≠ some .onSuccess := by
  cases fuel with
  | zero => cases hLoop
  | succ fuel =>
      rw [runLoop, taskStepRun] at hLoop
      by_cases hRun : (mem ts).run.isSome = true
      · -- whatever follows, the call of the step stands first
        have hFirst : ∃ later, called = .run ts :: later := by
          simp only [if_pos hRun] at hLoop
          split at hLoop
          · split at hLoop
            · cases hLoop
              exact ⟨_, rfl⟩
            · obtain ⟨⟨later, current⟩, -, hEq⟩ := Option.map_eq_some_iff.mp hLoop
              exact ⟨later, (Prod.mk.inj hEq).1.symm⟩
          · split at hLoop
            · cases hLoop
              exact ⟨[], rfl⟩
            · split at hLoop
              · cases hLoop
                exact ⟨_, rfl⟩
              · cases hLoop
                exact ⟨_, rfl⟩
        obtain ⟨later, rfl⟩ := hFirst
        rw [List.head?_cons]
        exact fun hEq => by cases hEq
      · simp only [if_neg hRun, if_neg (by decide : ¬ taskRetFail = taskRetNext),
          if_neg (by decide : ¬ taskRetFail = taskRetRunning),
          if_neg (by decide : ¬ taskRetFail = taskRetSuccess)] at hLoop
        cases hLoop
        exact fun hEq => by cases hEq

end

section

variable {t : TaskT} {steps : List Nat} {i ts fuel : Nat} {rets : Nat → Int} {ret : Int}

/-- The step at `current` waits: it is called and the task stays as it is. -/
theorem taskRunLoop_running (hHead : t.head ≠ none) (hCurrent : t.current = some ts)
    (hRun : (t.mem ts).run.isSome = true) :
    taskRunLoop (fuel + 1) (answers taskRetRunning rets) t = some ([.run ts], t) := by
  have hLoop : runLoop t.mem t.head (answers taskRetRunning rets) (fuel + 1) 0 (some ts) =
      some ([.run ts], some ts) := by
    simp only [runLoop, taskStepRun, if_pos hRun, answers]
    rfl
  rw [taskRunLoop, if_neg (by simp [hHead, hCurrent]), hCurrent, hLoop, ← hCurrent]
  rfl

/-- The step at `current` ends the task. -/
theorem taskRunLoop_ends (hHead : t.head ≠ none) (hCurrent : t.current = some ts)
    (hRun : (t.mem ts).run.isSome = true) (hEnds : ret = taskRetSuccess ∨ ret = taskRetFail) :
    taskRunLoop (fuel + 1) (answers ret rets) t =
      some ([.run ts, if ret = taskRetSuccess then .onSuccess else .onFail taskRetFail],
        { t with current := none }) := by
  have hLoop : runLoop t.mem t.head (answers ret rets) (fuel + 1) 0 (some ts) =
      some ([.run ts, if ret = taskRetSuccess then .onSuccess else .onFail taskRetFail], none) := by
    simp only [runLoop, taskStepRun, if_pos hRun, answers]
    rcases hEnds with rfl | rfl <;> rfl
  rw [taskRunLoop, if_neg (by simp [hHead, hCurrent]), hCurrent, hLoop]
  rfl

/-- The step at `current` goes on to the next one, or ends the task if that is the head. -/
theorem taskRunLoop_next (hHead : t.head ≠ none) (hCurrent : t.current = some ts)
    (hRun : (t.mem ts).run.isSome = true) :
    taskRunLoop (fuel + 1) (answers taskRetNext rets) t =
      if (t.mem ts).next = t.head then some ([.run ts, .onSuccess], { t with current := none })
      else (runLoop t.mem t.head rets fuel 0 (t.mem ts).next).map fun (later, current) =>
        (.run ts :: later, { t with current := current }) := by
  rw [taskRunLoop, if_neg (by simp [hHead, hCurrent]), hCurrent]
  simp only [runLoop, taskStepRun, if_pos hRun, answers, if_true]
  split
  · rfl
  · rw [runLoop_answers, Option.map_map]
    rfl

theorem resumed_eq (hHead : t.head ≠ none) (hCurrent : t.current = some ts)
    (hRun : (t.mem ts).run.isSome = true) (step : Int) :
    resumed (fuel + 1) rets t ts ret step =
      (taskStepResume (fuel + 1) rets t (some ts) ret step).map fun (later, t) =>
        (.run ts :: later, t) := by
  rw [resumed, taskRunLoop_running hHead hCurrent hRun]
  simp only [Option.bind_eq_bind, Option.bind_some]
  exact Option.map_eq_bind.symm

/-- A step that is resumed to go on by one continues at the next step. -/
theorem taskStepResume_next (hOwned : (t.mem ts).owned = true) (hCurrent : t.current = some ts) :
    taskStepResume fuel rets t (some ts) taskRetNext 1 =
      taskRunLoop fuel rets { t with current := (t.mem ts).next } := by
  have hWalk : walk t.mem TaskStepT.next 1 t.current = some (t.mem ts).next := by
    rw [hCurrent]
    rfl
  have hOne : (1 : Int).toNat = 1 := rfl
  simp only [taskStepResume, if_neg (by decide : ¬ taskRetNext = taskRetRunning), hOwned,
    if_neg (by decide : ¬ true = false), if_neg (by decide : ¬ taskRetNext = taskRetSuccess),
    if_true, if_pos (by decide : (1 : Int) > 0), hOne, hWalk, Option.bind_eq_bind, Option.bind_some]

private theorem taskStepResume_ends (hOwned : (t.mem ts).owned = true)
    (hEnds : ret = taskRetSuccess ∨ ret = taskRetFail) :
    taskStepResume fuel rets t (some ts) ret 0 =
      some ([if ret = taskRetSuccess then .onSuccess else .onFail taskRetFail],
        { t with current := none }) := by
  simp only [taskStepResume, hOwned, if_neg (by decide : ¬ true = false)]
  rcases hEnds with rfl | rfl <;> rfl

/-- The ring is there whatever step the task is at. -/
theorem Ring.moved (h : Ring t steps) (current : Option Nat) :
    Ring { t with current := current } steps :=
  ⟨h.nodup, h.head, h.next, h.prev, h.owned⟩

/-- Behind the last step of the ring the first one stands. -/
theorem Ring.next_eq_head_iff (h : Ring t steps) (hIn : ts ∈ steps) :
    (t.mem ts).next = t.head ↔ steps.getLast? = some ts := by
  obtain ⟨i, hi, hAt⟩ := List.mem_iff_getElem.mp hIn
  have hAt' : steps[i]? = some ts := by rw [List.getElem?_eq_getElem hi, hAt]
  rw [h.next i ts hAt', h.head, List.head?_eq_getElem?, List.getLast?_eq_getElem?]
  constructor
  · intro hSame
    have hZero := (List.getElem?_inj (Nat.mod_lt _ (by omega)) h.nodup).mp hSame
    have hLast : i = steps.length - 1 := by
      by_contra hNot
      rw [Nat.mod_eq_of_lt (by omega)] at hZero
      omega
    rw [← hLast, hAt']
  · intro hLast
    have hEq := (List.getElem?_inj hi h.nodup).mp (hAt'.trans hLast.symm)
    rw [hEq, Nat.sub_add_cancel (by omega), Nat.mod_self]

/-- A step that ends the task does so whether it returns its result or is resumed with it. -/
theorem agrees_ends (hRing : Ring t steps) (hIn : ts ∈ steps) (hCurrent : t.current = some ts)
    (hRun : (t.mem ts).run.isSome = true) (hEnds : ret = taskRetSuccess ∨ ret = taskRetFail) :
    Agrees (fuel + 1) rets t ts ret 0 := by
  have hHead := hRing.head_ne_none hIn
  rw [Agrees, directly, resumed_eq hHead hCurrent hRun]
  refine ⟨_, taskRunLoop_ends hHead hCurrent hRun hEnds, ?_⟩
  rw [taskStepResume_ends (hRing.owned ts hIn) hEnds]
  rfl

/-- From any step but the last one the task goes on at the next. -/
theorem agrees_next (hRing : Ring t steps) (hIn : ts ∈ steps) (hCurrent : t.current = some ts)
    (hRun : (t.mem ts).run.isSome = true) (hFuel : steps.length ≤ fuel)
    (hLast : steps.getLast? ≠ some ts) : Agrees (fuel + 1) rets t ts taskRetNext 1 := by
  have hHead := hRing.head_ne_none hIn
  obtain ⟨ts', hIn', hLink⟩ := hRing.next_mem hIn
  have hOn : ¬ some ts' = t.head := fun hSame =>
    hLast ((hRing.next_eq_head_iff hIn).mp (hLink.trans hSame))
  rw [Agrees, directly, resumed_eq hHead hCurrent hRun,
    taskStepResume_next (hRing.owned ts hIn) hCurrent, taskRunLoop_next hHead hCurrent hRun, hLink,
    if_neg hOn]
  obtain ⟨i, hi, hAt⟩ := List.mem_iff_getElem.mp hIn'
  have hAt' : steps[i]? = some ts' := by rw [List.getElem?_eq_getElem hi, hAt]
  obtain ⟨called, current, hLoop, -⟩ :=
    @Ring.runLoop t steps ts' fuel rets hRing i 0 hAt' (by omega)
  refine ⟨_, by rw [hLoop]; rfl, ?_⟩
  rw [taskRunLoop, if_neg (by simp [hHead]), runLoop_mono hLoop (Nat.le_succ fuel)]
  rfl

/-- The last step ends the task when it returns, and runs the ring again when it is resumed. -/
theorem not_agrees_last (hRing : Ring t steps) (hIn : ts ∈ steps) (hCurrent : t.current = some ts)
    (hRun : (t.mem ts).run.isSome = true) (hLast : steps.getLast? = some ts) :
    ¬ Agrees (fuel + 1) rets t ts taskRetNext 1 := by
  have hHead := hRing.head_ne_none hIn
  obtain ⟨ts', -, hLink⟩ := hRing.next_mem hIn
  have hAround : some ts' = t.head := hLink.symm.trans ((hRing.next_eq_head_iff hIn).mpr hLast)
  rw [Agrees, directly, resumed_eq hHead hCurrent hRun,
    taskStepResume_next (hRing.owned ts hIn) hCurrent, taskRunLoop_next hHead hCurrent hRun, hLink,
    if_pos hAround]
  rintro ⟨out, hDirect, hResumed⟩
  cases hDirect
  obtain ⟨⟨later, t'⟩, hLater, hEq⟩ := Option.map_eq_some_iff.mp hResumed
  rw [taskRunLoop, if_neg (by simp [hHead])] at hLater
  obtain ⟨⟨called, current⟩, hLoop, hSame⟩ := Option.map_eq_some_iff.mp hLater
  have hCalls : later = [.onSuccess] := (List.cons.inj (Prod.mk.inj hEq).1).2
  apply runLoop_first hLoop
  rw [(Prod.mk.inj hSame).1, hCalls]
  rfl

end

/-- A step of the task that waits and is resumed with a result has the same effect as one that
returns it, if and only if it is not the last one going on to the next. -/
theorem taskStepResume_agrees_iff {t : TaskT} {steps : List Nat} {ts fuel : Nat}
    {rets : Nat → Int} {ret step : Int} (hRing : Ring t steps) (hIn : ts ∈ steps)
    (hCurrent : t.current = some ts) (hRun : (t.mem ts).run.isSome = true)
    (hResult : (ret, step) ∈ results) (hFuel : steps.length < fuel) :
    Agrees fuel rets t ts ret step ↔ ¬ (ret = taskRetNext ∧ steps.getLast? = some ts) := by
  obtain ⟨fuel, rfl⟩ := Nat.exists_eq_succ_of_ne_zero (by omega : fuel ≠ 0)
  simp only [results, List.mem_cons, Prod.mk.injEq, List.not_mem_nil, or_false] at hResult
  rcases hResult with ⟨rfl, rfl⟩ | ⟨rfl, rfl⟩ | ⟨rfl, rfl⟩
  · rw [and_iff_right rfl]
    by_cases hLast : steps.getLast? = some ts
    · exact iff_of_false (not_agrees_last hRing hIn hCurrent hRun hLast) (not_not_intro hLast)
    · exact iff_of_true (agrees_next hRing hIn hCurrent hRun (Nat.le_of_lt_succ hFuel) hLast) hLast
  · refine iff_of_true (agrees_ends hRing hIn hCurrent hRun (Or.inl rfl)) ?_
    exact fun hBoth => absurd hBoth.1 (by decide)
  · refine iff_of_true (agrees_ends hRing hIn hCurrent hRun (Or.inr rfl)) ?_
    exact fun hBoth => absurd hBoth.1 (by decide)

/-- The second of three steps waits and goes on later. -/
theorem taskStepResume_agrees_second :
    Agrees 4 (fun _ => taskRetSuccess) { smallTask with current := some 20 } 20 taskRetNext 1 := by
  have hPush : [10, 20, 30].foldlM taskPushBackStep (taskCreate 1 0
      fun _ => ⟨0, false, none, none, some 0, 0⟩) = some smallTask := (Option.some_get _).symm
  obtain ⟨hRing, -⟩ := ring_push_all (ring_create 1 0 _) (by decide) hPush
  exact (taskStepResume_agrees_iff (hRing.moved (some 20)) (by decide) rfl (by decide) (by decide)
    (by decide)).mpr (by decide)

/-- The last of three steps waits: with the result it returns the task succeeds, and resumed with
it the first step runs again. -/
theorem taskStepResume_last :
    (directly 4 (fun _ => taskRetRunning) { smallTask with current := some 30 } taskRetNext).map
        Prod.fst = some [.run 30, .onSuccess] ∧
    (resumed 4 (fun _ => taskRetRunning) { smallTask with current := some 30 } 30 taskRetNext 1).map
        Prod.fst = some [.run 30, .run 10] ∧
    ¬ Agrees 4 (fun _ => taskRetRunning) { smallTask with current := some 30 } 30 taskRetNext
        1 := by
  have hDirect : (directly 4 (fun _ => taskRetRunning) { smallTask with current := some 30 }
      taskRetNext).map Prod.fst = some [.run 30, .onSuccess] := by decide
  have hResumed : (resumed 4 (fun _ => taskRetRunning) { smallTask with current := some 30 } 30
      taskRetNext 1).map Prod.fst = some [.run 30, .run 10] := by decide
  refine ⟨hDirect, hResumed, ?_⟩
  rintro ⟨out, hOut, hOut'⟩
  rw [hOut] at hDirect
  rw [hOut', ← Option.map_some, ← Option.map_some] at hResumed
  have hSame := hDirect.symm.trans hResumed
  exact absurd hSame (by decide)

end Gbase.Logic.Task
