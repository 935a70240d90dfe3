import Gbase.Lib.Circular
import Gbase.Logic.Task
import Mathlib.Data.List.Induction
import Mathlib.Data.List.TakeWhile

/-!
# Looking for a step (`logic/task.c`)

`task_get_step` follows the links from the head until it is there again.  A step can be pushed when
it is in the ring already; the ring is then closed behind it, and the steps after it are lost.

A push links the last step to the new one and the new one to the head.  What is met from the head on
is therefore known after any pushes, also after one that was a mistake: it is `ringOf` of the pushed
steps.

## Main results

* `loop_push`: what one push does to the ring.
* `getLoop_spec`: the first step with the id, or the head again.
* `task_get_step_iff`: when the step of an id is found.
-/

namespace Gbase.Logic.Task

open Gbase.Lib.Circular

/-- `TASK_INVALID_ID` -/
def taskInvalidId : Nat := 0

/-- `task_step_id` -/
def taskStepId (mem : Nat → TaskStepT) : Option Nat → Nat
  | some ts => (mem ts).id
  | none => taskInvalidId

/-- The loop of `task_get_step`, undefined when it takes more than `fuel` turns. -/
def getLoop (mem : Nat → TaskStepT) (head : Option Nat) (id : Nat) :
    Nat → Option Nat → Option (Option Nat)
  | 0, _ => none
  | fuel + 1, ts =>
      if taskStepId mem ts = id then some ts
      else
        match ts with
        | none => none
        | some ts =>
            let ts := (mem ts).next
            if ts = head then some ts else getLoop mem head id fuel ts

/-- `task_get_step` -/
def taskGetStep (fuel : Nat) (t : TaskT) (id : Nat) : Option (Option Nat) :=
  if t.head = none then some none else getLoop t.mem t.head id fuel t.head

/-- The step of an id is found, or `NULL` if no step has it; the loop goes around the steps once at
most. -/
def Finds (t : TaskT) (steps : List Nat) (id : Nat) : Prop :=
  ∃ found, taskGetStep steps.length t id = some found ∧
    match found with
    | some ts => ts ∈ steps ∧ (t.mem ts).id = id
    | none => ∀ ts, ts ∈ steps → (t.mem ts).id ≠ id

/-- The ring after a push: it ends with the step that is pushed. -/
def closed (ring : List Nat) (ts : Nat) : List Nat := ring.takeWhile (· ≠ ts) ++ [ts]

/-- The ring after some pushes. -/
def ringOf (steps : List Nat) : List Nat := steps.foldl closed []

/-- The steps that are met from the head on, as far as links forward and the link from the head to
the last one tell. -/
def Loop (t : TaskT) : List Nat → Prop
  | [] => t.head = none
  | head :: rest => t.head = some head ∧ (head :: rest).Nodup ∧
      (∀ e, e ∈ edges head rest head → (t.mem e.1).next = some e.2) ∧
      (t.mem head).prev = some (lastOf head rest)

section

variable {t t' : TaskT} {steps ring rest : List Nat} {head last ts p fuel id : Nat}
  {mem : Nat → TaskStepT}

/-! ## Pushing a step once more -/

/-- What a push writes, wherever the step is. -/
theorem push_behind (hHead : t.head = some head) (hLast : (t.mem head).prev = some last) :
    ∃ t', taskPushBackStep t ts = some t' ∧ t'.head = some head ∧
      (∀ x, (t'.mem x).next =
        if x = ts then some head else if x = last then some ts else (t.mem x).next) ∧
      (t'.mem head).prev = some ts ∧ ∀ x, (t'.mem x).id = (t.mem x).id := by
  have hPush : taskPushBackStep t ts =
      some (((((t.set last fun s => { s with next := some ts }).set ts
      fun s => { s with prev := some last }).set head fun s => { s with prev := some ts }).set ts
      fun s => { s with next := some head }).set ts fun s => { s with owned := true }) := by
    simp only [taskPushBackStep, hHead, hLast, Option.bind_eq_bind, Option.bind_some]
    rfl
  refine ⟨_, hPush, hHead, ?_, ?_, ?_⟩
  · intro x
    simp only [TaskT.set, Function.update_apply]
    grind
  · simp only [TaskT.set, Function.update_apply]
    grind
  · intro x
    simp only [TaskT.set, Function.update_apply]
    grind

/-- The steps before a step of the ring, and those behind it. -/
theorem takeWhile_split (hIn : ts ∈ rest) :
    ∃ behind, rest = rest.takeWhile (· ≠ ts) ++ ts :: behind := by
  induction rest with
  | nil => cases hIn
  | cons x rest ih =>
      by_cases hEq : x = ts
      · exact ⟨rest, by simp [hEq]⟩
      · obtain ⟨behind, hSplit⟩ := ih ((List.mem_cons.mp hIn).resolve_left (Ne.symm hEq))
        refine ⟨behind, ?_⟩
        rw [List.takeWhile_cons_of_pos (by simpa using hEq), List.cons_append, ← hSplit]

private theorem takeWhile_all (hNot : ts ∉ rest) : rest.takeWhile (· ≠ ts) = rest := by
  rw [List.takeWhile_eq_self_iff]
  intro x hx
  exact decide_eq_true (ne_of_mem_of_not_mem hx hNot)

/-- The links up to the step that is pushed are there already, but for the one of the last step. -/
theorem edges_before (hNodup : (head :: rest).Nodup)
    (hNext : ∀ e, e ∈ edges head rest head → (t.mem e.1).next = some e.2) (ts : Nat) :
    ∀ e, e ∈ edges head (rest.takeWhile (· ≠ ts)) ts →
      if e.1 = lastOf head rest then e.2 = ts else (t.mem e.1).next = some e.2 := by
  intro e he
  by_cases hIn : ts ∈ rest
  · obtain ⟨behind, hSplit⟩ := takeWhile_split hIn
    generalize rest.takeWhile (· ≠ ts) = before at he hSplit
    subst hSplit
    have hSource : e.1 ∈ head :: before := by
      rw [← map_fst_edges head before ts]
      exact List.mem_map_of_mem he
    -- the last step is the one that is pushed or one behind it
    have hNotLast : e.1 ≠ lastOf head (before ++ ts :: behind) := by
      rw [lastOf_append, lastOf]
      rw [← List.cons_append, List.nodup_append] at hNodup
      exact hNodup.2.2 e.1 hSource _ (lastOf_mem ts behind)
    rw [if_neg hNotLast]
    apply hNext e
    rw [edges_append]
    exact List.mem_append_left _ he
  · rw [takeWhile_all hIn] at he
    obtain ⟨before, hBefore⟩ := edges_target head rest
    have hSources := map_fst_edges head rest ts
    rw [hBefore, List.mem_append, List.mem_singleton] at he
    rw [hBefore, List.map_append, List.map_singleton] at hSources
    cases he with
    | inl hOld =>
        have hNotLast : e.1 ≠ lastOf head rest := by
          rw [← hSources, List.nodup_append] at hNodup
          exact hNodup.2.2 e.1 (List.mem_map_of_mem hOld) _ List.mem_cons_self
        rw [if_neg hNotLast]
        apply hNext e
        rw [hBefore]
        exact List.mem_append_left _ hOld
    | inr hEnd =>
        rw [hEnd, if_pos rfl]

/-- A push closes the ring behind the step that is pushed. -/
theorem loop_push (h : Loop t ring) (ts : Nat) :
    ∃ t', taskPushBackStep t ts = some t' ∧ Loop t' (closed ring ts) ∧
      ∀ x, (t'.mem x).id = (t.mem x).id := by
  cases ring with
  | nil =>
      have hNone : t.head = none := h
      have hPush : taskPushBackStep t ts =
          some (({ t with head := some ts }.set ts fun s =>
            { s with prev := some ts, next := some ts }).set ts
              fun s => { s with owned := true }) := by
        simp only [taskPushBackStep, hNone, Option.bind_eq_bind, Option.bind_some]
        rfl
      refine ⟨_, hPush, ⟨rfl, List.nodup_singleton ts, ?_, ?_⟩, ?_⟩
      · intro e he
        rw [List.mem_singleton.mp he]
        simp only [TaskT.set, Function.update_self]
      · simp only [TaskT.set, Function.update_self, lastOf]
      · intro x
        simp only [TaskT.set, Function.update_apply]
        grind
  | cons head rest =>
      obtain ⟨hHead, hNodup, hNext, hPrev⟩ := h
      obtain ⟨t', hPush, hHead', hNext', hPrev', hIds⟩ := @push_behind t head _ ts hHead hPrev
      refine ⟨t', hPush, ?_, hIds⟩
      by_cases hFirst : head = ts
      · subst hFirst
        have hClosed : closed (head :: rest) head = [head] := by simp [closed]
        rw [hClosed]
        refine ⟨hHead', List.nodup_singleton head, ?_, hPrev'⟩
        intro e he
        rw [List.mem_singleton.mp he, hNext', if_pos rfl]
      · have hClosed : closed (head :: rest) ts =
            head :: (rest.takeWhile (· ≠ ts) ++ [ts]) := by simp [closed, hFirst]
        have hOld : ∀ x, x ∈ head :: rest.takeWhile (· ≠ ts) → x ≠ ts := by
          intro x hx
          cases List.mem_cons.mp hx with
          | inl hEq => exact hEq ▸ hFirst
          | inr hRest => simpa using List.mem_takeWhile_imp hRest
        rw [hClosed]
        refine ⟨hHead', ?_, ?_, ?_⟩
        · rw [← List.cons_append, List.nodup_append]
          refine ⟨?_, List.nodup_singleton ts, ?_⟩
          · exact hNodup.sublist ((List.takeWhile_sublist _).cons_cons head)
          · intro x hx y hy
            rw [List.mem_singleton.mp hy]
            exact hOld x hx
        · intro e he
          rw [edges_append, List.mem_append] at he
          rw [hNext']
          cases he with
          | inl hBefore =>
              have hThere := edges_before hNodup hNext ts e hBefore
              have hSource : e.1 ∈ head :: rest.takeWhile (· ≠ ts) := by
                rw [← map_fst_edges head _ ts]
                exact List.mem_map_of_mem hBefore
              rw [if_neg (hOld e.1 hSource)]
              split at hThere
              · next hLast => rw [if_pos hLast, hThere]
              · next hNot => rw [if_neg hNot, hThere]
          | inr hEnd =>
              rw [List.mem_singleton.mp hEnd, if_pos rfl]
        · rw [hPrev', lastOf_append]
          rfl

/-- What pushes leave of a task without steps. -/
theorem loop_pushes (h : Loop t ring) (steps : List Nat) :
    ∃ t', steps.foldlM taskPushBackStep t = some t' ∧ Loop t' (steps.foldl closed ring) ∧
      ∀ x, (t'.mem x).id = (t.mem x).id := by
  induction steps generalizing t ring with
  | nil => exact ⟨t, rfl, h, fun x => rfl⟩
  | cons ts steps ih =>
      obtain ⟨t', hPush, hLoop, hIds⟩ := loop_push h ts
      obtain ⟨t'', hPushes, hLoop', hIds'⟩ := ih hLoop
      refine ⟨t'', ?_, hLoop', fun x => (hIds' x).trans (hIds x)⟩
      rw [List.foldlM_cons, hPush]
      exact hPushes

/-- The ring holds steps that were pushed, each of them once. -/
theorem ringOf_spec (steps : List Nat) :
    (ringOf steps).length ≤ steps.length ∧ (∀ ts, ts ∈ ringOf steps → ts ∈ steps) ∧
      (ringOf steps = [] ↔ steps = []) := by
  induction steps using List.reverseRec with
  | nil => exact ⟨Nat.le_refl 0, fun ts hts => hts, Iff.rfl⟩
  | append_singleton steps ts ih =>
      obtain ⟨hLength, hIn, -⟩ := ih
      have hRing : ringOf (steps ++ [ts]) = (ringOf steps).takeWhile (· ≠ ts) ++ [ts] := by
        rw [ringOf, List.foldl_append]
        rfl
      have hSub := List.takeWhile_sublist (fun x => decide (x ≠ ts)) (l := ringOf steps)
      rw [hRing]
      refine ⟨?_, ?_, by simp⟩
      · have hLe := hSub.length_le
        rw [List.length_append, List.length_append]
        simp only [List.length_singleton]
        omega
      · intro x hx
        cases List.mem_append.mp hx with
        | inl hOld => exact List.mem_append_left _ (hIn x (hSub.subset hOld))
        | inr hNew => exact List.mem_append_right _ hNew

/-- Steps that are pushed once all stay in the ring. -/
theorem ringOf_of_nodup (hNodup : steps.Nodup) : ringOf steps = steps := by
  have hAll : ∀ ring, (ring ++ steps).Nodup → steps.foldl closed ring = ring ++ steps := by
    clear hNodup
    induction steps with
    | nil => exact fun ring _ => (List.append_nil ring).symm
    | cons ts steps ih =>
        intro ring hRing
        rw [List.append_cons] at hRing ⊢
        have hNot : ts ∉ ring := by
          rw [List.append_assoc, List.singleton_append, List.nodup_append] at hRing
          exact fun hIn => hRing.2.2 ts hIn ts List.mem_cons_self rfl
        rw [List.foldl_cons, closed, takeWhile_all hNot]
        exact ih _ hRing
  exact hAll [] hNodup

/-! ## The search -/

/-- The search finds the first step with the id, or is at the head again. -/
theorem getLoop_spec (hNext : ∀ e, e ∈ edges p rest head → (mem e.1).next = some e.2)
    (hNot : head ∉ rest) (hFuel : rest.length < fuel) :
    getLoop mem (some head) id fuel (some p) =
      some (some (((p :: rest).find? fun ts => (mem ts).id = id).getD head)) := by
  induction rest generalizing p fuel with
  | nil =>
      obtain ⟨n, rfl⟩ := Nat.exists_eq_succ_of_ne_zero (Nat.ne_of_gt hFuel)
      have hEnd : (mem p).next = some head := hNext (p, head) (List.mem_singleton_self _)
      by_cases hId : (mem p).id = id
      · simp [getLoop, taskStepId, hId]
      · simp [getLoop, taskStepId, hId, hEnd]
  | cons x rest ih =>
      obtain ⟨n, rfl⟩ := Nat.exists_eq_succ_of_ne_zero (Nat.ne_zero_of_lt hFuel)
      have hStep : (mem p).next = some x := hNext (p, x) List.mem_cons_self
      have hOther : x ≠ head := fun hEq => hNot (hEq ▸ List.mem_cons_self)
      have hRest := @ih x n (fun e he => hNext e (List.mem_cons_of_mem _ he))
        (fun hIn => hNot (List.mem_cons_of_mem _ hIn)) (Nat.lt_of_succ_lt_succ hFuel)
      by_cases hId : (mem p).id = id
      · simp [getLoop, taskStepId, hId]
      · rw [List.find?_cons_of_neg (by simpa using hId), ← hRest, getLoop]
        simp [taskStepId, hId, hStep, hOther]

/-- `task_get_step` on a ring. -/
theorem taskGetStep_spec (h : Loop t ring) (hFuel : ring.length ≤ fuel) :
    taskGetStep fuel t id =
      some ((ring.find? fun ts => (t.mem ts).id = id).or t.head) := by
  cases ring with
  | nil =>
      have hNone : t.head = none := h
      rw [taskGetStep, if_pos hNone, hNone]
      rfl
  | cons head rest =>
      obtain ⟨hHead, hNodup, hNext, -⟩ := h
      rw [taskGetStep, hHead, if_neg (Option.some_ne_none head),
        getLoop_spec hNext (List.nodup_cons.mp hNodup).1 hFuel]
      cases (head :: rest).find? fun ts => (t.mem ts).id = id <;> rfl

/-- After some pushes, the step of an id is found, and its absence noticed, exactly if a step that
is still in the ring has the id or no step was pushed: otherwise the head is returned. -/
theorem task_get_step_iff (id param : Nat) (mem : Nat → TaskStepT) (steps : List Nat) (t : TaskT)
    (hPush : steps.foldlM taskPushBackStep (taskCreate id param mem) = some t) (stepId : Nat) :
    Finds t steps stepId ↔
      (∃ ts, ts ∈ ringOf steps ∧ (mem ts).id = stepId) ∨ steps = [] := by
  have hEmpty : Loop (taskCreate id param mem) [] := rfl
  obtain ⟨t', hPushes, hLoop, hIds⟩ := loop_pushes hEmpty steps
  obtain rfl : t = t' := Option.some.inj (hPush.symm.trans hPushes)
  change Loop t (ringOf steps) at hLoop
  obtain ⟨hLength, hIn, hNil⟩ := ringOf_spec steps
  have hFound := @taskGetStep_spec t _ _ stepId hLoop hLength
  have hIds : ∀ x, (t.mem x).id = (mem x).id := hIds
  simp only [Finds, hFound, Option.some.injEq, exists_eq_left', hIds]
  cases hFind : (ringOf steps).find? fun ts => decide ((mem ts).id = stepId) with
  | some ts =>
      have hMem := List.mem_of_find?_eq_some hFind
      have hId : (mem ts).id = stepId := by simpa using List.find?_some hFind
      exact iff_of_true ⟨hIn ts hMem, hId⟩ (Or.inl ⟨ts, hMem, hId⟩)
  | none =>
      have hNone : ∀ ts, ts ∈ ringOf steps → (mem ts).id ≠ stepId := fun ts hts => by
        simpa using List.find?_eq_none.mp hFind ts hts
      cases hRing : ringOf steps with
      | nil =>
          rw [hRing] at hLoop
          have hHead : t.head = none := hLoop
          rw [hHead, hNil.mp hRing]
          exact iff_of_true (fun ts hts => absurd hts List.not_mem_nil) (Or.inr rfl)
      | cons head rest =>
          rw [hRing] at hLoop hNone
          rw [hLoop.1]
          refine iff_of_false ?_ ?_
          · rintro ⟨-, hId⟩
            exact hNone head List.mem_cons_self hId
          · rintro (⟨ts, hts, hId⟩ | hNo)
            · exact hNone ts hts hId
            · rw [hNil.mpr hNo] at hRing
              cases hRing

end

/-- Steps in memory, each with the id behind its address. -/
def someSteps : Nat → TaskStepT := fun ts =>
  { id := ts + 1, owned := false, next := none, prev := none, run := none, param := 0 }

theorem task_get_step_two :
    ∃ t, [0, 1].foldlM taskPushBackStep (taskCreate 7 0 someSteps) = some t ∧
      (Finds t [0, 1] 2 ↔
        (∃ ts, ts ∈ ringOf [0, 1] ∧ (someSteps ts).id = 2) ∨ ([0, 1] : List Nat) = []) :=
  ⟨_, rfl, task_get_step_iff 7 0 someSteps [0, 1] _ rfl 2⟩

/-- Without a step of the id, the head comes back. -/
theorem task_get_step_head :
    ∃ t, [0].foldlM taskPushBackStep (taskCreate 7 0 someSteps) = some t ∧ ¬ Finds t [0] 5 := by
  refine ⟨_, rfl, ?_⟩
  rintro ⟨found, hFound, hStep⟩
  obtain rfl : some 0 = found := Option.some.inj hFound
  exact absurd hStep.2 (by decide)

end Gbase.Logic.Task
