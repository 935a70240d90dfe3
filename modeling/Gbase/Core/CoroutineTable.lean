import Gbase.Core.Coroutine

/-!
# The table of coroutines

Slots are taken from a rotating start, the table doubles while coroutines are suspended, and a
coroutine that returns clears its own slot.  All of it keeps the number of slots in use equal to
`count`, so that a search for a free slot ends with one.  `current` and the statuses of the units
say which coroutine is running, and nothing else does.

## Main results

* `crtStep_scheduled`: one call keeps the table in order and moves no coroutine.
* `crt_scheduled`: the same over whole runs; no assertion fails in them.
-/

namespace Gbase.Core.Coroutine

open Gbase.Lib.Run

variable {F A : Type}

/-! ## What holds between two calls -/

/-- No coroutine is running. -/
def Idle (c : CrtT F A) : Prop :=
  c.current = -1 ∧ ∀ id unit, c.Has id unit → unit.status ≠ .running

/-- The current coroutine is running, and no other is. -/
def Busy (c : CrtT F A) : Prop :=
  ∃ (id : Nat) (unit : CrtUnit F A), c.current = id ∧ c.Has id unit ∧ unit.status = .running ∧
    ∀ id' unit', c.Has id' unit' → unit'.status = .running → id' = id

/-- The counters, the current coroutine and the list of units agree with the table. -/
structure Scheduled (c : CrtT F A) : Prop where
  count : c.count = c.live.card
  room : c.count ≤ c.capacity
  current : Idle c ∨ Busy c
  free : ∀ cu, cu ∈ c.freelst → ∀ id, c.units id ≠ some cu

/-- What a call does to the table: a new coroutine takes a slot that was free, one that returns
leaves its own, and all others stay where they are. -/
def TableStep (s : State F A) : CrtOp F A → CrtResult F A → State F A → Prop
  | .new _ _, .id id, s' =>
      s.crt.units id = none ∧ (∃ unit, s'.crt.Has id unit ∧ unit.status = .init) ∧
        (∀ i, i ≠ id → s'.crt.units i = s.crt.units i) ∧
        ∀ i unit, s.crt.Has i unit → s'.crt.Has i unit
  | .resume _, .resumed _, s' => s'.crt.units = s.crt.units
  | .yield, .left, s' => s'.crt.units = s.crt.units
  | .finish, .left, s' =>
      ∀ i : Nat, s'.crt.units i = if (i : Int) = s.crt.current then none else s.crt.units i
  | _, _, _ => False

/-- What the invariant of the calls leaves open: `current` when nothing runs, and the status of
what runs. -/
structure Steady (c : CrtT F A) : Prop where
  idle : c.running = none → c.current = -1
  busy : ∀ ctx, c.running = some ctx → ∃ unit, c.cells ctx.cu = some unit ∧ unit.status = .running

section

variable {c c' : CrtT F A}

private theorem scheduled_of_steady (hInv : Inv c) (hSteady : Steady c) : Scheduled c where
  count := hInv.count
  room := by
    rw [hInv.count]
    calc
      c.live.card ≤ (Finset.range c.capacity).card := Finset.card_filter_le _ _
      _ = c.capacity := Finset.card_range c.capacity
  current := by
    have hOnly : ∀ id unit, c.Has id unit → unit.status = .running →
        ∃ cu, c.running = some ⟨id, cu⟩ := by
      rintro id unit ⟨cu, hUnit, hCell⟩ hStatus
      exact ⟨cu, (hInv.status id cu unit hUnit hCell).1 hStatus⟩
    cases hRun : c.running with
    | none =>
        refine Or.inl ⟨hSteady.idle hRun, ?_⟩
        intro id unit hHas hStatus
        obtain ⟨cu, hSome⟩ := hOnly id unit hHas hStatus
        rw [hRun] at hSome
        cases hSome
    | some ctx =>
        obtain ⟨hCurrent, hUnit⟩ := hInv.runs ctx hRun
        obtain ⟨unit, hCell, hStatus⟩ := hSteady.busy ctx hRun
        refine Or.inr ⟨ctx.id, unit, hCurrent, ⟨ctx.cu, hUnit, hCell⟩, hStatus, ?_⟩
        intro id' unit' hHas' hStatus'
        obtain ⟨cu', hSome⟩ := hOnly id' unit' hHas' hStatus'
        rw [hRun] at hSome
        cases hSome
        rfl
  free := fun cu hMem id hUnit => (hInv.cell id cu hUnit).2 hMem

/-! ## The single calls -/

/-- `crt_new` does not switch. -/
theorem crtNew_frame {func : F} {arg : A} {id : Nat} (h : crtNew c func arg = some (id, c')) :
    c'.current = c.current ∧ c'.running = c.running := by
  obtain ⟨⟨cu, c₁⟩, hUnit, hRest⟩ := Option.bind_eq_some_iff.mp h
  have hFirst : c₁.current = c.current ∧ c₁.running = c.running := by
    unfold crtUnit at hUnit
    split at hUnit
    · cases hUnit
      exact ⟨rfl, rfl⟩
    · obtain ⟨unit, -, hUnit⟩ := Option.bind_eq_some_iff.mp hUnit
      cases hUnit
      exact ⟨rfl, rfl⟩
  dsimp only at hRest
  split at hRest
  · cases hRest
    exact hFirst
  · obtain ⟨i, -, hRest⟩ := Option.bind_eq_some_iff.mp hRest
    cases hRest
    exact hFirst

/-- `crt_resume` does nothing, or the unit of the id is running afterwards. -/
theorem crtResume_frame (hInv : Inv c) {id : Int} {how : Resumed F A}
    (h : crtResume c id = some (how, c')) :
    c'.units = c.units ∧
      (c' = c ∨ ∃ cu unit, c'.running = some ⟨id.toNat, cu⟩ ∧ c'.cells cu = some unit ∧
        unit.status = .running) := by
  unfold crtResume at h
  split at h
  · cases h
  split at h
  · cases h
    exact ⟨rfl, Or.inl rfl⟩
  next cu hUnit =>
  obtain ⟨unit, hCell, h⟩ := Option.bind_eq_some_iff.mp h
  cases hStatus : unit.status with
  | init =>
      simp only [hStatus] at h
      obtain ⟨cu', hUnit', h⟩ := Option.bind_eq_some_iff.mp h
      obtain ⟨unit', hCell', h⟩ := Option.bind_eq_some_iff.mp h
      cases h
      have hSame : c.units id.toNat = some cu' := hUnit'
      rw [hUnit] at hSame
      cases hSame
      refine ⟨rfl, Or.inr ⟨cu, { unit with status := .running }, rfl, ?_, rfl⟩⟩
      exact if_pos rfl
  | suspend =>
      simp only [hStatus] at h
      cases h
      have hCtx := (hInv.status _ cu unit hUnit hCell).2 hStatus
      refine ⟨rfl, Or.inr ⟨cu, { unit with status := .running }, hCtx, ?_, rfl⟩⟩
      exact if_pos rfl
  | running =>
      simp only [hStatus] at h
      cases h

/-- `crt_yield` goes back to the main context. -/
theorem crtYield_frame (h : crtYield c = some c') :
    c'.units = c.units ∧ c'.current = -1 ∧ c'.running = none := by
  unfold crtYield at h
  split at h
  · cases h
  obtain ⟨cu, -, h⟩ := Option.bind_eq_some_iff.mp h
  obtain ⟨unit, -, h⟩ := Option.bind_eq_some_iff.mp h
  cases h
  exact ⟨rfl, rfl, rfl⟩

/-- So does a coroutine that returns, and its slot is free. -/
theorem crtFinish_frame (hInv : Inv c) (h : crtFinish c = some c') :
    (∀ i : Nat, c'.units i = if (i : Int) = c.current then none else c.units i) ∧
      c'.current = -1 ∧ c'.running = none := by
  obtain ⟨ctx, hRun, h⟩ := Option.bind_eq_some_iff.mp h
  cases h
  obtain ⟨hCurrent, -⟩ := hInv.runs ctx hRun
  refine ⟨?_, rfl, rfl⟩
  intro i
  simp only [CrtT.setUnit, hCurrent, Int.natCast_inj]

theorem Steady.of_idle (hCurrent : c.current = -1) (hRun : c.running = none) : Steady c where
  idle := fun _ => hCurrent
  busy := by
    intro ctx hSome
    rw [hRun] at hSome
    cases hSome

/-- One call returns, does to the table what it should, and keeps it in order. -/
theorem crtStep_scheduled {s : State F A} (hInv : Inv s.crt) (hSteady : Steady s.crt)
    {op : CrtOp F A} (hLegal : Legal s op) :
    ∃ r s', crtStep s op = some (r, s') ∧ TableStep s op r s' ∧ Inv s'.crt ∧ Steady s'.crt := by
  cases op with
  | new func arg =>
      obtain ⟨id, c', cu, hNew, hInv', hFree, hUnits, hCell, hCells⟩ := crtNew_spec hInv func arg
      obtain ⟨hCurrent, hRun⟩ := crtNew_frame hNew
      refine ⟨.id id, ⟨c', fun i => if i = id then some (func, arg) else s.asked i⟩,
        by simp only [crtStep, hNew, Option.map_some], ⟨hFree, ?_, ?_, ?_⟩, hInv', ?_, ?_⟩
      · refine ⟨newUnit s.crt func arg, ⟨cu, ?_, hCell⟩, newUnit_status⟩
        rw [hUnits, if_pos rfl]
      · intro i hNe
        exact (hUnits i).trans (if_neg hNe)
      · rintro i unit ⟨cu', hUnit', hCell'⟩
        have hNe : i ≠ id := by
          rintro rfl
          rw [hFree] at hUnit'
          cases hUnit'
        refine ⟨cu', ?_, ?_⟩
        · rw [hUnits, if_neg hNe]
          exact hUnit'
        · exact (hCells i cu' hUnit').trans hCell'
      · intro hNone
        exact hCurrent.trans (hSteady.idle (hRun.symm.trans hNone))
      · intro ctx hSome
        have hOld : s.crt.running = some ctx := hRun.symm.trans hSome
        obtain ⟨unit, hUnit, hStatus⟩ := hSteady.busy ctx hOld
        obtain ⟨-, hAt⟩ := hInv.runs ctx hOld
        exact ⟨unit, (hCells ctx.id ctx.cu hAt).trans hUnit, hStatus⟩
  | resume id =>
      obtain ⟨hMain, hLow, hHigh⟩ := hLegal
      obtain ⟨how, c', hResume, hInv', -, -⟩ := crtResume_spec hInv hMain hLow hHigh
      obtain ⟨hUnits, hCases⟩ := crtResume_frame hInv hResume
      refine ⟨.resumed how, { s with crt := c' }, by simp only [crtStep, hResume, Option.map_some],
        hUnits, hInv', ?_⟩
      rcases hCases with rfl | ⟨cu, unit, hRun, hCell, hStatus⟩
      · exact hSteady
      · constructor
        · intro hNone
          rw [show c'.running = none from hNone] at hRun
          cases hRun
        · intro ctx hSome
          rw [show c'.running = some ctx from hSome] at hRun
          cases hRun
          exact ⟨unit, hCell, hStatus⟩
  | yield =>
      obtain ⟨c', hYield, hInv', -⟩ := crtYield_spec hInv hLegal
      obtain ⟨hUnits, hCurrent, hRun⟩ := crtYield_frame hYield
      exact ⟨.left, { s with crt := c' }, by simp only [crtStep, hYield, Option.map_some], hUnits,
        hInv', Steady.of_idle hCurrent hRun⟩
  | finish =>
      obtain ⟨c', hFinish, hInv', -⟩ := crtFinish_spec hInv hLegal
      obtain ⟨hUnits, hCurrent, hRun⟩ := crtFinish_frame hInv hFinish
      exact ⟨.left, { s with crt := c' }, by simp only [crtStep, hFinish, Option.map_some], hUnits,
        hInv', Steady.of_idle hCurrent hRun⟩

end

/-! ## Whole runs -/

/-- Along every run on a new scheduler no assertion fails, the table stays in order, and no call
moves a coroutine: ids are given out once at a time, and one coroutine at most is running. -/
theorem crt_scheduled {ops : List (CrtOp F A)}
    (hLegal : Along crtStep Legal ⟨crtCreate, fun _ => none⟩ ops) :
    Scheduled (crtCreate : CrtT F A) ∧
      Along crtStep (Does crtStep fun s op r s' => TableStep s op r s' ∧ Scheduled s'.crt)
        ⟨crtCreate, fun _ => none⟩ ops := by
  have hInit : Inv (crtCreate : CrtT F A) ∧ Steady (crtCreate : CrtT F A) :=
    ⟨crtCreate_inv, Steady.of_idle rfl rfl⟩
  refine ⟨scheduled_of_steady hInit.1 hInit.2, ?_⟩
  apply along_of_spec (fun s => Inv s.crt ∧ Steady s.crt) _ hInit hLegal
  rintro s op ⟨hInv, hSteady⟩ hOp
  obtain ⟨r, s', hStep, hTable, hInv', hSteady'⟩ := crtStep_scheduled hInv hSteady hOp
  exact ⟨r, s', hStep, ⟨hTable, scheduled_of_steady hInv' hSteady'⟩, hInv', hSteady'⟩

/-- A coroutine creates another one, is suspended, and goes on after the other has returned. -/
theorem crt_scheduled_nested :
    Scheduled (crtCreate : CrtT Nat Nat) ∧
      Along crtStep (Does crtStep fun s op r s' => TableStep s op r s' ∧ Scheduled s'.crt)
        ⟨crtCreate, fun _ => none⟩
        [.new 1 10, .resume 0, .new 2 20, .yield, .resume 1, .finish, .resume 0, .finish,
          .resume 1, .new 3 30] :=
  crt_scheduled (by decide)

end Gbase.Core.Coroutine
