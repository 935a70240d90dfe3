import Gbase.Lib.Ring
import Gbase.Lib.Run
import Mathlib.Data.Finset.Card

/-!
# Coroutines (`core/coroutine.c`)

A scheduler holds its coroutines in an array of pointers to units, by their ids.  A unit holds the
function of the coroutine and its argument, and the context in which it goes on.  The unit of a
coroutine that has returned is put on a list, and `crt_new` takes a unit from there if it can.

`crt_new` writes the function and the argument into a new unit only.  So a unit from the list still
has those of the coroutine before.  Stacks and their sizes are left out, allocations succeed, and
counters do not overflow: each coroutine has pages of its own.

## Main results

* `crtStep_spec`: what one call does, as long as every unit has what it was created for.
* `crt_identity_iff`: along a run every coroutine runs what it was created for if and only if every
  unit that is taken from the list already has it.
-/

namespace Gbase.Core.Coroutine

open Gbase.Lib.Ring
open Gbase.Lib.Run

/-- The status of a unit. -/
inductive CrtStatus where
  | init
  | running
  | suspend
deriving DecidableEq

/-- Where a context is in `_crt_main`: its `id` and `cu`. -/
structure Context where
  id : Nat
  cu : Nat
deriving DecidableEq

/-- `crt_unit_t` -/
structure CrtUnit (F A : Type) where
  func : F
  arg : A
  ctx : Option Context
  status : CrtStatus

/-- `crt_t`, with the units in the order of their creation and the context that is running, if it is
not the main one. -/
structure CrtT (F A : Type) where
  current : Int
  count : Nat
  capacity : Nat
  units : Nat → Option Nat
  freelst : List Nat
  created : Nat
  cells : Nat → Option (CrtUnit F A)
  running : Option Context

variable {F A : Type}

def CrtT.setCell (c : CrtT F A) (cu : Nat) (unit : CrtUnit F A) : CrtT F A :=
  { c with cells := fun i => if i = cu then some unit else c.cells i }

def CrtT.setUnit (c : CrtT F A) (id : Nat) (cu : Option Nat) : CrtT F A :=
  { c with units := fun i => if i = id then cu else c.units i }

/-- `_crt_unit_create` -/
def crtUnitCreate (c : CrtT F A) (func : F) (arg : A) : Nat × CrtT F A :=
  (c.created, { c.setCell c.created { func := func, arg := arg, ctx := none, status := .init } with
    created := c.created + 1 })

/-- `CRT_DEFAULT_SIZE` -/
def crtDefaultSize : Nat := 16

/-- `crt_create` -/
def crtCreate : CrtT F A where
  current := -1
  count := 0
  capacity := crtDefaultSize
  units := fun _ => none
  freelst := []
  created := 0
  cells := fun _ => none
  running := none

/-- The unit of a new coroutine: the last one of the list, if there is any. -/
def crtUnit (c : CrtT F A) (func : F) (arg : A) : Option (Nat × CrtT F A) :=
  match c.freelst.getLast? with
  | none => some (crtUnitCreate c func arg)
  | some cu => do
      let unit ← c.cells cu
      return (cu, { c with freelst := c.freelst.dropLast }.setCell cu { unit with status := .init })

/-- `crt_new`, which ends in a failed assertion if it finds no place. -/
def crtNew (c : CrtT F A) (func : F) (arg : A) : Option (Nat × CrtT F A) := do
  let (cu, c) ← crtUnit c func arg
  if c.count ≥ c.capacity then
    let id := c.capacity
    let units := fun i => if c.capacity ≤ i ∧ i < c.capacity * 2 then none else c.units i
    return (id, { { c with units := units }.setUnit c.capacity (some cu) with
      capacity := c.capacity * 2
      count := c.count + 1 })
  else
    let i ← (List.range c.capacity).find? fun i => c.units ((i + c.count) % c.capacity) = none
    let id := (i + c.count) % c.capacity
    return (id, { c.setUnit id (some cu) with count := c.count + 1 })

/-- What `crt_resume` does: it starts a function, lets a coroutine go on, or does nothing. -/
inductive Resumed (F A : Type) where
  | started (func : F) (arg : A)
  | continued
  | nothing

/-- `crt_resume`, up to the call of `func` in `_crt_main` if the coroutine has not run yet. -/
def crtResume (c : CrtT F A) (id : Int) : Option (Resumed F A × CrtT F A) :=
  if ¬ (c.current < 0 ∧ 0 ≤ id ∧ id < c.capacity) then none
  else
    match c.units id.toNat with
    | none => some (.nothing, c)
    | some cu => do
        let unit ← c.cells cu
        match unit.status with
        | .init =>
            let c := { c.setCell cu { unit with status := .running } with current := id }
            -- `_crt_main` reads the id and the unit again
            let cu ← c.units c.current.toNat
            let unit ← c.cells cu
            return (.started unit.func unit.arg, { c with running := some ⟨c.current.toNat, cu⟩ })
        | .suspend =>
            return (.continued, { c.setCell cu { unit with status := .running } with
              current := id
              running := unit.ctx })
        | .running => none

/-- `crt_yield` -/
def crtYield (c : CrtT F A) : Option (CrtT F A) :=
  if c.current < 0 then none
  else do
    let cu ← c.units c.current.toNat
    let unit ← c.cells cu
    return { c.setCell cu { unit with status := .suspend, ctx := c.running } with
      current := -1
      running := none }

/-- `_crt_main` once `func` has returned, back to the main context. -/
def crtFinish (c : CrtT F A) : Option (CrtT F A) := do
  let ctx ← c.running
  return { c.setUnit ctx.id none with
    freelst := c.freelst ++ [ctx.cu]
    count := c.count - 1
    current := -1
    running := none }

/-! ## Runs -/

/-- A scheduler, with what was asked for at the last `crt_new` that gave an id. -/
structure State (F A : Type) where
  crt : CrtT F A
  asked : Nat → Option (F × A)

inductive CrtOp (F A : Type) where
  | new (func : F) (arg : A)
  | resume (id : Int)
  | yield
  | finish

inductive CrtResult (F A : Type) where
  | id (id : Nat)
  | resumed (how : Resumed F A)
  | left

def crtStep : Step (State F A) (CrtOp F A) (CrtResult F A)
  | s, .new func arg =>
      (crtNew s.crt func arg).map fun (id, crt) =>
        (.id id, ⟨crt, fun i => if i = id then some (func, arg) else s.asked i⟩)
  | s, .resume id =>
      (crtResume s.crt id).map fun (how, crt) => (.resumed how, { s with crt := crt })
  | s, .yield => (crtYield s.crt).map fun crt => (.left, { s with crt := crt })
  | s, .finish => (crtFinish s.crt).map fun crt => (.left, { s with crt := crt })

/-- The main context resumes ids that it was given, and only a running coroutine yields or
returns. -/
def Legal (s : State F A) : CrtOp F A → Prop
  | .new _ _ => True
  | .resume id => s.crt.running = none ∧ 0 ≤ id ∧ id < s.crt.capacity
  | .yield => s.crt.running ≠ none
  | .finish => s.crt.running ≠ none

/-- The coroutine of an id has the unit. -/
def CrtT.Has (c : CrtT F A) (id : Nat) (unit : CrtUnit F A) : Prop :=
  ∃ cu, c.units id = some cu ∧ c.cells cu = some unit

/-- Every coroutine that has not run yet will run what was asked for. -/
def Identity (s : State F A) : Prop :=
  ∀ id unit, s.crt.Has id unit → unit.status = .init → s.asked id = some (unit.func, unit.arg)

/-- What a call should do: a new coroutine has an id that was not in use, and the first resumption
of a coroutine runs what was asked for. -/
def Good (s : State F A) (op : CrtOp F A) (result : CrtResult F A) (s' : State F A) : Prop :=
  Identity s' ∧
    match op, result with
    | .new func arg, .id id => s.crt.units id = none ∧ s'.asked id = some (func, arg)
    | .resume id, .resumed how =>
        ∀ unit, s.crt.Has id.toNat unit → unit.status = .init →
          ∃ func arg, s.asked id.toNat = some (func, arg) ∧ how = .started func arg
    | _, _ => True

/-- The unit that `crt_new` takes from the list has the function and the argument already. -/
def Meets (s : State F A) : CrtOp F A → Prop
  | .new func arg =>
      ∀ cu unit, s.crt.freelst.getLast? = some cu → s.crt.cells cu = some unit →
        unit.func = func ∧ unit.arg = arg
  | _ => True

/-! ## The scheduler between two calls -/

/-- The ids that are in use. -/
def CrtT.live (c : CrtT F A) : Finset Nat := (Finset.range c.capacity).filter (c.units · ≠ none)

/-- What holds of a scheduler between two calls. -/
structure Inv (c : CrtT F A) : Prop where
  capacity : 0 < c.capacity
  count : c.count = c.live.card
  bound : ∀ id cu, c.units id = some cu → id < c.capacity
  cell : ∀ id cu, c.units id = some cu → c.cells cu ≠ none ∧ cu ∉ c.freelst
  inj : ∀ id id' cu, c.units id = some cu → c.units id' = some cu → id = id'
  free : ∀ cu, cu ∈ c.freelst → c.cells cu ≠ none
  nodup : c.freelst.Nodup
  fresh : ∀ cu, c.cells cu ≠ none → cu < c.created
  main : c.running = none → c.current < 0
  runs : ∀ ctx, c.running = some ctx → c.current = ctx.id ∧ c.units ctx.id = some ctx.cu
  status : ∀ id cu unit, c.units id = some cu → c.cells cu = some unit →
    (unit.status = .running → c.running = some ⟨id, cu⟩) ∧
      (unit.status = .suspend → unit.ctx = some ⟨id, cu⟩)

/-- A scheduler with a unit that no coroutine has. -/
structure Ready (c : CrtT F A) (cu : Nat) (unit : CrtUnit F A) : Prop extends Inv c where
  cellAt : c.cells cu = some unit
  initial : unit.status = .init
  unused : ∀ id, c.units id ≠ some cu
  taken : cu ∉ c.freelst

section

variable {c : CrtT F A} {cu id : Nat} {unit : CrtUnit F A} {func : F} {arg : A}

@[simp] theorem mem_live : id ∈ c.live ↔ id < c.capacity ∧ c.units id ≠ none := by
  simp [CrtT.live]

/-- A new unit. -/
theorem Inv.create (hInv : Inv c) (func : F) (arg : A) :
    Ready (crtUnitCreate c func arg).2 c.created
      { func := func, arg := arg, ctx := none, status := .init } := by
  have hNew : c.cells c.created = none := by
    by_contra hSome
    exact absurd (hInv.fresh _ hSome) (lt_irrefl _)
  have hOther : ∀ id cu, c.units id = some cu → cu ≠ c.created := by
    intro id cu hUnit hEq
    exact (hInv.cell id cu hUnit).1 (hEq ▸ hNew)
  exact {
    capacity := hInv.capacity
    count := hInv.count
    bound := hInv.bound
    cell := by
      intro id cu hUnit
      obtain ⟨hCell, hFree⟩ := hInv.cell id cu hUnit
      exact ⟨by simpa [crtUnitCreate, CrtT.setCell, hOther id cu hUnit] using hCell, hFree⟩
    inj := hInv.inj
    free := by
      intro cu hMem
      have hCell := hInv.free cu hMem
      have hNe : cu ≠ c.created := fun hEq => hCell (hEq ▸ hNew)
      simpa [crtUnitCreate, CrtT.setCell, hNe] using hCell
    nodup := hInv.nodup
    fresh := by
      intro cu hCell
      show cu < c.created + 1
      by_cases hEq : cu = c.created
      · omega
      · have hOld := hInv.fresh cu (by simpa [crtUnitCreate, CrtT.setCell, hEq] using hCell)
        omega
    main := hInv.main
    runs := hInv.runs
    status := by
      intro id cu unit hUnit hCell
      exact hInv.status id cu unit hUnit
        (by simpa [crtUnitCreate, CrtT.setCell, hOther id cu hUnit] using hCell)
    cellAt := by simp [crtUnitCreate, CrtT.setCell]
    initial := rfl
    unused := fun id hUnit => hOther id _ hUnit rfl
    taken := fun hMem => hInv.free _ hMem hNew }

/-- A unit from the list. -/
theorem Inv.recycle (hInv : Inv c) (hLast : c.freelst.getLast? = some cu)
    (hCell : c.cells cu = some unit) :
    Ready ({ c with freelst := c.freelst.dropLast }.setCell cu { unit with status := .init }) cu
      { unit with status := .init } := by
  have hSplit : c.freelst = c.freelst.dropLast ++ [cu] :=
    (List.dropLast_append_getLast? cu hLast).symm
  have hMem : cu ∈ c.freelst := List.mem_of_getLast? hLast
  have hNodup := hInv.nodup
  rw [hSplit] at hNodup
  have hOther : ∀ id cu', c.units id = some cu' → cu' ≠ cu := by
    intro id cu' hUnit hEq
    exact (hInv.cell id cu' hUnit).2 (hEq ▸ hMem)
  have hDrop : ∀ cu', cu' ∈ c.freelst.dropLast → cu' ∈ c.freelst :=
    fun cu' h => List.mem_of_mem_dropLast h
  have hGone : cu ∉ c.freelst.dropLast := by
    intro hIn
    exact List.disjoint_of_nodup_append hNodup hIn (List.mem_singleton_self cu)
  exact {
    capacity := hInv.capacity
    count := hInv.count
    bound := hInv.bound
    cell := by
      intro id cu' hUnit
      obtain ⟨hOld, hFree⟩ := hInv.cell id cu' hUnit
      exact ⟨by simpa [CrtT.setCell, hOther id cu' hUnit] using hOld, fun h => hFree (hDrop cu' h)⟩
    inj := hInv.inj
    free := by
      intro cu' hIn
      have hNe : cu' ≠ cu := fun hEq => hGone (hEq ▸ hIn)
      simpa [CrtT.setCell, hNe] using hInv.free cu' (hDrop cu' hIn)
    nodup := List.Nodup.sublist (List.dropLast_sublist _) hInv.nodup
    fresh := by
      intro cu' hSome
      apply hInv.fresh
      by_cases hEq : cu' = cu
      · rw [hEq, hCell]
        exact Option.some_ne_none _
      · simpa [CrtT.setCell, hEq] using hSome
    main := hInv.main
    runs := hInv.runs
    status := by
      intro id cu' unit' hUnit hSome
      exact hInv.status id cu' unit' hUnit
        (by simpa [CrtT.setCell, hOther id cu' hUnit] using hSome)
    cellAt := by simp [CrtT.setCell]
    initial := rfl
    unused := fun id hUnit => hOther id cu hUnit rfl
    taken := hGone }

/-- More places for coroutines. -/
theorem Ready.expand (h : Ready c cu unit) :
    Ready { c with
      units := fun i => if c.capacity ≤ i ∧ i < c.capacity * 2 then none else c.units i
      capacity := c.capacity * 2 } cu unit := by
  have hUnits : (fun i => if c.capacity ≤ i ∧ i < c.capacity * 2 then none else c.units i) =
      c.units := by
    funext i
    split
    · cases hUnit : c.units i with
      | none => rfl
      | some cu =>
          have hLess := h.bound i cu hUnit
          omega
    · rfl
  rw [hUnits]
  have hLive : CrtT.live { c with capacity := c.capacity * 2 } = c.live := by
    ext id
    rw [mem_live, mem_live]
    constructor
    · rintro ⟨-, hUnit⟩
      obtain ⟨cu, hSome⟩ := Option.ne_none_iff_exists'.mp hUnit
      exact ⟨h.bound id cu hSome, hUnit⟩
    · rintro ⟨hLess, hUnit⟩
      exact ⟨by show id < c.capacity * 2; omega, hUnit⟩
  exact { h with
    capacity := by
      have hPos := h.capacity
      show 0 < c.capacity * 2
      omega
    count := by
      rw [hLive]
      exact h.count
    bound := by
      intro id cu hUnit
      have hLess := h.bound id cu hUnit
      show id < c.capacity * 2
      omega }

/-- A free place gets the unit. -/
theorem Ready.place (h : Ready c cu unit) (hId : id < c.capacity) (hNone : c.units id = none) :
    Inv { c.setUnit id (some cu) with count := c.count + 1 } := by
  have hLive : CrtT.live { c.setUnit id (some cu) with count := c.count + 1 } =
      insert id c.live := by
    ext i
    simp only [mem_live, Finset.mem_insert, CrtT.setUnit]
    split
    · rename_i hEq
      simp [hEq, hId]
    · rename_i hNe
      simp [hNe]
  have hNew : ∀ i cu', (c.setUnit id (some cu)).units i = some cu' →
      (i = id ∧ cu' = cu) ∨ (i ≠ id ∧ c.units i = some cu') := by
    intro i cu' hUnit
    by_cases hEq : i = id
    · simp only [CrtT.setUnit, if_pos hEq, Option.some.injEq] at hUnit
      exact Or.inl ⟨hEq, hUnit.symm⟩
    · simp only [CrtT.setUnit, if_neg hEq] at hUnit
      exact Or.inr ⟨hEq, hUnit⟩
  exact {
    capacity := h.capacity
    count := by
      have hFresh : id ∉ c.live := by
        rw [mem_live, hNone]
        exact fun hBoth => hBoth.2 rfl
      rw [hLive, Finset.card_insert_of_notMem hFresh, ← h.count]
    bound := by
      intro i cu' hUnit
      cases hNew i cu' hUnit with
      | inl hHere => rw [hHere.1]; exact hId
      | inr hThere => exact h.bound i cu' hThere.2
    cell := by
      intro i cu' hUnit
      cases hNew i cu' hUnit with
      | inl hHere =>
          rw [hHere.2]
          exact ⟨by
              rw [show (CrtT.setUnit c id (some cu)).cells cu = some unit from h.cellAt]
              simp,
            h.taken⟩
      | inr hThere => exact h.cell i cu' hThere.2
    inj := by
      intro i i' cu' hUnit hUnit'
      cases hNew i cu' hUnit with
      | inl hHere =>
          cases hNew i' cu' hUnit' with
          | inl hHere' => rw [hHere.1, hHere'.1]
          | inr hThere' => exact absurd (hHere.2 ▸ hThere'.2) (h.unused i')
      | inr hThere =>
          cases hNew i' cu' hUnit' with
          | inl hHere' => exact absurd (hHere'.2 ▸ hThere.2) (h.unused i)
          | inr hThere' => exact h.inj i i' cu' hThere.2 hThere'.2
    free := h.free
    nodup := h.nodup
    fresh := h.fresh
    main := h.main
    runs := by
      intro ctx hRun
      obtain ⟨hCurrent, hUnit⟩ := h.runs ctx hRun
      refine ⟨hCurrent, ?_⟩
      have hNe : ctx.id ≠ id := by
        intro hEq
        rw [hEq, hNone] at hUnit
        cases hUnit
      simp only [CrtT.setUnit, if_neg hNe]
      exact hUnit
    status := by
      intro i cu' unit' hUnit hCell
      cases hNew i cu' hUnit with
      | inl hHere =>
          have hEq : some unit = some unit' := by
            rw [← hCell, hHere.2]
            exact h.cellAt.symm
          cases hEq
          simp [h.initial]
      | inr hThere => exact h.status i cu' unit' hThere.2 hCell }

/-- What `crt_new` puts into the place of a new coroutine: the unit that it takes from the list, if
there is one, with its old function and argument. -/
def newUnit (c : CrtT F A) (func : F) (arg : A) : CrtUnit F A :=
  match c.freelst.getLast?.bind c.cells with
  | none => { func := func, arg := arg, ctx := none, status := .init }
  | some unit => { unit with status := .init }

theorem crtUnit_spec (hInv : Inv c) (func : F) (arg : A) :
    ∃ cu c₁, crtUnit c func arg = some (cu, c₁) ∧ Ready c₁ cu (newUnit c func arg) ∧
      c₁.units = c.units ∧ c₁.count = c.count ∧ c₁.capacity = c.capacity ∧
      ∀ cu', cu' ≠ cu → c₁.cells cu' = c.cells cu' := by
  cases hLast : c.freelst.getLast? with
  | none =>
      refine ⟨c.created, (crtUnitCreate c func arg).2, ?_, ?_, rfl, rfl, rfl, ?_⟩
      · rw [crtUnit, hLast]
        rfl
      · rw [newUnit, hLast]
        exact hInv.create func arg
      · intro cu' hNe
        simp [crtUnitCreate, CrtT.setCell, hNe]
  | some cu =>
      obtain ⟨unit, hCell⟩ :=
        Option.ne_none_iff_exists'.mp (hInv.free cu (List.mem_of_getLast? hLast))
      refine ⟨cu, { c with freelst := c.freelst.dropLast }.setCell cu { unit with status := .init },
        ?_, ?_, rfl, rfl, rfl, ?_⟩
      · simp only [crtUnit, hLast, hCell, Option.bind_eq_bind, Option.bind_some]
        rfl
      · simp only [newUnit, hLast, Option.bind_some, hCell]
        exact hInv.recycle hLast hCell
      · intro cu' hNe
        simp [CrtT.setCell, hNe]

/-- As long as not every place is taken, the search finds a free one. -/
theorem Inv.search (hInv : Inv c) (hRoom : c.count < c.capacity) :
    ∃ i, ((List.range c.capacity).find? fun i => c.units ((i + c.count) % c.capacity) = none) =
        some i ∧
      (i + c.count) % c.capacity < c.capacity ∧ c.units ((i + c.count) % c.capacity) = none := by
  obtain ⟨id, hId, hFree⟩ : ∃ id, id ∈ Finset.range c.capacity ∧ id ∉ c.live := by
    apply Finset.exists_mem_notMem_of_card_lt_card
    rw [Finset.card_range, ← hInv.count]
    exact hRoom
  rw [Finset.mem_range] at hId
  have hNone : c.units id = none := by
    by_contra hSome
    exact hFree (mem_live.mpr ⟨hId, hSome⟩)
  have hAt : (distance c.capacity c.count id + c.count) % c.capacity = id := by
    rw [Nat.add_comm]
    exact add_distance hId
  obtain ⟨i, hFind⟩ : ∃ i, ((List.range c.capacity).find? fun i =>
      c.units ((i + c.count) % c.capacity) = none) = some i := by
    rw [← Option.isSome_iff_exists, List.find?_isSome]
    refine ⟨distance c.capacity c.count id, ?_, ?_⟩
    · rw [List.mem_range]
      exact distance_lt id hInv.capacity
    · rw [hAt, hNone]
      rfl
  have hSome := List.find?_some hFind
  exact ⟨i, hFind, Nat.mod_lt _ hInv.capacity, of_decide_eq_true hSome⟩

/-- `crt_new` finds a place that is not in use, and leaves all others as they are. -/
theorem crtNew_spec (hInv : Inv c) (func : F) (arg : A) :
    ∃ id c' cu, crtNew c func arg = some (id, c') ∧ Inv c' ∧ c.units id = none ∧
      (∀ i, c'.units i = if i = id then some cu else c.units i) ∧
      c'.cells cu = some (newUnit c func arg) ∧
      ∀ i cu', c.units i = some cu' → c'.cells cu' = c.cells cu' := by
  obtain ⟨cu, c₁, hUnit, hReady, hUnits, hCount, hCapacity, hCells⟩ := crtUnit_spec hInv func arg
  have hKeep : ∀ i cu', c.units i = some cu' → c₁.cells cu' = c.cells cu' := by
    intro i cu' hOld
    apply hCells
    intro hEq
    exact hReady.unused i (by rw [hUnits, hOld, hEq])
  by_cases hFull : c₁.count ≥ c₁.capacity
  · have hExpand := hReady.expand
    have hNone : c₁.units c₁.capacity = none := by
      by_contra hSome
      obtain ⟨cu', hSome⟩ := Option.ne_none_iff_exists'.mp hSome
      exact absurd (hReady.bound _ cu' hSome) (lt_irrefl _)
    have hPos := hReady.capacity
    have hPlace := @Ready.place F A _ cu c₁.capacity _ hExpand
      (by show c₁.capacity < c₁.capacity * 2; omega) (by simp [hNone])
    refine ⟨c₁.capacity, _, cu, ?_, hPlace, ?_, ?_, hReady.cellAt, hKeep⟩
    · simp only [crtNew, hUnit, Option.bind_eq_bind, Option.bind_some, if_pos hFull]
      rfl
    · rw [← hUnits, hNone]
    · intro i
      rw [← hUnits]
      by_cases hEq : i = c₁.capacity
      · simp [CrtT.setUnit, hEq]
      · have hSame : (if c₁.capacity ≤ i ∧ i < c₁.capacity * 2 then none else c₁.units i) =
            c₁.units i := by
          split
          · by_contra hSome
            obtain ⟨cu', hSome⟩ := Option.ne_none_iff_exists'.mp (Ne.symm hSome)
            have hLess := hReady.bound i cu' hSome
            omega
          · rfl
        simp only [CrtT.setUnit, if_neg hEq, hSame]
  · obtain ⟨i, hFind, hLess, hNone⟩ := hReady.search (by omega)
    have hPlace := hReady.place hLess hNone
    refine ⟨(i + c₁.count) % c₁.capacity, _, cu, ?_, hPlace, ?_, ?_, hReady.cellAt, hKeep⟩
    · simp only [crtNew, hUnit, Option.bind_eq_bind, Option.bind_some, if_neg hFull, hFind]
      rfl
    · rw [← hUnits, hNone]
    · intro i
      rw [← hUnits]
      rfl

/-- Another context goes on: the unit of one coroutine changes, and that coroutine is the only one
that ran before or runs now. -/
theorem Inv.switch (hInv : Inv c) (hUnit : c.units id = some cu) {unit : CrtUnit F A}
    {current : Int} {running : Option Context}
    (hBefore : ∀ ctx, c.running = some ctx → ctx = ⟨id, cu⟩)
    (hMain : running = none → current < 0)
    (hRuns : ∀ ctx, running = some ctx → ctx = ⟨id, cu⟩ ∧ current = id)
    (hRunning : unit.status = .running → running = some ⟨id, cu⟩)
    (hSuspend : unit.status = .suspend → unit.ctx = some ⟨id, cu⟩) :
    Inv { c.setCell cu unit with current := current, running := running } where
  capacity := hInv.capacity
  count := hInv.count
  bound := hInv.bound
  cell := by
    intro i cu' hOld
    obtain ⟨hCell, hFree⟩ := hInv.cell i cu' hOld
    refine ⟨?_, hFree⟩
    show (if cu' = cu then some unit else c.cells cu') ≠ none
    split
    · exact Option.some_ne_none _
    · exact hCell
  inj := hInv.inj
  free := by
    intro cu' hMem
    show (if cu' = cu then some unit else c.cells cu') ≠ none
    split
    · exact Option.some_ne_none _
    · exact hInv.free cu' hMem
  nodup := hInv.nodup
  fresh := by
    intro cu' hCell
    have hCell : (if cu' = cu then some unit else c.cells cu') ≠ none := hCell
    split at hCell
    · rename_i hEq
      rw [hEq]
      exact hInv.fresh cu (hInv.cell id cu hUnit).1
    · exact hInv.fresh cu' hCell
  main := hMain
  runs := by
    intro ctx hRun
    obtain ⟨rfl, hCurrent⟩ := hRuns ctx hRun
    exact ⟨hCurrent, hUnit⟩
  status := by
    intro i cu' unit' hOld hCell
    have hCell : (if cu' = cu then some unit else c.cells cu') = some unit' := hCell
    split at hCell
    · rename_i hEq
      cases hCell
      rw [hEq, hInv.inj i id cu (hEq ▸ hOld) hUnit]
      exact ⟨hRunning, hSuspend⟩
    · rename_i hNe
      obtain ⟨hOldRunning, hOldSuspend⟩ := hInv.status i cu' unit' hOld hCell
      refine ⟨?_, hOldSuspend⟩
      intro hStatus
      have hEq := hBefore _ (hOldRunning hStatus)
      cases hEq
      exact absurd rfl hNe

/-- No other coroutine is now about to start than before, nor with anything else to run. -/
def Keeps (c c' : CrtT F A) : Prop :=
  ∀ id unit, c'.Has id unit → unit.status = .init → c.Has id unit

theorem Keeps.setCell (hNot : unit.status ≠ .init) {current : Int} {running : Option Context} :
    Keeps c { c.setCell cu unit with current := current, running := running } := by
  intro i unit' hHas hInit
  obtain ⟨cu', hUnit, hCell⟩ := hHas
  have hCell : (if cu' = cu then some unit else c.cells cu') = some unit' := hCell
  split at hCell
  · cases hCell
    exact absurd hInit hNot
  · exact ⟨cu', hUnit, hCell⟩

/-- `crt_resume` from the main context. -/
theorem crtResume_spec (hInv : Inv c) (hMain : c.running = none) {id : Int} (hLow : 0 ≤ id)
    (hHigh : id < c.capacity) :
    ∃ how c', crtResume c id = some (how, c') ∧ Inv c' ∧ Keeps c c' ∧
      ∀ unit, c.Has id.toNat unit → unit.status = .init → how = .started unit.func unit.arg := by
  have hCurrent := hInv.main hMain
  have hBefore : ∀ ctx, c.running = some ctx → ∀ other : Context, ctx = other := by
    intro ctx hSome
    rw [hMain] at hSome
    cases hSome
  have hLegal : ¬ ¬ (c.current < 0 ∧ 0 ≤ id ∧ id < c.capacity) := by
    rw [not_not]
    exact ⟨hCurrent, hLow, hHigh⟩
  have hNat : ((id.toNat : Nat) : Int) = id := Int.toNat_of_nonneg hLow
  cases hUnit : c.units id.toNat with
  | none =>
      refine ⟨.nothing, c, by simp only [crtResume, if_neg hLegal, hUnit], hInv,
        fun _ _ hHas _ => hHas, ?_⟩
      rintro unit ⟨cu, hSome, -⟩
      rw [hUnit] at hSome
      cases hSome
  | some cu =>
      obtain ⟨unit, hCell⟩ := Option.ne_none_iff_exists'.mp (hInv.cell _ cu hUnit).1
      have hOnly : ∀ unit', c.Has id.toNat unit' → unit' = unit := by
        rintro unit' ⟨cu', hUnit', hCell'⟩
        rw [hUnit] at hUnit'
        cases hUnit'
        rw [hCell] at hCell'
        cases hCell'
        rfl
      cases hStatus : unit.status with
      | init =>
          have hInv' := @Inv.switch F A c cu id.toNat hInv hUnit { unit with status := .running }
            id (some ⟨id.toNat, cu⟩) (fun ctx hSome => hBefore ctx hSome _)
            (fun hNone => by cases hNone)
            (fun ctx hSome => ⟨(Option.some.inj hSome).symm, hNat.symm⟩) (fun _ => rfl)
            (fun hNot => by cases hNot)
          refine ⟨.started unit.func unit.arg, _, ?_, hInv', Keeps.setCell (by simp), ?_⟩
          · simp only [crtResume, if_neg hLegal, hUnit, hCell, hStatus, Option.bind_eq_bind,
              Option.bind_some, CrtT.setCell, if_true]
            rfl
          · intro unit' hHas _
            rw [hOnly unit' hHas]
      | suspend =>
          have hCtx := (hInv.status _ cu unit hUnit hCell).2 hStatus
          have hInv' := @Inv.switch F A c cu id.toNat hInv hUnit { unit with status := .running }
            id unit.ctx (fun ctx hSome => hBefore ctx hSome _)
            (fun hNone => by rw [hCtx] at hNone; cases hNone)
            (fun ctx hSome => by
              rw [hCtx] at hSome
              exact ⟨(Option.some.inj hSome).symm, hNat.symm⟩)
            (fun _ => hCtx) (fun hNot => by cases hNot)
          refine ⟨.continued, _, ?_, hInv', Keeps.setCell (by simp), ?_⟩
          · simp only [crtResume, if_neg hLegal, hUnit, hCell, hStatus, Option.bind_eq_bind,
              Option.bind_some]
            rfl
          · intro unit' hHas hInit
            rw [hOnly unit' hHas, hStatus] at hInit
            cases hInit
      | running =>
          have hRun := (hInv.status _ cu unit hUnit hCell).1 hStatus
          rw [hMain] at hRun
          cases hRun

/-- `crt_yield` of the running coroutine. -/
theorem crtYield_spec (hInv : Inv c) (hRun : c.running ≠ none) :
    ∃ c', crtYield c = some c' ∧ Inv c' ∧ Keeps c c' := by
  obtain ⟨ctx, hSome⟩ := Option.ne_none_iff_exists'.mp hRun
  obtain ⟨hCurrent, hUnit⟩ := hInv.runs ctx hSome
  obtain ⟨unit, hCell⟩ := Option.ne_none_iff_exists'.mp (hInv.cell _ _ hUnit).1
  have hInv' := @Inv.switch F A c ctx.cu ctx.id hInv hUnit
    { unit with status := .suspend, ctx := c.running } (-1) none
    (fun other hOther => by rw [hSome] at hOther; exact (Option.some.inj hOther).symm)
    (fun _ => by decide) (fun _ hNone => by cases hNone) (fun hNot => by cases hNot)
    (fun _ => hSome)
  have hAt : c.units c.current.toNat = some ctx.cu := by
    rw [hCurrent, Int.toNat_natCast, hUnit]
  refine ⟨_, ?_, hInv', Keeps.setCell (by simp)⟩
  simp only [crtYield, if_neg (by omega : ¬ c.current < 0), hAt, hCell, Option.bind_eq_bind,
    Option.bind_some]
  rfl

/-- The running coroutine returns. -/
theorem crtFinish_spec (hInv : Inv c) (hRun : c.running ≠ none) :
    ∃ c', crtFinish c = some c' ∧ Inv c' ∧ Keeps c c' := by
  obtain ⟨ctx, hSome⟩ := Option.ne_none_iff_exists'.mp hRun
  obtain ⟨hCurrent, hUnit⟩ := hInv.runs ctx hSome
  obtain ⟨hCell, hTaken⟩ := hInv.cell _ _ hUnit
  let c' := { c.setUnit ctx.id none with
    freelst := c.freelst ++ [ctx.cu]
    count := c.count - 1
    current := -1
    running := none }
  have hOld : ∀ i cu', c'.units i = some cu' → i ≠ ctx.id ∧ c.units i = some cu' := by
    intro i cu' hNew
    have hNew : (if i = ctx.id then none else c.units i) = some cu' := hNew
    split at hNew
    · cases hNew
    · rename_i hNe
      exact ⟨hNe, hNew⟩
  have hLive : c'.live = c.live.erase ctx.id := by
    ext i
    rw [mem_live, Finset.mem_erase, mem_live]
    show i < c.capacity ∧ (if i = ctx.id then none else c.units i) ≠ none ↔ _
    by_cases hEq : i = ctx.id
    · simp [hEq]
    · simp [hEq]
  refine ⟨c', by rw [crtFinish, hSome]; rfl, ?_, ?_⟩
  · exact {
      capacity := hInv.capacity
      count := by
        have hMem : ctx.id ∈ c.live :=
          mem_live.mpr ⟨hInv.bound _ _ hUnit, by rw [hUnit]; exact Option.some_ne_none _⟩
        rw [hLive, Finset.card_erase_of_mem hMem, ← hInv.count]
      bound := fun i cu' hNew => hInv.bound i cu' (hOld i cu' hNew).2
      cell := by
        intro i cu' hNew
        obtain ⟨hNe, hBefore⟩ := hOld i cu' hNew
        obtain ⟨hCell', hFree⟩ := hInv.cell i cu' hBefore
        refine ⟨hCell', ?_⟩
        intro hMem
        cases List.mem_append.mp hMem with
        | inl hList => exact hFree hList
        | inr hLast =>
            rw [List.mem_singleton.mp hLast] at hBefore
            exact hNe (hInv.inj i ctx.id ctx.cu hBefore hUnit)
      inj := fun i i' cu' hNew hNew' =>
        hInv.inj i i' cu' (hOld i cu' hNew).2 (hOld i' cu' hNew').2
      free := by
        intro cu' hMem
        cases List.mem_append.mp hMem with
        | inl hList => exact hInv.free cu' hList
        | inr hLast =>
            rw [List.mem_singleton.mp hLast]
            exact hCell
      nodup := by
        apply List.nodup_append.mpr
        refine ⟨hInv.nodup, List.nodup_singleton _, ?_⟩
        intro a hMem b hLast hEq
        rw [List.mem_singleton.mp hLast] at hEq
        exact hTaken (hEq ▸ hMem)
      fresh := hInv.fresh
      main := fun _ => (by decide : (-1 : Int) < 0)
      runs := fun _ hNone => by cases hNone
      status := by
        intro i cu' unit hNew hCell'
        obtain ⟨hNe, hBefore⟩ := hOld i cu' hNew
        obtain ⟨hRunning, hSuspend⟩ := hInv.status i cu' unit hBefore hCell'
        refine ⟨?_, hSuspend⟩
        intro hStatus
        have hEq := hRunning hStatus
        rw [hSome] at hEq
        cases hEq
        exact absurd rfl hNe }
  · intro i unit hHas _
    obtain ⟨cu', hNew, hCell'⟩ := hHas
    exact ⟨cu', (hOld i cu' hNew).2, hCell'⟩

theorem Identity.keep {s : State F A} {c' : CrtT F A} (h : Identity s) (hKeeps : Keeps s.crt c') :
    Identity { s with crt := c' } :=
  fun i unit hHas hInit => h i unit (hKeeps i unit hHas hInit) hInit

/-- The new unit has what was asked for if and only if the unit from the list had it. -/
theorem newUnit_iff {s : State F A} (hInv : Inv s.crt) (func : F) (arg : A) :
    ((newUnit s.crt func arg).func = func ∧ (newUnit s.crt func arg).arg = arg) ↔
      Meets s (.new func arg) := by
  rw [newUnit, Meets]
  cases hLast : s.crt.freelst.getLast? with
  | none =>
      constructor
      · intro _ cu unit hNone
        cases hNone
      · intro _
        exact ⟨rfl, rfl⟩
  | some cu =>
      obtain ⟨unit, hCell⟩ :=
        Option.ne_none_iff_exists'.mp (hInv.free cu (List.mem_of_getLast? hLast))
      simp only [Option.bind_some, hCell]
      constructor
      · intro hSame cu' unit' hEq hCell'
        cases hEq
        rw [hCell] at hCell'
        cases hCell'
        exact hSame
      · intro hAll
        exact hAll cu unit rfl hCell

theorem newUnit_status : (newUnit c func arg).status = .init := by
  rw [newUnit]
  split <;> rfl

/-- A creation that does what it should takes a unit that has what was asked for. -/
theorem meets_of_good {s : State F A} (hInv : Inv s.crt) {op : CrtOp F A}
    (hGood : Does crtStep Good s op) : Meets s op := by
  cases op with
  | new func arg =>
      obtain ⟨id, c', cu, hNew, -, -, hUnits, hCell, -⟩ := crtNew_spec hInv func arg
      have hHas : c'.Has id (newUnit s.crt func arg) :=
        ⟨cu, by rw [hUnits, if_pos rfl], hCell⟩
      obtain ⟨result, s', hStep, hIdentity, -⟩ := hGood
      rw [crtStep, hNew] at hStep
      cases hStep
      have hAsked := hIdentity id _ hHas newUnit_status
      simp only [if_true, Option.some.injEq, Prod.mk.injEq] at hAsked
      exact (newUnit_iff hInv func arg).mp ⟨hAsked.1.symm, hAsked.2.symm⟩
  | resume id => trivial
  | yield => trivial
  | finish => trivial

/-- As long as every coroutine will run what was asked for and a creation takes a unit that has it,
a call does what it should and keeps the scheduler in order. -/
theorem crtStep_spec {s : State F A} (hInv : Inv s.crt) (hIdentity : Identity s) {op : CrtOp F A}
    (hLegal : Legal s op) (hMeets : Meets s op) :
    Does crtStep (fun s op result s' => Good s op result s' ∧ Inv s'.crt) s op := by
  cases op with
  | new func arg =>
      obtain ⟨id, c', cu, hNew, hInv', hFree, hUnits, hCell, hCells⟩ := crtNew_spec hInv func arg
      obtain ⟨hFunc, hArg⟩ := (newUnit_iff hInv func arg).mpr hMeets
      refine ⟨.id id, ⟨c', fun i => if i = id then some (func, arg) else s.asked i⟩, ?_,
        ⟨?_, hFree, if_pos rfl⟩, hInv'⟩
      · simp only [crtStep, hNew, Option.map_some]
      · intro i unit hHas hStatus
        obtain ⟨cu', hUnit', hCell'⟩ := hHas
        rw [hUnits] at hUnit'
        show (if i = id then some (func, arg) else s.asked i) = _
        split at hUnit'
        · rename_i hEq
          cases hUnit'
          rw [hCell] at hCell'
          cases hCell'
          rw [if_pos hEq, hFunc, hArg]
        · rename_i hNe
          rw [hCells i cu' hUnit'] at hCell'
          rw [if_neg hNe]
          exact hIdentity i unit ⟨cu', hUnit', hCell'⟩ hStatus
  | resume id =>
      obtain ⟨hMain, hLow, hHigh⟩ := hLegal
      obtain ⟨how, c', hResume, hInv', hKeeps, hStarted⟩ := crtResume_spec hInv hMain hLow hHigh
      refine ⟨.resumed how, { s with crt := c' }, ?_, ⟨hIdentity.keep hKeeps, ?_⟩, hInv'⟩
      · simp only [crtStep, hResume, Option.map_some]
      · intro unit hHas hInit
        exact ⟨unit.func, unit.arg, hIdentity _ unit hHas hInit, hStarted unit hHas hInit⟩
  | yield =>
      obtain ⟨c', hYield, hInv', hKeeps⟩ := crtYield_spec hInv hLegal
      refine ⟨.left, { s with crt := c' }, ?_, ⟨hIdentity.keep hKeeps, trivial⟩, hInv'⟩
      simp only [crtStep, hYield, Option.map_some]
  | finish =>
      obtain ⟨c', hFinish, hInv', hKeeps⟩ := crtFinish_spec hInv hLegal
      refine ⟨.left, { s with crt := c' }, ?_, ⟨hIdentity.keep hKeeps, trivial⟩, hInv'⟩
      simp only [crtStep, hFinish, Option.map_some]

end

/-- A new scheduler is in order. -/
theorem crtCreate_inv : Inv (crtCreate : CrtT F A) where
  capacity := (by decide : 0 < crtDefaultSize)
  count := by
    have hEmpty : (crtCreate : CrtT F A).live = ∅ := by
      ext id
      simp [crtCreate]
    rw [hEmpty]
    rfl
  bound := fun _ _ hNone => by cases hNone
  cell := fun _ _ hNone => by cases hNone
  inj := fun _ _ _ hNone => by cases hNone
  free := fun _ hMem => by cases hMem
  nodup := List.nodup_nil
  fresh := fun _ hNone => absurd rfl hNone
  main := fun _ => (by decide : (-1 : Int) < 0)
  runs := fun _ hNone => by cases hNone
  status := fun _ _ _ hNone => by cases hNone

/-- Along every run on a new scheduler, every coroutine runs what its id was created for when it is
first resumed if and only if no creation takes a unit from the list that has another function or
argument. -/
theorem crt_identity_iff {ops : List (CrtOp F A)}
    (hLegal : Along crtStep Legal ⟨crtCreate, fun _ => none⟩ ops) :
    Along crtStep (Does crtStep Good) ⟨crtCreate, fun _ => none⟩ ops ↔
      Along crtStep Meets ⟨crtCreate, fun _ => none⟩ ops := by
  have hInit : Inv (crtCreate : CrtT F A) ∧ Identity (⟨crtCreate, fun _ => none⟩ : State F A) :=
    ⟨crtCreate_inv, fun id unit ⟨cu, hNone, _⟩ => by cases hNone⟩
  apply along_iff_of_inv (fun s => Inv s.crt ∧ Identity s) _ _ hInit hLegal
  · intro s op ⟨hInv, hIdentity⟩ hLegal
    refine ⟨meets_of_good hInv, ?_⟩
    intro hMeets
    obtain ⟨result, s', hStep, hGood, -⟩ := crtStep_spec hInv hIdentity hLegal hMeets
    exact ⟨result, s', hStep, hGood⟩
  · intro s op result s' ⟨hInv, hIdentity⟩ hLegal hGood hStep
    obtain ⟨result₁, s₁, hStep₁, ⟨hIdentity₁, -⟩, hInv₁⟩ :=
      crtStep_spec hInv hIdentity hLegal (meets_of_good hInv hGood)
    rw [hStep₁] at hStep
    cases hStep
    exact ⟨hInv₁, hIdentity₁⟩

/-- Legality can be evaluated along a concrete run. -/
instance (s : State F A) : ∀ op, Decidable (Legal s op)
  | .new _ _ => inferInstanceAs (Decidable True)
  | .resume _ => inferInstanceAs (Decidable (_ ∧ _ ∧ _))
  | .yield => inferInstanceAs (Decidable (_ ≠ _))
  | .finish => inferInstanceAs (Decidable (_ ≠ _))

/-- One coroutine returns, and the next one is created in its unit. -/
def reuse : List (CrtOp Nat Nat) := [.new 1 10, .resume 0, .finish, .new 2 20, .resume 0]

/-- A coroutine is created again in its unit, with the same function and argument. -/
def again : List (CrtOp Nat Nat) := [.new 1 10, .resume 0, .finish, .new 1 10, .resume 0]

/-- The first run is a question of what the unit holds, and the second one is as it should be. -/
theorem crt_identity_reuse :
    (Along crtStep (Does crtStep Good) ⟨crtCreate, fun _ => none⟩ reuse ↔
      Along crtStep Meets ⟨crtCreate, fun _ => none⟩ reuse) ∧
      Along crtStep (Does crtStep Good) ⟨crtCreate, fun _ => none⟩ again := by
  refine ⟨crt_identity_iff (by decide), (crt_identity_iff (by decide)).mpr ?_⟩
  refine ⟨?_, fun _ _ hNew => ?_⟩
  · rintro _ _ hNone
    cases hNone
  cases hNew
  refine ⟨trivial, fun _ _ hResume => ?_⟩
  cases hResume
  refine ⟨trivial, fun _ _ hFinish => ?_⟩
  cases hFinish
  refine ⟨?_, fun _ _ _ => ⟨trivial, fun _ _ _ => trivial⟩⟩
  -- the unit on the list is the first coroutine's
  rintro _ _ hLast hCell
  cases hLast
  cases hCell
  exact ⟨rfl, rfl⟩

/-- The second coroutine runs the function of the first one with its argument. -/
theorem crt_reuse_runs_first :
    ((run crtStep ⟨crtCreate, fun _ => none⟩ reuse).map fun r => r.1) =
        some [.id 0, .resumed (.started 1 10), .left, .id 0, .resumed (.started 1 10)] ∧
      ¬ Along crtStep (Does crtStep Good) ⟨crtCreate, fun _ => none⟩ reuse := by
  refine ⟨rfl, ?_⟩
  intro hAlong
  obtain ⟨result, s', hStep, hIdentity, -⟩ := (((hAlong.tail rfl).tail rfl).tail rfl).head
  cases hStep
  have hAsked := hIdentity 0 _ ⟨0, rfl, rfl⟩ rfl
  cases hAsked

end Gbase.Core.Coroutine
