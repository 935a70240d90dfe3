import Gbase.Core.OsDef
import Gbase.Lib.Probing
import Gbase.Lib.Run
import Mathlib.Data.List.Nodup
import Mathlib.Logic.Function.Basic

/-!
# The id table (`base/idtable.c`)

A table of `count` nodes, searched from `id % count` on around its end up to the first node
that is not used.  A pointer is `Option α`, with `none` for `NULL`; the table itself is not
`NULL`, and its memory was allocated.

`idtable_remove` marks the node as not used, so a later search for an id that was put behind it
stops there.  The table is a finite map along a run exactly as long as no removal does this.

## Main results

* `idtableStep_sound_iff`: one call does what the finite map does if and only if it does not
  clear a node on the way to another entry.
* `idtable_refines_finite_map_iff`: the same over whole runs.
-/

namespace Gbase.Base.Idtable

open Gbase.Core.OsDef
open Gbase.Lib.Probing
open Gbase.Lib.Run

universe u

variable {α : Type u}

/-- `node_t` -/
structure NodeT (α : Type u) where
  -- <0 means not used
  id : Int
  ptr : Option α

/-- `idtable_t` -/
structure IdtableT (α : Type u) where
  table : Nat → NodeT α
  count : Nat

/-- `IDTS_INVALID_ID` -/
def invalidId : Int := -1

/-- `idtable_create`, with its assertion. -/
def idtableCreate (maxCount : Int) : Option (IdtableT α) :=
  if maxCount > 0 then
    some { table := fun _ => { id := invalidId, ptr := none }, count := maxCount.toNat }
  else none

/-- `id % table->count` -/
def IdtableT.index (table : IdtableT α) (id : Int) : Nat := (id.tmod table.count).toNat

def IdtableT.set (table : IdtableT α) (i : Nat) (node : NodeT α) : IdtableT α :=
  { table with table := Function.update table.table i node }

/-- `idtable_add` -/
def idtableAdd (table : IdtableT α) (id : Int) (ptr : Option α) : Option (Int × IdtableT α) :=
  if id < 0 ∨ ptr.isNone then some (-1, table)
  else do
    let index := table.index id
    let result ← doWhile table.count
      (fun i =>
        if invalidId ≠ (table.table i).id then none
        else some (table.set i { id := id, ptr := ptr }))
      index table.count index
    match result with
    | some table => return (0, table)
    | none => return (-1, table)

/-- `idtable_get` -/
def idtableGet (table : IdtableT α) (id : Int) : Option (Option α) :=
  if id < 0 then some none
  else do
    let index := table.index id
    let result ← doWhile table.count
      (fun i =>
        if (table.table i).id = id then some (table.table i).ptr
        else if invalidId = (table.table i).id then some none
        else none)
      index table.count index
    return result.getD none

/-- `idtable_remove` -/
def idtableRemove (table : IdtableT α) (id : Int) : Option (IdtableT α) :=
  if id < 0 then some table
  else do
    let index := table.index id
    let result ← doWhile table.count
      (fun i =>
        if invalidId = (table.table i).id then some table
        else if id = (table.table i).id then
          some (table.set i { id := invalidId, ptr := none })
        else none)
      index table.count index
    return result.getD table

/-- `idtable_cleanup` -/
def idtableCleanup (table : IdtableT α) : IdtableT α :=
  { table with table := fun i =>
      if i < table.count then { id := invalidId, ptr := none } else table.table i }

/-- The turns of the loop of `idtable_loop`. -/
def idtableTurns {σ : Type} (table : IdtableT α) (func : Option α → σ → Option (Int × σ)) :
    List Nat → σ → Option (Int × σ)
  | [], s => some (0, s)
  | i :: is, s =>
      if (table.table (i % table.count)).id ≠ invalidId then do
        let (ret, s) ← func (table.table (i % table.count)).ptr s
        if ret ≠ 0 then return (ret, s) else idtableTurns table func is s
      else idtableTurns table func is s

/-- `idtable_loop` with a function that works on a state.  A negative start leaves the memory. -/
def idtableLoop {σ : Type} (table : IdtableT α) (func : Option α → σ → Option (Int × σ))
    (start : Int) (s : σ) : Option (Int × σ) :=
  let start := (toInt (if start < 0 then -start else start)).tmod table.count
  if start < 0 then none
  else idtableTurns table func (List.range' start.toNat table.count) s

/-! ## Runs -/

/-- A table, and the finite map its calls should make of it. -/
structure State (α : Type u) where
  table : IdtableT α
  map : Int → Option α

inductive IdtableOp (α : Type u) where
  | add (id : Int) (ptr : Option α)
  | get (id : Int)
  | remove (id : Int)
  | cleanup

/-- What a call gives back. -/
inductive IdtableResult (α : Type u) where
  | status (code : Int)
  | ptr (ptr : Option α)
  | done

/-- One call; an addition enters the map when it succeeds. -/
def idtableStep : Step (State α) (IdtableOp α) (IdtableResult α)
  | s, .add id ptr =>
      (idtableAdd s.table id ptr).map fun r =>
        (.status r.1, ⟨r.2, if r.1 = 0 then Function.update s.map id ptr else s.map⟩)
  | s, .get id => (idtableGet s.table id).map fun ptr => (.ptr ptr, s)
  | s, .remove id =>
      (idtableRemove s.table id).map fun table => (.done, ⟨table, Function.update s.map id none⟩)
  | s, .cleanup => some (.done, ⟨idtableCleanup s.table, fun _ => none⟩)

/-- Ids that are added are not negative and not in the map. -/
def Legal (s : State α) : IdtableOp α → Prop
  | .add id _ => 0 ≤ id ∧ (s.map id).isNone
  | _ => True

instance (s : State α) (op : IdtableOp α) : Decidable (Legal s op) := by
  unfold Legal
  split <;> infer_instance

/-- There are as many entries as nodes. -/
def Full (table : IdtableT α) (map : Int → Option α) : Prop :=
  ∃ ids : List Int, ids.Nodup ∧ ids.length = table.count ∧ ∀ id, id ∈ ids → (map id).isSome

/-- What a call does is what the finite map does: afterwards each lookup gives what is in the
map, an addition only fails for `NULL` or in a full table, and a removal leaves the other
lookups as they were. -/
def Sound (s : State α) (op : IdtableOp α) (r : IdtableResult α) (s' : State α) : Prop :=
  (∀ id, idtableGet s'.table id = some (s'.map id)) ∧
    match op with
    | .add _ ptr =>
        ∃ code, r = .status code ∧ (code = 0 ∨ code = -1 ∧ (ptr = none ∨ Full s.table s.map))
    | .get id => r = .ptr (s.map id)
    | .remove id => ∀ id', id' ≠ id → idtableGet s'.table id' = idtableGet s.table id'
    | .cleanup => True

/-- A removal does not clear a node that the search for another entry passes. -/
def NoGap (s : State α) : IdtableOp α → Prop
  | .remove id => 0 ≤ id → ∀ i, i < s.table.count → (s.table.table i).id = id →
      ∀ j, j < s.table.count → ¬ ((s.table.table j).id ≠ invalidId ∧
        gap s.table.count (s.table.index (s.table.table j).id) i <
          gap s.table.count (s.table.index (s.table.table j).id) j)
  | _ => True

instance (s : State α) (op : IdtableOp α) : Decidable (NoGap s op) := by
  unfold NoGap
  split <;> infer_instance

/-! ## The invariant -/

/-- The entries of the map are the used nodes, and the search for each passes used nodes
only. -/
structure Inv (table : IdtableT α) (map : Int → Option α) : Prop where
  pos : 0 < table.count
  sign : ∀ i, i < table.count → (table.table i).id ≠ invalidId → 0 ≤ (table.table i).id
  held : ∀ id, 0 ≤ id → ∀ ptr, map id = some ptr ↔
    ∃ i, i < table.count ∧ (table.table i).id = id ∧ (table.table i).ptr = some ptr
  negative : ∀ id, id < 0 → map id = none
  ptr : ∀ i, i < table.count → (table.table i).id ≠ invalidId →
    (table.table i).ptr ≠ none
  unique : ∀ i, i < table.count → ∀ j, j < table.count →
    (table.table i).id ≠ invalidId → (table.table i).id = (table.table j).id → i = j
  reach : ∀ i, i < table.count → (table.table i).id ≠ invalidId →
    ∀ j, j < table.count →
      gap table.count (table.index (table.table i).id) j <
        gap table.count (table.index (table.table i).id) i →
      (table.table j).id ≠ invalidId

section

variable {table : IdtableT α} {map : Int → Option α} {id : Int} {ptr : Option α} {i : Nat}

theorem index_lt (table : IdtableT α) (hPos : 0 < table.count) (id : Int) (hId : 0 ≤ id) :
    table.index id < table.count := by
  have hLt := Int.tmod_lt_of_pos id (by omega : (0 : Int) < table.count)
  have hLow := Int.tmod_nonneg (table.count : Int) hId
  rw [IdtableT.index]
  omega

theorem ne_invalid (hId : 0 ≤ id) : id ≠ invalidId := by
  rw [invalidId]
  omega

/-- An id that is in no node is not in the map. -/
theorem Inv.map_none (h : Inv table map) (hId : 0 ≤ id)
    (hNone : ∀ i, i < table.count → (table.table i).id ≠ id) : map id = none := by
  cases hMap : map id with
  | none => rfl
  | some ptr =>
      obtain ⟨i, hi, hEq, -⟩ := (h.held id hId ptr).mp hMap
      exact absurd hEq (hNone i hi)

/-- The id of a node is in the map, with its pointer. -/
theorem Inv.map_some (h : Inv table map) (hi : i < table.count) (hId : 0 ≤ id)
    (hEq : (table.table i).id = id) :
    map id = (table.table i).ptr := by
  have hPtr := h.ptr i hi (by rw [hEq]; exact ne_invalid hId)
  obtain ⟨ptr, hSome⟩ := Option.ne_none_iff_exists'.mp hPtr
  rw [hSome]
  exact (h.held id hId ptr).mpr ⟨i, hi, hEq, hSome⟩

/-! ## Searches -/

/-- The search of `idtable_get`. -/
theorem idtableGet_eq (table : IdtableT α) (hPos : 0 < table.count) (hId : 0 ≤ id) :
    idtableGet table id = some (
      match scan table.count (fun i => (table.table i).id = id ∨ (table.table i).id = invalidId)
        (table.index id) with
      | some i => if (table.table i).id = id then (table.table i).ptr else none
      | none => none) := by
  have hLt := index_lt table hPos id hId
  rw [idtableGet, if_neg (by omega)]
  simp only [Option.bind_eq_bind]
  rw [doWhile_spec hLt]
  have hStop : (fun i => (if (table.table i).id = id then some (table.table i).ptr
      else if invalidId = (table.table i).id then some none else none).isSome) =
      fun i => decide ((table.table i).id = id ∨ (table.table i).id = invalidId) := by
    funext i
    by_cases hHere : (table.table i).id = id
    · simp [hHere]
    · by_cases hFree : invalidId = (table.table i).id
      · rw [if_neg hHere, if_pos hFree]
        simp [hFree.symm]
      · rw [if_neg hHere, if_neg hFree]
        simp [hHere, Ne.symm hFree]
  rw [hStop]
  cases hScan : scan table.count
      (fun i => decide ((table.table i).id = id ∨ (table.table i).id = invalidId))
      (table.index id) with
  | none => rfl
  | some i =>
      obtain ⟨-, hAt, -⟩ := (scan_eq_some hLt).mp hScan
      by_cases hHere : (table.table i).id = id
      · simp [hHere]
      · have hFree : (table.table i).id = invalidId := by simpa [hHere] using hAt
        simp only [Option.bind_some, if_neg hHere, if_pos hFree.symm]
        rfl

/-- Lookups give what is in the map. -/
theorem Inv.get (h : Inv table map) (id : Int) : idtableGet table id = some (map id) := by
  by_cases hId : id < 0
  · rw [idtableGet, if_pos hId, h.negative id hId]
  · have hId : 0 ≤ id := by omega
    have hLt := index_lt table h.pos id hId
    rw [idtableGet_eq table h.pos hId]
    cases hScan : scan table.count
        (fun i => decide ((table.table i).id = id ∨ (table.table i).id = invalidId))
        (table.index id) with
    | none =>
        have hAll := (scan_eq_none hLt).mp hScan
        rw [h.map_none hId]
        intro i hi hEq
        have hNot := hAll i hi
        simp [hEq] at hNot
    | some i =>
        obtain ⟨hi, hAt, hBefore⟩ := (scan_eq_some hLt).mp hScan
        by_cases hHere : (table.table i).id = id
        · simp only [if_pos hHere]
          rw [h.map_some hi hId hHere]
        · have hFree : (table.table i).id = invalidId := by simpa [hHere] using hAt
          simp only [if_neg hHere]
          rw [h.map_none hId]
          intro j hj hEq
          -- the search for `id` would have passed the node `i`, which is not used
          have hNe : (table.table j).id ≠ invalidId := by
            rw [hEq]
            exact ne_invalid hId
          have hReach := h.reach j hj hNe i hi
          rw [hEq] at hReach
          have hLate : ¬ gap table.count (table.index id) j <
              gap table.count (table.index id) i := by
            intro hLess
            have hNot := hBefore j hj hLess
            simp [hEq] at hNot
          have hDiff : gap table.count (table.index id) i ≠
              gap table.count (table.index id) j := by
            intro hSame
            have hSameNode := gap_inj hLt hi hj hSame
            rw [hSameNode] at hHere
            exact hHere hEq
          exact hReach (by omega) hFree

/-! ## The calls -/

/-- `idtable_add` looks for the first node that is not used. -/
theorem idtableAdd_eq (hPos : 0 < table.count) (hId : 0 ≤ id) (p : α) :
    idtableAdd table id (some p) = some (
      match scan table.count (fun i => (table.table i).id = invalidId) (table.index id) with
      | some i => (0, table.set i ⟨id, some p⟩)
      | none => (-1, table)) := by
  have hLt := index_lt table hPos id hId
  have hStop : (fun i => (if invalidId ≠ (table.table i).id then none
      else some (table.set i ⟨id, some p⟩)).isSome) =
      fun i => decide ((table.table i).id = invalidId) := by
    funext i
    by_cases hFree : (table.table i).id = invalidId
    · simp [hFree]
    · simp [hFree, Ne.symm hFree]
  rw [idtableAdd, if_neg (by simp [hId])]
  simp only [Option.bind_eq_bind]
  rw [doWhile_spec hLt, hStop]
  cases hScan : scan table.count (fun i => decide ((table.table i).id = invalidId))
      (table.index id) with
  | none => rfl
  | some i =>
      obtain ⟨-, hAt, -⟩ := (scan_eq_some hLt).mp hScan
      have hFree : (table.table i).id = invalidId := by simpa using hAt
      simp [hFree]

/-- A table whose nodes are all used is full. -/
theorem Inv.full (h : Inv table map)
    (hUsed : ∀ i, i < table.count → (table.table i).id ≠ invalidId) : Full table map := by
  refine ⟨(List.range table.count).map fun i => (table.table i).id, ?_, by simp, ?_⟩
  · apply List.Nodup.map_on _ List.nodup_range
    intro i hi j hj hEq
    rw [List.mem_range] at hi hj
    exact h.unique i hi j hj (hUsed i hi) hEq
  · intro id' hIn
    obtain ⟨i, hi, rfl⟩ := List.mem_map.mp hIn
    rw [List.mem_range] at hi
    rw [h.map_some hi (h.sign i hi (hUsed i hi)) rfl]
    exact Option.isSome_iff_ne_none.mpr (h.ptr i hi (hUsed i hi))

/-- A node that is not used is filled with a new id, whose search passes used nodes only. -/
theorem Inv.fill (h : Inv table map) (hId : 0 ≤ id) (hNew : map id = none) (p : α)
    (hi : i < table.count) (hFree : (table.table i).id = invalidId)
    (hBefore : ∀ j, j < table.count →
      gap table.count (table.index id) j < gap table.count (table.index id) i →
      (table.table j).id ≠ invalidId) :
    Inv (table.set i ⟨id, some p⟩) (Function.update map id (some p)) := by
  have hAbsent : ∀ j, j < table.count → (table.table j).id ≠ id := by
    intro j hj hEq
    have hSome := h.map_some hj hId hEq
    rw [hNew] at hSome
    exact h.ptr j hj (by rw [hEq]; exact ne_invalid hId) hSome.symm
  have hAtI : (table.set i ⟨id, some p⟩).table i = ⟨id, some p⟩ := Function.update_self _ _ _
  have hOther : ∀ j, j ≠ i → (table.set i ⟨id, some p⟩).table j = table.table j :=
    fun j hj => Function.update_of_ne hj _ _
  refine ⟨h.pos, ?_, ?_, ?_, ?_, ?_, ?_⟩
  · intro j hj hUsed
    by_cases hji : j = i
    · subst hji
      rw [hAtI]
      exact hId
    · rw [hOther j hji] at hUsed ⊢
      exact h.sign j hj hUsed
  · intro id' hId' ptr
    by_cases hSame : id' = id
    · subst hSame
      rw [Function.update_self]
      constructor
      · rintro ⟨⟩
        exact ⟨i, hi, by rw [hAtI], by rw [hAtI]⟩
      · rintro ⟨j, hj, hEq, hPtr⟩
        by_cases hji : j = i
        · subst hji
          rw [hAtI] at hPtr
          exact hPtr
        · rw [hOther j hji] at hEq
          exact absurd hEq (hAbsent j hj)
    · rw [Function.update_of_ne hSame, h.held id' hId' ptr]
      constructor
      · rintro ⟨j, hj, hEq, hPtr⟩
        have hji : j ≠ i := by
          rintro rfl
          exact ne_invalid hId' (hEq.symm.trans hFree)
        exact ⟨j, hj, by rw [hOther j hji]; exact hEq, by rw [hOther j hji]; exact hPtr⟩
      · rintro ⟨j, hj, hEq, hPtr⟩
        have hji : j ≠ i := by
          rintro rfl
          rw [hAtI] at hEq
          exact hSame hEq.symm
        rw [hOther j hji] at hEq hPtr
        exact ⟨j, hj, hEq, hPtr⟩
  · intro id' hNeg
    show Function.update map id (some p) id' = none
    rw [Function.update_of_ne (by omega)]
    exact h.negative id' hNeg
  · intro j hj hUsed
    by_cases hji : j = i
    · subst hji
      rw [hAtI]
      exact Option.some_ne_none p
    · rw [hOther j hji] at hUsed ⊢
      exact h.ptr j hj hUsed
  · intro j hj k hk hUsed hEq
    by_cases hji : j = i
    · by_cases hki : k = i
      · rw [hji, hki]
      · rw [hji, hAtI, hOther k hki] at hEq
        exact absurd hEq.symm (hAbsent k hk)
    · by_cases hki : k = i
      · rw [hki, hAtI, hOther j hji] at hEq
        exact absurd hEq (hAbsent j hj)
      · rw [hOther j hji, hOther k hki] at hEq
        rw [hOther j hji] at hUsed
        exact h.unique j hj k hk hUsed hEq
  · intro j hj hUsed k hk hLess
    by_cases hki : k = i
    · subst hki
      rw [hAtI]
      exact ne_invalid hId
    · rw [hOther k hki]
      by_cases hji : j = i
      · subst hji
        rw [hAtI] at hLess
        have hNot := hBefore k hk hLess
        simpa using hNot
      · rw [hOther j hji] at hUsed hLess
        exact h.reach j hj hUsed k hk hLess

/-- An addition fills the first node that is not used. -/
theorem Inv.add (h : Inv table map) (hId : 0 ≤ id) (hNew : map id = none) (p : α) :
    (∃ i, idtableAdd table id (some p) = some (0, table.set i ⟨id, some p⟩) ∧
      Inv (table.set i ⟨id, some p⟩) (Function.update map id (some p))) ∨
    idtableAdd table id (some p) = some (-1, table) ∧ Full table map := by
  have hLt := index_lt table h.pos id hId
  have hRun := idtableAdd_eq h.pos hId p
  cases hScan : scan table.count (fun i => decide ((table.table i).id = invalidId))
      (table.index id) with
  | none =>
      right
      simp only [hScan] at hRun
      have hAll := (scan_eq_none hLt).mp hScan
      exact ⟨hRun, h.full fun i hi => by simpa using hAll i hi⟩
  | some i =>
      left
      simp only [hScan] at hRun
      obtain ⟨hi, hAt, hBefore⟩ := (scan_eq_some hLt).mp hScan
      have hFree : (table.table i).id = invalidId := by simpa using hAt
      exact ⟨i, hRun, h.fill hId hNew p hi hFree fun j hj hLess => by
        simpa using hBefore j hj hLess⟩

/-- The loop ends at the first node at which the function does not return zero, if the function
changes nothing where it returns zero. -/
theorem idtableTurns_spec {σ : Type} {func : Option α → σ → Option (Int × σ)} {s : σ}
    {is : List Nat}
    (hFunc : ∀ i, i ∈ is → (table.table (i % table.count)).id ≠ invalidId →
      func (table.table (i % table.count)).ptr s = some (0, s) ∨
        ∃ ret t, ret ≠ 0 ∧ func (table.table (i % table.count)).ptr s = some (ret, t)) :
    (∃ i ret t, i ∈ is ∧ (table.table (i % table.count)).id ≠ invalidId ∧ ret ≠ 0 ∧
      func (table.table (i % table.count)).ptr s = some (ret, t) ∧
      idtableTurns table func is s = some (ret, t)) ∨
    (∀ i, i ∈ is → (table.table (i % table.count)).id ≠ invalidId →
      func (table.table (i % table.count)).ptr s = some (0, s)) ∧
      idtableTurns table func is s = some (0, s) := by
  induction is with
  | nil =>
      refine Or.inr ⟨?_, rfl⟩
      intro i hMem
      cases hMem
  | cons i is ih =>
      have hRest := ih fun j hj => hFunc j (List.mem_cons_of_mem i hj)
      -- if nothing happens at the first node
      have hGo : ((table.table (i % table.count)).id ≠ invalidId →
            func (table.table (i % table.count)).ptr s = some (0, s)) →
          idtableTurns table func (i :: is) s = idtableTurns table func is s := by
        intro hZero
        by_cases hUsed : (table.table (i % table.count)).id ≠ invalidId
        · rw [idtableTurns, if_pos hUsed, hZero hUsed]
          rfl
        · rw [idtableTurns, if_neg hUsed]
      by_cases hZero : (table.table (i % table.count)).id ≠ invalidId →
          func (table.table (i % table.count)).ptr s = some (0, s)
      · rw [hGo hZero]
        cases hRest with
        | inl hStop =>
            obtain ⟨j, ret, t, hj, hStop⟩ := hStop
            exact Or.inl ⟨j, ret, t, List.mem_cons_of_mem i hj, hStop⟩
        | inr hAll =>
            refine Or.inr ⟨?_, hAll.2⟩
            intro j hj
            cases hj with
            | head => exact hZero
            | tail _ hj => exact hAll.1 j hj
      · rw [Classical.not_imp] at hZero
        obtain ⟨ret, t, hRet, hDone⟩ :=
          (hFunc i List.mem_cons_self hZero.1).resolve_left hZero.2
        refine Or.inl ⟨i, ret, t, List.mem_cons_self, hZero.1, hRet, hDone, ?_⟩
        rw [idtableTurns, if_pos hZero.1, hDone]
        exact if_pos hRet

/-- From any start, the loop goes over all nodes; the number of nodes is a power of two, so the
start does not leave the memory even if its sign cannot be changed. -/
theorem idtableLoop_spec {σ : Type} {func : Option α → σ → Option (Int × σ)} {s : σ} {start : Int}
    (hCount : table.count = 64) (hLow : -2 ^ 31 ≤ start) (hHigh : start < 2 ^ 31)
    (hFunc : ∀ i, i < table.count → (table.table i).id ≠ invalidId →
      func (table.table i).ptr s = some (0, s) ∨
        ∃ ret t, ret ≠ 0 ∧ func (table.table i).ptr s = some (ret, t)) :
    (∃ i ret t, i < table.count ∧ (table.table i).id ≠ invalidId ∧ ret ≠ 0 ∧
      func (table.table i).ptr s = some (ret, t) ∧
      idtableLoop table func start s = some (ret, t)) ∨
    (∀ i, i < table.count → (table.table i).id ≠ invalidId →
      func (table.table i).ptr s = some (0, s)) ∧
      idtableLoop table func start s = some (0, s) := by
  have hMod : ∀ i, i % table.count < table.count := fun i => Nat.mod_lt i (by omega)
  have hSign : 0 ≤ toInt (if start < 0 then -start else start) ∨
      toInt (if start < 0 then -start else start) = -2 ^ 31 := by
    rw [toInt, Int.bmod]
    split <;> split <;> omega
  have hStart : ¬ (toInt (if start < 0 then -start else start)).tmod table.count < 0 := by
    rw [hCount]
    cases hSign with
    | inl hPos => exact not_lt_of_ge (Int.tmod_nonneg _ hPos)
    | inr hLeast =>
        rw [hLeast]
        decide
  have hLoop : idtableLoop table func start s = idtableTurns table func
      (List.range' ((toInt (if start < 0 then -start else start)).tmod table.count).toNat
        table.count) s :=
    if_neg hStart
  rw [hLoop]
  generalize ((toInt (if start < 0 then -start else start)).tmod table.count).toNat = first
  have hTurns := @idtableTurns_spec α table σ func s (List.range' first table.count)
    fun i _ => hFunc (i % table.count) (hMod i)
  cases hTurns with
  | inl hStop =>
      obtain ⟨i, ret, t, -, hStop⟩ := hStop
      exact Or.inl ⟨i % table.count, ret, t, hMod i, hStop⟩
  | inr hAll =>
      refine Or.inr ⟨?_, hAll.2⟩
      intro i hi
      have hFirst := hMod first
      have hIn : first + gap table.count (first % table.count) i ∈
          List.range' first table.count := by
        have hGap := gap_lt (by omega : 0 < table.count) (first % table.count) i
        rw [List.mem_range'_1]
        omega
      have hAt := step_gap hFirst hi
      rw [Nat.mod_add_mod] at hAt
      have hHere := hAll.1 _ hIn
      rwa [hAt] at hHere

/-- The search of `idtable_remove`. -/
theorem idtableRemove_eq (table : IdtableT α) (hPos : 0 < table.count) (hId : 0 ≤ id) :
    idtableRemove table id = some (
      match scan table.count (fun i => (table.table i).id = id ∨ (table.table i).id = invalidId)
        (table.index id) with
      | some i =>
          if (table.table i).id = id then table.set i { id := invalidId, ptr := none } else table
      | none => table) := by
  have hLt := index_lt table hPos id hId
  have hNe : invalidId ≠ id := (ne_invalid hId).symm
  rw [idtableRemove, if_neg (by omega)]
  simp only [Option.bind_eq_bind]
  rw [doWhile_spec hLt]
  have hStop : (fun i => (if invalidId = (table.table i).id then some table
      else if id = (table.table i).id then some (table.set i { id := invalidId, ptr := none })
      else none).isSome) =
      fun i => decide ((table.table i).id = id ∨ (table.table i).id = invalidId) := by
    funext i
    by_cases hFree : invalidId = (table.table i).id
    · rw [if_pos hFree]
      simp [hFree.symm]
    · by_cases hHere : id = (table.table i).id
      · rw [if_neg hFree, if_pos hHere]
        simp [hHere.symm]
      · rw [if_neg hFree, if_neg hHere]
        simp [Ne.symm hFree, Ne.symm hHere]
  rw [hStop]
  cases hScan : scan table.count
      (fun i => decide ((table.table i).id = id ∨ (table.table i).id = invalidId))
      (table.index id) with
  | none => rfl
  | some i =>
      obtain ⟨-, hAt, -⟩ := (scan_eq_some hLt).mp hScan
      by_cases hHere : (table.table i).id = id
      · simp only [Option.bind_some, hHere, if_neg hNe, if_true]
        rfl
      · have hFree : (table.table i).id = invalidId := by simpa [hHere] using hAt
        simp only [Option.bind_some, if_neg hHere, if_pos hFree.symm]
        rfl

/-- The search for an id in the map stops at its node. -/
theorem Inv.scan_held (h : Inv table map) (hId : 0 ≤ id) (hi : i < table.count)
    (hEq : (table.table i).id = id) :
    scan table.count (fun i => (table.table i).id = id ∨ (table.table i).id = invalidId)
      (table.index id) = some i := by
  have hLt := index_lt table h.pos id hId
  have hUsed : (table.table i).id ≠ invalidId := by
    rw [hEq]
    exact ne_invalid hId
  apply (scan_eq_some hLt).mpr
  refine ⟨hi, by simp [hEq], ?_⟩
  intro j hj hLess
  have hReach := h.reach i hi hUsed j hj
  rw [hEq] at hReach
  have hNot : (table.table j).id ≠ id := by
    intro hOther
    have hSame := h.unique i hi j hj hUsed (hEq.trans hOther.symm)
    rw [hSame] at hLess
    omega
  simp [hNot, hReach hLess]

/-- A removal finds the node of its id, if there is one. -/
theorem Inv.remove_cases (h : Inv table map) (hId : 0 ≤ id) :
    (∃ i, i < table.count ∧ (table.table i).id = id ∧
      idtableRemove table id = some (table.set i { id := invalidId, ptr := none })) ∨
    (∀ i, i < table.count → (table.table i).id ≠ id) ∧ idtableRemove table id = some table := by
  have hLt := index_lt table h.pos id hId
  have hRun := idtableRemove_eq table h.pos hId
  by_cases hHeld : ∃ i, i < table.count ∧ (table.table i).id = id
  · obtain ⟨i, hi, hEq⟩ := hHeld
    rw [h.scan_held hId hi hEq] at hRun
    exact Or.inl ⟨i, hi, hEq, by simpa only [if_pos hEq] using hRun⟩
  · right
    push Not at hHeld
    refine ⟨hHeld, ?_⟩
    rw [hRun]
    split
    · rename_i i hScan
      rw [if_neg (hHeld i ((scan_eq_some hLt).mp hScan).1)]
    · rfl

/-- A removal that no other search passes keeps the invariant. -/
theorem Inv.remove (h : Inv table map) (hi : i < table.count) (hId : 0 ≤ id)
    (hEq : (table.table i).id = id)
    (hGap : ∀ j, j < table.count → ¬ ((table.table j).id ≠ invalidId ∧
      gap table.count (table.index (table.table j).id) i <
        gap table.count (table.index (table.table j).id) j)) :
    Inv (table.set i { id := invalidId, ptr := none }) (Function.update map id none) := by
  have hAtI : (table.set i { id := invalidId, ptr := none }).table i = ⟨invalidId, none⟩ :=
    Function.update_self _ _ _
  have hOther : ∀ j, j ≠ i →
      (table.set i { id := invalidId, ptr := none }).table j = table.table j :=
    fun j hj => Function.update_of_ne hj _ _
  have hUsedI : (table.table i).id ≠ invalidId := by
    rw [hEq]
    exact ne_invalid hId
  have hNot : ∀ j, ((table.set i { id := invalidId, ptr := none }).table j).id ≠ invalidId →
      j ≠ i := by
    rintro j hUsed rfl
    exact hUsed (by rw [hAtI])
  refine ⟨h.pos, ?_, ?_, ?_, ?_, ?_, ?_⟩
  · intro j hj hUsed
    have hji := hNot j hUsed
    rw [hOther j hji] at hUsed ⊢
    exact h.sign j hj hUsed
  · intro id' hId' ptr
    by_cases hSame : id' = id
    · subst hSame
      rw [Function.update_self]
      constructor
      · rintro ⟨⟩
      · rintro ⟨j, hj, hEqJ, hPtr⟩
        by_cases hji : j = i
        · subst hji
          rw [hAtI] at hPtr
          cases hPtr
        · rw [hOther j hji] at hEqJ
          exact absurd (h.unique i hi j hj hUsedI (hEq.trans hEqJ.symm)) (Ne.symm hji)
    · rw [Function.update_of_ne hSame, h.held id' hId' ptr]
      constructor
      · rintro ⟨j, hj, hEqJ, hPtr⟩
        have hji : j ≠ i := by
          rintro rfl
          exact hSame (hEqJ.symm.trans hEq)
        exact ⟨j, hj, by rw [hOther j hji]; exact hEqJ, by rw [hOther j hji]; exact hPtr⟩
      · rintro ⟨j, hj, hEqJ, hPtr⟩
        have hji : j ≠ i := by
          rintro rfl
          rw [hAtI] at hEqJ
          exact ne_invalid hId' hEqJ.symm
        rw [hOther j hji] at hEqJ hPtr
        exact ⟨j, hj, hEqJ, hPtr⟩
  · intro id' hNeg
    rw [Function.update_of_ne (by omega)]
    exact h.negative id' hNeg
  · intro j hj hUsed
    have hji := hNot j hUsed
    rw [hOther j hji] at hUsed ⊢
    exact h.ptr j hj hUsed
  · intro j hj k hk hUsed hSame
    have hji := hNot j hUsed
    have hki := hNot k (by rw [← hSame]; exact hUsed)
    rw [hOther j hji, hOther k hki] at hSame
    rw [hOther j hji] at hUsed
    exact h.unique j hj k hk hUsed hSame
  · intro j hj hUsed k hk hLess
    have hji := hNot j hUsed
    rw [hOther j hji] at hUsed hLess
    by_cases hki : k = i
    · subst hki
      exact absurd ⟨hUsed, hLess⟩ (hGap j hj)
    · rw [hOther k hki]
      exact h.reach j hj hUsed k hk hLess

/-- A removal that another search passes hides that entry. -/
theorem Inv.remove_hides (h : Inv table map) (hi : i < table.count)
    (hEq : (table.table i).id = id) {j : Nat} (hj : j < table.count)
    (hUsed : (table.table j).id ≠ invalidId)
    (hLess : gap table.count (table.index (table.table j).id) i <
      gap table.count (table.index (table.table j).id) j) :
    (table.table j).id ≠ id ∧
      idtableGet (table.set i { id := invalidId, ptr := none }) (table.table j).id = some none ∧
      map (table.table j).id ≠ none := by
  have hIdJ := h.sign j hj hUsed
  have hLt := index_lt table h.pos (table.table j).id hIdJ
  have hji : j ≠ i := by
    rintro rfl
    omega
  have hNe : (table.table j).id ≠ id := fun hSame =>
    hji (h.unique j hj i hi hUsed (hSame.trans hEq.symm))
  refine ⟨hNe, ?_, by rw [h.map_some hj hIdJ rfl]; exact h.ptr j hj hUsed⟩
  have hAtI : (table.set i { id := invalidId, ptr := none }).table i = ⟨invalidId, none⟩ :=
    Function.update_self _ _ _
  have hOther : ∀ k, k ≠ i →
      (table.set i { id := invalidId, ptr := none }).table k = table.table k :=
    fun k hk => Function.update_of_ne hk _ _
  have hScan : scan table.count
      (fun k => ((table.set i { id := invalidId, ptr := none }).table k).id = (table.table j).id ∨
        ((table.set i { id := invalidId, ptr := none }).table k).id = invalidId)
      (table.index (table.table j).id) = some i := by
    apply (scan_eq_some hLt).mpr
    refine ⟨hi, by rw [hAtI]; simp, ?_⟩
    intro k hk hBefore
    have hki : k ≠ i := by
      rintro rfl
      omega
    have hReach := h.reach j hj hUsed k hk (by omega)
    have hDiff : (table.table k).id ≠ (table.table j).id := by
      intro hSame
      have hkj := h.unique k hk j hj hReach hSame
      rw [hkj] at hBefore
      omega
    rw [hOther k hki]
    simp [hReach, hDiff]
  have hGet := idtableGet_eq (table.set i { id := invalidId, ptr := none }) h.pos hIdJ
  have hSame : (table.set i { id := invalidId, ptr := none }).index (table.table j).id =
      table.index (table.table j).id := rfl
  have hCount : (table.set i { id := invalidId, ptr := none }).count = table.count := rfl
  rw [hSame, hCount, hScan] at hGet
  rw [hGet]
  simp only [hAtI, if_neg (ne_invalid hIdJ).symm]

theorem inv_empty (hPos : 0 < table.count)
    (hEmpty : ∀ i, i < table.count → table.table i = ⟨invalidId, none⟩) :
    Inv table (fun _ => none) := by
  have hNot : ∀ i, i < table.count → ¬ (table.table i).id ≠ invalidId := by
    intro i hi hUsed
    exact hUsed (by rw [hEmpty i hi])
  refine ⟨hPos, fun i hi hUsed => absurd hUsed (hNot i hi), ?_, fun _ _ => rfl,
    fun i hi hUsed => absurd hUsed (hNot i hi), fun i hi _ _ hUsed => absurd hUsed (hNot i hi),
    fun i hi hUsed => absurd hUsed (hNot i hi)⟩
  intro id hId ptr
  constructor
  · rintro ⟨⟩
  · rintro ⟨i, hi, -, hPtr⟩
    rw [hEmpty i hi] at hPtr
    cases hPtr

end

/-! ## One call -/

section

variable {s : State α} {op : IdtableOp α}

/-- What an operation does when it is sound: the invariant holds after it. -/
theorem idtableStep_spec (hInv : Inv s.table s.map) (hLegal : Legal s op) (hGap : NoGap s op) :
    ∃ r s', idtableStep s op = some (r, s') ∧ Sound s op r s' ∧ Inv s'.table s'.map := by
  cases op with
  | add id ptr =>
      obtain ⟨hId, hNew⟩ := hLegal
      rw [Option.isNone_iff_eq_none] at hNew
      cases ptr with
      | none =>
          have hRun : idtableAdd s.table id none = some (-1, s.table) := by simp [idtableAdd]
          refine ⟨.status (-1), s, by simp [idtableStep, hRun], ⟨fun id' => hInv.get id', ?_⟩, hInv⟩
          exact ⟨-1, rfl, Or.inr ⟨rfl, Or.inl rfl⟩⟩
      | some p =>
          cases hInv.add hId hNew p with
          | inl hDone =>
              obtain ⟨i, hRun, hInv'⟩ := hDone
              refine ⟨.status 0, _, by simp only [idtableStep, hRun]; rfl,
                ⟨fun id' => hInv'.get id', ?_⟩, hInv'⟩
              exact ⟨0, rfl, Or.inl rfl⟩
          | inr hFull =>
              refine ⟨.status (-1), s, by simp [idtableStep, hFull.1],
                ⟨fun id' => hInv.get id', ?_⟩, hInv⟩
              exact ⟨-1, rfl, Or.inr ⟨rfl, Or.inr hFull.2⟩⟩
  | get id =>
      exact ⟨.ptr (s.map id), s, by simp [idtableStep, hInv.get id],
        ⟨fun id' => hInv.get id', rfl⟩, hInv⟩
  | remove id =>
      by_cases hId : 0 ≤ id
      · cases hInv.remove_cases hId with
        | inl hHeld =>
            obtain ⟨i, hi, hEq, hRun⟩ := hHeld
            have hInv' := hInv.remove hi hId hEq (hGap hId i hi hEq)
            refine ⟨.done, _, by simp only [idtableStep, hRun]; rfl,
              ⟨fun id' => hInv'.get id', ?_⟩, hInv'⟩
            intro id' hNe
            rw [hInv'.get id', hInv.get id', Function.update_of_ne hNe]
        | inr hAbsent =>
            have hSame : Function.update s.map id none = s.map := by
              rw [← hInv.map_none hId hAbsent.1, Function.update_eq_self]
            have hInv' : Inv s.table (Function.update s.map id none) := by rwa [hSame]
            exact ⟨.done, ⟨s.table, Function.update s.map id none⟩,
              by simp only [idtableStep, hAbsent.2]; rfl,
              ⟨fun id' => hInv'.get id', fun _ _ => rfl⟩, hInv'⟩
      · have hSame : Function.update s.map id none = s.map := by
          rw [← hInv.negative id (by omega), Function.update_eq_self]
        have hInv' : Inv s.table (Function.update s.map id none) := by rwa [hSame]
        exact ⟨.done, ⟨s.table, Function.update s.map id none⟩,
          by simp only [idtableStep, idtableRemove, if_pos (by omega : id < 0)]; rfl,
          ⟨fun id' => hInv'.get id', fun _ _ => rfl⟩, hInv'⟩
  | cleanup =>
      have hInv' : Inv (idtableCleanup s.table) (fun _ => none) := by
        have hPos : 0 < (idtableCleanup s.table).count := hInv.pos
        apply inv_empty hPos
        intro i hi
        exact if_pos hi
      exact ⟨.done, _, rfl, ⟨fun id' => hInv'.get id', trivial⟩, hInv'⟩

/-- One call does what the finite map does if and only if it does not clear a node on the way
to another entry. -/
theorem idtableStep_sound_iff (hInv : Inv s.table s.map) (hLegal : Legal s op) :
    Does idtableStep Sound s op ↔ NoGap s op := by
  constructor
  · intro hDoes
    cases op with
    | remove id =>
        intro hId i hi hEq j hj hPassed
        obtain ⟨r, s', hStep, hGet, -⟩ := hDoes
        obtain ⟨hUsed, hLess⟩ := hPassed
        obtain ⟨hNe, hHidden, hMap⟩ := hInv.remove_hides hi hEq hj hUsed hLess
        have hRun : idtableRemove s.table id =
            some (s.table.set i { id := invalidId, ptr := none }) := by
          rw [idtableRemove_eq s.table hInv.pos hId, hInv.scan_held hId hi hEq]
          simp only [if_pos hEq]
        simp only [idtableStep, hRun, Option.map_some, Option.some.injEq, Prod.mk.injEq] at hStep
        obtain ⟨-, rfl⟩ := hStep
        have hLookup := hGet (s.table.table j).id
        simp only [hHidden, Function.update_of_ne hNe, Option.some.injEq] at hLookup
        exact hMap hLookup.symm
    | add id ptr => trivial
    | get id => trivial
    | cleanup => trivial
  · intro hGap
    obtain ⟨r, s', hStep, hSound, -⟩ := idtableStep_spec hInv hLegal hGap
    exact ⟨r, s', hStep, hSound⟩

end

/-! ## Whole runs -/

/-- From a new table, every call of a run does what the finite map does if and only if no
removal of the run clears a node on the way to another entry. -/
theorem idtable_refines_finite_map_iff {maxCount : Int} {table : IdtableT α}
    (hCreate : idtableCreate maxCount = some table) {ops : List (IdtableOp α)}
    (hLegal : Along idtableStep Legal ⟨table, fun _ => none⟩ ops) :
    Along idtableStep (Does idtableStep Sound) ⟨table, fun _ => none⟩ ops ↔
      Along idtableStep NoGap ⟨table, fun _ => none⟩ ops := by
  have hInit : Inv table (fun _ => none) := by
    rw [idtableCreate] at hCreate
    split at hCreate
    · cases hCreate
      apply inv_empty
      · show 0 < maxCount.toNat
        omega
      · intro i _
        rfl
    · cases hCreate
  apply along_iff_of_inv (fun s : State α => Inv s.table s.map) _ _ hInit hLegal
  · intro s op hInv hOp
    exact idtableStep_sound_iff hInv hOp
  · intro s op r s' hInv hOp hDoes hStep
    have hGap := (idtableStep_sound_iff hInv hOp).mp hDoes
    obtain ⟨r₁, s₁, hStep₁, -, hInv'⟩ := idtableStep_spec hInv hOp hGap
    rw [hStep₁] at hStep
    cases hStep
    exact hInv'

/-- A table of two nodes. -/
def smallTable : IdtableT Char := (idtableCreate 2).get (by decide)

/-- Two ids that share a node, of which the second is removed first. -/
theorem idtable_refines_finite_map_second_first :
    Along idtableStep (Does idtableStep Sound) ⟨smallTable, fun _ => none⟩
      [.add 0 (some 'a'), .add 2 (some 'b'), .get 2, .add 4 (some 'c'), .remove 2, .get 0,
        .remove 0, .add 2 (some 'd')] := by
  refine (@idtable_refines_finite_map_iff _ 2 _ (Option.some_get _).symm _ ?_).mpr ?_
  · decide
  · decide

/-- Removing the first of two ids that share a node: the other one is not found any more. -/
theorem idtable_removal_loses_entry :
    (run idtableStep ⟨smallTable, fun _ => none⟩
      [.add 0 (some 'a'), .add 2 (some 'b'), .remove 0, .get 2]).map Prod.fst =
      some [.status 0, .status 0, .done, .ptr none] ∧
    Along idtableStep Legal ⟨smallTable, fun _ => none⟩
      [.add 0 (some 'a'), .add 2 (some 'b'), .remove 0, .get 2] ∧
    ¬ Along idtableStep (Does idtableStep Sound) ⟨smallTable, fun _ => none⟩
      [.add 0 (some 'a'), .add 2 (some 'b'), .remove 0, .get 2] := by
  have hLegal : Along idtableStep Legal ⟨smallTable, fun _ => none⟩
      [.add 0 (some 'a'), .add 2 (some 'b'), .remove 0, .get 2] := by decide
  refine ⟨by rfl, hLegal, ?_⟩
  intro hAlong
  have hThird := ((hAlong.tail rfl).tail rfl).head
  obtain ⟨r, s', hStep, hGet, -⟩ := hThird
  have hOther := hGet 2
  cases hStep
  revert hOther
  decide

end Gbase.Base.Idtable
