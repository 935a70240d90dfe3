import Gbase.Base.Hash
import Gbase.Base.Idtable
import Gbase.Core.OsDef
import Gbase.Lib.Bytes
import Gbase.Lib.Run
import Mathlib.Data.List.Find

/-!
# The finite state machine (`core/fsm.c`)

Statuses and events lie in id tables, rules in a hash table under what they take in: status,
event and return code.  What a table points to never changes while it is in the table, so the
tables hold the statuses, events and rules themselves.  A handler gives its return code and does
not call the machine; of `enter` and `exit` it matters which are called.

The hash table takes a comparator that returns 0 for equal rules.  `_fsm_rule_cmp` returns 0
whenever the first rule is not less than the second, so in one bucket a larger rule passes for
an equal one.

## Main results

* `fsmStep_sound_iff`: one call does what the finite map of rules says if and only if no larger
  rule of the bucket takes the place of a missing one.
* `fsm_dispatch_iff`: the same over whole runs.
-/

namespace Gbase.Core.Fsm

open Gbase.Base.Hash
open Gbase.Base.Idtable
open Gbase.Core.OsDef
open Gbase.Lib.Bytes
open Gbase.Lib.Run

universe u

/-- `FSM_WILDCARD_STATUS` -/
def fsmWildcardStatus : Int := -1

/-- `FSM_OK` -/
def fsmOk : Int := 0

/-- `FSM_FAIL` -/
def fsmFail : Int := -1

/-- `FSM_EXISTED` -/
def fsmExisted : Int := -2

/-- `FSM_NOT_EXISTED` -/
def fsmNotExisted : Int := -3

/-- `FSM_FULL` -/
def fsmFull : Int := -4

/-- `fsm_status_t` -/
structure FsmStatusT (β : Type u) where
  id : Int
  enter : Option β
  exit : Option β

/-- `fsm_event_t` -/
structure FsmEventT (ω : Type u) where
  id : Int
  handle : ω → Int

/-- `fsm_rule_t::input` -/
structure FsmInputT where
  status : Int
  event : Int
  retCode : Int
  deriving DecidableEq

/-- `fsm_rule_t` -/
structure FsmRuleT where
  input : FsmInputT
  output : Int
  deriving DecidableEq

/-- `fsm_t` -/
structure FsmT (β ω : Type u) where
  current : Int
  size : Int
  statusCount : Int
  statusTable : IdtableT (FsmStatusT β)
  eventsCount : Int
  eventsTable : IdtableT (FsmEventT ω)
  rulesCount : Int
  rulesTable : HashT FsmRuleT

/-- The bytes of an `int`. -/
def intBytes (n : Int) : List UInt8 := leBytes 4 (toUint32 n)

/-- `_fsm_rule_hash` -/
def fsmRuleHash (rule : FsmRuleT) : UInt32 :=
  hashJhash (intBytes rule.input.status ++ intBytes rule.input.event ++ intBytes rule.input.retCode)

/-- The condition of `_fsm_rule_cmp`. -/
def FsmInputT.Less (a b : FsmInputT) : Prop :=
  a.status < b.status ∨
    a.status = b.status ∧ a.event < b.event ∨
    a.status = b.status ∧ a.event = b.event ∧ a.retCode < b.retCode

instance (a b : FsmInputT) : Decidable (a.Less b) := inferInstanceAs (Decidable (_ ∨ _ ∨ _))

/-- `_fsm_rule_cmp` -/
def fsmRuleCmp (rule₁ rule₂ : FsmRuleT) : Int := if rule₁.input.Less rule₂.input then 1 else 0

/-- `FSM_STATUS_SIZE` -/
def fsmStatusSize (size : Int) : Int := size

/-- `FSM_EVENTS_SIZE` -/
def fsmEventsSize (size : Int) : Int := size * (size - 1) / 2

/-- `FSM_RULES_SIZE` -/
def fsmRulesSize (size : Int) : Int := size * (size - 1) * 2

variable {β ω : Type u}

/-- `fsm_create`.  It is undefined when an `int` overflows or an assertion fails. -/
def fsmCreate (size : Int) : Option (Option (FsmT β ω)) :=
  if size ≤ 0 then some none
  else if fsmRulesSize size * 3 ≥ 2 ^ 31 then none
  else do
    let statusTable ← idtableCreate (fsmStatusSize size)
    let eventsTable ← idtableCreate (fsmEventsSize size)
    (hashCreate fsmRuleHash fsmRuleCmp (fsmRulesSize size * 3)).map fun rulesTable => some
      { current := fsmWildcardStatus, size := size, statusCount := 0, statusTable := statusTable,
        eventsCount := 0, eventsTable := eventsTable, rulesCount := 0, rulesTable := rulesTable }

/-- `fsm_register_status` -/
def fsmRegisterStatus (fsm : FsmT β ω) (status : Int) (enter exit : Option β) :
    Option (Int × FsmT β ω) :=
  if status ≤ 0 then some (fsmFail, fsm)
  else if fsm.statusCount ≥ fsmStatusSize fsm.size then some (fsmFull, fsm)
  else do
    let old ← idtableGet fsm.statusTable status
    if old.isSome then return (fsmExisted, fsm)
    else
      let st : FsmStatusT β := { id := status, enter := enter, exit := exit }
      let (ret, statusTable) ← idtableAdd fsm.statusTable st.id (some st)
      -- assert(ret == 0)
      if ret = 0 then
        return (fsmOk,
          { fsm with statusCount := fsm.statusCount + 1, statusTable := statusTable })
      else none

/-- `fsm_register_event` -/
def fsmRegisterEvent (fsm : FsmT β ω) (event : Int) (handle : ω → Int) :
    Option (Int × FsmT β ω) :=
  if event ≤ 0 then some (fsmFail, fsm)
  else if fsm.eventsCount ≥ fsmEventsSize fsm.size then some (fsmFull, fsm)
  else do
    let old ← idtableGet fsm.eventsTable event
    if old.isSome then return (fsmExisted, fsm)
    else
      let et : FsmEventT ω := { id := event, handle := handle }
      let (ret, eventsTable) ← idtableAdd fsm.eventsTable et.id (some et)
      -- assert(ret == 0)
      if ret = 0 then
        return (fsmOk,
          { fsm with eventsCount := fsm.eventsCount + 1, eventsTable := eventsTable })
      else none

/-- `fsm_register_rule` -/
def fsmRegisterRule (fsm : FsmT β ω) (event retCode fromStatus toStatus : Int) :
    Option (Int × FsmT β ω) :=
  if event < 0 ∨ (fromStatus < 0 ∧ fromStatus ≠ fsmWildcardStatus) ∨
      (toStatus < 0 ∧ toStatus ≠ fsmWildcardStatus) then some (fsmFail, fsm)
  else if fsm.rulesCount ≥ fsmRulesSize fsm.size then some (fsmFull, fsm)
  else do
    let et ← idtableGet fsm.eventsTable event
    let fromSt ← idtableGet fsm.statusTable fromStatus
    let toSt ← idtableGet fsm.statusTable toStatus
    if et.isNone then return (fsmNotExisted, fsm)
    else if (fromStatus ≠ fsmWildcardStatus ∧ fromSt.isNone) ∨
        (toStatus ≠ fsmWildcardStatus ∧ toSt.isNone) then return (fsmNotExisted, fsm)
    else
      let rule : FsmRuleT := { input := ⟨fromStatus, event, retCode⟩, output := toStatus }
      let (ret, rulesTable) := hashInsert fsm.rulesTable (some rule)
      if ret < 0 then return (fsmExisted, fsm)
      else
        return (fsmOk, { fsm with rulesCount := fsm.rulesCount + 1, rulesTable := rulesTable })

/-- `fsm_start` -/
def fsmStart (fsm : FsmT β ω) (status : Int) : Option (Int × FsmT β ω) := do
  let st ← idtableGet fsm.statusTable status
  if st.isNone then return (fsmFail, fsm)
  else return (fsmOk, { fsm with current := status })

/-- `fsm_trigger`, with the functions of the statuses that it calls. -/
def fsmTrigger (fsm : FsmT β ω) (event : Int) (args : ω) : Option (Int × List β × FsmT β ω) := do
  let ev ← idtableGet fsm.eventsTable event
  match ev with
  | none => return (fsmNotExisted, [], fsm)
  | some ev =>
      let retCode := ev.handle args
      let tmp : FsmRuleT := { input := ⟨fsm.current, event, retCode⟩, output := 0 }
      let wildcard : FsmRuleT := { input := ⟨fsmWildcardStatus, event, retCode⟩, output := 0 }
      let found :=
        match hashFind fsm.rulesTable (some tmp) with
        | some rule => some rule
        | none => hashFind fsm.rulesTable (some wildcard)
      match found with
      | none => return (fsmNotExisted, [], fsm)
      | some rule =>
          if rule.output = fsm.current ∨ rule.output = fsmWildcardStatus then
            return (fsmOk, [], fsm)
          else
            -- assert(st), before and after
            let old ← (← idtableGet fsm.statusTable fsm.current)
            let new ← (← idtableGet fsm.statusTable rule.output)
            return (fsmOk, old.exit.toList ++ new.enter.toList,
              { fsm with current := rule.output })

/-! ## Runs -/

/-- A machine, and the finite map of the rules that were registered. -/
structure State (β ω : Type u) where
  fsm : FsmT β ω
  rules : FsmInputT → Option Int

inductive FsmOp (β ω : Type u) where
  | status (status : Int) (enter exit : Option β)
  | event (event : Int) (handle : ω → Int)
  | rule (event retCode fromStatus toStatus : Int)
  | start (status : Int)
  | trigger (event : Int) (args : ω)

/-- One call, with its return value and the functions of the statuses it calls. -/
def fsmStep : Step (State β ω) (FsmOp β ω) (Int × List β)
  | s, .status status enter exit =>
      (fsmRegisterStatus s.fsm status enter exit).map fun (code, fsm) =>
        ((code, []), { s with fsm := fsm })
  | s, .event event handle =>
      (fsmRegisterEvent s.fsm event handle).map fun (code, fsm) =>
        ((code, []), { s with fsm := fsm })
  | s, .rule event retCode fromStatus toStatus =>
      (fsmRegisterRule s.fsm event retCode fromStatus toStatus).map fun (code, fsm) =>
        ((code, []), ⟨fsm, if code = fsmOk then
          Function.update s.rules ⟨fromStatus, event, retCode⟩ (some toStatus) else s.rules⟩)
  | s, .start status =>
      (fsmStart s.fsm status).map fun (code, fsm) => ((code, []), { s with fsm := fsm })
  | s, .trigger event args =>
      (fsmTrigger s.fsm event args).map fun (code, called, fsm) =>
        ((code, called), { s with fsm := fsm })

/-- The table has an entry for the id. -/
def Registered {α : Type u} (table : IdtableT α) (id : Int) : Prop :=
  ∃ entry, idtableGet table id = some (some entry)

/-- The checks of `fsm_register_rule` pass and there is room. -/
def Admitted (fsm : FsmT β ω) (event fromStatus toStatus : Int) : Prop :=
  0 ≤ event ∧ fsm.rulesCount < fsmRulesSize fsm.size ∧ Registered fsm.eventsTable event ∧
    (fromStatus = fsmWildcardStatus ∨ Registered fsm.statusTable fromStatus) ∧
    (toStatus = fsmWildcardStatus ∨ Registered fsm.statusTable toStatus)

/-- What the rules say for an event: the rule of the status comes before that of every status. -/
def State.output (s : State β ω) (event retCode : Int) : Option Int :=
  match s.rules ⟨s.fsm.current, event, retCode⟩ with
  | some output => some output
  | none => s.rules ⟨fsmWildcardStatus, event, retCode⟩

/-- The status a rule leads to. -/
def next (current output : Int) : Int := if output = fsmWildcardStatus then current else output

/-- A call does what the finite map says. -/
def Sound (s : State β ω) (op : FsmOp β ω) (r : Int × List β) (s' : State β ω) : Prop :=
  match op with
  | .rule event retCode fromStatus toStatus =>
      Admitted s.fsm event fromStatus toStatus →
        (r.1 = fsmExisted ↔ (s.rules ⟨fromStatus, event, retCode⟩).isSome) ∧
        (r.1 = fsmOk ∨ r.1 = fsmExisted ∧ s' = s)
  | .trigger event args =>
      ∀ ev, idtableGet s.fsm.eventsTable event = some (some ev) →
        match s.output event (ev.handle args) with
        | some output =>
            r.1 = fsmOk ∧ s'.fsm = { s.fsm with current := next s.fsm.current output }
        | none => r.1 = fsmNotExisted ∧ s' = s
  | _ => True

/-- The first rule of the key's bucket that is larger than the key. -/
def larger (fsm : FsmT β ω) (key : FsmInputT) : Option FsmRuleT :=
  (fsm.rulesTable.chain ⟨key, 0⟩).find? fun rule => key.Less rule.input

/-- The machine was started, or the rule keeps the status. -/
def Started (fsm : FsmT β ω) (output : Int) : Prop :=
  fsm.current ≠ fsmWildcardStatus ∨ output = fsmWildcardStatus

/-- From the output registered for the status and the larger rule there, and the same for every
status: the event is led where the map says. -/
def LedRight (fsm : FsmT β ω) :
    Option Int → Option FsmRuleT → Option Int → Option FsmRuleT → Prop
  | some output, _, _, _ => Started fsm output
  | none, some rule, some output, _ => next fsm.current rule.output = next fsm.current output
  | none, some _, none, _ => False
  | none, none, some output, _ => Started fsm output
  | none, none, none, rule => rule = none

/-- No larger rule takes the place of a rule that is not registered: a new rule finds none in its
bucket, and an event finds none in the buckets it looks in, unless it leads to the same status. -/
def NotMisled (s : State β ω) : FsmOp β ω → Prop
  | .rule event retCode fromStatus toStatus =>
      Admitted s.fsm event fromStatus toStatus →
        s.rules ⟨fromStatus, event, retCode⟩ = none →
          larger s.fsm ⟨fromStatus, event, retCode⟩ = none
  | .trigger event args =>
      ∀ ev, idtableGet s.fsm.eventsTable event = some (some ev) →
        LedRight s.fsm (s.rules ⟨s.fsm.current, event, ev.handle args⟩)
          (larger s.fsm ⟨s.fsm.current, event, ev.handle args⟩)
          (s.rules ⟨fsmWildcardStatus, event, ev.handle args⟩)
          (larger s.fsm ⟨fsmWildcardStatus, event, ev.handle args⟩)
  | _ => True

/-! ## The tables of statuses and events -/

/-- An id table of `size` nodes from which nothing was removed, with `count` entries. -/
def Filled {α : Type u} (table : IdtableT α) (count size : Int) : Prop :=
  ∃ (map : Int → Option α) (ids : List Int), Gbase.Base.Idtable.Inv table map ∧
      (table.count : Int) = size ∧
    ids.length = count ∧ ∀ id, (map id).isSome → id ∈ ids

section

variable {α : Type u} {table : IdtableT α} {count size id : Int}

theorem Filled.get (h : Filled table count size) (id : Int) :
    ∃ entry, idtableGet table id = some entry := by
  obtain ⟨map, -, hInv, -⟩ := h
  exact ⟨map id, hInv.get id⟩

theorem Filled.get_none (h : Filled table count size) (hNot : ¬ Registered table id) :
    idtableGet table id = some none := by
  obtain ⟨entry, hGet⟩ := h.get id
  cases entry with
  | none => exact hGet
  | some entry => exact absurd ⟨entry, hGet⟩ hNot

theorem Filled.not_negative (h : Filled table count size) (hReg : Registered table id) :
    0 ≤ id := by
  obtain ⟨map, -, hInv, -⟩ := h
  obtain ⟨entry, hGet⟩ := hReg
  by_contra hNeg
  rw [hInv.get id, hInv.negative id (by omega)] at hGet
  cases hGet

/-- With room left, a new id is added. -/
theorem Filled.add (h : Filled table count size) (hRoom : count < size) (hId : 0 ≤ id)
    (hNew : idtableGet table id = some none) (entry : α) :
    ∃ table', idtableAdd table id (some entry) = some (0, table') ∧
      Filled table' (count + 1) size ∧
      ∀ id', idtableGet table' id' =
        if id' = id then some (some entry) else idtableGet table id' := by
  obtain ⟨map, ids, hInv, hSize, hCount, hIds⟩ := h
  have hMap : map id = none := by
    rw [hInv.get id] at hNew
    exact Option.some.inj hNew
  cases hInv.add hId hMap entry with
  | inl hAdd =>
      obtain ⟨i, hRun, hInv'⟩ := hAdd
      refine ⟨_, hRun, ⟨_, id :: ids, hInv', hSize, ?_, ?_⟩, ?_⟩
      · rw [List.length_cons]
        omega
      · intro id' hSome
        by_cases hSame : id' = id
        · exact hSame ▸ List.mem_cons_self
        · rw [Function.update_of_ne hSame] at hSome
          exact List.mem_cons_of_mem id (hIds id' hSome)
      · intro id'
        rw [hInv'.get id']
        by_cases hSame : id' = id
        · rw [hSame, Function.update_self, if_pos rfl]
        · rw [Function.update_of_ne hSame, if_neg hSame, hInv.get id']
  | inr hFull =>
      -- a full table has more entries than were ever added
      obtain ⟨-, ids', hNodup, hLength, hAll⟩ := hFull
      have hSub : ids' ⊆ ids := fun id' hIn => hIds id' (hAll id' hIn)
      have hLe := List.Nodup.length_le_of_subset hNodup hSub
      omega

/-- A new entry leaves the others registered. -/
theorem Registered.add {table' : IdtableT α} {entry : α}
    (hGet : ∀ id', idtableGet table' id' =
      if id' = id then some (some entry) else idtableGet table id')
    {id' : Int} (hReg : Registered table id') : Registered table' id' := by
  rw [Registered, hGet id']
  split
  · exact ⟨entry, rfl⟩
  · exact hReg

end

/-! ## The table of rules -/

section

variable {a b key : FsmInputT}

theorem FsmInputT.trichotomy (a b : FsmInputT) : a.Less b ∨ a = b ∨ b.Less a := by
  obtain ⟨s₁, e₁, r₁⟩ := a
  obtain ⟨s₂, e₂, r₂⟩ := b
  simp only [FsmInputT.Less, FsmInputT.mk.injEq]
  omega

theorem FsmInputT.Less.asymm (h : a.Less b) : ¬ b.Less a := by
  rw [FsmInputT.Less] at h ⊢
  omega

/-- The comparator of the table answers 0 for a rule with the key itself and for a larger one. -/
theorem not_less_iff : ¬ a.Less b ↔ a = b ∨ b.Less a := by
  constructor
  · intro hNot
    exact (a.trichotomy b).resolve_left hNot
  · rintro (rfl | hLess) hLess'
    · exact hLess'.asymm hLess'
    · exact hLess.asymm hLess'

theorem fsmRuleCmp_eq (rule₁ rule₂ : FsmRuleT) :
    (fsmRuleCmp rule₁ rule₂ == 0) = !decide (rule₁.input.Less rule₂.input) := by
  rw [fsmRuleCmp]
  by_cases hLess : rule₁.input.Less rule₂.input
  · simp [hLess]
  · simp [hLess]

/-- The rules of a bucket stand in their order, and are those of the finite map. -/
structure Dispatch (table : HashT FsmRuleT) (rules : FsmInputT → Option Int) : Prop where
  size : 0 < table.mSize
  hash : table.mHashFunc = fsmRuleHash
  cmp : table.mCmpFunc = fsmRuleCmp
  bucket : ∀ i, i < table.mSize → ∀ rule, rule ∈ table.mTable i → table.index rule = i
  sorted : ∀ i, i < table.mSize → (table.mTable i).Pairwise fun a b => a.input.Less b.input
  entry : ∀ key output, rules key = some output ↔ ⟨key, output⟩ ∈ table.chain ⟨key, 0⟩

variable {table : HashT FsmRuleT} {rules : FsmInputT → Option Int} {output : Int}

theorem Dispatch.index_lt (h : Dispatch table rules) (rule : FsmRuleT) :
    table.index rule < table.mSize :=
  Nat.mod_lt _ h.size

/-- Which bucket a rule goes to does not depend on its output. -/
theorem Dispatch.index_eq (h : Dispatch table rules) (output output' : Int) :
    table.index ⟨key, output⟩ = table.index ⟨key, output'⟩ := by
  rw [HashT.index, HashT.index, h.hash]
  rfl

/-- The search for a key in a chain. -/
theorem Dispatch.find_eq (h : Dispatch table rules) :
    hashFind table (some ⟨key, 0⟩) =
      (table.chain ⟨key, 0⟩).find? fun rule => !decide (rule.input.Less key) := by
  rw [hashFind, h.cmp]
  simp only [fsmRuleCmp_eq]

/-- A rule that is registered is found. -/
theorem Dispatch.find_some (h : Dispatch table rules) (hRule : rules key = some output) :
    hashFind table (some ⟨key, 0⟩) = some ⟨key, output⟩ := by
  have hIn := (h.entry key output).mp hRule
  have hSorted := h.sorted _ (h.index_lt ⟨key, 0⟩)
  rw [h.find_eq]
  rw [HashT.chain] at hIn ⊢
  revert hIn hSorted
  generalize table.mTable (table.index ⟨key, 0⟩) = chain
  intro hIn hSorted
  induction chain with
  | nil => exact absurd hIn List.not_mem_nil
  | cons rule chain ih =>
      rw [List.pairwise_cons] at hSorted
      cases List.mem_cons.mp hIn with
      | inl hHead =>
          subst hHead
          have hIrrefl : ¬ key.Less key := not_less_iff.mpr (Or.inl rfl)
          simp [hIrrefl]
      | inr hRest =>
          have hLess : rule.input.Less key := hSorted.1 _ hRest
          rw [List.find?_cons_of_neg (by simp [hLess])]
          exact ih hRest hSorted.2

/-- Every rule of a chain is one of the finite map. -/
theorem Dispatch.of_chain (h : Dispatch table rules) {rule : FsmRuleT}
    (hIn : rule ∈ table.chain ⟨key, 0⟩) : rules rule.input = some rule.output := by
  have hBucket := h.bucket _ (h.index_lt ⟨key, 0⟩) rule hIn
  have hIndex := @Dispatch.index_eq rule.input table rules h 0 rule.output
  rw [h.entry, HashT.chain, hIndex]
  show rule ∈ table.mTable (table.index rule)
  rw [hBucket]
  exact hIn

theorem Dispatch.input_ne (h : Dispatch table rules) (hRule : rules key = none) {rule : FsmRuleT}
    (hIn : rule ∈ table.chain ⟨key, 0⟩) : rule.input ≠ key := by
  rintro rfl
  have hSome := (h.entry rule.input rule.output).mpr hIn
  rw [hRule] at hSome
  cases hSome

/-- Instead of a rule that is not registered, the first larger one is found. -/
theorem Dispatch.find_none (h : Dispatch table rules) (hRule : rules key = none) :
    hashFind table (some ⟨key, 0⟩) =
      (table.chain ⟨key, 0⟩).find? fun rule => key.Less rule.input := by
  rw [h.find_eq]
  apply List.find?_congr
  intro rule hIn
  have hNe := h.input_ne hRule hIn
  by_cases hLess : key.Less rule.input
  · simp [hLess, hLess.asymm]
  · have hLess' := ((rule.input.trichotomy key).resolve_right (by simp [hNe, hLess]))
    simp [hLess, hLess']

/-- The search for a rule that is not less. -/
theorem Dispatch.insert_eq (h : Dispatch table rules) :
    hashInsert table (some ⟨key, output⟩) =
      if (table.chain ⟨key, 0⟩).all fun rule => rule.input.Less key then
        (0, { table.setTable (table.index ⟨key, 0⟩) (table.chain ⟨key, 0⟩ ++ [⟨key, output⟩]) with
          mCount := table.mCount + 1 })
      else (-1, table) := by
  have hIndex := @Dispatch.index_eq key table rules h output 0
  have hAny : ((table.chain ⟨key, 0⟩).any fun e => table.mCmpFunc e ⟨key, output⟩ == 0) =
      !(table.chain ⟨key, 0⟩).all fun rule => rule.input.Less key := by
    rw [h.cmp, List.not_all_eq_any_not]
    simp only [fsmRuleCmp_eq]
  rw [hashInsert, HashT.chain, hIndex, ← HashT.chain, hAny]
  cases (table.chain ⟨key, 0⟩).all fun rule => rule.input.Less key with
  | true => rfl
  | false => rfl

/-- A rule with a key that is registered is not inserted. -/
theorem Dispatch.insert_some (h : Dispatch table rules) {old : Int} (hRule : rules key = some old) :
    hashInsert table (some ⟨key, output⟩) = (-1, table) := by
  have hIn := (h.entry key old).mp hRule
  rw [h.insert_eq, if_neg]
  rw [List.all_eq_true]
  intro hAll
  have hLess := hAll _ hIn
  simp only [decide_eq_true_eq] at hLess
  exact hLess.asymm hLess

/-- Nor is one with a new key, if there is a larger rule in its bucket. -/
theorem Dispatch.insert_larger (h : Dispatch table rules) {rule : FsmRuleT}
    (hLarger : (table.chain ⟨key, 0⟩).find? (fun rule => key.Less rule.input) = some rule) :
    hashInsert table (some ⟨key, output⟩) = (-1, table) := by
  have hIn := List.mem_of_find?_eq_some hLarger
  have hLess := List.find?_some hLarger
  rw [h.insert_eq, if_neg]
  rw [List.all_eq_true]
  intro hAll
  have hLess' := hAll _ hIn
  simp only [decide_eq_true_eq] at hLess hLess'
  exact hLess.asymm hLess'

/-- Otherwise it is put behind its chain. -/
theorem Dispatch.insert_none (h : Dispatch table rules) (hRule : rules key = none)
    (hLarger : (table.chain ⟨key, 0⟩).find? (fun rule => key.Less rule.input) = none) :
    ∃ table', hashInsert table (some ⟨key, output⟩) = (0, table') ∧
      Dispatch table' (Function.update rules key (some output)) := by
  have hAll : ∀ rule, rule ∈ table.chain ⟨key, 0⟩ → rule.input.Less key := by
    intro rule hIn
    have hNot := List.find?_eq_none.mp hLarger rule hIn
    simp only [decide_eq_true_eq] at hNot
    have hNe := h.input_ne hRule hIn
    exact ((rule.input.trichotomy key).resolve_right (by simp [hNe, hNot]))
  have hIndex := @Dispatch.index_eq key table rules h output 0
  have hLt := h.index_lt ⟨key, 0⟩
  refine ⟨_, by rw [h.insert_eq, if_pos (by simpa using hAll)], ?_⟩
  have hAt : ∀ i, (table.setTable (table.index ⟨key, 0⟩)
      (table.chain ⟨key, 0⟩ ++ [⟨key, output⟩])).mTable i =
        if i = table.index ⟨key, 0⟩ then table.chain ⟨key, 0⟩ ++ [⟨key, output⟩]
        else table.mTable i := fun i => rfl
  exact {
    size := h.size
    hash := h.hash
    cmp := h.cmp
    bucket := by
      intro i hi rule hIn
      have hIn' : rule ∈ (table.setTable (table.index ⟨key, 0⟩)
        (table.chain ⟨key, 0⟩ ++ [⟨key, output⟩])).mTable i := hIn
      rw [hAt] at hIn'
      show table.index rule = i
      by_cases hHere : i = table.index ⟨key, 0⟩
      · rw [if_pos hHere] at hIn'
        cases List.mem_append.mp hIn' with
        | inl hOld => exact (h.bucket _ hLt rule hOld).trans hHere.symm
        | inr hNew => rw [List.mem_singleton.mp hNew, hIndex, hHere]
      · rw [if_neg hHere] at hIn'
        exact h.bucket i hi rule hIn'
    sorted := by
      intro i hi
      show List.Pairwise _ ((table.setTable (table.index ⟨key, 0⟩)
        (table.chain ⟨key, 0⟩ ++ [⟨key, output⟩])).mTable i)
      rw [hAt]
      by_cases hHere : i = table.index ⟨key, 0⟩
      · rw [if_pos hHere, List.pairwise_append]
        refine ⟨h.sorted _ hLt, List.pairwise_singleton _ _, ?_⟩
        intro rule hIn rule' hIn'
        rw [List.mem_singleton.mp hIn']
        exact hAll rule hIn
      · rw [if_neg hHere]
        exact h.sorted i hi
    entry := by
      intro key' output'
      show Function.update rules key (some output) key' = some output' ↔
        (⟨key', output'⟩ : FsmRuleT) ∈ (table.setTable (table.index ⟨key, 0⟩)
          (table.chain ⟨key, 0⟩ ++ [⟨key, output⟩])).mTable (table.index ⟨key', 0⟩)
      rw [hAt]
      by_cases hSame : key' = key
      · subst hSame
        rw [Function.update_self, if_pos rfl, List.mem_append, List.mem_singleton, ← h.entry, hRule]
        simp [eq_comm]
      · rw [Function.update_of_ne hSame]
        by_cases hHere : table.index ⟨key', 0⟩ = table.index ⟨key, 0⟩
        · rw [if_pos hHere, List.mem_append, List.mem_singleton, h.entry, HashT.chain, hHere]
          simp [hSame]
          rfl
        · rw [if_neg hHere, h.entry]
          rfl }

end

/-! ## The calls -/

/-- What every reachable machine satisfies. -/
structure Inv (s : State β ω) : Prop where
  status : Filled s.fsm.statusTable s.fsm.statusCount (fsmStatusSize s.fsm.size)
  events : Filled s.fsm.eventsTable s.fsm.eventsCount (fsmEventsSize s.fsm.size)
  rules : Dispatch s.fsm.rulesTable s.rules
  current : s.fsm.current = fsmWildcardStatus ∨ Registered s.fsm.statusTable s.fsm.current
  output : ∀ key output, s.rules key = some output →
    output = fsmWildcardStatus ∨ Registered s.fsm.statusTable output

section

variable {s : State β ω}

/-- `fsm_register_status` refuses, or adds a new entry; the insertion does not fail. -/
theorem Inv.registerStatus_cases (h : Inv s) (status : Int) (enter exit : Option β) :
    (∃ code, code ≠ fsmOk ∧ fsmRegisterStatus s.fsm status enter exit = some (code, s.fsm)) ∨
      ∃ table', idtableGet s.fsm.statusTable status = some none ∧
        Filled table' (s.fsm.statusCount + 1) (fsmStatusSize s.fsm.size) ∧
        (∀ id, idtableGet table' id =
          if id = status then some (some ⟨status, enter, exit⟩)
          else idtableGet s.fsm.statusTable id) ∧
        fsmRegisterStatus s.fsm status enter exit = some (fsmOk, { s.fsm with
          statusCount := s.fsm.statusCount + 1, statusTable := table' }) := by
  by_cases hFail : status ≤ 0
  · exact Or.inl ⟨fsmFail, by decide, by rw [fsmRegisterStatus, if_pos hFail]⟩
  by_cases hFull : s.fsm.statusCount ≥ fsmStatusSize s.fsm.size
  · exact Or.inl ⟨fsmFull, by decide, by rw [fsmRegisterStatus, if_neg hFail, if_pos hFull]⟩
  obtain ⟨old, hOld⟩ := h.status.get status
  cases old with
  | some old =>
      refine Or.inl ⟨fsmExisted, by decide, ?_⟩
      simp only [fsmRegisterStatus, if_neg hFail, if_neg hFull, hOld]
      rfl
  | none =>
      obtain ⟨table', hAdd, hFilled, hGet⟩ :=
        h.status.add (by omega) (by omega) hOld ⟨status, enter, exit⟩
      refine Or.inr ⟨table', hOld, hFilled, hGet, ?_⟩
      simp only [fsmRegisterStatus, if_neg hFail, if_neg hFull, hOld, Option.bind_eq_bind,
        Option.bind_some, hAdd]
      rfl

/-- `fsm_register_status` -/
theorem Inv.registerStatus (h : Inv s) (status : Int) (enter exit : Option β) :
    ∃ r s', fsmStep s (.status status enter exit) = some (r, s') ∧ Inv s' := by
  rcases h.registerStatus_cases status enter exit with
    ⟨code, -, hCall⟩ | ⟨table', -, hFilled, hGet, hCall⟩
  · exact ⟨(code, []), s, by simp only [fsmStep, hCall]; rfl, h⟩
  · refine ⟨(fsmOk, []), ⟨{ s.fsm with
      statusCount := s.fsm.statusCount + 1, statusTable := table' }, s.rules⟩, ?_, ?_⟩
    · simp only [fsmStep, hCall]
      rfl
    · exact {
        status := hFilled
        events := h.events
        rules := h.rules
        current := h.current.imp_right (Registered.add hGet)
        output := fun key output hRule =>
          (h.output key output hRule).imp_right (Registered.add hGet) }

/-- `fsm_register_event` -/
theorem Inv.registerEvent (h : Inv s) (event : Int) (handle : ω → Int) :
    ∃ r s', fsmStep s (.event event handle) = some (r, s') ∧ Inv s' := by
  by_cases hFail : event ≤ 0
  · exact ⟨(fsmFail, []), s, by simp only [fsmStep, fsmRegisterEvent, if_pos hFail]; rfl, h⟩
  by_cases hFull : s.fsm.eventsCount ≥ fsmEventsSize s.fsm.size
  · exact ⟨(fsmFull, []), s,
      by simp only [fsmStep, fsmRegisterEvent, if_neg hFail, if_pos hFull]; rfl, h⟩
  obtain ⟨old, hOld⟩ := h.events.get event
  cases old with
  | some old =>
      refine ⟨(fsmExisted, []), s, ?_, h⟩
      simp only [fsmStep, fsmRegisterEvent, if_neg hFail, if_neg hFull, hOld]
      rfl
  | none =>
      obtain ⟨table', hAdd, hFilled, -⟩ :=
        h.events.add (by omega) (by omega) hOld ⟨event, handle⟩
      refine ⟨(fsmOk, []), ⟨{ s.fsm with
        eventsCount := s.fsm.eventsCount + 1, eventsTable := table' }, s.rules⟩, ?_, ?_⟩
      · simp only [fsmStep, fsmRegisterEvent, if_neg hFail, if_neg hFull, hOld,
          Option.bind_eq_bind, Option.bind_some, hAdd]
        rfl
      · exact { h with events := hFilled }

/-- `fsm_start` -/
theorem Inv.start (h : Inv s) (status : Int) :
    ∃ r s', fsmStep s (.start status) = some (r, s') ∧ Inv s' := by
  obtain ⟨st, hGet⟩ := h.status.get status
  cases st with
  | none =>
      refine ⟨(fsmFail, []), s, ?_, h⟩
      simp only [fsmStep, fsmStart, hGet]
      rfl
  | some st =>
      refine ⟨(fsmOk, []), ⟨{ s.fsm with current := status }, s.rules⟩, ?_, ?_⟩
      · simp only [fsmStep, fsmStart, hGet]
        rfl
      · exact { h with current := Or.inr ⟨st, hGet⟩ }

variable {event retCode fromStatus toStatus : Int}

/-- `fsm_register_rule` changes nothing unless its checks pass. -/
theorem Inv.registerRule_not_admitted (h : Inv s)
    (hNot : ¬ Admitted s.fsm event fromStatus toStatus) :
    ∃ code, code ≠ fsmOk ∧
      fsmRegisterRule s.fsm event retCode fromStatus toStatus = some (code, s.fsm) := by
  by_cases hFail : event < 0 ∨ (fromStatus < 0 ∧ fromStatus ≠ fsmWildcardStatus) ∨
      (toStatus < 0 ∧ toStatus ≠ fsmWildcardStatus)
  · exact ⟨fsmFail, by decide, by rw [fsmRegisterRule, if_pos hFail]⟩
  by_cases hFull : s.fsm.rulesCount ≥ fsmRulesSize s.fsm.size
  · exact ⟨fsmFull, by decide, by rw [fsmRegisterRule, if_neg hFail, if_pos hFull]⟩
  refine ⟨fsmNotExisted, by decide, ?_⟩
  obtain ⟨et, hEvent⟩ := h.events.get event
  obtain ⟨fromSt, hFrom⟩ := h.status.get fromStatus
  obtain ⟨toSt, hTo⟩ := h.status.get toStatus
  rw [fsmRegisterRule, if_neg hFail, if_neg hFull]
  simp only [hEvent, hFrom, hTo, Option.bind_eq_bind, Option.bind_some]
  cases et with
  | none => rfl
  | some et =>
      rw [if_neg (by simp), if_pos]
      · rfl
      by_contra hReg
      apply hNot
      refine ⟨by omega, by omega, ⟨et, hEvent⟩, ?_, ?_⟩
      · by_contra hMissing
        rw [not_or] at hMissing
        apply hReg
        refine Or.inl ⟨hMissing.1, ?_⟩
        cases fromSt with
        | none => rfl
        | some st => exact absurd ⟨st, hFrom⟩ hMissing.2
      · by_contra hMissing
        rw [not_or] at hMissing
        apply hReg
        refine Or.inr ⟨hMissing.1, ?_⟩
        cases toSt with
        | none => rfl
        | some st => exact absurd ⟨st, hTo⟩ hMissing.2

/-- Otherwise the table of rules decides. -/
theorem Inv.registerRule_admitted (h : Inv s) (hAdm : Admitted s.fsm event fromStatus toStatus) :
    fsmRegisterRule s.fsm event retCode fromStatus toStatus =
      match hashInsert s.fsm.rulesTable (some ⟨⟨fromStatus, event, retCode⟩, toStatus⟩) with
      | (ret, table) =>
          if ret < 0 then some (fsmExisted, s.fsm)
          else some (fsmOk, { s.fsm with
            rulesCount := s.fsm.rulesCount + 1, rulesTable := table }) := by
  obtain ⟨hEvent, hRoom, ⟨et, hGetEvent⟩, hFrom, hTo⟩ := hAdm
  obtain ⟨fromSt, hGetFrom⟩ := h.status.get fromStatus
  obtain ⟨toSt, hGetTo⟩ := h.status.get toStatus
  have hKnown : ∀ {status st}, idtableGet s.fsm.statusTable status = some st →
      (status = fsmWildcardStatus ∨ Registered s.fsm.statusTable status) →
        ¬ (status ≠ fsmWildcardStatus ∧ st.isNone) ∧
          ¬ (status < 0 ∧ status ≠ fsmWildcardStatus) := by
    intro status st hGet hCase
    cases hCase with
    | inl hWild => exact ⟨fun hBoth => hBoth.1 hWild, fun hBoth => hBoth.2 hWild⟩
    | inr hReg =>
        have hPos := h.status.not_negative hReg
        obtain ⟨entry, hGet'⟩ := hReg
        rw [hGet] at hGet'
        cases hGet'
        exact ⟨by simp, by omega⟩
  obtain ⟨hFrom₁, hFrom₂⟩ := hKnown hGetFrom hFrom
  obtain ⟨hTo₁, hTo₂⟩ := hKnown hGetTo hTo
  have hPass : ¬ (event < 0 ∨ (fromStatus < 0 ∧ fromStatus ≠ fsmWildcardStatus) ∨
      (toStatus < 0 ∧ toStatus ≠ fsmWildcardStatus)) := by
    rintro (hNeg | hBad | hBad)
    · omega
    · exact hFrom₂ hBad
    · exact hTo₂ hBad
  rw [fsmRegisterRule, if_neg hPass, if_neg (by omega)]
  simp only [hGetEvent, hGetFrom, hGetTo, Option.bind_eq_bind, Option.bind_some]
  rw [if_neg (by simp), if_neg (by rintro (hBad | hBad); exact hFrom₁ hBad; exact hTo₁ hBad)]
  rfl

/-- `fsm_register_rule` keeps the invariant, and does what the map says if and only if no larger
rule takes the place of a missing one. -/
theorem Inv.registerRule (h : Inv s) :
    ∃ r s', fsmStep s (.rule event retCode fromStatus toStatus) = some (r, s') ∧ Inv s' ∧
      (Sound s (.rule event retCode fromStatus toStatus) r s' ↔
        NotMisled s (.rule event retCode fromStatus toStatus)) := by
  by_cases hAdm : Admitted s.fsm event fromStatus toStatus
  · have hCall := @Inv.registerRule_admitted _ _ s event retCode fromStatus toStatus h hAdm
    cases hRule : s.rules ⟨fromStatus, event, retCode⟩ with
    | some old =>
        rw [h.rules.insert_some hRule] at hCall
        refine ⟨(fsmExisted, []), s, by simp only [fsmStep, hCall]; rfl, h, ?_⟩
        have hSound : Sound s (.rule event retCode fromStatus toStatus) (fsmExisted, []) s :=
          fun _ => ⟨by simp [hRule], Or.inr ⟨rfl, rfl⟩⟩
        have hNot : NotMisled s (.rule event retCode fromStatus toStatus) := by
          intro _ hNone
          rw [hRule] at hNone
          cases hNone
        exact iff_of_true hSound hNot
    | none =>
        cases hLarger : larger s.fsm ⟨fromStatus, event, retCode⟩ with
        | some rule =>
            rw [h.rules.insert_larger hLarger] at hCall
            refine ⟨(fsmExisted, []), s, by simp only [fsmStep, hCall]; rfl, h, ?_⟩
            have hSound :
                ¬ Sound s (.rule event retCode fromStatus toStatus) (fsmExisted, []) s := by
              intro hDoes
              have hSome := (hDoes hAdm).1.mp rfl
              rw [hRule] at hSome
              cases hSome
            have hNot : ¬ NotMisled s (.rule event retCode fromStatus toStatus) := by
              intro hClear
              have hNone := hClear hAdm hRule
              rw [hLarger] at hNone
              cases hNone
            exact iff_of_false hSound hNot
        | none =>
            obtain ⟨table', hInsert, hDispatch⟩ := h.rules.insert_none hRule hLarger
            rw [hInsert] at hCall
            refine ⟨(fsmOk, []), _, by simp only [fsmStep, hCall]; rfl, ?_, ?_⟩
            · exact {
                status := h.status
                events := h.events
                rules := hDispatch
                current := h.current
                output := by
                  intro key output hUpdated
                  by_cases hSame : key = ⟨fromStatus, event, retCode⟩
                  · subst hSame
                    have hNew : Function.update s.rules ⟨fromStatus, event, retCode⟩
                        (some toStatus) ⟨fromStatus, event, retCode⟩ = some output := hUpdated
                    rw [Function.update_self] at hNew
                    cases hNew
                    exact hAdm.2.2.2.2
                  · have hOld : Function.update s.rules ⟨fromStatus, event, retCode⟩
                        (some toStatus) key = some output := hUpdated
                    rw [Function.update_of_ne hSame] at hOld
                    exact h.output key output hOld }
            · refine iff_of_true (fun _ => ⟨?_, Or.inl rfl⟩) (fun _ _ => hLarger)
              rw [hRule]
              exact iff_of_false (show ¬ fsmOk = fsmExisted by decide) (by simp)
  · obtain ⟨code, hCode, hCall⟩ :=
      @Inv.registerRule_not_admitted _ _ s event retCode fromStatus toStatus h hAdm
    refine ⟨(code, []), s, by simp only [fsmStep, hCall, Option.map_some, if_neg hCode], h, ?_⟩
    exact iff_of_true (fun hYes => absurd hYes hAdm) (fun hYes => absurd hYes hAdm)

/-- The rule that `fsm_trigger` finds in the table. -/
def found (fsm : FsmT β ω) (event retCode : Int) : Option FsmRuleT :=
  match hashFind fsm.rulesTable (some ⟨⟨fsm.current, event, retCode⟩, 0⟩) with
  | some rule => some rule
  | none => hashFind fsm.rulesTable (some ⟨⟨fsmWildcardStatus, event, retCode⟩, 0⟩)

variable {args : ω} {ev : FsmEventT ω} {rule : FsmRuleT}

/-- The functions called on the way to a status: none when the machine is in it already, and
otherwise the exit of the status it is in and then the enter of the new one. -/
def Crosses (fsm : FsmT β ω) (status : Int) (called : List β) : Prop :=
  (status = fsm.current ∧ called = []) ∨
    (status ≠ fsm.current ∧ ∃ old new,
      idtableGet fsm.statusTable fsm.current = some (some old) ∧
        idtableGet fsm.statusTable status = some (some new) ∧
        called = old.exit.toList ++ new.enter.toList)

/-- A rule that was found is followed, unless the machine has no status to leave. -/
theorem Inv.follow (h : Inv s) (hEvent : idtableGet s.fsm.eventsTable event = some (some ev))
    (hFound : found s.fsm event (ev.handle args) = some rule)
    (hOut : rule.output = fsmWildcardStatus ∨ Registered s.fsm.statusTable rule.output) :
    (Started s.fsm rule.output → ∃ called,
      Crosses s.fsm (next s.fsm.current rule.output) called ∧
      fsmTrigger s.fsm event args =
        some (fsmOk, called, { s.fsm with current := next s.fsm.current rule.output })) ∧
    (¬ Started s.fsm rule.output → fsmTrigger s.fsm event args = none) := by
  have hFound' := hFound
  rw [found] at hFound'
  by_cases hKeep : rule.output = s.fsm.current ∨ rule.output = fsmWildcardStatus
  · have hNext : next s.fsm.current rule.output = s.fsm.current := by
      rw [next]
      split
      · rfl
      · exact hKeep.resolve_right ‹_›
    refine ⟨fun _ => ⟨[], Or.inl ⟨hNext, rfl⟩, ?_⟩, fun hNot => ?_⟩
    · simp only [fsmTrigger, hEvent, Option.bind_eq_bind, Option.bind_some, hFound', if_pos hKeep,
        hNext]
      rfl
    · exfalso
      apply hNot
      cases hKeep with
      | inl hSame =>
          by_cases hWild : s.fsm.current = fsmWildcardStatus
          · exact Or.inr (hSame.trans hWild)
          · exact Or.inl hWild
      | inr hWild => exact Or.inr hWild
  · have hWild : ¬ rule.output = fsmWildcardStatus := fun hWild => hKeep (Or.inr hWild)
    obtain ⟨new, hNew⟩ := hOut.resolve_left hWild
    refine ⟨fun hStarted => ?_, fun hNot => ?_⟩
    · obtain ⟨old, hOld⟩ := h.current.resolve_left (hStarted.resolve_right hWild)
      refine ⟨old.exit.toList ++ new.enter.toList, Or.inr ?_, ?_⟩
      · rw [next, if_neg hWild]
        exact ⟨fun hSame => hKeep (Or.inl hSame), old, new, hOld, hNew, rfl⟩
      simp only [fsmTrigger, hEvent, Option.bind_eq_bind, Option.bind_some, hFound', if_neg hKeep,
        hOld, hNew, next, if_neg hWild]
      rfl
    · rw [Started, not_or, not_not] at hNot
      have hOld : idtableGet s.fsm.statusTable s.fsm.current = some none := by
        apply h.status.get_none
        intro hReg
        have hPos := h.status.not_negative hReg
        rw [hNot.1, fsmWildcardStatus] at hPos
        omega
      simp only [fsmTrigger, hEvent, Option.bind_eq_bind, Option.bind_some, hFound', if_neg hKeep,
        hOld]
      rfl

/-- The machine with the status that a rule leads to. -/
def State.move (s : State β ω) (output : Int) : State β ω :=
  { s with fsm := { s.fsm with current := next s.fsm.current output } }

theorem Inv.move (h : Inv s) {output : Int}
    (hOut : output = fsmWildcardStatus ∨ Registered s.fsm.statusTable output) :
    Inv (s.move output) where
  status := h.status
  events := h.events
  rules := h.rules
  current := by
    show next s.fsm.current output = _ ∨ Registered s.fsm.statusTable (next s.fsm.current output)
    rw [next]
    split
    · exact h.current
    · exact hOut
  output := h.output

/-- A call that is defined does what the map says if its result does, and leads where it leads. -/
theorem sound_iff_of_step {op : FsmOp β ω} {r : Int × List β} {s' : State β ω} {good : Prop}
    (hStep : fsmStep s op = some (r, s')) (hInv' : Inv s') (hIff : Sound s op r s' ↔ good) :
    (Does fsmStep Sound s op ↔ good) ∧ ∀ r s', fsmStep s op = some (r, s') → Inv s' := by
  refine ⟨(does_iff hStep).trans hIff, ?_⟩
  intro r₁ s₁ hStep₁
  rw [hStep] at hStep₁
  cases hStep₁
  exact hInv'

/-- An event for which a rule is found does what the map says exactly when the map has a rule
too, and it leads to the same status. -/
theorem Inv.trigger_some (h : Inv s) (hEvent : idtableGet s.fsm.eventsTable event = some (some ev))
    (hFound : found s.fsm event (ev.handle args) = some rule)
    (hOut : rule.output = fsmWildcardStatus ∨ Registered s.fsm.statusTable rule.output) :
    (Does fsmStep Sound s (.trigger event args) ↔
      Started s.fsm rule.output ∧ ∃ output, s.output event (ev.handle args) = some output ∧
        next s.fsm.current rule.output = next s.fsm.current output) ∧
    ∀ r s', fsmStep s (.trigger event args) = some (r, s') → Inv s' := by
  obtain ⟨hMove, hStuck⟩ := h.follow hEvent hFound hOut
  by_cases hStarted : Started s.fsm rule.output
  · obtain ⟨called, -, hCall⟩ := hMove hStarted
    have hStep : fsmStep s (.trigger event args) =
        some ((fsmOk, called), s.move rule.output) := by
      simp only [fsmStep, hCall]
      rfl
    refine sound_iff_of_step hStep (h.move hOut) ?_
    constructor
    · intro hSound
      have hAt := hSound ev hEvent
      refine ⟨hStarted, ?_⟩
      cases hOutput : s.output event (ev.handle args) with
      | none =>
          rw [hOutput] at hAt
          exact absurd hAt.1 (show ¬ fsmOk = fsmNotExisted by decide)
      | some output =>
          rw [hOutput] at hAt
          exact ⟨output, rfl, congrArg FsmT.current hAt.2⟩
    · rintro ⟨-, output, hOutput, hSame⟩ ev' hEvent'
      rw [hEvent] at hEvent'
      cases hEvent'
      rw [hOutput]
      refine ⟨rfl, ?_⟩
      show { s.fsm with current := next s.fsm.current rule.output } = _
      rw [hSame]
  · have hStep : fsmStep s (.trigger event args) = none := by
      simp only [fsmStep, hStuck hStarted]
      rfl
    refine ⟨iff_of_false (not_does hStep) fun hBoth => hStarted hBoth.1, ?_⟩
    intro r s' hStep'
    rw [hStep] at hStep'
    cases hStep'

/-- An event for which no rule is found leaves the machine as it is. -/
theorem Inv.trigger_none (hEvent : idtableGet s.fsm.eventsTable event = some (some ev))
    (hFound : found s.fsm event (ev.handle args) = none) :
    fsmStep s (.trigger event args) = some ((fsmNotExisted, []), s) := by
  have hFound' := hFound
  rw [found] at hFound'
  simp only [fsmStep, fsmTrigger, hEvent, Option.bind_eq_bind, Option.bind_some, hFound']
  rfl

/-- The condition for an event that is registered. -/
theorem notMisled_iff (hEvent : idtableGet s.fsm.eventsTable event = some (some ev)) :
    NotMisled s (.trigger event args) ↔
      LedRight s.fsm (s.rules ⟨s.fsm.current, event, ev.handle args⟩)
        (larger s.fsm ⟨s.fsm.current, event, ev.handle args⟩)
        (s.rules ⟨fsmWildcardStatus, event, ev.handle args⟩)
        (larger s.fsm ⟨fsmWildcardStatus, event, ev.handle args⟩) := by
  constructor
  · intro hAll
    exact hAll ev hEvent
  · intro hThis ev' hEvent'
    rw [hEvent] at hEvent'
    cases hEvent'
    exact hThis

/-- An event that is not registered leads nowhere. -/
theorem Inv.trigger_unknown (h : Inv s) (hEvent : idtableGet s.fsm.eventsTable event = some none) :
    (Does fsmStep Sound s (.trigger event args) ↔ NotMisled s (.trigger event args)) ∧
      ∀ r s', fsmStep s (.trigger event args) = some (r, s') → Inv s' := by
  have hStep : fsmStep s (.trigger event args) = some ((fsmNotExisted, []), s) := by
    simp only [fsmStep, fsmTrigger, hEvent]
    rfl
  refine sound_iff_of_step hStep h (iff_of_true ?_ ?_)
  · intro ev hEvent'
    rw [hEvent] at hEvent'
    cases hEvent'
  · intro ev hEvent'
    rw [hEvent] at hEvent'
    cases hEvent'

/-- An event with a rule for the status. -/
theorem Inv.trigger_exact (h : Inv s) (hEvent : idtableGet s.fsm.eventsTable event = some (some ev))
    {output : Int} (hExact : s.rules ⟨s.fsm.current, event, ev.handle args⟩ = some output) :
    (Does fsmStep Sound s (.trigger event args) ↔ NotMisled s (.trigger event args)) ∧
      ∀ r s', fsmStep s (.trigger event args) = some (r, s') → Inv s' := by
  have hFound : found s.fsm event (ev.handle args) =
      some ⟨⟨s.fsm.current, event, ev.handle args⟩, output⟩ := by
    rw [found, h.rules.find_some hExact]
  have hOutput : s.output event (ev.handle args) = some output := by
    rw [State.output, hExact]
  obtain ⟨hIff, hKeep⟩ := h.trigger_some hEvent hFound (h.output _ _ hExact)
  rw [notMisled_iff hEvent, hExact]
  refine ⟨hIff.trans ?_, hKeep⟩
  exact ⟨fun hBoth => hBoth.1, fun hStarted => ⟨hStarted, output, hOutput, rfl⟩⟩

/-- An event without a rule for the status, where a larger rule stands in its bucket. -/
theorem Inv.trigger_larger (h : Inv s)
    (hEvent : idtableGet s.fsm.eventsTable event = some (some ev))
    (hExact : s.rules ⟨s.fsm.current, event, ev.handle args⟩ = none)
    (hLarger : larger s.fsm ⟨s.fsm.current, event, ev.handle args⟩ = some rule) :
    (Does fsmStep Sound s (.trigger event args) ↔ NotMisled s (.trigger event args)) ∧
      ∀ r s', fsmStep s (.trigger event args) = some (r, s') → Inv s' := by
  have hFind : hashFind s.fsm.rulesTable
      (some ⟨⟨s.fsm.current, event, ev.handle args⟩, 0⟩) = some rule :=
    (h.rules.find_none hExact).trans hLarger
  have hFound : found s.fsm event (ev.handle args) = some rule := by
    rw [found, hFind]
  have hOutput : s.output event (ev.handle args) =
      s.rules ⟨fsmWildcardStatus, event, ev.handle args⟩ := by
    rw [State.output, hExact]
  have hRule := h.rules.of_chain (List.mem_of_find?_eq_some hLarger)
  obtain ⟨hIff, hKeep⟩ := h.trigger_some hEvent hFound (h.output _ _ hRule)
  rw [notMisled_iff hEvent, hExact, hLarger]
  refine ⟨hIff.trans ?_, hKeep⟩
  rw [hOutput]
  cases hWild : s.rules ⟨fsmWildcardStatus, event, ev.handle args⟩ with
  | none =>
      refine iff_of_false ?_ id
      rintro ⟨-, output, hSome, -⟩
      cases hSome
  | some output =>
      have hCurrent : s.fsm.current ≠ fsmWildcardStatus := by
        intro hSame
        rw [hSame, hWild] at hExact
        cases hExact
      constructor
      · rintro ⟨-, output', hSome, hNext⟩
        cases hSome
        exact hNext
      · intro hNext
        exact ⟨Or.inl hCurrent, output, rfl, hNext⟩

/-- An event that is looked up for every status. -/
theorem Inv.trigger_wildcard (h : Inv s)
    (hEvent : idtableGet s.fsm.eventsTable event = some (some ev))
    (hExact : s.rules ⟨s.fsm.current, event, ev.handle args⟩ = none)
    (hLarger : larger s.fsm ⟨s.fsm.current, event, ev.handle args⟩ = none) :
    (Does fsmStep Sound s (.trigger event args) ↔ NotMisled s (.trigger event args)) ∧
      ∀ r s', fsmStep s (.trigger event args) = some (r, s') → Inv s' := by
  have hFind : hashFind s.fsm.rulesTable
      (some ⟨⟨s.fsm.current, event, ev.handle args⟩, 0⟩) = none :=
    (h.rules.find_none hExact).trans hLarger
  have hFound : found s.fsm event (ev.handle args) = hashFind s.fsm.rulesTable
      (some ⟨⟨fsmWildcardStatus, event, ev.handle args⟩, 0⟩) := by
    rw [found, hFind]
  have hOutput : s.output event (ev.handle args) =
      s.rules ⟨fsmWildcardStatus, event, ev.handle args⟩ := by
    rw [State.output, hExact]
  rw [notMisled_iff hEvent, hExact, hLarger]
  cases hWild : s.rules ⟨fsmWildcardStatus, event, ev.handle args⟩ with
  | some output =>
      rw [h.rules.find_some hWild] at hFound
      obtain ⟨hIff, hKeep⟩ := h.trigger_some hEvent hFound (h.output _ _ hWild)
      refine ⟨hIff.trans ?_, hKeep⟩
      exact ⟨fun hBoth => hBoth.1, fun hStarted => ⟨hStarted, output, hOutput.trans hWild, rfl⟩⟩
  | none =>
      rw [h.rules.find_none hWild] at hFound
      rw [hWild] at hOutput
      cases hNext : larger s.fsm ⟨fsmWildcardStatus, event, ev.handle args⟩ with
      | some rule =>
          have hRule := h.rules.of_chain (List.mem_of_find?_eq_some hNext)
          obtain ⟨hIff, hKeep⟩ := h.trigger_some hEvent (hFound.trans hNext) (h.output _ _ hRule)
          refine ⟨hIff.trans (iff_of_false ?_ nofun), hKeep⟩
          rintro ⟨-, output, hSome, -⟩
          rw [hOutput] at hSome
          cases hSome
      | none =>
          have hStep := Inv.trigger_none hEvent (hFound.trans hNext)
          refine sound_iff_of_step hStep h (iff_of_true ?_ rfl)
          intro ev' hEvent'
          rw [hEvent] at hEvent'
          cases hEvent'
          rw [hOutput]
          exact ⟨rfl, rfl⟩

/-- `fsm_trigger` keeps the invariant, and does what the map says if and only if no larger rule
takes the place of a missing one. -/
theorem Inv.trigger (h : Inv s) (event : Int) (args : ω) :
    (Does fsmStep Sound s (.trigger event args) ↔ NotMisled s (.trigger event args)) ∧
      ∀ r s', fsmStep s (.trigger event args) = some (r, s') → Inv s' := by
  obtain ⟨entry, hEvent⟩ := h.events.get event
  cases entry with
  | none => exact h.trigger_unknown hEvent
  | some ev =>
      cases hExact : s.rules ⟨s.fsm.current, event, ev.handle args⟩ with
      | some output => exact h.trigger_exact hEvent hExact
      | none =>
          cases hLarger : larger s.fsm ⟨s.fsm.current, event, ev.handle args⟩ with
          | some rule => exact h.trigger_larger hEvent hExact hLarger
          | none => exact h.trigger_wildcard hEvent hExact hLarger

/-- One call does what the finite map of rules says if and only if no larger rule of a bucket
takes the place of a missing one; and it keeps the invariant. -/
theorem fsmStep_sound_iff (h : Inv s) (op : FsmOp β ω) :
    (Does fsmStep Sound s op ↔ NotMisled s op) ∧
      ∀ r s', fsmStep s op = some (r, s') → Inv s' := by
  cases op with
  | status status enter exit =>
      obtain ⟨r, s', hStep, hInv'⟩ := h.registerStatus status enter exit
      exact sound_iff_of_step hStep hInv' Iff.rfl
  | event event handle =>
      obtain ⟨r, s', hStep, hInv'⟩ := h.registerEvent event handle
      exact sound_iff_of_step hStep hInv' Iff.rfl
  | rule event retCode fromStatus toStatus =>
      obtain ⟨r, s', hStep, hInv', hIff⟩ :=
        @Inv.registerRule _ _ s event retCode fromStatus toStatus h
      exact sound_iff_of_step hStep hInv' hIff
  | start status =>
      obtain ⟨r, s', hStep, hInv'⟩ := h.start status
      exact sound_iff_of_step hStep hInv' Iff.rfl
  | trigger event args => exact h.trigger event args

end

/-! ## Whole runs -/

/-- A table of ids as it is made. -/
theorem filled_create {α : Type u} {size : Int} {table : IdtableT α}
    (hCreate : idtableCreate size = some table) : Filled table 0 size := by
  rw [idtableCreate] at hCreate
  split at hCreate
  · cases hCreate
    refine ⟨fun _ => none, [], ?_, ?_, rfl, ?_⟩
    · apply inv_empty
      · show 0 < size.toNat
        omega
      · intro i _
        rfl
    · show (size.toNat : Int) = size
      omega
    · intro id hSome
      cases hSome
  · cases hCreate

/-- A machine as `fsm_create` makes it. -/
theorem inv_create {size : Int} {fsm : FsmT β ω} (hCreate : fsmCreate size = some (some fsm)) :
    Inv ⟨fsm, fun _ => none⟩ := by
  rw [fsmCreate] at hCreate
  split at hCreate
  · cases hCreate
  split at hCreate
  · cases hCreate
  simp only [Option.bind_eq_bind, Option.bind_eq_some_iff, Option.map_eq_some_iff,
    Option.some.injEq] at hCreate
  obtain ⟨statusTable, hStatus, eventsTable, hEvents, rulesTable, hRules, rfl⟩ := hCreate
  rw [hashCreate] at hRules
  split at hRules
  · cases hRules
  cases hRules
  exact {
    status := filled_create hStatus
    events := filled_create hEvents
    rules := {
      size := by
        show 0 < (fsmRulesSize size * 3).toNat
        omega
      hash := rfl
      cmp := rfl
      bucket := fun _ _ _ hIn => absurd hIn List.not_mem_nil
      sorted := fun _ _ => List.Pairwise.nil
      entry := fun key output => iff_of_false (by simp) List.not_mem_nil }
    current := Or.inl rfl
    output := by
      intro key output hRule
      cases hRule }

/-- From any machine that calls can lead to, every call of a run does what the map says if and
only if none is misled. -/
theorem along_sound_iff {s : State β ω} (h : Inv s) (ops : List (FsmOp β ω)) :
    Along fsmStep (Does fsmStep Sound) s ops ↔ Along fsmStep NotMisled s ops := by
  apply along_iff_of_inv Inv _ _ h (along_true _ ops)
  · intro s op hInv _
    exact (fsmStep_sound_iff hInv op).1
  · intro s op r s' hInv _ _ hStep
    exact (fsmStep_sound_iff hInv op).2 r s' hStep

/-- Along every run from a new machine, every call does what the finite map of the rules says if
and only if no call of the run is misled by a larger rule in place of a missing one. -/
theorem fsm_dispatch_iff {size : Int} {fsm : FsmT β ω} (hCreate : fsmCreate size = some (some fsm))
    (ops : List (FsmOp β ω)) :
    Along fsmStep (Does fsmStep Sound) ⟨fsm, fun _ => none⟩ ops ↔
      Along fsmStep NotMisled ⟨fsm, fun _ => none⟩ ops :=
  along_sound_iff (inv_create hCreate) ops

instance Registered.decidable {α : Type u} (table : IdtableT α) (id : Int) :
    Decidable (Registered table id) :=
  match h : idtableGet table id with
  | some (some entry) => isTrue ⟨entry, h⟩
  | some none => isFalse fun ⟨_, h'⟩ => nomatch h.symm.trans h'
  | none => isFalse fun ⟨_, h'⟩ => nomatch h.symm.trans h'

instance Admitted.decidable (fsm : FsmT β ω) (event fromStatus toStatus : Int) :
    Decidable (Admitted fsm event fromStatus toStatus) :=
  inferInstanceAs (Decidable (_ ∧ _ ∧ _ ∧ _ ∧ _))

instance Started.decidable (fsm : FsmT β ω) (output : Int) : Decidable (Started fsm output) :=
  inferInstanceAs (Decidable (_ ∨ _))

instance LedRight.decidable (fsm : FsmT β ω) :
    ∀ exact first wild second, Decidable (LedRight fsm exact first wild second)
  | some output, _, _, _ => Started.decidable fsm output
  | none, some _, some _, _ => Int.instDecidableEq _ _
  | none, some _, none, _ => instDecidableFalse
  | none, none, some output, _ => Started.decidable fsm output
  | none, none, none, none => isTrue rfl
  | none, none, none, some _ => isFalse nofun

instance NotMisled.decidable (s : State β ω) : ∀ op, Decidable (NotMisled s op)
  | .status _ _ _ => isTrue trivial
  | .event _ _ => isTrue trivial
  | .start _ => isTrue trivial
  | .rule _ _ _ _ => inferInstanceAs (Decidable (_ → _ → _))
  | .trigger event args =>
      match h : idtableGet s.fsm.eventsTable event with
      | some (some ev) =>
          decidable_of_iff (LedRight s.fsm (s.rules ⟨s.fsm.current, event, ev.handle args⟩)
              (larger s.fsm ⟨s.fsm.current, event, ev.handle args⟩)
              (s.rules ⟨fsmWildcardStatus, event, ev.handle args⟩)
              (larger s.fsm ⟨fsmWildcardStatus, event, ev.handle args⟩))
            ⟨fun hThis ev' h' => by cases h.symm.trans h'; exact hThis, fun hAll => hAll ev h⟩
      | some none => isTrue fun _ h' => nomatch h.symm.trans h'
      | none => isTrue fun _ h' => nomatch h.symm.trans h'

/-- A machine for two statuses and one event. -/
def smallFsm : FsmT String Int := ((fsmCreate 2).get (by decide)).get (by decide)

theorem smallFsm_create : fsmCreate 2 = some (some smallFsm) := by
  rw [smallFsm, Option.some_get, Option.some_get]

/-- A rule of one status and a rule of every status, with an event that leads to and fro. -/
theorem fsm_dispatch_to_and_fro :
    Along fsmStep (Does fsmStep Sound) ⟨smallFsm, fun _ => none⟩
      [.status 1 (some "enter 1") (some "exit 1"), .status 2 none (some "exit 2"),
        .event 1 (fun args => args), .rule 1 0 1 2, .rule 1 0 (-1) 1, .start 1, .trigger 1 0,
        .trigger 1 0, .rule 1 0 1 1, .trigger 2 0] :=
  (fsm_dispatch_iff smallFsm_create _).mpr (by decide +kernel)

/-- A second rule of every status, whose return code is smaller and falls into the same bucket,
is refused as if it were registered already. -/
theorem fsm_rule_refused :
    (run fsmStep ⟨smallFsm, fun _ => none⟩
      [.status 1 none none, .event 1 (fun args => args), .rule 1 2 (-1) 1, .rule 1 0 (-1) 1]).map
        (fun r => r.1.map Prod.fst) = some [fsmOk, fsmOk, fsmOk, fsmExisted] ∧
    ¬ Along fsmStep (Does fsmStep Sound) ⟨smallFsm, fun _ => none⟩
      [.status 1 none none, .event 1 (fun args => args), .rule 1 2 (-1) 1, .rule 1 0 (-1) 1] := by
  constructor
  · decide +kernel
  · rw [along_sound_iff (inv_create smallFsm_create)]
    decide +kernel

end Gbase.Core.Fsm
