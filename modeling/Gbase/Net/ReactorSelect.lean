import Gbase.Base.Hash
import Gbase.Core.OsDef
import Gbase.Net.Reactor

/-!
# The reactor on `select` (`net/reactor_select.c`), next to the one on `epoll`

`select` is given two sets of descriptors, and the handlers stand in a table by their descriptors.
`select_register` refuses a descriptor that is in the table, and an unregistered handler stays there
until the next dispatch.  `select_modify` adds descriptors to the sets but takes none out, and puts
a handler that is not registered into the table.  Descriptors are below `FD_SETSIZE`.

## Main results

* `backendStep_watches_iff`: when one call leaves both backends with the same watched events.
* `backends_agree_iff`: the same over whole runs.
-/

namespace Gbase.Net.ReactorSelect

open Gbase.Base.Hash
open Gbase.Core.OsDef
open Gbase.Lib.Run
open Gbase.Net.Reactor

/-- `SELECT_SIZE`, which is also `FD_SETSIZE` -/
def selectSize : Int := 1024

/-- `_handle_hash` -/
def handleHash (data : HandlerT) : UInt32 := UInt32.ofNat (toUint32 data.fd)

/-- `_handle_cmp` -/
def handleCmp (data₁ data₂ : HandlerT) : Int := data₁.fd - data₂.fd

/-- `select_t`, without the sets of a single dispatch. -/
structure SelectT where
  nfds : Int
  inPrepare : Int → Bool
  outPrepare : Int → Bool
  handlerTable : HashT HandlerT
  expired : List Nat

/-- `FD_SET` -/
def fdSet (fd : Int) (set : Int → Bool) : Int → Bool := fun i => if i = fd then true else set i

/-- `FD_CLR` -/
def fdClr (fd : Int) (set : Int → Bool) : Int → Bool := fun i => if i = fd then false else set i

/-- `select_create` -/
def selectCreate : Option SelectT :=
  (hashCreate handleHash handleCmp (selectSize * 3)).map fun table =>
    { nfds := 0
      inPrepare := fun _ => false
      outPrepare := fun _ => false
      handlerTable := table
      expired := [] }

/-- The part that `select_register` and `select_modify` share. -/
def SelectT.prepare (s : SelectT) (h : HandlerT) (events : Nat) : SelectT :=
  { s with
    inPrepare := if eventIn &&& events ≠ 0 then fdSet h.fd s.inPrepare else s.inPrepare
    outPrepare := if eventOut &&& events ≠ 0 then fdSet h.fd s.outPrepare else s.outPrepare }

/-- `select_register` -/
def selectRegister (s : SelectT) (h : HandlerT) (events : Nat) : Int × SelectT :=
  if h.fd < 0 then (-1, s)
  else if h.fd > selectSize then (-1, s)
  else
    let (ret, table) := hashInsert s.handlerTable (some h)
    let s := { s with handlerTable := table }
    if ret < 0 then (ret, s)
    else
      let s := if s.nfds < h.fd then { s with nfds := h.fd } else s
      (0, s.prepare h events)

/-- `select_unregister` -/
def selectUnregister (s : SelectT) (h : HandlerT) : Int × SelectT :=
  (0, { s with
    inPrepare := fdClr h.fd s.inPrepare
    outPrepare := fdClr h.fd s.outPrepare
    expired := h.ptr :: s.expired })

/-- `select_modify` -/
def selectModify (s : SelectT) (h : HandlerT) (events : Nat) : Int × SelectT :=
  let s := s.prepare h events
  (0, { s with handlerTable := (hashInsert s.handlerTable (some h)).2 })

/-! ## The two backends side by side -/

/-- The descriptors and events that `select` watches. -/
def selectWatched (s : SelectT) : Set (Int × Nat) :=
  {p | p.2 = eventIn ∧ s.inPrepare p.1 = true ∨ p.2 = eventOut ∧ s.outPrepare p.1 = true}

/-- The descriptors and events that `epoll` watches. -/
def epollWatched (epoll : EpollT) : Set (Int × Nat) :=
  {p | ∃ mask, epoll.interest p.1 = some mask ∧
    (p.2 = eventIn ∧ epollIn &&& mask ≠ 0 ∨ p.2 = eventOut ∧ epollOut &&& mask ≠ 0)}

/-- A call of a reactor. -/
inductive BackendOp where
  | register (h : HandlerT) (events : Nat)
  | modify (h : HandlerT) (events : Nat)
  | unregister (h : HandlerT)

def BackendOp.handler : BackendOp → HandlerT
  | .register h _ => h
  | .modify h _ => h
  | .unregister h => h

/-- Both backends after the same calls. -/
structure Backends where
  select : SelectT
  epoll : EpollT

/-- The same call of both backends, with both return values. -/
def backendStep : Step Backends BackendOp (Int × Int)
  | b, .register h events =>
      let (ret, select) := selectRegister b.select h events
      let (ret', epoll) := epollRegister b.epoll h events
      some ((ret, ret'), ⟨select, epoll⟩)
  | b, .modify h events =>
      let (ret, select) := selectModify b.select h events
      let (ret', epoll) := epollModify b.epoll h events
      some ((ret, ret'), ⟨select, epoll⟩)
  | b, .unregister h =>
      let (ret, select) := selectUnregister b.select h
      let (ret', epoll) := epollUnregister b.epoll h
      some ((ret, ret'), ⟨select, epoll⟩)

/-- The two backends watch the same events. -/
def SameWatched (b : Backends) : Prop := selectWatched b.select = epollWatched b.epoll

/-- The descriptors that `select` can take. -/
def InRange (op : BackendOp) : Prop := 0 ≤ op.handler.fd ∧ op.handler.fd < selectSize

instance (op : BackendOp) : Decidable (InRange op) := inferInstanceAs (Decidable (_ ∧ _))

/-- A registration finds the handler registered, or its descriptor not in the table of `select`, or
asks for no event.  A modification finds the handler registered and drops none of its events, or
asks for no event. -/
def Meets (b : Backends) : BackendOp → Prop
  | .register h events =>
      b.epoll.interest h.fd = none → hashFind b.select.handlerTable (some h) ≠ none →
        eventIn &&& events = 0 ∧ eventOut &&& events = 0
  | .modify h events =>
      match b.epoll.interest h.fd with
      | none => eventIn &&& events = 0 ∧ eventOut &&& events = 0
      | some mask =>
          (epollIn &&& mask ≠ 0 → eventIn &&& events ≠ 0) ∧
            (epollOut &&& mask ≠ 0 → eventOut &&& events ≠ 0)
  | .unregister _ => True

/-- What every pair of backends satisfies that watches the same events: a descriptor that `epoll`
watches stands in the table of `select`. -/
structure Inv (b : Backends) : Prop where
  same : SameWatched b
  table : WellFormed b.select.handlerTable
  cmp : b.select.handlerTable.mCmpFunc = handleCmp
  known : ∀ fd mask, b.epoll.interest fd = some mask →
    ∃ h ∈ b.select.handlerTable.stored, h.fd = fd

section

variable {b : Backends} {s : SelectT} {epoll : EpollT} {h : HandlerT} {fd : Int} {events : Nat}

private theorem mem_selectWatched_in : (fd, eventIn) ∈ selectWatched s ↔ s.inPrepare fd = true := by
  simp [selectWatched, eventIn, eventOut]

theorem mem_selectWatched_out : (fd, eventOut) ∈ selectWatched s ↔ s.outPrepare fd = true := by
  simp [selectWatched, eventIn, eventOut]

private theorem mem_epollWatched_in : (fd, eventIn) ∈ epollWatched epoll ↔
    ∃ mask, epoll.interest fd = some mask ∧ epollIn &&& mask ≠ 0 := by
  simp [epollWatched, eventIn, eventOut]

private theorem mem_epollWatched_out : (fd, eventOut) ∈ epollWatched epoll ↔
    ∃ mask, epoll.interest fd = some mask ∧ epollOut &&& mask ≠ 0 := by
  simp [epollWatched, eventIn, eventOut]

/-- The watched events are the same when they are the same for each descriptor. -/
theorem sameWatched_iff : SameWatched b ↔ ∀ fd,
    (b.select.inPrepare fd = true ↔
      ∃ mask, b.epoll.interest fd = some mask ∧ epollIn &&& mask ≠ 0) ∧
    (b.select.outPrepare fd = true ↔
      ∃ mask, b.epoll.interest fd = some mask ∧ epollOut &&& mask ≠ 0) := by
  constructor
  · intro hSame fd
    rw [← mem_selectWatched_in, ← mem_selectWatched_out, ← mem_epollWatched_in,
      ← mem_epollWatched_out, hSame]
    exact ⟨Iff.rfl, Iff.rfl⟩
  · intro hEach
    ext ⟨fd, event⟩
    obtain ⟨hIn, hOut⟩ := hEach fd
    simp only [selectWatched, epollWatched, Set.mem_ofPred_eq, hIn, hOut]
    constructor
    · rintro (⟨rfl, mask, hMask, hBit⟩ | ⟨rfl, mask, hMask, hBit⟩)
      · exact ⟨mask, hMask, Or.inl ⟨rfl, hBit⟩⟩
      · exact ⟨mask, hMask, Or.inr ⟨rfl, hBit⟩⟩
    · rintro ⟨mask, hMask, ⟨rfl, hBit⟩ | ⟨rfl, hBit⟩⟩
      · exact Or.inl ⟨rfl, mask, hMask, hBit⟩
      · exact Or.inr ⟨rfl, mask, hMask, hBit⟩

/-- The mask that `_epoll_set` builds. -/
def epollMask (events : Nat) : Nat :=
  let mask := if eventIn &&& events ≠ 0 then epollIn ||| epollErr else 0
  if eventOut &&& events ≠ 0 then mask ||| epollOut else mask

theorem epollMask_in : epollIn &&& epollMask events ≠ 0 ↔ eventIn &&& events ≠ 0 := by
  simp only [epollMask]
  split <;> split <;> simp_all [epollIn, epollOut, epollErr]

theorem epollMask_out : epollOut &&& epollMask events ≠ 0 ↔ eventOut &&& events ≠ 0 := by
  simp only [epollMask]
  split <;> split <;> simp_all [epollIn, epollOut, epollErr]

private theorem epollRegister_interest (epoll : EpollT) (h : HandlerT) (events : Nat) (fd : Int) :
    (epollRegister epoll h events).2.interest fd =
      if fd = h.fd ∧ epoll.interest h.fd = none then some (epollMask events)
      else epoll.interest fd := by
  rw [epollRegister, epollSet, if_neg (by decide)]
  show (epollCtl epoll .add h.fd (epollMask events)).2.interest fd = _
  cases hOld : epoll.interest h.fd with
  | none => simp [epollCtl, hOld]
  | some mask => simp [epollCtl, hOld]

private theorem epollModify_interest (epoll : EpollT) (h : HandlerT) (events : Nat) (fd : Int) :
    (epollModify epoll h events).2.interest fd =
      if fd = h.fd ∧ epoll.interest h.fd ≠ none then some (epollMask events)
      else epoll.interest fd := by
  rw [epollModify, epollSet, if_neg (by decide)]
  show (epollCtl epoll .mod h.fd (epollMask events)).2.interest fd = _
  cases hOld : epoll.interest h.fd with
  | none => simp [epollCtl, hOld]
  | some mask => simp [epollCtl, hOld]

private theorem epollUnregister_interest (epoll : EpollT) (h : HandlerT) (fd : Int) :
    (epollUnregister epoll h).2.interest fd = if fd = h.fd then none else epoll.interest fd := by
  rw [epollUnregister, epollSet, if_pos rfl]
  cases hOld : epoll.interest h.fd with
  | none =>
      have hSame : ∀ fd, (if fd = h.fd then none else epoll.interest fd) = epoll.interest fd := by
        intro fd
        split
        · rename_i hEq
          rw [hEq, hOld]
        · rfl
      simp [epollCtl, hOld, hSame]
  | some mask => simp [epollCtl, hOld]

private theorem handle_equalityStyle : EqualityStyle handleHash handleCmp where
  refl a := Int.sub_self a.fd
  symm a b hEq := by
    rw [handleCmp] at *
    omega
  trans a b c hEq hEq' := by
    rw [handleCmp] at *
    omega
  hash_eq a b hEq := by
    rw [handleCmp] at hEq
    rw [handleHash, handleHash, (by omega : a.fd = b.fd)]

private theorem hashInsert_cmp (table : HashT HandlerT) (h : HandlerT) :
    (hashInsert table (some h)).2.mCmpFunc = table.mCmpFunc := by
  rw [hashInsert]
  split <;> rfl

/-- `hash_insert` into the table of handlers. -/
theorem hashInsert_handlers {table : HashT HandlerT} (hW : WellFormed table)
    (hCmp : table.mCmpFunc = handleCmp) (h : HandlerT) :
    WellFormed (hashInsert table (some h)).2 ∧ (hashInsert table (some h)).2.mCmpFunc = handleCmp ∧
      ((hashInsert table (some h)).1 < 0 ↔ hashFind table (some h) ≠ none) ∧
      (∀ e ∈ table.stored, e ∈ (hashInsert table (some h)).2.stored) ∧
      ∃ e ∈ (hashInsert table (some h)).2.stored, e.fd = h.fd := by
  obtain ⟨⟨ok, hCode, hOk, hStored⟩, hW'⟩ := hashInsert_refines hW h
  have hFinds := hashFind_refines hW h
  rw [HashResult.status.injEq] at hCode
  rw [hCmp] at hOk hFinds
  have hFind : hashFind table (some h) ≠ none ↔ ∃ e ∈ table.stored, handleCmp e h = 0 := by
    rw [Option.ne_none_iff_exists']
    exact exists_congr hFinds
  refine ⟨hW', by rw [hashInsert_cmp, hCmp], ?_, ?_, ?_⟩
  · rw [hCode, hFind]
    cases ok with
    | true => simpa using hOk
    | false => simpa using hOk
  · intro e he
    rw [hStored]
    split
    · exact Set.mem_insert_of_mem h he
    · exact he
  · rw [hStored]
    cases ok with
    | true => exact ⟨h, Set.mem_insert h _, rfl⟩
    | false =>
        obtain ⟨e, he, hEq⟩ : ∃ e ∈ table.stored, handleCmp e h = 0 := by simpa using hOk
        rw [handleCmp] at hEq
        exact ⟨e, he, by omega⟩

/-- `select_register` of a handler whose descriptor is in the table changes nothing that is
watched; otherwise its events are added. -/
theorem selectRegister_prepare (hW : WellFormed s.handlerTable)
    (hCmp : s.handlerTable.mCmpFunc = handleCmp) (hLow : 0 ≤ h.fd) (hHigh : h.fd < selectSize)
    (events : Nat) :
    (selectRegister s h events).2.handlerTable = (hashInsert s.handlerTable (some h)).2 ∧
    (selectRegister s h events).2.inPrepare =
      (if hashFind s.handlerTable (some h) ≠ none then s.inPrepare
        else (s.prepare h events).inPrepare) ∧
    (selectRegister s h events).2.outPrepare =
      (if hashFind s.handlerTable (some h) ≠ none then s.outPrepare
        else (s.prepare h events).outPrepare) := by
  obtain ⟨-, -, hRet, -⟩ := hashInsert_handlers hW hCmp h
  simp only [selectRegister, if_neg (by omega : ¬ h.fd < 0),
      if_neg (by omega : ¬ h.fd > selectSize)]
  by_cases hFound : hashFind s.handlerTable (some h) ≠ none
  · simp only [if_pos hFound, if_pos (hRet.mpr hFound), and_self]
  · simp only [if_neg hFound, if_neg (hRet.not.mpr hFound)]
    split <;> exact ⟨rfl, rfl, rfl⟩

/-- The bits of a set behind `FD_SET` under a condition. -/
theorem fdSet_if {p : Prop} [Decidable p] (set : Int → Bool) (own fd : Int) :
    (if p then fdSet own set else set) fd = true ↔ set fd = true ∨ fd = own ∧ p := by
  by_cases hp : p
  · rw [if_pos hp]
    simp only [fdSet, hp]
    split_ifs with hHere <;> simp [hHere]
  · simp [hp]

private theorem prepare_in (fd : Int) : (s.prepare h events).inPrepare fd = true ↔
    s.inPrepare fd = true ∨ fd = h.fd ∧ eventIn &&& events ≠ 0 :=
  fdSet_if s.inPrepare h.fd fd

private theorem prepare_out (fd : Int) : (s.prepare h events).outPrepare fd = true ↔
    s.outPrepare fd = true ∨ fd = h.fd ∧ eventOut &&& events ≠ 0 :=
  fdSet_if s.outPrepare h.fd fd

theorem Inv.each (hInv : Inv b) (fd : Int) :
    (b.select.inPrepare fd = true ↔
      ∃ mask, b.epoll.interest fd = some mask ∧ epollIn &&& mask ≠ 0) ∧
    (b.select.outPrepare fd = true ↔
      ∃ mask, b.epoll.interest fd = some mask ∧ epollOut &&& mask ≠ 0) :=
  sameWatched_iff.mp hInv.same fd

/-- A descriptor that `epoll` watches is found in the table of `select`. -/
theorem Inv.found (hInv : Inv b) {mask : Nat} (hOld : b.epoll.interest h.fd = some mask) :
    hashFind b.select.handlerTable (some h) ≠ none := by
  obtain ⟨e, he, hEq⟩ := hInv.known h.fd mask hOld
  have hFinds := hashFind_refines hInv.table h
  rw [Option.ne_none_iff_exists']
  refine ⟨e, (hFinds e).mpr ⟨he, ?_⟩⟩
  show b.select.handlerTable.mCmpFunc e h = 0
  rw [hInv.cmp, handleCmp, hEq, Int.sub_self]

private theorem register_watches_iff (hInv : Inv b) (hLow : 0 ≤ h.fd) (hHigh : h.fd < selectSize) :
    SameWatched ⟨(selectRegister b.select h events).2, (epollRegister b.epoll h events).2⟩ ↔
      Meets b (.register h events) := by
  obtain ⟨-, hIn, hOut⟩ := selectRegister_prepare hInv.table hInv.cmp hLow hHigh events
  rw [sameWatched_iff]
  simp only [hIn, hOut, epollRegister_interest]
  have hEach := hInv.each
  cases hOld : b.epoll.interest h.fd with
  | some mask =>
      -- both backends refuse the call
      simp only [if_pos (hInv.found hOld), reduceCtorEq, and_false, if_false]
      constructor
      · intro _ hNone
        rw [hOld] at hNone
        cases hNone
      · intro _
        exact hEach
  | none =>
      have hHere := hEach h.fd
      simp only [hOld, reduceCtorEq, false_and, exists_false, iff_false] at hHere
      by_cases hFound : hashFind b.select.handlerTable (some h) ≠ none
      · simp only [if_pos hFound, and_true]
        constructor
        · intro hAll _ _
          have hAt := hAll h.fd
          simp only [if_true, Option.some.injEq, exists_eq_left', epollMask_in,
              epollMask_out] at hAt
          exact ⟨by tauto, by tauto⟩
        · intro hMeets fd
          obtain ⟨hNoIn, hNoOut⟩ := hMeets hOld hFound
          by_cases hFd : fd = h.fd
          · subst hFd
            simp only [if_true, Option.some.injEq, exists_eq_left', epollMask_in, epollMask_out]
            tauto
          · simp only [if_neg hFd]
            exact hEach fd
      · simp only [if_neg hFound, and_true, prepare_in, prepare_out]
        refine ⟨fun _ _ hSome => absurd hSome hFound, ?_⟩
        intro _ fd
        by_cases hFd : fd = h.fd
        · subst hFd
          simp only [if_true, Option.some.injEq, exists_eq_left', epollMask_in, epollMask_out]
          tauto
        · simp only [hFd, if_false, false_and, or_false]
          exact hEach fd

private theorem modify_watches_iff (hInv : Inv b) :
    SameWatched ⟨(selectModify b.select h events).2, (epollModify b.epoll h events).2⟩ ↔
      Meets b (.modify h events) := by
  rw [sameWatched_iff]
  simp only [selectModify, prepare_in, prepare_out, epollModify_interest, Meets]
  have hEach := hInv.each
  have hHere := hEach h.fd
  cases hOld : b.epoll.interest h.fd with
  | some mask =>
      simp only [hOld, Option.some.injEq, exists_eq_left'] at hHere
      simp only [ne_eq, reduceCtorEq, not_false_eq_true, and_true]
      constructor
      · intro hAll
        have hAt := hAll h.fd
        simp only [if_true, Option.some.injEq, exists_eq_left', epollMask_in, epollMask_out] at hAt
        exact ⟨by tauto, by tauto⟩
      · rintro ⟨hKeepIn, hKeepOut⟩ fd
        by_cases hFd : fd = h.fd
        · subst hFd
          simp only [if_true, Option.some.injEq, exists_eq_left', epollMask_in, epollMask_out]
          tauto
        · simp only [hFd, if_false, false_and, or_false]
          exact hEach fd
  | none =>
      simp only [hOld, reduceCtorEq, false_and, exists_false, iff_false] at hHere
      simp only [ne_eq, not_true_eq_false, and_false, if_false]
      constructor
      · intro hAll
        have hAt := hAll h.fd
        simp only [hOld, reduceCtorEq, false_and, exists_false, iff_false] at hAt
        exact ⟨by tauto, by tauto⟩
      · rintro ⟨hNoIn, hNoOut⟩ fd
        simp only [hNoIn, hNoOut, not_true_eq_false, and_false, or_false]
        exact hEach fd

private theorem unregister_watches (hInv : Inv b) :
    SameWatched ⟨(selectUnregister b.select h).2, (epollUnregister b.epoll h).2⟩ := by
  rw [sameWatched_iff]
  intro fd
  simp only [selectUnregister, epollUnregister_interest, fdClr]
  by_cases hFd : fd = h.fd
  · simp [hFd]
  · simp only [if_neg hFd]
    exact hInv.each fd

/-- A call of both backends leaves them with the same watched events if and only if it meets the
condition. -/
theorem backendStep_watches_iff (hInv : Inv b) {op : BackendOp} (hRange : InRange op) :
    Does backendStep (fun _ _ _ b' => SameWatched b') b op ↔ Meets b op := by
  cases op with
  | register h events =>
      rw [← @register_watches_iff b h events hInv hRange.1 hRange.2]
      constructor
      · rintro ⟨rets, b', hStep, hSame⟩
        cases hStep
        exact hSame
      · intro hSame
        exact ⟨_, _, rfl, hSame⟩
  | modify h events =>
      rw [← modify_watches_iff hInv]
      constructor
      · rintro ⟨rets, b', hStep, hSame⟩
        cases hStep
        exact hSame
      · intro hSame
        exact ⟨_, _, rfl, hSame⟩
  | unregister h => exact ⟨fun _ => trivial, fun _ => ⟨_, _, rfl, unregister_watches hInv⟩⟩

/-- A call that leaves both with the same watched events keeps the invariant. -/
theorem Inv.step (hInv : Inv b) {op : BackendOp} (hRange : InRange op) {rets : Int × Int}
    {b' : Backends} (hStep : backendStep b op = some (rets, b')) (hSame : SameWatched b') :
    Inv b' := by
  cases op with
  | register h events =>
      obtain ⟨hW, hCmp, -, hKeep, hNew⟩ := hashInsert_handlers hInv.table hInv.cmp h
      obtain ⟨hTable, -, -⟩ :=
        @selectRegister_prepare b.select h hInv.table hInv.cmp hRange.1 hRange.2 events
      rw [← hTable] at hW hCmp hKeep hNew
      cases hStep
      refine ⟨hSame, hW, hCmp, ?_⟩
      intro fd mask hMask
      have hMask : (epollRegister b.epoll h events).2.interest fd = some mask := hMask
      rw [epollRegister_interest] at hMask
      split at hMask
      · rename_i hEq
        rw [hEq.1]
        exact hNew
      · obtain ⟨e, he, hEq⟩ := hInv.known fd mask hMask
        exact ⟨e, hKeep e he, hEq⟩
  | modify h events =>
      cases hStep
      obtain ⟨hW, hCmp, -, hKeep, hNew⟩ := hashInsert_handlers hInv.table hInv.cmp h
      refine ⟨hSame, hW, hCmp, ?_⟩
      intro fd mask hMask
      have hMask : (epollModify b.epoll h events).2.interest fd = some mask := hMask
      rw [epollModify_interest] at hMask
      split at hMask
      · rename_i hEq
        rw [hEq.1]
        exact hNew
      · obtain ⟨e, he, hEq⟩ := hInv.known fd mask hMask
        exact ⟨e, hKeep e he, hEq⟩
  | unregister h =>
      cases hStep
      refine ⟨hSame, hInv.table, hInv.cmp, ?_⟩
      intro fd mask hMask
      have hMask : (epollUnregister b.epoll h).2.interest fd = some mask := hMask
      rw [epollUnregister_interest] at hMask
      split at hMask
      · cases hMask
      · exact hInv.known fd mask hMask

end

/-- Two backends at the start. -/
theorem selectCreate_inv :
    ∃ select, selectCreate = some select ∧ Inv ⟨select, ⟨fun _ => none, []⟩⟩ := by
  obtain ⟨hW, hEmpty, -, hCmp⟩ :=
    @hashCreate_wellFormed _ _ _ (selectSize * 3) _ handle_equalityStyle rfl
  refine ⟨_, rfl, ?_, hW, hCmp, fun fd mask hMask => by cases hMask⟩
  rw [sameWatched_iff]
  intro fd
  simp

/-- Along every run on two new backends, both watch the same events after each call if and only if
each call meets the condition. -/
theorem backends_agree_iff {ops : List BackendOp} (hRange : ∀ op, op ∈ ops → InRange op) :
    ∃ select, selectCreate = some select ∧
      (Along backendStep (Does backendStep fun _ _ _ b' => SameWatched b')
          ⟨select, ⟨fun _ => none, []⟩⟩ ops ↔
        Along backendStep Meets ⟨select, ⟨fun _ => none, []⟩⟩ ops) := by
  obtain ⟨select, hCreate, hInit⟩ := selectCreate_inv
  refine ⟨select, hCreate, ?_⟩
  apply along_iff_of_inv Inv _ _ hInit (along_of_forall hRange)
  · intro b op hInv hLegal
    exact backendStep_watches_iff hInv hLegal
  · intro b op rets b' hInv hLegal ⟨rets', b'', hStep', hSame⟩ hStep
    rw [hStep'] at hStep
    cases hStep
    exact hInv.step hLegal hStep' hSame

/-- A registered handler is to be watched for writing too, and then for reading only. -/
def armedThenDrained : List BackendOp :=
  [.register ⟨1, 5⟩ eventIn, .modify ⟨1, 5⟩ (eventIn ||| eventOut), .modify ⟨1, 5⟩ eventIn]

/-- A socket that is armed for writing and goes on being watched. -/
def armed : List BackendOp :=
  [.register ⟨1, 5⟩ eventIn, .modify ⟨1, 5⟩ (eventIn ||| eventOut), .unregister ⟨1, 5⟩]

theorem backends_agree_drained :
    (∃ select, selectCreate = some select ∧
      (Along backendStep (Does backendStep fun _ _ _ b' => SameWatched b')
          ⟨select, ⟨fun _ => none, []⟩⟩ armedThenDrained ↔
        Along backendStep Meets ⟨select, ⟨fun _ => none, []⟩⟩ armedThenDrained)) ∧
      ∃ select, selectCreate = some select ∧
        Along backendStep (Does backendStep fun _ _ _ b' => SameWatched b')
          ⟨select, ⟨fun _ => none, []⟩⟩ armed := by
  refine ⟨backends_agree_iff (by decide), ?_⟩
  obtain ⟨select, hCreate, hAgree⟩ := @backends_agree_iff armed (by decide)
  refine ⟨select, hCreate, hAgree.mpr ?_⟩
  cases hCreate
  refine ⟨?_, fun _ _ hRegister => ?_⟩
  · intro _ hFound
    exact absurd rfl hFound
  cases hRegister
  exact ⟨⟨fun _ => by decide, fun hNone => absurd rfl hNone⟩,
    fun _ _ _ => ⟨trivial, fun _ _ _ => trivial⟩⟩

/-- `select` goes on watching it for writing. -/
theorem select_keeps_writing : ∃ select b rets, selectCreate = some select ∧
    run backendStep ⟨select, ⟨fun _ => none, []⟩⟩ armedThenDrained = some (rets, b) ∧
      ¬ SameWatched b := by
  refine ⟨_, _, _, rfl, rfl, ?_⟩
  intro hSame
  obtain ⟨mask, hMask, hBit⟩ := (sameWatched_iff.mp hSame 5).2.mp (by decide)
  cases hMask
  exact hBit (by decide)

end Gbase.Net.ReactorSelect
