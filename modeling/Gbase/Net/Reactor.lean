import Gbase.Lib.Run
import Mathlib.Tactic.Tauto

/-!
# The reactor on `epoll` (`net/reactor.h`, `net/reactor_epoll.c`)

The system keeps a mask of events for each descriptor.  `epoll_dispatch` takes the handlers whose
events have arrived one after the other and calls their callbacks, which can unregister any handler.
A handler that was unregistered is put on a list, and later events of this batch are not given to
it.

That list is looked at once an event, before the first of its callbacks.  So a callback that
unregisters its own handler is followed by the other callbacks of the same event.

## Main results

* `epollTurn_clean_iff`: when the callbacks of one event leave an unregistered handler alone.
* `epollDispatch_clean_iff`: the same for a whole batch.
-/

namespace Gbase.Net.Reactor

open Gbase.Lib.Run

/-- `EVENT_IN` -/
def eventIn : Nat := 1

/-- `EVENT_OUT` -/
def eventOut : Nat := 2

/-- `EPOLLIN` -/
def epollIn : Nat := 0x001

/-- `EPOLLOUT` -/
def epollOut : Nat := 0x004

/-- `EPOLLERR` -/
def epollErr : Nat := 0x008

/-- `EPOLLHUP` -/
def epollHup : Nat := 0x010

/-- `EINTR` -/
def eintr : Int := 4

/-- `handler_t` at its address; what its callbacks do is said where they are called. -/
structure HandlerT where
  ptr : Nat
  fd : Int
deriving DecidableEq

/-- `epoll_t`, with the masks that the system keeps for it. -/
structure EpollT where
  interest : Int → Option Nat
  expired : List Nat

/-- The `option` of `epoll_ctl`. -/
inductive EpollCtl where
  | add
  | mod
  | del
deriving DecidableEq

/-- `epoll_ctl`: a mask is set where there was none, or replaced or deleted where there was one;
otherwise the call fails. -/
def epollCtl (epoll : EpollT) (option : EpollCtl) (fd : Int) (events : Nat) : Int × EpollT :=
  match option, epoll.interest fd with
  | .add, some _ => (-1, epoll)
  | .mod, none => (-1, epoll)
  | .del, none => (-1, epoll)
  | .del, some _ =>
      (0, { epoll with interest := fun i => if i = fd then none else epoll.interest i })
  | _, _ =>
      (0, { epoll with interest := fun i => if i = fd then some events else epoll.interest i })

/-- `_epoll_set` -/
def epollSet (epoll : EpollT) (h : HandlerT) (option : EpollCtl) (events : Nat) : Int × EpollT :=
  if EpollCtl.del = option then epollCtl epoll .del h.fd 0
  else
    let mask := if eventIn &&& events ≠ 0 then epollIn ||| epollErr else 0
    let mask := if eventOut &&& events ≠ 0 then mask ||| epollOut else mask
    epollCtl epoll option h.fd mask

/-- `epoll_register` -/
def epollRegister (epoll : EpollT) (h : HandlerT) (events : Nat) : Int × EpollT :=
  epollSet epoll h .add events

/-- `epoll_unregister` -/
def epollUnregister (epoll : EpollT) (h : HandlerT) : Int × EpollT :=
  epollSet { epoll with expired := h.ptr :: epoll.expired } h .del 0

/-- `epoll_modify` -/
def epollModify (epoll : EpollT) (h : HandlerT) (events : Nat) : Int × EpollT :=
  epollSet epoll h .mod events

/-! ## Dispatch -/

/-- The callbacks of a handler. -/
inductive Func where
  | inFunc
  | outFunc
  | closeFunc
deriving DecidableEq

/-- What happens during a dispatch. -/
inductive Action where
  | call (func : Func) (ptr : Nat)
  | unregister (ptr : Nat)
deriving DecidableEq

/-- What a callback does when it is called: it unregisters some handlers, and returns a number. -/
structure Callback where
  unregisters : List HandlerT
  ret : Int

/-- One of the events that `epoll_wait` gave, with what each callback of its handler does if it is
called for this event. -/
structure Turn where
  events : Nat
  h : HandlerT
  inFunc : Callback
  outFunc : Callback
  closeFunc : Callback

/-- A dispatch, with what has happened in it. -/
structure Dispatch where
  epoll : EpollT
  trace : List Action

def Dispatch.unregister (d : Dispatch) (h : HandlerT) : Dispatch :=
  { epoll := (epollUnregister d.epoll h).2, trace := d.trace ++ [.unregister h.ptr] }

/-- A callback is called on a handler. -/
def Dispatch.call (d : Dispatch) (func : Func) (h : HandlerT) (callback : Callback) : Dispatch :=
  callback.unregisters.foldl Dispatch.unregister
    { d with trace := d.trace ++ [.call func h.ptr] }

/-- The turn of an event from `EPOLLERR & type` on. -/
def Turn.afterOut (turn : Turn) (d : Dispatch) : Dispatch :=
  if epollErr &&& turn.events ≠ 0 then d.call .closeFunc turn.h turn.closeFunc else d

/-- The turn of an event from `EPOLLOUT & type` on. -/
def Turn.afterIn (turn : Turn) (d : Dispatch) : Dispatch :=
  if epollOut &&& turn.events ≠ 0 then
    let d := d.call .outFunc turn.h turn.outFunc
    if turn.outFunc.ret < 0 then d.call .closeFunc turn.h turn.closeFunc
    else turn.afterOut d
  else turn.afterOut d

/-- The turn of an event in the loop of `epoll_dispatch`. -/
def epollTurn (d : Dispatch) (turn : Turn) : Dispatch :=
  if turn.h.ptr ∈ d.epoll.expired then d
  else if epollIn &&& turn.events ≠ 0 ∨ epollHup &&& turn.events ≠ 0 then
    let d := d.call .inFunc turn.h turn.inFunc
    if turn.inFunc.ret < 0 then d.call .closeFunc turn.h turn.closeFunc
    else turn.afterIn d
  else turn.afterIn d

/-- `epoll_dispatch`, with the events that `epoll_wait` gives or its `errno`. -/
def epollDispatch (epoll : EpollT) (waited : Except Int (List Turn)) : Int × Dispatch :=
  match waited with
  | .error errno => (if eintr = errno then 0 else -errno, ⟨epoll, []⟩)
  | .ok turns =>
      let d := turns.foldl epollTurn ⟨epoll, []⟩
      (turns.length, { d with epoll := { d.epoll with expired := [] } })

/-! ## No callback after unregistering -/

/-- No callback is called on a handler after that was unregistered. -/
def Clean (trace : List Action) : Prop :=
  trace.Pairwise fun before after => ∀ ptr func, before = .unregister ptr → after ≠ .call func ptr

/-- The event calls `in_func`. -/
def Turn.Reads (turn : Turn) : Prop :=
  epollIn &&& turn.events ≠ 0 ∨ epollHup &&& turn.events ≠ 0

/-- The event calls `out_func`, if it comes so far. -/
def Turn.Writes (turn : Turn) : Prop := epollOut &&& turn.events ≠ 0

/-- The event calls `close_func`, if it comes so far. -/
def Turn.Fails (turn : Turn) : Prop := epollErr &&& turn.events ≠ 0

/-- The callback unregisters the handler that it is called on. -/
def Turn.Drops (turn : Turn) (callback : Callback) : Prop :=
  turn.h.ptr ∈ callback.unregisters.map HandlerT.ptr

/-- The handler had been unregistered before, or no callback that unregisters it is followed by
another one of the same event. -/
def Calm (d : Dispatch) (turn : Turn) : Prop :=
  turn.h.ptr ∉ d.epoll.expired →
    (turn.Reads → turn.Drops turn.inFunc →
      0 ≤ turn.inFunc.ret ∧ ¬ turn.Writes ∧ ¬ turn.Fails) ∧
    (turn.Writes → (turn.Reads → 0 ≤ turn.inFunc.ret) → turn.Drops turn.outFunc →
      0 ≤ turn.outFunc.ret ∧ ¬ turn.Fails)

/-- The turn of one event as a step. -/
def epollStep : Step Dispatch Turn Unit := fun d turn => some ((), epollTurn d turn)

/-- What was unregistered in a dispatch is on the list. -/
def Inv (d : Dispatch) : Prop := ∀ ptr, .unregister ptr ∈ d.trace → ptr ∈ d.epoll.expired

section

variable {d : Dispatch} {turn : Turn} {h : HandlerT} {func : Func} {callback : Callback}

private theorem epollCtl_expired (epoll : EpollT) (option : EpollCtl) (fd : Int) (events : Nat) :
    (epollCtl epoll option fd events).2.expired = epoll.expired := by
  unfold epollCtl
  split <;> rfl

theorem epollUnregister_expired (epoll : EpollT) (h : HandlerT) :
    (epollUnregister epoll h).2.expired = h.ptr :: epoll.expired := by
  rw [epollUnregister, epollSet, if_pos rfl, epollCtl_expired]

private theorem unregisters_trace (hs : List HandlerT) (d : Dispatch) :
    (hs.foldl Dispatch.unregister d).trace =
      d.trace ++ hs.map (fun h => .unregister h.ptr) := by
  induction hs generalizing d with
  | nil => exact (List.append_nil _).symm
  | cons h hs ih =>
      rw [List.foldl_cons, ih, Dispatch.unregister, List.append_assoc]
      rfl

private theorem call_trace : (d.call func h callback).trace =
    d.trace ++ .call func h.ptr :: callback.unregisters.map (fun h => .unregister h.ptr) := by
  rw [Dispatch.call, unregisters_trace, List.append_assoc]
  rfl

theorem Inv.unregister (hInv : Inv d) (h : HandlerT) : Inv (d.unregister h) := by
  intro ptr hMem
  rw [Dispatch.unregister, List.mem_append, List.mem_singleton] at hMem
  rw [Dispatch.unregister, epollUnregister_expired]
  cases hMem with
  | inl hOld => exact List.mem_cons_of_mem _ (hInv ptr hOld)
  | inr hNew =>
      cases hNew
      exact List.mem_cons_self

theorem Inv.unregisters (hInv : Inv d) (hs : List HandlerT) :
    Inv (hs.foldl Dispatch.unregister d) := by
  induction hs generalizing d with
  | nil => exact hInv
  | cons h hs ih => exact ih (hInv.unregister h)

theorem Inv.call (hInv : Inv d) : Inv (d.call func h callback) := by
  have hStart : Inv { d with trace := d.trace ++ [.call func h.ptr] } := by
    intro ptr hMem
    rw [List.mem_append, List.mem_singleton] at hMem
    cases hMem with
    | inl hOld => exact hInv ptr hOld
    | inr hNew => cases hNew
  exact hStart.unregisters callback.unregisters

theorem Inv.afterOut (hInv : Inv d) : Inv (turn.afterOut d) := by
  rw [Turn.afterOut]
  split
  · exact hInv.call
  · exact hInv

theorem Inv.afterIn (hInv : Inv d) : Inv (turn.afterIn d) := by
  simp only [Turn.afterIn]
  split
  · split
    · exact hInv.call.call
    · exact hInv.call.afterOut
  · exact hInv.afterOut

/-- The turn of one event keeps the list complete. -/
theorem Inv.epollTurn (hInv : Inv d) : Inv (Reactor.epollTurn d turn) := by
  simp only [Reactor.epollTurn]
  split
  · exact hInv
  · split
    · split
      · exact hInv.call.call
      · exact hInv.call.afterIn
    · exact hInv.afterIn

/-- A call is clean if and only if the handler has not been unregistered. -/
theorem clean_call : Clean (d.call func h callback).trace ↔
    Clean d.trace ∧ .unregister h.ptr ∉ d.trace := by
  rw [call_trace, Clean, List.pairwise_append, List.pairwise_cons]
  constructor
  · rintro ⟨hOld, -, hCross⟩
    refine ⟨hOld, ?_⟩
    intro hMem
    exact hCross _ hMem _ List.mem_cons_self h.ptr func rfl rfl
  · rintro ⟨hOld, hNot⟩
    have hUnregister : ∀ action : Action,
        action ∈ callback.unregisters.map (fun h => Action.unregister h.ptr) →
        ∀ ptr func, action ≠ .call func ptr := by
      intro action hMem ptr func hEq
      obtain ⟨other, -, rfl⟩ := List.mem_map.mp hMem
      cases hEq
    refine ⟨hOld, ⟨?_, ?_⟩, ?_⟩
    · intro action hMem ptr func' hEq
      cases hEq
    · rw [List.pairwise_map]
      exact List.pairwise_of_forall fun _ _ _ _ _ hEq => by cases hEq
    · intro before hBefore after hAfter ptr func' hEq hCall
      cases List.mem_cons.mp hAfter with
      | inl hHead =>
          rw [hHead] at hCall
          cases hCall
          exact hNot (hEq ▸ hBefore)
      | inr hTail => exact hUnregister after hTail ptr func' hCall

theorem unregister_mem_call {ptr : Nat} : .unregister ptr ∈ (d.call func h callback).trace ↔
    .unregister ptr ∈ d.trace ∨ ptr ∈ callback.unregisters.map HandlerT.ptr := by
  simp [call_trace]

private theorem clean_afterOut : Clean (turn.afterOut d).trace ↔
    Clean d.trace ∧ (turn.Fails → .unregister turn.h.ptr ∉ d.trace) := by
  rw [Turn.afterOut, Turn.Fails]
  split
  · rename_i hFails
    rw [clean_call]
    exact and_congr_right fun _ => ⟨fun h _ => h, fun h => h hFails⟩
  · rename_i hFails
    exact ⟨fun h => ⟨h, fun hErr => absurd hErr hFails⟩, fun h => h.1⟩

theorem clean_afterIn : Clean (turn.afterIn d).trace ↔
    Clean d.trace ∧ (turn.Writes ∨ turn.Fails → .unregister turn.h.ptr ∉ d.trace) ∧
      (turn.Writes → turn.Drops turn.outFunc → 0 ≤ turn.outFunc.ret ∧ ¬ turn.Fails) := by
  simp only [Turn.afterIn]
  by_cases hWrites : turn.Writes
  · rw [if_pos (show epollOut &&& turn.events ≠ 0 from hWrites)]
    by_cases hRet : turn.outFunc.ret < 0
    · rw [if_pos hRet, clean_call, clean_call, unregister_mem_call]
      have hNot : ¬ 0 ≤ turn.outFunc.ret := by omega
      simp only [Turn.Drops]
      tauto
    · rw [if_neg hRet, clean_afterOut, clean_call, unregister_mem_call]
      have hNot : 0 ≤ turn.outFunc.ret := by omega
      simp only [Turn.Drops]
      tauto
  · rw [if_neg (show ¬ epollOut &&& turn.events ≠ 0 from hWrites), clean_afterOut]
    tauto

/-- The callbacks of one event are clean if and only if none that unregisters its own handler is
followed by another. -/
theorem epollTurn_clean_iff (hInv : Inv d) (hClean : Clean d.trace) :
    Clean (epollTurn d turn).trace ↔ Calm d turn := by
  have hNew := hInv turn.h.ptr
  simp only [epollTurn, Calm]
  by_cases hExpired : turn.h.ptr ∈ d.epoll.expired
  · rw [if_pos hExpired]
    exact ⟨fun _ hNot => absurd hExpired hNot, fun _ => hClean⟩
  · rw [if_neg hExpired]
    have hFresh : .unregister turn.h.ptr ∉ d.trace := fun hMem => hExpired (hNew hMem)
    by_cases hReads : turn.Reads
    · rw [if_pos (show epollIn &&& turn.events ≠ 0 ∨ epollHup &&& turn.events ≠ 0 from hReads)]
      by_cases hRet : turn.inFunc.ret < 0
      · rw [if_pos hRet, clean_call, clean_call, unregister_mem_call]
        have hNot : ¬ 0 ≤ turn.inFunc.ret := by omega
        simp only [Turn.Drops]
        tauto
      · rw [if_neg hRet, clean_afterIn, clean_call, unregister_mem_call]
        have hNot : 0 ≤ turn.inFunc.ret := by omega
        simp only [Turn.Drops]
        tauto
    · have hNot : ¬ (epollIn &&& turn.events ≠ 0 ∨ epollHup &&& turn.events ≠ 0) := hReads
      rw [if_neg hNot, clean_afterIn]
      tauto

/-- What is not clean at some time is not clean later. -/
theorem clean_of_epollTurn (hClean : Clean (epollTurn d turn).trace) : Clean d.trace := by
  simp only [epollTurn] at hClean
  split at hClean
  · exact hClean
  · split at hClean
    · split at hClean
      · exact (clean_call.mp (clean_call.mp hClean).1).1
      · exact (clean_call.mp (clean_afterIn.mp hClean).1).1
    · exact (clean_afterIn.mp hClean).1

theorem clean_of_epollTurns {turns : List Turn} (hClean : Clean (turns.foldl epollTurn d).trace) :
    Clean d.trace := by
  induction turns generalizing d with
  | nil => exact hClean
  | cons turn turns ih => exact clean_of_epollTurn (ih hClean)

/-- The same over the events of a batch. -/
theorem epollTurns_clean_iff {turns : List Turn} (hInv : Inv d) (hClean : Clean d.trace) :
    Clean (turns.foldl epollTurn d).trace ↔ Along epollStep Calm d turns := by
  induction turns generalizing d with
  | nil => exact ⟨fun _ => trivial, fun _ => hClean⟩
  | cons turn turns ih =>
      constructor
      · intro hAll
        have hTurn : Clean (epollTurn d turn).trace := clean_of_epollTurns hAll
        refine ⟨(epollTurn_clean_iff hInv hClean).mp hTurn, ?_⟩
        intro _ next hStep
        cases hStep
        exact (ih hInv.epollTurn hTurn).mp hAll
      · intro hAlong
        have hTurn := (epollTurn_clean_iff hInv hClean).mpr hAlong.head
        exact (ih hInv.epollTurn hTurn).mpr (hAlong.tail rfl)

end

/-- A dispatch calls no callback on a handler after it was unregistered if and only if, for each
event whose handler is still registered at its turn, no callback that unregisters this handler is
followed by another one of the same event. -/
theorem epollDispatch_clean_iff (epoll : EpollT) (waited : Except Int (List Turn)) :
    Clean (epollDispatch epoll waited).2.trace ↔
      ∀ turns, waited = .ok turns → Along epollStep Calm ⟨epoll, []⟩ turns := by
  have hInv : Inv ⟨epoll, []⟩ := fun ptr hMem => by cases hMem
  cases waited with
  | error errno =>
      constructor
      · intro _ turns hEq
        cases hEq
      · intro _
        exact List.Pairwise.nil
  | ok turns =>
      have hIff := @epollTurns_clean_iff ⟨epoll, []⟩ turns hInv List.Pairwise.nil
      constructor
      · intro hClean turns' hEq
        cases hEq
        exact hIff.mp hClean
      · intro hAlong
        exact hIff.mpr (hAlong turns rfl)

/-- A connection is ready for reading and for writing, and its `in_func` unregisters it. -/
def stoppedInRead : Turn where
  events := epollIn ||| epollOut
  h := ⟨1, 5⟩
  inFunc := ⟨[⟨1, 5⟩], 0⟩
  outFunc := ⟨[], 0⟩
  closeFunc := ⟨[], 0⟩

/-- Its `out_func` is called all the same. -/
theorem epollDispatch_calls_unregistered :
    ¬ Clean (epollDispatch ⟨fun _ => some 0, []⟩ (.ok [stoppedInRead])).2.trace := by
  have hTrace : (epollDispatch ⟨fun _ => some 0, []⟩ (.ok [stoppedInRead])).2.trace =
      [.call .inFunc 1, .unregister 1, .call .outFunc 1] := by decide
  rw [hTrace]
  intro hClean
  have hLast := (List.pairwise_cons.mp (List.pairwise_cons.mp hClean).2).1
  exact hLast _ (List.mem_singleton_self _) 1 .outFunc rfl rfl

end Gbase.Net.Reactor
