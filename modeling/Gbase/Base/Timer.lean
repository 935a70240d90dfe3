import Gbase.Base.Heap
import Gbase.Util.UtilTime
import Mathlib.Logic.Function.Basic

/-!
# The timer heap (`base/timer.c`)

Timers are nodes in memory, and the heap orders pointers to them by expiry time.  A pointer
is a `Nat`, and `mem` is what each address holds, read as a node; `FREE` leaves the contents
alone.  The address `MALLOC` returns, the clock `gettimeofday` reads and the results of the
callbacks come from outside, as arguments.  A callback is a number that tells which function
it is; calling one does not touch the timer heap.  Where `util_time_add` overflows, registering
and polling are undefined with it.

Calls with a `NULL` heap, delay, callback or time return at once and are left out.
-/

namespace Gbase.Base.Timer

open Gbase.Base.Heap
open Gbase.Util.UtilTime

/-- `node_t` -/
structure TimerNode where
  timerId : Int
  expireTime : Timeval
  intervalTime : Timeval
  args : Nat
  cbFunc : Nat
  deriving DecidableEq

/-- `timerheap_t`, with the memory its nodes live in. -/
structure TimerheapT where
  heap : HeapT Nat
  mem : Nat → TimerNode

/-- `_timer_cmp` -/
def timerCmp (mem : Nat → TimerNode) (data1 data2 : Nat) : Int :=
  utilTimeCompare (mem data1).expireTime (mem data2).expireTime

/-- Store `node` at `ptr`. -/
def TimerheapT.write (timer : TimerheapT) (ptr : Nat) (node : TimerNode) : TimerheapT :=
  { timer with mem := Function.update timer.mem ptr node }

@[simp] theorem write_heap (timer : TimerheapT) (ptr : Nat) (node : TimerNode) :
    (timer.write ptr node).heap = timer.heap := rfl

@[simp] theorem write_mem_self (timer : TimerheapT) (ptr : Nat) (node : TimerNode) :
    (timer.write ptr node).mem ptr = node := by
  simp [TimerheapT.write]

/-- `timer_create_heap`; the memory holds anything. -/
def timerCreateHeap (mem : Nat → TimerNode) : TimerheapT := { heap := heapCreate, mem := mem }

/-- `TIMER_INVALID_ID` -/
def timerInvalidId : Int := -1

/-- The node as `timer_register` fills it in. -/
def registered (id : Int) (expire : Timeval) (interval : Option Timeval) (cb args : Nat) :
    TimerNode :=
  { timerId := id
    expireTime := expire
    intervalTime := interval.getD { tvSec := 0, tvUsec := 0 }
    args := args
    cbFunc := cb }

/-- `timer_register`: `ptr` is the new node, whose id is at first what the memory held,
`clock` the time read, and `ok` tells whether the heap's allocations succeed. -/
def timerRegister (ok : Bool) (ptr : Nat) (clock : Timeval) (timer : TimerheapT)
    (interval : Option Timeval) (delay : Timeval) (cb args : Nat) :
    Option (Int × TimerheapT) := do
  let expire ← utilTimeAdd clock delay
  let timer := timer.write ptr (registered (timer.mem ptr).timerId expire interval cb args)
  let (id, heap) ← heapInsert (timerCmp timer.mem) ok timer.heap (some ptr)
  let timer := TimerheapT.write { timer with heap := heap } ptr
    { timer.mem ptr with timerId := id }
  if id < 0 then return (timerInvalidId, timer)
  else return (id, timer)

/-- `timer_unregister` -/
def timerUnregister (timer : TimerheapT) (timerId : Int) : Option TimerheapT :=
  if timerId < 0 then some timer
  else do
    let (_, heap) ← heapErase (timerCmp timer.mem) timer.heap timerId
    return { timer with heap := heap }

/-- The timer has an interval to be armed again with. -/
def TimerNode.repeats (node : TimerNode) : Prop :=
  0 < node.intervalTime.tvSec ∨ 0 < node.intervalTime.tvUsec

instance (node : TimerNode) : Decidable node.repeats :=
  inferInstanceAs (Decidable (_ ∨ _))

/-- The expiry time is before `now`, as `timer_poll` tests it. -/
def TimerNode.due (node : TimerNode) (now : Timeval) : Prop :=
  utilTimeCompare node.expireTime now < 0

instance (node : TimerNode) (now : Timeval) : Decidable (node.due now) :=
  inferInstanceAs (Decidable (_ < _))

/-- The node as `timer_poll` arms it again. -/
def TimerNode.rearmed (node : TimerNode) (now : Timeval) : Option TimerNode := do
  let expire ← utilTimeAdd now node.intervalTime
  return { node with expireTime := expire }

/-- One turn of the loop of `timer_poll`, in which a callback would return `ret`: the timer that
was invoked, as the node it was found in, or nothing when the loop is left. -/
def pollTurn (now : Timeval) (ret : Int) (timer : TimerheapT) :
    Option (Option (TimerNode × TimerheapT)) :=
  match heapTop timer.heap with
  | none => some none
  | some top =>
      let node := timer.mem top
      if node.due now then
        if 0 ≤ ret ∧ node.repeats then do
          let next ← node.rearmed now
          let timer := timer.write top next
          let heap ← heapUpdate (timerCmp timer.mem) timer.heap node.timerId (some top)
          return some (node, { timer with heap := heap })
        else do
          let (_, heap) ← heapPop (timerCmp timer.mem) timer.heap
          return some (node, { timer with heap := heap })
      else some none

/-- The loop of `timer_poll`, undefined when it takes more than `fuel` turns.  `rets i` is
what the callback in turn `i` returns.  The result lists the callbacks invoked, each as the
node it was found in and what it returned. -/
def pollLoop (now : Timeval) (rets : Nat → Int) :
    Nat → Nat → TimerheapT → Option (List (TimerNode × Int) × TimerheapT)
  | 0, _, _ => none
  | fuel + 1, i, timer =>
      match pollTurn now (rets i) timer with
      | none => none
      | some none => some ([], timer)
      | some (some (node, timer)) => do
          let (fired, timer) ← pollLoop now rets fuel (i + 1) timer
          return ((node, rets i) :: fired, timer)

/-- `timer_poll` -/
def timerPoll (fuel : Nat) (rets : Nat → Int) (timer : TimerheapT) (now : Timeval) :
    Option (List (TimerNode × Int) × TimerheapT) :=
  if heapSize timer.heap ≤ 0 then some ([], timer)
  else pollLoop now rets fuel 0 timer

end Gbase.Base.Timer
