import Gbase.Net.ReactorSelect
import Mathlib.Data.Int.ModEq
import Mathlib.Data.List.Perm.Subperm
import Mathlib.Data.List.NodupEquivFin

/-!
# The dispatch of the reactor on `select` (`net/reactor_select.c`)

`select_dispatch` goes through the descriptors once, from a random one on, and calls the callbacks
of those that are ready.  A callback can unregister any handler, as in the dispatch on `epoll`; what
`select` and `rand` return comes with the call, and so does what lies at an address.

`_select_callback` calls what `epoll_dispatch` calls for the same events.  So both backends make the
same calls, if their handlers are ready in the same order.

## Main results

* `order_perm`: every descriptor has one turn.
* `select_dispatch_same`: the calls are those of the dispatch on `epoll`.
-/

namespace Gbase.Net.SelectDispatch

open Gbase.Base.Hash
open Gbase.Net.Reactor
open Gbase.Net.ReactorSelect

/-- A dispatch, with what has happened in it. -/
structure Dispatching where
  select : SelectT
  trace : List Action

def Dispatching.unregister (d : Dispatching) (h : HandlerT) : Dispatching :=
  { select := (selectUnregister d.select h).2, trace := d.trace ++ [.unregister h.ptr] }

/-- A callback is called on a handler. -/
def Dispatching.call (d : Dispatching) (func : Func) (h : HandlerT) (callback : Callback) :
    Dispatching :=
  callback.unregisters.foldl Dispatching.unregister
    { d with trace := d.trace ++ [.call func h.ptr] }

/-- What the callbacks of a handler do if they are called in this dispatch. -/
structure Callbacks where
  inFunc : Callback
  outFunc : Callback
  closeFunc : Callback

/-- `tmp`, which the table reads the descriptor of. -/
def tmp (fd : Int) : HandlerT := ⟨0, fd⟩

/-- `_select_callback` from `EVENT_OUT & events` on. -/
def afterIn (callbacks : Callbacks) (d : Dispatching) (h : HandlerT) (events : Nat) :
    Dispatching :=
  if eventOut &&& events ≠ 0 then
    let d := d.call .outFunc h callbacks.outFunc
    if callbacks.outFunc.ret < 0 then d.call .closeFunc h callbacks.closeFunc else d
  else d

/-- `_select_callback` -/
def selectCallback (callbacks : HandlerT → Callbacks) (d : Dispatching) (fd : Int) (events : Nat) :
    Dispatching :=
  match hashFind d.select.handlerTable (some (tmp fd)) with
  | none => d
  | some h =>
      if h.ptr ∈ d.select.expired then d
      else if eventIn &&& events ≠ 0 then
        let d := d.call .inFunc h (callbacks h).inFunc
        if (callbacks h).inFunc.ret < 0 then d.call .closeFunc h (callbacks h).closeFunc
        else afterIn (callbacks h) d h events
      else afterIn (callbacks h) d h events

/-- The sets that `select` gives. -/
structure Ready where
  inSet : Int → Bool
  outSet : Int → Bool

/-- `res` in the loop of `select_dispatch`. -/
def Ready.events (ready : Ready) (i : Int) : Nat :=
  (if ready.inSet i then eventIn else 0) ||| (if ready.outSet i then eventOut else 0)

/-- `if (++ i > s->nfds) i = 0;` -/
def next (nfds i : Int) : Int := if i + 1 > nfds then 0 else i + 1

/-- The loop of `select_dispatch` for some more turns, with `callback_times`. -/
def selectLoop (callbacks : HandlerT → Callbacks) (ready : Ready) :
    Nat → Int → Int → Dispatching → Int × Dispatching
  | 0, _, times, d => (times, d)
  | turns + 1, i, times, d =>
      let i := next d.select.nfds i
      let res := ready.events i
      if res = 0 then selectLoop callbacks ready turns i times d
      else selectLoop callbacks ready turns i (times + 1) (selectCallback callbacks d i res)

/-- The loop that cleans the list of the expired handlers. -/
def cleanExpired (memory : Nat → HandlerT) (s : SelectT) : SelectT :=
  { s with
    handlerTable := s.expired.foldl (fun table ptr => (hashRemove table (some (memory ptr))).2)
      s.handlerTable
    expired := [] }

/-- `select_dispatch`, with the sets that `select` gives or its `errno`. -/
def selectDispatch (memory : Nat → HandlerT) (callbacks : HandlerT → Callbacks) (s : SelectT)
    (rand : Nat) (selected : Except Int Ready) : Int × Dispatching :=
  match selected with
  | .error errno => (if errno ≠ eintr then -errno else 1, ⟨s, []⟩)
  | .ok ready =>
      let i := (rand : Int) % (s.nfds + 1)
      let (times, d) := selectLoop callbacks ready (s.nfds + 1).toNat i 0 ⟨s, []⟩
      (times, { d with select := cleanExpired memory d.select })

/-! ## The order of the descriptors -/

/-- The descriptors of the loop, in their order. -/
def order (nfds : Int) : Nat → Int → List Int
  | 0, _ => []
  | turns + 1, i => next nfds i :: order nfds turns (next nfds i)

section
variable {nfds i : Int}

theorem next_eq (hLow : 0 ≤ i) (hHigh : i ≤ nfds) : next nfds i = (i + 1) % (nfds + 1) := by
  unfold next
  split
  · have hLast : i = nfds := by omega
    rw [hLast, Int.emod_self]
  · rw [Int.emod_eq_of_lt (by omega) (by omega)]

theorem next_inside (hLow : 0 ≤ i) (hHigh : i ≤ nfds) : 0 ≤ next nfds i ∧ next nfds i ≤ nfds := by
  unfold next
  split <;> omega

/-- The descriptors go around once they have come to the last one. -/
theorem order_eq (hLow : 0 ≤ i) (hHigh : i ≤ nfds) (turns : Nat) :
    order nfds turns i =
      (List.range turns).map fun j : Nat => (i + 1 + j) % (nfds + 1) := by
  induction turns generalizing i with
  | zero => rfl
  | succ turns ih =>
      obtain ⟨hLow', hHigh'⟩ := next_inside hLow hHigh
      rw [order, ih hLow' hHigh', List.range_succ_eq_map, List.map_cons, List.map_map]
      congr 1
      · rw [next_eq hLow hHigh]
        simp
      · apply List.map_congr_left
        intro j _
        rw [next_eq hLow hHigh, add_assoc, Int.emod_add_emod]
        congr 1
        simp only [Nat.succ_eq_add_one, Nat.cast_add, Nat.cast_one]
        omega

/-- Every descriptor has one turn. -/
theorem order_perm (hLow : 0 ≤ i) (hHigh : i ≤ nfds) :
    (order nfds (nfds + 1).toNat i).Perm ((List.range (nfds + 1).toNat).map Int.ofNat) := by
  have hPos : 0 < nfds + 1 := by omega
  rw [order_eq hLow hHigh]
  apply List.Subperm.perm_of_length_le
  · apply List.subperm_of_subset
    · apply List.Nodup.map_on _ List.nodup_range
      intro j hj k hk hSame
      have hMod : (j : Int) ≡ k [ZMOD nfds + 1] := Int.ModEq.add_left_cancel' (i + 1) hSame
      have hj' := List.mem_range.mp hj
      have hk' := List.mem_range.mp hk
      have hEq : (j : Int) % (nfds + 1) = (k : Int) % (nfds + 1) := hMod
      rw [Int.emod_eq_of_lt (by omega) (by omega), Int.emod_eq_of_lt (by omega) (by omega)] at hEq
      omega
    · intro fd hfd
      obtain ⟨j, -, rfl⟩ := List.mem_map.mp hfd
      have hNonneg := Int.emod_nonneg (i + 1 + j) hPos.ne'
      have hLess := Int.emod_lt_of_pos (i + 1 + j) hPos
      refine List.mem_map.mpr ⟨((i + 1 + j) % (nfds + 1)).toNat, ?_, ?_⟩
      · rw [List.mem_range]
        omega
      · exact Int.toNat_of_nonneg hNonneg
  · rw [List.length_map, List.length_map]

end

/-! ## The two dispatches side by side -/

/-- The events of `epoll` for those of a reactor. -/
def epollEvents (events : Nat) : Nat :=
  (if eventIn &&& events ≠ 0 then epollIn else 0) |||
    (if eventOut &&& events ≠ 0 then epollOut else 0)

/-- The turn of a handler, as the dispatch on `epoll` has it. -/
abbrev Callbacks.turn (callbacks : Callbacks) (h : HandlerT) (events : Nat) : Turn where
  events := epollEvents events
  h := h
  inFunc := callbacks.inFunc
  outFunc := callbacks.outFunc
  closeFunc := callbacks.closeFunc

/-- The turn of a descriptor, if it is ready and has a handler. -/
def turnOf (callbacks : HandlerT → Callbacks) (table : HashT HandlerT) (ready : Ready) (fd : Int) :
    Option Turn :=
  if ready.events fd = 0 then none
  else (hashFind table (some (tmp fd))).map fun h => (callbacks h).turn h (ready.events fd)

/-- The same has happened in both dispatches, and the one on `select` has changed neither its table
nor its greatest descriptor. -/
structure Same (s : SelectT) (d : Dispatching) (e : Dispatch) : Prop where
  trace : d.trace = e.trace
  expired : d.select.expired = e.epoll.expired
  table : d.select.handlerTable = s.handlerTable
  nfds : d.select.nfds = s.nfds

section
variable {s : SelectT} {d : Dispatching} {e : Dispatch}

theorem Same.unregister (hSame : Same s d e) (h : HandlerT) :
    Same s (d.unregister h) (e.unregister h) where
  trace := congrArg (· ++ _) hSame.trace
  expired := by
    rw [Dispatch.unregister, epollUnregister_expired, ← hSame.expired]
    rfl
  table := hSame.table
  nfds := hSame.nfds

theorem Same.unregisters (hSame : Same s d e) (hs : List HandlerT) :
    Same s (hs.foldl Dispatching.unregister d) (hs.foldl Dispatch.unregister e) := by
  induction hs generalizing d e with
  | nil => exact hSame
  | cons h hs ih => exact ih (hSame.unregister h)

theorem Same.call (hSame : Same s d e) (func : Func) (h : HandlerT) (callback : Callback) :
    Same s (d.call func h callback) (e.call func h callback) := by
  apply Same.unregisters
  exact ⟨congrArg (· ++ _) hSame.trace, hSame.expired, hSame.table, hSame.nfds⟩

private theorem epollEvents_in (events : Nat) :
    epollIn &&& epollEvents events ≠ 0 ∨ epollHup &&& epollEvents events ≠ 0 ↔
      eventIn &&& events ≠ 0 := by
  unfold epollEvents
  split_ifs with hIn hOut hOut <;> simp [hIn] <;> decide

private theorem epollEvents_out (events : Nat) :
    epollOut &&& epollEvents events ≠ 0 ↔ eventOut &&& events ≠ 0 := by
  unfold epollEvents
  split_ifs with hIn hOut hOut <;> simp [hOut] <;> decide

private theorem epollEvents_err (events : Nat) : ¬ epollErr &&& epollEvents events ≠ 0 := by
  unfold epollEvents
  split_ifs <;> decide

theorem Same.afterIn (hSame : Same s d e) (callbacks : Callbacks) (h : HandlerT) (events : Nat) :
    Same s (afterIn callbacks d h events) ((callbacks.turn h events).afterIn e) := by
  have hErr : ∀ e, (callbacks.turn h events).afterOut e = e := by
    intro e
    exact if_neg (epollEvents_err events)
  simp only [SelectDispatch.afterIn, Turn.afterIn, hErr, epollEvents_out]
  by_cases hOut : eventOut &&& events ≠ 0
  · by_cases hRet : callbacks.outFunc.ret < 0
    · simp only [if_pos hOut, if_pos hRet]
      exact (hSame.call _ _ _).call _ _ _
    · simp only [if_pos hOut, if_neg hRet]
      exact hSame.call _ _ _
  · simp only [if_neg hOut]
    exact hSame

/-- One turn, if there is a handler for the descriptor. -/
theorem Same.turn (hSame : Same s d e) (callbacks : HandlerT → Callbacks) (ready : Ready) (fd : Int)
    (hReady : ready.events fd ≠ 0) :
    Same s (selectCallback callbacks d fd (ready.events fd))
      ((turnOf callbacks s.handlerTable ready fd).toList.foldl epollTurn e) := by
  rw [selectCallback, turnOf, if_neg hReady, hSame.table]
  cases hashFind s.handlerTable (some (tmp fd)) with
  | none => exact hSame
  | some h =>
      simp only [Option.map_some, Option.toList_some, List.foldl_cons, List.foldl_nil, epollTurn,
        Callbacks.turn, epollEvents_in, hSame.expired]
      split_ifs
      · exact hSame
      · exact (hSame.call _ _ _).call _ _ _
      · exact (hSame.call _ _ _).afterIn (callbacks h) h (ready.events fd)
      · exact hSame.afterIn (callbacks h) h (ready.events fd)

/-- The loop: what it counts, and the turns that it takes. -/
theorem Same.loop (hSame : Same s d e) (callbacks : HandlerT → Callbacks) (ready : Ready)
    (turns : Nat) (i times : Int) :
    (selectLoop callbacks ready turns i times d).1 =
        times + (order s.nfds turns i).countP (ready.events · ≠ 0) ∧
      Same s (selectLoop callbacks ready turns i times d).2
        (((order s.nfds turns i).filterMap (turnOf callbacks s.handlerTable ready)).foldl
          epollTurn e) := by
  induction turns generalizing d e i times with
  | zero => exact ⟨(add_zero times).symm, hSame⟩
  | succ turns ih =>
      simp only [selectLoop, order, hSame.nfds]
      by_cases hReady : ready.events (next s.nfds i) = 0
      · obtain ⟨hCount, hRest⟩ := ih hSame (next s.nfds i) times
        have hTurn : turnOf callbacks s.handlerTable ready (next s.nfds i) = none := if_pos hReady
        rw [if_pos hReady, List.filterMap_cons_none hTurn, List.countP_cons_of_neg (by simpa)]
        exact ⟨hCount, hRest⟩
      · obtain ⟨hCount, hRest⟩ :=
          ih (hSame.turn callbacks ready _ hReady) (next s.nfds i) (times + 1)
        rw [if_neg hReady, List.countP_cons_of_pos (by simpa), List.filterMap_cons]
        refine ⟨by rw [hCount]; push_cast; omega, ?_⟩
        cases hTurn : turnOf callbacks s.handlerTable ready (next s.nfds i) <;>
          rw [hTurn] at hRest <;> exact hRest

end

/-- A dispatch on `select` gives every descriptor up to the greatest one a turn, returns how many of
them are ready, and calls and unregisters what a dispatch on `epoll` does for the same handlers in
this order. -/
theorem select_dispatch_same (memory : Nat → HandlerT) (callbacks : HandlerT → Callbacks)
    {s : SelectT} {epoll : EpollT} (hFds : 0 ≤ s.nfds) (hExpired : s.expired = epoll.expired)
    (rand : Nat) (ready : Ready) :
    ∃ fds : List Int, fds.Perm ((List.range (s.nfds + 1).toNat).map Int.ofNat) ∧
      (selectDispatch memory callbacks s rand (.ok ready)).1 =
        fds.countP (ready.events · ≠ 0) ∧
      (selectDispatch memory callbacks s rand (.ok ready)).2.trace =
        (epollDispatch epoll
          (.ok (fds.filterMap (turnOf callbacks s.handlerTable ready)))).2.trace := by
  have hPos : 0 < s.nfds + 1 := by omega
  have hLow := Int.emod_nonneg rand hPos.ne'
  have hHigh := Int.emod_lt_of_pos rand hPos
  have hStart : Same s ⟨s, []⟩ ⟨epoll, []⟩ := ⟨rfl, hExpired, rfl, rfl⟩
  obtain ⟨hCount, hSame⟩ :=
    hStart.loop callbacks ready (s.nfds + 1).toNat (rand % (s.nfds + 1)) 0
  refine ⟨_, order_perm hLow (by omega), ?_, hSame.trace⟩
  rw [zero_add] at hCount
  exact hCount

/-- A registered connection. -/
def oneReader : SelectT where
  nfds := 5
  inPrepare := fdSet 5 fun _ => false
  outPrepare := fun _ => false
  handlerTable := ⟨3072, 1, handleHash, handleCmp, fun i => if i = 5 then [⟨1, 5⟩] else []⟩
  expired := []

/-- Its callbacks unregister nothing. -/
def reads (_ : HandlerT) : Callbacks := ⟨⟨[], 0⟩, ⟨[], 0⟩, ⟨[], 0⟩⟩

theorem select_dispatch_same_reader :
    ∃ fds : List Int, fds.Perm ((List.range (oneReader.nfds + 1).toNat).map Int.ofNat) ∧
      (selectDispatch (⟨·, 5⟩) reads oneReader 3 (.ok ⟨oneReader.inPrepare, fun _ => false⟩)).1 =
        fds.countP (Ready.events ⟨oneReader.inPrepare, fun _ => false⟩ · ≠ 0) ∧
      (selectDispatch (⟨·, 5⟩) reads oneReader 3
          (.ok ⟨oneReader.inPrepare, fun _ => false⟩)).2.trace =
        (epollDispatch ⟨fun _ => none, []⟩ (.ok (fds.filterMap (turnOf reads
          oneReader.handlerTable ⟨oneReader.inPrepare, fun _ => false⟩)))).2.trace :=
  select_dispatch_same (⟨·, 5⟩) reads (by decide) rfl 3 ⟨oneReader.inPrepare, fun _ => false⟩

end Gbase.Net.SelectDispatch
