import Gbase.Base.TimerLinked
import Gbase.Lib.Run

/-!
# Runs of the timer heap

What a client sees of a timer heap is the multiset of its pending timers.  `timer_poll`
trusts the top of the heap, so it is right exactly on heaps in order: an unregistered timer
whose place is taken by an earlier one than its parent can hide a due timer.  The other two
ways to go wrong are running out of keys, which popped timers never give back, and sums of
time values.  A sum may overflow, lead back in time, or be left with a whole second or more in
its microseconds, where a later instant compares as an earlier one.  The specification knows
instants, in microseconds, and nothing of how they are stored or compared.

## Main results

* `pollLoop_spec`: on a heap in order, polling fires exactly the due timers, in order of
  expiry, and ends.
* `Polled.spec`: this is what it is to do in terms of instants, if these are normalized.
* `timer_run_spec`: every operation of a run does its part, if each operation of the run
  meets `StaysInOrder`.
-/

namespace Gbase.Base.Timer

open Gbase.Base.Heap
open Gbase.Lib.Comparator
open Gbase.Lib.ImplicitHeap
open Gbase.Lib.Run
open Gbase.Util.UtilTime

/-! ## Timers in order -/

/-- The heap is usable and in order, each timer knows its key, and no two nodes point to
the same timer. -/
structure TimerInv (timer : TimerheapT) : Prop where
  usable : Usable timer.heap
  ids : ∀ n ∈ timer.heap.entries, (timerOf timer.mem n).timerId = n.heapKey
  owned : (timer.heap.entries.map NodeT.data).Nodup
  ordered : HeapOrdered (timerCmp timer.mem) timer.heap

theorem timerCmp_totalPreorder (mem : Nat → TimerNode) : TotalPreorder (timerCmp mem) :=
  utilTimeCompare_totalPreorder.comap fun p => (mem p).expireTime

theorem TimerInv.linked {timer : TimerheapT} (hInv : TimerInv timer) : TimerLinked timer :=
  ⟨hInv.usable.live, hInv.ids⟩

theorem TimerLinked.inv {timer : TimerheapT} (hLinked : TimerLinked timer)
    (hUsable : Usable timer.heap) (hOrd : HeapOrdered (timerCmp timer.mem) timer.heap) :
    TimerInv timer :=
  ⟨hUsable, hLinked.ids, hLinked.owned, hOrd⟩

theorem timerCreateHeap_inv (mem : Nat → TimerNode) : TimerInv (timerCreateHeap mem) where
  usable := heapCreate_usable
  ids := by simp [timerCreateHeap, HeapT.entries, heapCreate]
  owned := by simp [timerCreateHeap, HeapT.entries, heapCreate]
  ordered := by
    intro i _ hin
    exact absurd hin (Nat.not_lt_zero i)

section Memory

variable {heap : HeapT Nat} {mem : Nat → TimerNode}

/-- The order of two nodes depends on the expiry times of their timers only. -/
theorem nodeLe_congr {mem' : Nat → TimerNode} (hLive : Live heap) {i j : Nat}
    (hi : i < heap.size) (hj : j < heap.size)
    (hI : (timerOf mem' (heap.array i)).expireTime = (timerOf mem (heap.array i)).expireTime)
    (hJ : (timerOf mem' (heap.array j)).expireTime = (timerOf mem (heap.array j)).expireTime)
    (hLe : nodeLe (timerCmp mem) (heap.array i) (heap.array j)) :
    nodeLe (timerCmp mem') (heap.array i) (heap.array j) := by
  obtain ⟨p, hp⟩ := hLive.data i hi
  obtain ⟨q, hq⟩ := hLive.data j hj
  simp only [timerOf, hp, hq, Option.getD_some] at hI hJ
  simp only [nodeLe, hp, hq, timerCmp] at hLe ⊢
  rw [hI, hJ]
  exact hLe

private theorem ordered_congr {mem' : Nat → TimerNode} (hLive : Live heap)
    (hSame : ∀ n ∈ heap.entries,
      (timerOf mem' n).expireTime = (timerOf mem n).expireTime)
    (hOrd : HeapOrdered (timerCmp mem) heap) : HeapOrdered (timerCmp mem') heap := by
  intro i hi hin
  have hUp := parent_lt hi
  have hup : parent i < heap.size := by omega
  exact nodeLe_congr hLive hup hin (hSame _ (array_mem_entries hup))
    (hSame _ (array_mem_entries hin)) (hOrd i hi hin)

end Memory

/-! ## Registering and unregistering -/

theorem TimerInv.write {timer : TimerheapT} (hInv : TimerInv timer) {ptr : Nat}
    (hFresh : timer.Fresh ptr) (node : TimerNode) :
    TimerInv (timer.write ptr node) ∧ (timer.write ptr node).pending = timer.pending := by
  obtain ⟨hLinked, hPending⟩ := hInv.linked.write hFresh node
  refine ⟨hLinked.inv hInv.usable ?_, hPending⟩
  apply ordered_congr hInv.usable.live _ hInv.ordered
  intro n hn
  exact congrArg TimerNode.expireTime (timerOf_update hInv.usable.live hn (hFresh.entries hn))

theorem TimerInv.insert {timer : TimerheapT} (hInv : TimerInv timer) {ptr : Nat}
    (hFresh : timer.Fresh ptr) {heap' : HeapT Nat} {key : Int} (hU' : Usable heap')
    (hEntries : heap'.entries = { data := some ptr, heapKey := key } ::ₘ timer.heap.entries)
    (hOrd : HeapOrdered (timerCmp timer.mem) heap') (node : TimerNode)
    (hId : node.timerId = key) (hExpire : node.expireTime = (timer.mem ptr).expireTime) :
    TimerInv (TimerheapT.write { timer with heap := heap' } ptr node) ∧
      (TimerheapT.write { timer with heap := heap' } ptr node).pending =
        node ::ₘ timer.pending := by
  obtain ⟨hLinked, hPending⟩ := hInv.linked.insert hFresh hU'.live hEntries node hId
  refine ⟨hLinked.inv hU' ?_, hPending⟩
  apply ordered_congr hU'.live _ hOrd
  intro n hn
  rw [hEntries, Multiset.mem_cons] at hn
  rcases hn with rfl | hn
  · have hNew : timerOf (Function.update timer.mem ptr node)
        { data := some ptr, heapKey := key } = node := by simp [timerOf]
    exact (congrArg TimerNode.expireTime hNew).trans hExpire
  · exact congrArg TimerNode.expireTime
      (timerOf_update hInv.usable.live hn (hFresh.entries hn))

/-- What `timer_register` does behind filling in the node: the heap takes the timer under its next
key, which is the id, or there is no memory for that. -/
theorem timerRegister_cases {timer timer₁ : TimerheapT} {ptr : Nat} {clock delay expire : Timeval}
    {interval : Option Timeval} {cb args : Nat}
    (hWritten : timer.write ptr (registered (timer.mem ptr).timerId expire interval cb args) =
      timer₁)
    (hUsable : Usable timer₁.heap) (hKey : KeyAtHand timer₁.heap) (ok : Bool)
    (hSum : utilTimeAdd clock delay = some expire) :
    (∃ heap', (timer₁.heap.cap = timer₁.heap.size → ok = true) ∧
      heapInsert (timerCmp timer₁.mem) ok timer₁.heap (some ptr) =
        some (timer₁.heap.nextKey, heap') ∧
      0 ≤ timer₁.heap.nextKey ∧
      timerRegister ok ptr clock timer interval delay cb args = some (timer₁.heap.nextKey,
        TimerheapT.write { timer₁ with heap := heap' } ptr
          { timer₁.mem ptr with timerId := timer₁.heap.nextKey })) ∨
    ok = false ∧
      timerRegister ok ptr clock timer interval delay cb args =
        some (timerInvalidId, timer₁.write ptr { timer₁.mem ptr with timerId := -1 }) := by
  unfold timerRegister
  rw [hSum, Option.bind_eq_bind, Option.bind_some, hWritten]
  by_cases hMem : timer₁.heap.cap = timer₁.heap.size → ok = true
  · obtain ⟨heap', hRun, -⟩ := heapInsert_usable (timerCmp timer₁.mem) hUsable hKey ptr hMem
    obtain ⟨next, hNext, -⟩ := hUsable.freeKey hKey
    have hId : ¬ timer₁.heap.nextKey < 0 := by omega
    refine Or.inl ⟨heap', hMem, hRun, Int.not_lt.mp hId, ?_⟩
    simp only [hRun, Option.bind_eq_bind, Option.bind_some, if_neg hId]
    rfl
  · simp only [Classical.not_imp, Bool.not_eq_true] at hMem
    obtain ⟨hFull, rfl⟩ := hMem
    refine Or.inr ⟨rfl, ?_⟩
    simp only [heapInsert_noMem _ hFull, Option.bind_eq_bind, Option.bind_some]
    rfl

/-- `timer_register` adds the timer under an id no pending timer has, or fails for want of
memory and changes nothing. -/
theorem timerRegister_spec {timer : TimerheapT} (hInv : TimerInv timer) {ptr : Nat}
    (hFresh : timer.Fresh ptr) (hKey : KeyAtHand timer.heap) (ok : Bool)
    {clock delay expire : Timeval} (hSum : utilTimeAdd clock delay = some expire)
    (interval : Option Timeval) (cb args : Nat) :
    ∃ id timer', timerRegister ok ptr clock timer interval delay cb args = some (id, timer') ∧
      TimerInv timer' ∧
      ((ok = false ∧ id = timerInvalidId ∧ timer'.pending = timer.pending) ∨
        (0 ≤ id ∧ (∀ n ∈ timer.pending, n.timerId ≠ id) ∧
          timer'.pending = registered id expire interval cb args ::ₘ timer.pending)) := by
  have hPtr := write_mem_self timer ptr
    (registered (timer.mem ptr).timerId expire interval cb args)
  have hHeap := write_heap timer ptr
    (registered (timer.mem ptr).timerId expire interval cb args)
  obtain ⟨hInv₁, hPending₁⟩ :=
    hInv.write hFresh (registered (timer.mem ptr).timerId expire interval cb args)
  have hCases := @timerRegister_cases timer _ ptr clock delay expire interval cb args rfl
    hInv₁.usable hKey ok hSum
  generalize timer.write ptr
    (registered (timer.mem ptr).timerId expire interval cb args) = timer₁ at *
  have hFresh₁ : timer₁.Fresh ptr := by
    unfold TimerheapT.Fresh
    rw [hHeap]
    exact hFresh
  rw [← hHeap] at hKey
  rw [← hPending₁]
  rcases hCases with ⟨heap', hMem, hInsert, hId, hRun⟩ | ⟨rfl, hRun⟩
  · obtain ⟨heap₁, hInsert₁, hU', hEntries, hNew, hOrd⟩ :=
      heapInsert_usable (timerCmp timer₁.mem) hInv₁.usable hKey ptr hMem
    rw [hInsert] at hInsert₁
    cases hInsert₁
    obtain ⟨hInv', hPending'⟩ := hInv₁.insert hFresh₁ hU' hEntries
      (hOrd (timerCmp_totalPreorder timer₁.mem) hInv₁.ordered)
      { timer₁.mem ptr with timerId := timer₁.heap.nextKey } rfl rfl
    refine ⟨_, _, hRun, hInv', Or.inr ⟨hId, ?_, ?_⟩⟩
    · intro n hn hEq
      obtain ⟨e, he, rfl⟩ := Multiset.mem_map.mp hn
      rw [hInv₁.ids e he] at hEq
      exact hNew (hasKey_iff_entries.mpr ⟨e, he, hEq⟩)
    · rw [hPending', hPtr]
      rfl
  · obtain ⟨hInv', hPending'⟩ := hInv₁.write hFresh₁ { timer₁.mem ptr with timerId := -1 }
    exact ⟨_, _, hRun, hInv', Or.inl ⟨rfl, rfl, hPending'⟩⟩

theorem TimerInv.remove {timer : TimerheapT} (hInv : TimerInv timer) {heap' : HeapT Nat}
    {n : NodeT Nat} (hU' : Usable heap') (hEntries : timer.heap.entries = n ::ₘ heap'.entries)
    (hOrd : HeapOrdered (timerCmp timer.mem) heap') :
    TimerInv { timer with heap := heap' } ∧
      timer.pending =
        timerOf timer.mem n ::ₘ TimerheapT.pending { timer with heap := heap' } := by
  obtain ⟨hLinked, hPending⟩ := hInv.linked.remove hU'.live hEntries
  exact ⟨hLinked.inv hU' hOrd, hPending⟩

/-- `timer_unregister` of a pending timer takes that timer out, and keeps the order when the
heap's last node fits in its place. -/
theorem timerUnregister_spec {timer : TimerheapT} (hInv : TimerInv timer) {i : Nat}
    (hi : i < timer.heap.size) (hFits : TailFits (timerCmp timer.mem) timer.heap i) :
    ∃ timer', timerUnregister timer (timer.heap.array i).heapKey = some timer' ∧
      TimerInv timer' ∧
      timer.pending = timerOf timer.mem (timer.heap.array i) ::ₘ timer'.pending := by
  obtain ⟨heap', hRun, hU', hEntries, hOrd⟩ :=
    heapErase_usable (timerCmp timer.mem) hInv.usable hi rfl
  have hRange := hInv.usable.live.key i hi
  have hDone := hInv.remove hU' hEntries
    ((hOrd (timerCmp_totalPreorder timer.mem) hInv.ordered).mpr hFits)
  refine ⟨{ timer with heap := heap' }, ?_, hDone.1, hDone.2⟩
  rw [timerUnregister, if_neg (by omega), hRun]
  rfl

/-! ## One turn of the poll -/

/-- Popping the top. -/
theorem TimerInv.pop {timer : TimerheapT} (hInv : TimerInv timer) (hSize : 0 < timer.heap.size) :
    ∃ heap', heapPop (timerCmp timer.mem) timer.heap =
        some ((timer.heap.array 0).data, heap') ∧
      TimerInv { timer with heap := heap' } ∧
      timer.pending = timerOf timer.mem (timer.heap.array 0) ::ₘ
        TimerheapT.pending { timer with heap := heap' } := by
  obtain ⟨heap', hRun, hU', hEntries, hOrd⟩ :=
    heapPop_usable (timerCmp timer.mem) hInv.usable hSize
  exact ⟨heap', hRun,
    hInv.remove hU' hEntries (hOrd (timerCmp_totalPreorder timer.mem) hInv.ordered)⟩

/-- Changing the top timer and sifting it down. -/
theorem TimerInv.rearm {timer : TimerheapT} (hInv : TimerInv timer)
    (hSize : 0 < timer.heap.size) {top : Nat} (hTop : (timer.heap.array 0).data = some top)
    {node : TimerNode} (hId : node.timerId = (timer.mem top).timerId) :
    ∃ heap' rest, heapUpdate (timerCmp (timer.write top node).mem) timer.heap
        (timer.mem top).timerId (some top) = some heap' ∧
      TimerInv { timer.write top node with heap := heap' } ∧
      timer.pending = timer.mem top ::ₘ rest ∧
      TimerheapT.pending { timer.write top node with heap := heap' } = node ::ₘ rest := by
  have hLive := hInv.usable.live
  obtain ⟨heap', rest, hRun, hRot, hRe, hLinked, hOld, hNew⟩ := hInv.linked.rearm hSize hTop hId
  refine ⟨heap', rest, hRun, hLinked.inv ?_ ?_, hOld, hNew⟩
  · refine ⟨hLinked.live, ?_, hRe.next_free hLive hInv.usable.next⟩
    rw [hRe.cap]
    exact hInv.usable.cap_pos
  · obtain ⟨heap'', hRot', -, -, hOrd⟩ :=
      heapRotdown_spec (timerCmp (timer.write top node).mem) hLive 0
    obtain rfl : heap' = heap'' := by
      rw [hRot] at hRot'
      exact Option.some.inj hRot'
    refine hOrd (timerCmp_totalPreorder _) ⟨?_, fun h => absurd h (Nat.lt_irrefl 0)⟩
    intro i hi hin hne
    have hUp := parent_lt hi
    have hSame := @TimerLinked.timerOf_write_top timer hInv.linked hSize top hTop node
    exact nodeLe_congr hLive (by omega) hin
      (congrArg TimerNode.expireTime (hSame hne (by omega)))
      (congrArg TimerNode.expireTime (hSame (by omega) hin))
      (hInv.ordered i hi hin)

/-- A turn of the poll at a due timer. -/
theorem TimerInv.turn {timer : TimerheapT} (hInv : TimerInv timer) {now : Timeval} {top : Nat}
    (hTop : heapTop timer.heap = some top) (hDue : (timer.mem top).due now) {ret : Int}
    (hAgain : Stays (timer.mem top, ret) → ∃ next, (timer.mem top).rearmed now = some next) :
    ∃ timer₁ rest, pollTurn now ret timer = some (some (timer.mem top, timer₁)) ∧
      TimerInv timer₁ ∧ timer.pending = timer.mem top ::ₘ rest ∧
      timer₁.pending = ↑(again now (timer.mem top, ret)).toList + rest := by
  obtain ⟨hSize, hData⟩ := heapTop_eq_some hTop
  by_cases hStays : Stays (timer.mem top, ret)
  · obtain ⟨next, hNext⟩ := hAgain hStays
    have hId : next.timerId = (timer.mem top).timerId := by
      rw [(rearmed_eq_some.mp hNext).2]
    obtain ⟨heap', rest, hUpdate, hInv₁, hOld, hNew⟩ :=
      @TimerInv.rearm timer hInv hSize top hData next hId
    refine ⟨_, rest, pollTurn_rearm hTop hDue hStays hNext hUpdate, hInv₁, hOld, ?_⟩
    rw [hNew, again, if_pos hStays, hNext]
    rfl
  · obtain ⟨heap', hPop, hInv₁, hOld⟩ := hInv.pop hSize
    have hTopOf : timerOf timer.mem (timer.heap.array 0) = timer.mem top := by
      simp [timerOf, hData]
    rw [hTopOf] at hOld
    refine ⟨_, _, pollTurn_pop hTop hDue hStays hPop, hInv₁, hOld, ?_⟩
    rw [again, if_neg hStays]
    simp

/-! ## Polling -/

/-- All due timers with an interval are given an expiry time that is not due. -/
def TimerheapT.Forward (timer : TimerheapT) (now : Timeval) : Prop :=
  ∀ n ∈ timer.pending, n.due now → n.repeats →
    ∃ next, n.rearmed now = some next ∧ ¬ next.due now

/-- What one poll does to the pending timers: `fired` lists the invoked callbacks with their
results, which are `rets` from `i` on. -/
structure Polled (now : Timeval) (rets : Nat → Int) (i : Nat) (before : Multiset TimerNode)
    (fired : List (TimerNode × Int)) (after : Multiset TimerNode) : Prop where
  due : ↑(fired.map Prod.fst) = before.filter fun n => n.due now
  sorted : fired.Pairwise fun a b => utilTimeCompare a.1.expireTime b.1.expireTime ≤ 0
  results : ∀ k f, fired[k]? = some f → f.2 = rets (i + k)
  kept : after = ↑(fired.filterMap (again now)) + before.filter fun n => ¬ n.due now
  noneDue : ∀ n ∈ after, ¬ n.due now

theorem Polled.nil {now : Timeval} {rets : Nat → Int} {i : Nat} {before : Multiset TimerNode}
    (hNone : ∀ n ∈ before, ¬ n.due now) : Polled now rets i before [] before where
  due := (Multiset.filter_eq_nil.mpr hNone).symm
  sorted := List.Pairwise.nil
  results := by
    intro k f hk
    simp at hk
  kept := by
    rw [Multiset.filter_eq_self.mpr hNone]
    simp
  noneDue := hNone

/-- A turn that fires the earliest timer, followed by the rest of the poll. -/
theorem Polled.cons {now : Timeval} {rets : Nat → Int} {i : Nat} {n : TimerNode}
    {rest after : Multiset TimerNode} {fired : List (TimerNode × Int)} (hDue : n.due now)
    (hMin : ∀ m ∈ rest, utilTimeCompare n.expireTime m.expireTime ≤ 0)
    (hAgain : ∀ m ∈ (↑(again now (n, rets i)).toList : Multiset TimerNode), ¬ m.due now)
    (h : Polled now rets (i + 1) (↑(again now (n, rets i)).toList + rest) fired after) :
    Polled now rets i (n ::ₘ rest) ((n, rets i) :: fired) after := by
  have hFired : ↑(fired.map Prod.fst) = rest.filter fun m => m.due now := by
    rw [h.due, Multiset.filter_add, Multiset.filter_eq_nil.mpr hAgain, Multiset.zero_add]
  constructor
  · rw [List.map_cons, ← Multiset.cons_coe, hFired,
      Multiset.filter_cons_of_pos (p := fun m => m.due now) rest hDue]
  · rw [List.pairwise_cons]
    refine ⟨?_, h.sorted⟩
    intro f hf
    apply hMin
    have hIn : f.1 ∈ (↑(fired.map Prod.fst) : Multiset TimerNode) :=
      Multiset.mem_coe.mpr (List.mem_map_of_mem hf)
    rw [hFired] at hIn
    exact Multiset.mem_of_mem_filter hIn
  · intro k f hk
    cases k with
    | zero =>
        rw [List.getElem?_cons_zero, Option.some.injEq] at hk
        rw [← hk]
        rfl
    | succ k =>
        rw [List.getElem?_cons_succ] at hk
        rw [h.results k f hk]
        congr 1
        omega
  · rw [h.kept, Multiset.filter_add, Multiset.filter_eq_self.mpr hAgain,
      Multiset.filter_cons_of_neg (p := fun m => ¬ m.due now) rest (not_not.mpr hDue)]
    cases hOne : again now (n, rets i) with
    | none => simp [List.filterMap_cons_none hOne]
    | some m =>
        simp [List.filterMap_cons_some hOne, Multiset.add_cons, ← Multiset.cons_coe,
          Multiset.cons_add]
  · exact h.noneDue

/-- The top of the heap is an earliest pending timer. -/
theorem TimerInv.top {timer : TimerheapT} (hInv : TimerInv timer) (hSize : 0 < timer.heap.size) :
    ∃ top, heapTop timer.heap = some top ∧ (timer.heap.array 0).data = some top ∧
      timerOf timer.mem (timer.heap.array 0) = timer.mem top ∧
      ∀ n ∈ timer.pending, utilTimeCompare (timer.mem top).expireTime n.expireTime ≤ 0 := by
  have hPre := timerCmp_totalPreorder timer.mem
  obtain ⟨top, hTop⟩ := hInv.usable.live.data 0 hSize
  refine ⟨top, by rw [heapTop, if_pos hSize, hTop], hTop, by simp [timerOf, hTop], ?_⟩
  intro n hn
  obtain ⟨e, he, rfl⟩ := Multiset.mem_map.mp hn
  obtain ⟨i, hi, rfl⟩ := mem_entries.mp he
  obtain ⟨p, hp⟩ := hInv.usable.live.data i hi
  have hLe := hInv.ordered.top_le (nodeLe_refl hPre) (nodeLe_trans hPre) i hi
  simp only [nodeLe, hTop, hp] at hLe
  simp only [timerOf, hp, Option.getD_some]
  exact hLe

/-- On a heap in order, the poll ends and fires exactly the due timers, the earliest first.
The induction is on the turns: each turn settles one due timer. -/
theorem pollLoop_spec (now : Timeval) (rets : Nat → Int) (fuel : Nat) :
    ∀ (i : Nat) {timer : TimerheapT}, TimerInv timer → timer.Forward now →
      (timer.pending.filter fun n => n.due now).card < fuel →
      ∃ fired timer', pollLoop now rets fuel i timer = some (fired, timer') ∧
        TimerInv timer' ∧ Polled now rets i timer.pending fired timer'.pending := by
  induction fuel with
  | zero =>
      intro i timer _ _ hFuel
      exact absurd hFuel (Nat.not_lt_zero _)
  | succ fuel ih =>
      intro i timer hInv hForward hFuel
      rcases Nat.eq_zero_or_pos timer.heap.size with hSize | hSize
      · have hTop : heapTop timer.heap = none := by
          rw [heapTop, if_neg (by omega)]
        have hNone : timer.pending = 0 := by
          simp [TimerheapT.pending, HeapT.entries, hSize]
        refine ⟨[], timer, ?_, hInv, Polled.nil ?_⟩
        · rw [pollLoop, pollTurn_stop]
          intro p hp
          rw [hTop] at hp
          cases hp
        · simp [hNone]
      · obtain ⟨top, hTop, hData, hTopOf, hMin⟩ := hInv.top hSize
        by_cases hDue : (timer.mem top).due now
        · have hTopForward : Stays (timer.mem top, rets i) →
              ∃ next, (timer.mem top).rearmed now = some next ∧ ¬ next.due now :=
            fun hStays => hForward _ (top_pending hTop) hDue hStays.2
          obtain ⟨timer₁, rest, hTurn, hInv₁, hOld, hNew⟩ :=
            hInv.turn hTop hDue fun hStays => (hTopForward hStays).imp fun _ h => h.1
          have hAgain := again_not_due hTopForward
          have hForward₁ : timer₁.Forward now := by
            intro n hn hnDue
            rw [hNew] at hn
            rcases Multiset.mem_add.mp hn with hn | hn
            · exact absurd hnDue (hAgain n hn)
            · exact hForward n (by rw [hOld]; exact Multiset.mem_cons_of_mem hn) hnDue
          have hCard : (timer₁.pending.filter fun n => n.due now).card < fuel := by
            rw [hNew, Multiset.filter_add, Multiset.filter_eq_nil.mpr hAgain, Multiset.zero_add]
            rw [hOld, Multiset.filter_cons_of_pos (p := fun n => n.due now) rest hDue,
              Multiset.card_cons] at hFuel
            omega
          obtain ⟨fired, timer', hRun, hInv', hPolled⟩ := ih (i + 1) hInv₁ hForward₁ hCard
          rw [hNew] at hPolled
          rw [hOld] at hMin
          refine ⟨(timer.mem top, rets i) :: fired, timer', ?_, hInv', ?_⟩
          · rw [pollLoop, hTurn]
            simp only [hRun, Option.bind_eq_bind, Option.bind_some]
            rfl
          · rw [hOld]
            exact Polled.cons hDue (fun m hm => hMin m (Multiset.mem_cons_of_mem hm)) hAgain hPolled
        · refine ⟨[], timer, ?_, hInv, Polled.nil ?_⟩
          · rw [pollLoop, pollTurn_stop]
            intro p hp
            rw [hTop] at hp
            cases hp
            exact hDue
          · intro n hn hnDue
            exact hDue (utilTimeCompare_totalPreorder.lt_of_le_of_lt (hMin n hn) hnDue)

/-! ## Polling in terms of instants -/

/-- `n`, to expire when its interval has passed since `now`. -/
structure Rearmed (now : Timeval) (n next : TimerNode) : Prop where
  same : next = { n with expireTime := next.expireTime }
  normalized : next.expireTime.Normalized
  expire : next.expireTime.micros = now.micros + n.intervalTime.micros

/-- What a poll is for.  `before` are the pending timers, and `fired` the callbacks that are invoked
with their results: those of the timers to expire before `now`, the earliest first.  Of these
timers, the ones with an interval whose callback does not return a negative value stay, to expire
when that has passed, and the others go. -/
structure PollSpec (now : Timeval) (rets : Nat → Int) (before : Multiset TimerNode)
    (fired : List (TimerNode × Int)) (after : Multiset TimerNode) : Prop where
  due : ↑(fired.map Prod.fst) = before.filter fun n => n.expireTime.micros < now.micros
  sorted : fired.Pairwise fun a b => a.1.expireTime.micros ≤ b.1.expireTime.micros
  results : ∀ k f, fired[k]? = some f → f.2 = rets k
  kept : ∃ kept, List.Forall₂ (Rearmed now) ((fired.filter fun f => Stays f).map Prod.fst) kept ∧
    after = ↑kept + before.filter fun n => ¬ n.expireTime.micros < now.micros
  noneDue : ∀ n ∈ after, ¬ n.expireTime.micros < now.micros

/-- The timers that a poll may arm again are given an exact expiry time, which does not lead
back. -/
def TimerheapT.Exactly (timer : TimerheapT) (now : Timeval) : Prop :=
  ∀ n ∈ timer.pending, n.expireTime.micros < now.micros → n.repeats →
    SumExact now n.intervalTime ∧ 0 ≤ n.intervalTime.micros

theorem rearmed_of_exact {n : TimerNode} {now : Timeval} (hSum : SumExact now n.intervalTime) :
    ∃ next, n.rearmed now = some next ∧ Rearmed now n next := by
  obtain ⟨expire, hAdd, hNorm, hMicros⟩ := utilTimeAdd_exact_iff.mpr hSum
  exact ⟨{ n with expireTime := expire }, rearmed_eq_some.mpr ⟨hAdd, rfl⟩, rfl, hNorm, hMicros⟩

theorem TimerheapT.Exactly.forward {timer : TimerheapT} {now : Timeval}
    (hExact : timer.Exactly now) (hNow : now.Normalized)
    (hNorm : ∀ n ∈ timer.pending, n.expireTime.Normalized) : timer.Forward now := by
  intro n hn hDue hRep
  obtain ⟨hSum, hBack⟩ := hExact n hn ((utilTimeCompare_lt_iff (hNorm n hn) hNow).mp hDue) hRep
  obtain ⟨next, hNext, hRearmed⟩ := rearmed_of_exact hSum
  refine ⟨next, hNext, ?_⟩
  rw [TimerNode.due, utilTimeCompare_lt_iff hRearmed.normalized hNow, hRearmed.expire]
  omega

/-- What the fired timers leave, one by one. -/
theorem filterMap_again {now : Timeval} {fired : List (TimerNode × Int)}
    (hExact : ∀ f ∈ fired, Stays f → SumExact now f.1.intervalTime) :
    List.Forall₂ (Rearmed now) ((fired.filter fun f => Stays f).map Prod.fst)
      (fired.filterMap (again now)) := by
  induction fired with
  | nil => exact List.Forall₂.nil
  | cons f fired ih =>
      have hRest := ih fun g hg => hExact g (List.mem_cons_of_mem f hg)
      by_cases hStays : Stays f
      · obtain ⟨next, hNext, hRearmed⟩ :=
          rearmed_of_exact (hExact f List.mem_cons_self hStays)
        have hAgain : again now f = some next := (if_pos hStays).trans hNext
        rw [List.filter_cons_of_pos (by simp [hStays]), List.filterMap_cons_some hAgain,
          List.map_cons]
        exact List.Forall₂.cons hRearmed hRest
      · have hAgain : again now f = none := if_neg hStays
        rw [List.filter_cons_of_neg (by simp [hStays]), List.filterMap_cons_none hAgain]
        exact hRest

/-- On normalized expiry times the comparison is by instants, so a poll does what it is for. -/
theorem Polled.spec {timer : TimerheapT} {now : Timeval} {rets : Nat → Int}
    {fired : List (TimerNode × Int)} {after : Multiset TimerNode}
    (hPolled : Polled now rets 0 timer.pending fired after) (hNow : now.Normalized)
    (hNorm : ∀ n ∈ timer.pending, n.expireTime.Normalized) (hExact : timer.Exactly now) :
    PollSpec now rets timer.pending fired after ∧ ∀ n ∈ after, n.expireTime.Normalized := by
  have hDueIff : ∀ n ∈ timer.pending, n.due now ↔ n.expireTime.micros < now.micros :=
    fun n hn => utilTimeCompare_lt_iff (hNorm n hn) hNow
  have hFired : ∀ f ∈ fired, f.1 ∈ timer.pending ∧ f.1.due now := by
    intro f hf
    have hIn : f.1 ∈ (↑(fired.map Prod.fst) : Multiset TimerNode) :=
      Multiset.mem_coe.mpr (List.mem_map_of_mem hf)
    rw [hPolled.due] at hIn
    exact Multiset.mem_filter.mp hIn
  have hSums : ∀ f ∈ fired, Stays f → SumExact now f.1.intervalTime := by
    intro f hf hStays
    obtain ⟨hIn, hDue⟩ := hFired f hf
    exact (hExact f.1 hIn ((hDueIff _ hIn).mp hDue) hStays.2).1
  have hKept := filterMap_again hSums
  have hNorm' : ∀ n ∈ after, n.expireTime.Normalized := by
    rw [hPolled.kept]
    intro n hn
    rcases Multiset.mem_add.mp hn with hn | hn
    · obtain ⟨f, hf, hAgain⟩ := List.mem_filterMap.mp (Multiset.mem_coe.mp hn)
      rw [again] at hAgain
      split at hAgain
      · next hStays =>
          obtain ⟨next, hNext, hRearmed⟩ := rearmed_of_exact (hSums f hf hStays)
          rw [hNext] at hAgain
          cases hAgain
          exact hRearmed.normalized
      · cases hAgain
    · exact hNorm n (Multiset.mem_of_mem_filter hn)
  refine ⟨⟨?_, ?_, ?_, ⟨_, hKept, ?_⟩, ?_⟩, hNorm'⟩
  · rw [hPolled.due]
    exact Multiset.filter_congr hDueIff
  · apply hPolled.sorted.imp_of_mem
    intro f g hf hg hLe
    have hNot : ¬ utilTimeCompare g.1.expireTime f.1.expireTime < 0 := by
      have hSwap := utilTimeCompare_totalPreorder.swap f.1.expireTime g.1.expireTime
      omega
    rw [utilTimeCompare_lt_iff (hNorm _ (hFired g hg).1) (hNorm _ (hFired f hf).1)] at hNot
    omega
  · intro k f hk
    rw [hPolled.results k f hk, Nat.zero_add]
  · rw [hPolled.kept]
    congr 1
    exact Multiset.filter_congr fun n hn => not_congr (hDueIff n hn)
  · intro n hn hLess
    exact hPolled.noneDue n hn ((utilTimeCompare_lt_iff (hNorm' n hn) hNow).mpr hLess)

/-! ## Runs -/

/-- The calls of a client, with what comes from outside. -/
inductive TimerOp where
  | register (ok : Bool) (ptr : Nat) (clock : Timeval) (interval : Option Timeval)
      (delay : Timeval) (cb args : Nat)
  | unregister (timerId : Int)
  | poll (now : Timeval) (rets : Nat → Int) (fuel : Nat)

inductive TimerResult where
  | id (timerId : Int)
  | done
  | fired (callbacks : List (TimerNode × Int))

def timerStep : Step TimerheapT TimerOp TimerResult
  | timer, .register ok ptr clock interval delay cb args =>
      (timerRegister ok ptr clock timer interval delay cb args).map fun r => (.id r.1, r.2)
  | timer, .unregister timerId => (timerUnregister timer timerId).map fun r => (.done, r)
  | timer, .poll now rets fuel => (timerPoll fuel rets timer now).map fun r => (.fired r.1, r.2)

/-- `MALLOC` returns memory no pending timer lives in, unregistered timers are pending, and
a poll has turns enough for every timer. -/
def Legal (timer : TimerheapT) : TimerOp → Prop
  | .register _ ptr _ _ _ _ _ => timer.Fresh ptr
  | .unregister timerId => timer.heap.HasKey timerId
  | .poll _ _ fuel => timer.heap.size < fuel

/-- What the operations are for, in terms of the pending timers and of instants. -/
def TimerSpec (timer : TimerheapT) : TimerOp → TimerResult → TimerheapT → Prop
  | .register ok _ clock interval delay cb args, r, timer' =>
      (ok = false ∧ r = .id timerInvalidId ∧ timer'.pending = timer.pending) ∨
      ∃ id expire, r = .id id ∧ 0 ≤ id ∧ (∀ n ∈ timer.pending, n.timerId ≠ id) ∧
        expire.micros = clock.micros + delay.micros ∧
        timer'.pending = registered id expire interval cb args ::ₘ timer.pending
  | .unregister timerId, r, timer' =>
      r = .done ∧ ∃ n, n.timerId = timerId ∧ timer.pending = n ::ₘ timer'.pending
  | .poll now rets _, r, timer' =>
      ∃ fired, r = .fired fired ∧ PollSpec now rets timer.pending fired timer'.pending

/-- What an operation needs.  `timer_register` finds a key for the new timer, and the sum of the
clock and the delay is exact.  Sifting down restores the order of the heap after
`timer_unregister`.  `timer_poll` is given a normalized time, and for the timers that it may arm
again the sum of this time and the interval is exact and does not lead back. -/
def StaysInOrder (timer : TimerheapT) : TimerOp → Prop
  | .register _ _ clock _ delay _ _ => KeyAtHand timer.heap ∧ SumExact clock delay
  | .unregister timerId => ∀ i < timer.heap.size,
      (timer.heap.array i).heapKey = timerId → TailFits (timerCmp timer.mem) timer.heap i
  | .poll now _ _ => now.Normalized ∧ timer.Exactly now

instance (timer : TimerheapT) (op : TimerOp) : Decidable (Legal timer op) := by
  unfold Legal TimerheapT.Fresh
  split <;> infer_instance

instance (timer : TimerheapT) (op : TimerOp) : Decidable (StaysInOrder timer op) := by
  unfold StaysInOrder TimerheapT.Exactly
  split <;> infer_instance

/-- What holds of a timer heap all of whose operations met `StaysInOrder`. -/
structure TimelyInv (timer : TimerheapT) : Prop where
  inv : TimerInv timer
  normalized : ∀ n ∈ timer.pending, n.expireTime.Normalized

theorem timerCreateHeap_timely (mem : Nat → TimerNode) : TimelyInv (timerCreateHeap mem) where
  inv := timerCreateHeap_inv mem
  normalized := by simp [timerCreateHeap, TimerheapT.pending, HeapT.entries, heapCreate]

theorem timerPoll_spec {timer : TimerheapT} (hInv : TimelyInv timer) {now : Timeval}
    (hNow : now.Normalized) (hExact : timer.Exactly now) (rets : Nat → Int) {fuel : Nat}
    (hFuel : timer.heap.size < fuel) :
    ∃ fired timer', timerPoll fuel rets timer now = some (fired, timer') ∧ TimelyInv timer' ∧
      PollSpec now rets timer.pending fired timer'.pending := by
  obtain ⟨fuel, rfl⟩ : ∃ k, fuel = k + 1 := ⟨fuel - 1, by omega⟩
  have hCard := Multiset.card_le_card (Multiset.filter_le (fun n => n.due now) timer.pending)
  rw [pending_card] at hCard
  obtain ⟨fired, timer', hRun, hInv', hPolled⟩ := pollLoop_spec now rets (fuel + 1) 0 hInv.inv
    (hExact.forward hNow hInv.normalized) (by omega)
  obtain ⟨hSpec, hNorm'⟩ := hPolled.spec hNow hInv.normalized hExact
  exact ⟨fired, timer', by rw [timerPoll_eq]; exact hRun, ⟨hInv', hNorm'⟩, hSpec⟩

theorem timerStep_spec {timer : TimerheapT} (hInv : TimelyInv timer) {op : TimerOp}
    (hLegal : Legal timer op) (hStays : StaysInOrder timer op) :
    ∃ r timer', timerStep timer op = some (r, timer') ∧ TimelyInv timer' ∧
      TimerSpec timer op r timer' := by
  cases op with
  | register ok ptr clock interval delay cb args =>
      obtain ⟨expire, hSum, hNorm, hMicros⟩ := utilTimeAdd_exact_iff.mpr hStays.2
      obtain ⟨id, timer', hRun, hInv', hSpec⟩ :=
        timerRegister_spec hInv.inv hLegal hStays.1 ok hSum interval cb args
      refine ⟨.id id, timer', by rw [timerStep, hRun]; rfl, ⟨hInv', ?_⟩, ?_⟩
      · rcases hSpec with ⟨-, -, hSame⟩ | ⟨-, -, hPending⟩
        · rw [hSame]
          exact hInv.normalized
        · rw [hPending]
          intro n hn
          rcases Multiset.mem_cons.mp hn with rfl | hn
          · exact hNorm
          · exact hInv.normalized n hn
      · rcases hSpec with ⟨hOk, rfl, hSame⟩ | ⟨hId, hNew, hPending⟩
        · exact Or.inl ⟨hOk, rfl, hSame⟩
        · exact Or.inr ⟨id, expire, rfl, hId, hNew, hMicros, hPending⟩
  | unregister timerId =>
      obtain ⟨i, hi, rfl⟩ := hLegal
      obtain ⟨timer', hRun, hInv', hPending⟩ :=
        timerUnregister_spec hInv.inv hi (hStays i hi rfl)
      refine ⟨.done, timer', by rw [timerStep, hRun]; rfl, ⟨hInv', ?_⟩, rfl, _,
        hInv.inv.ids _ (array_mem_entries hi), hPending⟩
      intro n hn
      apply hInv.normalized
      rw [hPending]
      exact Multiset.mem_cons_of_mem hn
  | poll now rets fuel =>
      obtain ⟨fired, timer', hRun, hInv', hSpec⟩ :=
        timerPoll_spec hInv hStays.1 hStays.2 rets hLegal
      exact ⟨.fired fired, timer', by rw [timerStep, hRun]; rfl, hInv', fired, rfl, hSpec⟩

/-- In every run whose operations all meet `StaysInOrder`, each poll fires exactly the due
timers in order of expiry, leaves no due timer behind, and keeps the repeating ones. -/
theorem timer_run_spec (mem : Nat → TimerNode) (ops : List TimerOp)
    (hLegal : Along timerStep Legal (timerCreateHeap mem) ops)
    (hStays : Along timerStep StaysInOrder (timerCreateHeap mem) ops) :
    Along timerStep (Does timerStep TimerSpec) (timerCreateHeap mem) ops := by
  apply along_of_spec TimelyInv _ (timerCreateHeap_timely mem) (hLegal.and hStays)
  intro timer op hInv hMeets
  obtain ⟨r, timer', hStep, hInv', hSpec⟩ := timerStep_spec hInv hMeets.1 hMeets.2
  exact ⟨r, timer', hStep, hSpec, hInv'⟩

/-- Memory before any timer was stored. -/
def blankMem : Nat → TimerNode := fun _ =>
  { timerId := 0
    expireTime := .short 0 0
    intervalTime := .short 0 0
    args := 0
    cbFunc := 0 }

/-- So many seconds. -/
def seconds (sec : UInt32) : Timeval := .short sec 0

/-- Register a timer at `ptr` that fires once, `sec` seconds after time 0. -/
def once (ptr : Nat) (sec : UInt32) : TimerOp :=
  .register true ptr (seconds 0) none (seconds sec) 0 ptr

/-- A run with a repeating timer, polled twice. -/
theorem timer_run_spec_repeating :
    Along timerStep (Does timerStep TimerSpec) (timerCreateHeap blankMem)
      [once 0 3,
        .register true 1 { tvSec := 0, tvUsec := 0 } (some { tvSec := 0, tvUsec := 700000 })
          { tvSec := 1, tvUsec := 500000 } 1 0,
        once 2 9, .poll { tvSec := 2, tvUsec := 0 } (fun _ => 0) 4, .unregister 2,
        .poll { tvSec := 5, tvUsec := 0 } (fun i => if i = 0 then -1 else 0) 4] :=
  timer_run_spec _ _ (by decide) (by decide)

/-- Seven timers of which the one with the longest delay is unregistered.  Its place goes to
the timer of 1 second, below that of 3 seconds, which sinks with it. -/
def hidingRun : List TimerOp :=
  [once 0 7, once 1 3, once 2 6, once 3 5, once 4 4, once 5 2, once 6 1, .unregister 0,
    .poll (seconds 4) (fun _ => 0) 8]

/-- The expiry times in the heap after a run, position by position. -/
def expiries (ops : List TimerOp) : Option (List Int) :=
  (run timerStep (timerCreateHeap blankMem) ops).map fun r =>
    (List.range r.2.heap.size).map fun i =>
      (timerOf r.2.mem (r.2.heap.array i)).expireTime.micros

/-- A poll that leaves a timer of an earlier instant in the heap is wrong. -/
theorem not_along_of_expiries {op : TimerOp} {ops : List TimerOp} {l : List Int}
    (hRun : expiries (op :: ops) = some l) {now : Timeval} {rets : Nat → Int} {fuel : Nat}
    (hLast : (op :: ops).getLast (List.cons_ne_nil op ops) = .poll now rets fuel) {i : Nat}
    {instant : Int} (hAt : l[i]? = some instant) (hLate : instant < now.micros) :
    ¬ Along timerStep (Does timerStep TimerSpec) (timerCreateHeap blankMem) (op :: ops) := by
  intro hAlong
  unfold expiries at hRun
  cases hEnd : run timerStep (timerCreateHeap blankMem) (op :: ops) with
  | none => simp [hEnd] at hRun
  | some r =>
      simp only [hEnd, Option.map_some, Option.some.injEq] at hRun
      subst hRun
      obtain ⟨timer, res, hSpec⟩ := last_of_along hAlong hEnd
      rw [hLast] at hSpec
      obtain ⟨fired, -, hPolled⟩ := hSpec
      simp only [List.getElem?_map, Option.map_eq_some_iff, List.getElem?_eq_some_iff,
        List.length_range, List.getElem_range] at hAt
      obtain ⟨_, ⟨hi, rfl⟩, hInstant⟩ := hAt
      apply hPolled.noneDue _ (Multiset.mem_map_of_mem _ (array_mem_entries hi))
      rw [hInstant]
      exact hLate

/-- Register a timer at half a second, to fire half a second later, and poll one second after
time 0. -/
def halfRun : List TimerOp :=
  [.register true 0 (.short 0 500000) none (.short 0 500000) 0 0,
    .poll (seconds 1) (fun _ => 0) 2]

/-- The expiry time is kept as no seconds and a million microseconds, and fires too early. -/
theorem halfRun_early :
    ¬ Along timerStep (Does timerStep TimerSpec) (timerCreateHeap blankMem) halfRun := by
  intro hAlong
  obtain ⟨r, timer', hStep, fired, rfl, hSpec⟩ := (hAlong.tail rfl).head
  have hDue := congrArg Multiset.card hSpec.due
  rw [Multiset.coe_card, List.length_map] at hDue
  cases hStep
  exact absurd hDue (by decide)

/-- The poll at 4 seconds leaves the timer of 3 seconds behind; a timer of one second fires at one
second; and after sixteen timers have fired, the next one is written outside the key table. -/
theorem timer_poll_leaves_due :
    expiries hidingRun = some [4000000, 3000000, 6000000, 5000000] ∧
      Along timerStep Legal (timerCreateHeap blankMem) hidingRun ∧
      ¬ Along timerStep (Does timerStep TimerSpec) (timerCreateHeap blankMem) hidingRun ∧
      Along timerStep Legal (timerCreateHeap blankMem) halfRun ∧
      ¬ Along timerStep (Does timerStep TimerSpec) (timerCreateHeap blankMem) halfRun ∧
      run timerStep (timerCreateHeap blankMem)
        (List.replicate 17 [once 0 1, .poll { tvSec := 2, tvUsec := 0 } (fun _ => 0) 2]).flatten =
          none := by
  have hExpiries : expiries hidingRun = some [4000000, 3000000, 6000000, 5000000] := by decide
  refine ⟨hExpiries, by decide, ?_, by decide, halfRun_early, by decide⟩
  exact not_along_of_expiries hExpiries rfl
    (show [4000000, 3000000, 6000000, 5000000][1]? = some 3000000 from rfl) (by decide)

end Gbase.Base.Timer
