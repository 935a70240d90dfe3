import Gbase.Base.HeapOps
import Gbase.Base.Timer

/-!
# The timers of a timer heap

A node of the heap points to a timer, and the timer has the key of that node as its id.  This is
all that most of `timer.c` relies on, whether or not the heap is in order, and then no two nodes
share a timer.

## Main results

* `TimerLinked.insert`, `TimerLinked.remove`, `TimerLinked.rearm`: the three ways a heap of timers
  changes.
* `pollTurn_due`: one turn of `timer_poll` at a due timer.
* `timerPoll_fires_once_iff`: the poll ends and fires no timer twice, exactly where no turn of it
  overflows.
-/

namespace Gbase.Base.Timer

open Gbase.Base.Heap
open Gbase.Util.UtilTime

/-! ## The pending timers -/

/-- The timer a node of the heap points to. -/
def timerOf (mem : Nat → TimerNode) (n : NodeT Nat) : TimerNode := mem (n.data.getD 0)

/-- The timers in the heap. -/
def TimerheapT.pending (timer : TimerheapT) : Multiset TimerNode :=
  timer.heap.entries.map (timerOf timer.mem)

/-- The heap is well formed, and each timer knows its key. -/
structure TimerLinked (timer : TimerheapT) : Prop where
  live : Live timer.heap
  ids : ∀ n ∈ timer.heap.entries, (timerOf timer.mem n).timerId = n.heapKey

section Memory

variable {heap : HeapT Nat} {mem : Nat → TimerNode} {ptr : Nat} {node : TimerNode}

/-- Entries of a usable heap have a pointer. -/
theorem exists_ptr (hLive : Live heap) {n : NodeT Nat} (hn : n ∈ heap.entries) :
    ∃ p, n.data = some p := by
  obtain ⟨i, hi, rfl⟩ := mem_entries.mp hn
  exact hLive.data i hi

/-- Writing to a node outside the heap changes no timer of the heap. -/
theorem timerOf_update (hLive : Live heap) {n : NodeT Nat} (hn : n ∈ heap.entries)
    (hOut : n.data ≠ some ptr) : timerOf (Function.update mem ptr node) n = timerOf mem n := by
  obtain ⟨p, hp⟩ := exists_ptr hLive hn
  have hne : p ≠ ptr := fun h => hOut (by rw [hp, h])
  rw [timerOf, timerOf, hp]
  exact Function.update_of_ne hne node mem

end Memory

/-- No two nodes point to the same timer. -/
theorem TimerLinked.owned {timer : TimerheapT} (hLinked : TimerLinked timer) :
    (timer.heap.entries.map NodeT.data).Nodup := by
  rw [HeapT.entries, Multiset.map_map]
  apply Multiset.Nodup.map_on _ (Multiset.nodup_range timer.heap.size)
  intro i hi j hj hData
  rw [Multiset.mem_range] at hi hj
  have hI := hLinked.ids _ (array_mem_entries hi)
  have hJ := hLinked.ids _ (array_mem_entries hj)
  have hSame : timerOf timer.mem (timer.heap.array i) = timerOf timer.mem (timer.heap.array j) :=
    congrArg (fun d => timer.mem (Option.getD d 0)) hData
  rw [hSame, hJ] at hI
  exact hLinked.live.key_inj hi hj (congrArg Int.toNat hI.symm)

/-- The ids of the pending timers are the keys in use. -/
theorem TimerLinked.pending_ids {timer : TimerheapT} (hLinked : TimerLinked timer) :
    timer.pending.map TimerNode.timerId = timer.heap.entries.map NodeT.heapKey := by
  rw [TimerheapT.pending, Multiset.map_map]
  exact Multiset.map_congr rfl hLinked.ids

theorem TimerLinked.exists_pending_iff {timer : TimerheapT} (hLinked : TimerLinked timer)
    {id : Int} : (∃ n ∈ timer.pending, n.timerId = id) ↔ timer.heap.HasKey id := by
  rw [hasKey_iff_entries, ← Multiset.mem_map, hLinked.pending_ids, Multiset.mem_map]

theorem pending_card (timer : TimerheapT) : timer.pending.card = timer.heap.size := by
  simp [TimerheapT.pending, HeapT.entries]

/-! ## Registering and unregistering -/

/-- No pending timer lives at `ptr`. -/
def TimerheapT.Fresh (timer : TimerheapT) (ptr : Nat) : Prop :=
  ∀ i < timer.heap.size, (timer.heap.array i).data ≠ some ptr

theorem TimerheapT.Fresh.entries {timer : TimerheapT} {ptr : Nat} (hFresh : timer.Fresh ptr)
    {n : NodeT Nat} (hn : n ∈ timer.heap.entries) : n.data ≠ some ptr := by
  obtain ⟨i, hi, rfl⟩ := mem_entries.mp hn
  exact hFresh i hi

/-- Writing to a fresh node changes nothing for the pending timers. -/
theorem TimerLinked.write {timer : TimerheapT} (hLinked : TimerLinked timer) {ptr : Nat}
    (hFresh : timer.Fresh ptr) (node : TimerNode) :
    TimerLinked (timer.write ptr node) ∧ (timer.write ptr node).pending = timer.pending := by
  have hSame : ∀ n ∈ timer.heap.entries,
      timerOf (timer.write ptr node).mem n = timerOf timer.mem n :=
    fun n hn => timerOf_update hLinked.live hn (hFresh.entries hn)
  refine ⟨⟨hLinked.live, ?_⟩, Multiset.map_congr rfl hSame⟩
  intro n hn
  rw [hSame n hn]
  exact hLinked.ids n hn

/-- Inserting a fresh node and storing its key in it adds one pending timer. -/
theorem TimerLinked.insert {timer : TimerheapT} (hLinked : TimerLinked timer) {ptr : Nat}
    (hFresh : timer.Fresh ptr) {heap' : HeapT Nat} {key : Int} (hLive' : Live heap')
    (hEntries : heap'.entries = { data := some ptr, heapKey := key } ::ₘ timer.heap.entries)
    (node : TimerNode) (hId : node.timerId = key) :
    TimerLinked (TimerheapT.write { timer with heap := heap' } ptr node) ∧
      (TimerheapT.write { timer with heap := heap' } ptr node).pending =
        node ::ₘ timer.pending := by
  have hNew : timerOf (Function.update timer.mem ptr node) { data := some ptr, heapKey := key } =
      node := by simp [timerOf]
  have hOld : ∀ n ∈ timer.heap.entries,
      timerOf (Function.update timer.mem ptr node) n = timerOf timer.mem n :=
    fun n hn => timerOf_update hLinked.live hn (hFresh.entries hn)
  constructor
  · refine ⟨hLive', ?_⟩
    change ∀ n ∈ heap'.entries, (timerOf (Function.update timer.mem ptr node) n).timerId = _
    intro n hn
    rw [hEntries, Multiset.mem_cons] at hn
    rcases hn with rfl | hn
    · rw [hNew, hId]
    · rw [hOld n hn]
      exact hLinked.ids n hn
  · change heap'.entries.map (timerOf (Function.update timer.mem ptr node)) = _
    rw [hEntries, Multiset.map_cons, hNew]
    exact congrArg _ (Multiset.map_congr rfl hOld)

/-- Taking a node out of the heap takes its timer out of the pending ones. -/
theorem TimerLinked.remove {timer : TimerheapT} (hLinked : TimerLinked timer) {heap' : HeapT Nat}
    {n : NodeT Nat} (hLive' : Live heap') (hEntries : timer.heap.entries = n ::ₘ heap'.entries) :
    TimerLinked { timer with heap := heap' } ∧
      timer.pending =
        timerOf timer.mem n ::ₘ TimerheapT.pending { timer with heap := heap' } := by
  constructor
  · refine ⟨hLive', ?_⟩
    intro m hm
    apply hLinked.ids
    rw [hEntries]
    exact Multiset.mem_cons_of_mem hm
  · rw [TimerheapT.pending, hEntries, Multiset.map_cons]
    rfl

/-! ## One turn of the poll -/

/-- The callback's result keeps the timer, and it has an interval. -/
def Stays (fired : TimerNode × Int) : Prop := 0 ≤ fired.2 ∧ fired.1.repeats

instance (fired : TimerNode × Int) : Decidable (Stays fired) :=
  inferInstanceAs (Decidable (_ ∧ _))

/-- The timer a callback's result keeps, armed again. -/
def again (now : Timeval) (fired : TimerNode × Int) : Option TimerNode :=
  if Stays fired then fired.1.rearmed now else none

theorem rearmed_eq_some {node next : TimerNode} {now : Timeval} :
    node.rearmed now = some next ↔
      utilTimeAdd now node.intervalTime = some next.expireTime ∧
        next = { node with expireTime := next.expireTime } := by
  simp only [TimerNode.rearmed, Option.bind_eq_bind, Option.pure_def, Option.bind_eq_some_iff,
    Option.some.injEq]
  constructor
  · rintro ⟨expire, hSum, rfl⟩
    exact ⟨hSum, rfl⟩
  · rintro ⟨hSum, hNext⟩
    exact ⟨next.expireTime, hSum, hNext.symm⟩

/-- Storing the data a node has already changes nothing. -/
theorem replaced_same {heap : HeapT Nat} {i d : Nat} (hData : (heap.array i).data = some d) :
    heap.replaced i d = heap := by
  have hArray : (heap.replaced i d).array = heap.array := by
    funext j
    by_cases hji : j = i
    · rw [hji, replaced_array_self, ← hData]
    · rw [replaced_array_of_ne d hji]
  rw [show heap.replaced i d = { heap with array := (heap.replaced i d).array } from rfl, hArray]

/-- A write to the top timer is not seen at other positions of the heap. -/
theorem TimerLinked.timerOf_write_top {timer : TimerheapT} (hLinked : TimerLinked timer)
    (hSize : 0 < timer.heap.size) {top : Nat} (hTop : (timer.heap.array 0).data = some top)
    (node : TimerNode) {j : Nat} (hj : j ≠ 0) (hjn : j < timer.heap.size) :
    timerOf (timer.write top node).mem (timer.heap.array j) =
      timerOf timer.mem (timer.heap.array j) := by
  apply timerOf_update hLinked.live (array_mem_entries hjn)
  intro hData
  have hSame : timerOf timer.mem (timer.heap.array j) = timerOf timer.mem (timer.heap.array 0) := by
    rw [timerOf, timerOf, hData, hTop]
  have hJ := hLinked.ids _ (array_mem_entries hjn)
  rw [hSame, hLinked.ids _ (array_mem_entries hSize)] at hJ
  exact hj (hLinked.live.key_inj hjn hSize (congrArg Int.toNat hJ.symm))

/-- Changing the top timer and sifting it down. -/
theorem TimerLinked.rearm {timer : TimerheapT} (hLinked : TimerLinked timer)
    (hSize : 0 < timer.heap.size) {top : Nat} (hTop : (timer.heap.array 0).data = some top)
    {node : TimerNode} (hId : node.timerId = (timer.mem top).timerId) :
    ∃ heap' rest, heapUpdate (timerCmp (timer.write top node).mem) timer.heap
        (timer.mem top).timerId (some top) = some heap' ∧
      heapRotdown (timerCmp (timer.write top node).mem) timer.heap 0 = some heap' ∧
      Rearranged timer.heap heap' ∧ TimerLinked { timer.write top node with heap := heap' } ∧
      timer.pending = timer.mem top ::ₘ rest ∧
      TimerheapT.pending { timer.write top node with heap := heap' } = node ::ₘ rest := by
  have hLive := hLinked.live
  obtain ⟨rest, hOld, -⟩ := replaced_entries hSize top
  obtain ⟨heap', hRot, hLive', hRe, hRun⟩ :=
    heapUpdate_spec (timerCmp (timer.write top node).mem) hLive hSize top
  rw [replaced_same hTop] at hRot hRe
  have hTopOf : timerOf timer.mem (timer.heap.array 0) = timer.mem top := by
    simp [timerOf, hTop]
  have hTopOf' : timerOf (timer.write top node).mem (timer.heap.array 0) = node := by
    simp [timerOf, hTop]
  have hKey : (timer.mem top).timerId = (timer.heap.array 0).heapKey := by
    rw [← hLinked.ids _ (array_mem_entries hSize), hTopOf]
  -- no other node of the heap points to the top timer
  have hOther : ∀ n ∈ rest, n ∈ timer.heap.entries ∧ n.data ≠ some top := by
    intro n hn
    have hOwned := hLinked.owned
    rw [hOld, Multiset.map_cons, Multiset.nodup_cons, hTop] at hOwned
    refine ⟨by rw [hOld]; exact Multiset.mem_cons_of_mem hn, ?_⟩
    intro hData
    exact hOwned.1 (Multiset.mem_map.mpr ⟨n, hn, hData⟩)
  have hRest : ∀ n ∈ rest, timerOf (timer.write top node).mem n = timerOf timer.mem n :=
    fun n hn => timerOf_update hLive (hOther n hn).1 (hOther n hn).2
  refine ⟨heap', rest.map (timerOf timer.mem), by rw [hKey]; exact hRun, hRot, hRe,
    ⟨hLive', ?_⟩, ?_, ?_⟩
  · change ∀ n ∈ heap'.entries, (timerOf (timer.write top node).mem n).timerId = _
    rw [hRe.entries, hOld]
    intro n hn
    rcases Multiset.mem_cons.mp hn with rfl | hn
    · rw [hTopOf', hId, hKey]
    · rw [hRest n hn]
      exact hLinked.ids n (hOther n hn).1
  · rw [TimerheapT.pending, hOld, Multiset.map_cons, hTopOf]
  · change heap'.entries.map (timerOf (timer.write top node).mem) = _
    rw [hRe.entries, hOld, Multiset.map_cons, hTopOf']
    exact congrArg _ (Multiset.map_congr rfl hRest)

section Turn

variable {timer : TimerheapT} {now : Timeval} {top : Nat} {ret : Int} {heap' : HeapT Nat}

theorem pollTurn_rearm (hTop : heapTop timer.heap = some top) (hDue : (timer.mem top).due now)
    (hStays : Stays (timer.mem top, ret)) {next : TimerNode}
    (hNext : (timer.mem top).rearmed now = some next)
    (hUpdate : heapUpdate (timerCmp (timer.write top next).mem) timer.heap
      (timer.mem top).timerId (some top) = some heap') :
    pollTurn now ret timer =
      some (some (timer.mem top, { timer.write top next with heap := heap' })) := by
  rw [pollTurn, hTop]
  simp only [if_pos hDue, if_pos (show 0 ≤ ret ∧ (timer.mem top).repeats from hStays), hNext,
    write_heap, hUpdate, Option.bind_eq_bind, Option.bind_some, Option.pure_def]

theorem pollTurn_pop (hTop : heapTop timer.heap = some top) (hDue : (timer.mem top).due now)
    (hStays : ¬ Stays (timer.mem top, ret)) {data : Option Nat}
    (hPop : heapPop (timerCmp timer.mem) timer.heap = some (data, heap')) :
    pollTurn now ret timer = some (some (timer.mem top, { timer with heap := heap' })) := by
  rw [pollTurn, hTop]
  simp only [if_pos hDue, if_neg (show ¬ (0 ≤ ret ∧ (timer.mem top).repeats) from hStays), hPop,
    Option.bind_eq_bind, Option.bind_some, Option.pure_def]

/-- The loop is left when the top is not due. -/
theorem pollTurn_stop
    (hStop : ∀ top, heapTop timer.heap = some top → ¬ (timer.mem top).due now) (ret : Int) :
    pollTurn now ret timer = some none := by
  cases hTop : heapTop timer.heap with
  | none => rw [pollTurn, hTop]
  | some top =>
      rw [pollTurn, hTop]
      exact if_neg (hStop top hTop)

/-- Where the new expiry time overflows, the turn is undefined. -/
theorem pollTurn_overflow (hTop : heapTop timer.heap = some top) (hDue : (timer.mem top).due now)
    (hStays : Stays (timer.mem top, ret)) (hOut : (timer.mem top).rearmed now = none) :
    pollTurn now ret timer = none := by
  rw [pollTurn, hTop]
  simp only [if_pos hDue, if_pos (show 0 ≤ ret ∧ (timer.mem top).repeats from hStays), hOut,
    Option.bind_eq_bind, Option.bind_none]

/-- The top of the heap is the node at its first position. -/
theorem heapTop_eq_some (hTop : heapTop timer.heap = some top) :
    0 < timer.heap.size ∧ (timer.heap.array 0).data = some top := by
  have hSize : 0 < timer.heap.size := by
    by_contra hNot
    rw [heapTop, if_neg hNot] at hTop
    cases hTop
  rw [heapTop, if_pos hSize] at hTop
  exact ⟨hSize, hTop⟩

theorem top_pending (hTop : heapTop timer.heap = some top) : timer.mem top ∈ timer.pending := by
  obtain ⟨hSize, hData⟩ := heapTop_eq_some hTop
  have hOf : timerOf timer.mem (timer.heap.array 0) = timer.mem top := by
    simp [timerOf, hData]
  rw [← hOf]
  exact Multiset.mem_map_of_mem _ (array_mem_entries hSize)

end Turn

/-- A turn of the poll at a due timer, whose new expiry time can be computed if it needs one: it is
armed again or taken out. -/
theorem pollTurn_due {timer : TimerheapT} (hLinked : TimerLinked timer) {now : Timeval}
    {top : Nat} (hTop : heapTop timer.heap = some top) (hDue : (timer.mem top).due now) {ret : Int}
    (hAgain : Stays (timer.mem top, ret) → ∃ next, (timer.mem top).rearmed now = some next) :
    ∃ timer₁ rest, pollTurn now ret timer = some (some (timer.mem top, timer₁)) ∧
      TimerLinked timer₁ ∧ timer.pending = timer.mem top ::ₘ rest ∧
      timer₁.pending = ↑(again now (timer.mem top, ret)).toList + rest ∧
      (Stays (timer.mem top, ret) ∧ Rearranged timer.heap timer₁.heap ∨
        ¬ Stays (timer.mem top, ret) ∧
          heapPop (timerCmp timer.mem) timer.heap = some (some top, timer₁.heap) ∧
          Rearranged (timer.heap.removed 0) timer₁.heap) := by
  obtain ⟨hSize, hData⟩ := heapTop_eq_some hTop
  by_cases hStays : Stays (timer.mem top, ret)
  · obtain ⟨next, hNext⟩ := hAgain hStays
    have hId : next.timerId = (timer.mem top).timerId := by
      rw [(rearmed_eq_some.mp hNext).2]
    obtain ⟨heap', rest, hUpdate, -, hRe, hLinked₁, hOld, hNew⟩ :=
      @TimerLinked.rearm timer hLinked hSize top hData next hId
    refine ⟨_, rest, pollTurn_rearm hTop hDue hStays hNext hUpdate, hLinked₁, hOld, ?_,
      Or.inl ⟨hStays, hRe⟩⟩
    rw [hNew, again, if_pos hStays, hNext]
    rfl
  · obtain ⟨heap', -, hLive', hRe, hPop⟩ := heapPop_spec (timerCmp timer.mem) hLinked.live hSize
    have hEntries : timer.heap.entries = timer.heap.array 0 ::ₘ heap'.entries := by
      rw [hRe.entries]
      exact removed_entries hSize
    obtain ⟨hLinked₁, hOld⟩ := hLinked.remove hLive' hEntries
    have hTopOf : timerOf timer.mem (timer.heap.array 0) = timer.mem top := by
      simp [timerOf, hData]
    rw [hTopOf] at hOld
    rw [hData] at hPop
    refine ⟨_, _, pollTurn_pop hTop hDue hStays hPop, hLinked₁, hOld, ?_,
      Or.inr ⟨hStays, hPop, hRe⟩⟩
    rw [again, if_neg hStays]
    simp

/-! ## The turns of a poll -/

/-- From the state before turn `i`, the loop gets to a state before turn `k`. -/
inductive Turns (now : Timeval) (rets : Nat → Int) : Nat → TimerheapT → Nat → TimerheapT → Prop
  | here {i : Nat} {timer : TimerheapT} : Turns now rets i timer i timer
  | turn {i k : Nat} {timer timer₁ timer' : TimerheapT} {node : TimerNode}
      (hTurn : pollTurn now (rets i) timer = some (some (node, timer₁)))
      (hRest : Turns now rets (i + 1) timer₁ k timer') : Turns now rets i timer k timer'

/-- In this state the new expiry time of the top, if it is given one, does not overflow. -/
def TurnFits (now : Timeval) (ret : Int) (timer : TimerheapT) : Prop :=
  ∀ top, heapTop timer.heap = some top → (timer.mem top).due now → Stays (timer.mem top, ret) →
    SumFits now (timer.mem top).intervalTime

/-- If the top is armed again, it is not due then. -/
def TurnForward (now : Timeval) (ret : Int) (timer : TimerheapT) : Prop :=
  ∀ top, heapTop timer.heap = some top → (timer.mem top).due now → Stays (timer.mem top, ret) →
    ∃ next, (timer.mem top).rearmed now = some next ∧ ¬ next.due now

section Turns

variable {timer : TimerheapT} {now : Timeval} {rets : Nat → Int}

/-- A timer going forward is not due when its callback has kept it. -/
theorem again_not_due {n : TimerNode} {ret : Int}
    (hForward : Stays (n, ret) → ∃ next, n.rearmed now = some next ∧ ¬ next.due now) :
    ∀ m ∈ (↑(again now (n, ret)).toList : Multiset TimerNode), ¬ m.due now := by
  intro m hm
  rw [Multiset.mem_coe, Option.mem_toList, again] at hm
  split at hm
  · next hStays =>
      obtain ⟨next, hNext, hNot⟩ := hForward hStays
      rw [hNext] at hm
      cases hm
      exact hNot
  · cases hm

/-- The poll ends after one turn for each due timer, and fires due timers only, each of them once,
if all that it arms again goes forward.  The induction is on the number of due timers. -/
theorem pollLoop_fires_once (i : Nat) (hLinked : TimerLinked timer)
    (hForward : ∀ k t, Turns now rets i timer k t → TurnForward now (rets k) t) :
    ∃ fired timer', (∀ fuel, (timer.pending.filter fun n => n.due now).card < fuel →
        pollLoop now rets fuel i timer = some (fired, timer')) ∧
      ↑(fired.map Prod.fst) ≤ timer.pending.filter fun n => n.due now := by
  induction hCard : (timer.pending.filter fun n => n.due now).card using Nat.strong_induction_on
    generalizing i timer with
  | h card ih =>
      by_cases hDue : ∃ top, heapTop timer.heap = some top ∧ (timer.mem top).due now
      · obtain ⟨top, hTop, hDue⟩ := hDue
        have hTopForward := hForward i timer Turns.here top hTop hDue
        obtain ⟨timer₁, rest, hTurn, hLinked₁, hOld, hNew, -⟩ :=
          pollTurn_due hLinked hTop hDue fun hStays => (hTopForward hStays).imp fun _ h => h.1
        have hAgain : ∀ m ∈ (↑(again now (timer.mem top, rets i)).toList : Multiset TimerNode),
            ¬ m.due now := again_not_due hTopForward
        have hLeft : (timer₁.pending.filter fun n => n.due now) =
            rest.filter fun n => n.due now := by
          rw [hNew, Multiset.filter_add, Multiset.filter_eq_nil.mpr hAgain, Multiset.zero_add]
        have hNow : (timer.pending.filter fun n => n.due now) =
            timer.mem top ::ₘ rest.filter fun n => n.due now := by
          rw [hOld, Multiset.filter_cons_of_pos (p := fun n => n.due now) rest hDue]
        rw [hNow, Multiset.card_cons] at hCard
        obtain ⟨fired, timer', hRun, hFired⟩ :=
          ih _ (by rw [hLeft]; omega) (i + 1) hLinked₁
            (fun k t hTurns => hForward k t (Turns.turn hTurn hTurns)) rfl
        refine ⟨(timer.mem top, rets i) :: fired, timer', ?_, ?_⟩
        · intro fuel hFuel
          obtain ⟨fuel, rfl⟩ : ∃ k, fuel = k + 1 := ⟨fuel - 1, by omega⟩
          rw [pollLoop, hTurn]
          simp only [hRun fuel (by rw [hLeft]; omega), Option.bind_eq_bind, Option.bind_some]
          rfl
        · rw [hNow, List.map_cons, ← Multiset.cons_coe, Multiset.cons_le_cons_iff, ← hLeft]
          exact hFired
      · refine ⟨[], timer, ?_, Multiset.zero_le _⟩
        intro fuel hFuel
        obtain ⟨fuel, rfl⟩ : ∃ k, fuel = k + 1 := ⟨fuel - 1, by omega⟩
        rw [pollLoop, pollTurn_stop fun top hTop hIs => hDue ⟨top, hTop, hIs⟩]

/-- Turns keep a property of all pending timers that arming again keeps. -/
theorem Turns.keeps {P : TimerNode → Prop}
    (hKeep : ∀ n next, P n → n.rearmed now = some next → P next) {i k : Nat} {timer' : TimerheapT}
    (hTurns : Turns now rets i timer k timer') :
    TimerLinked timer → (∀ n ∈ timer.pending, P n) →
      TimerLinked timer' ∧ ∀ n ∈ timer'.pending, P n := by
  induction hTurns with
  | here => exact fun hLinked hAll => ⟨hLinked, hAll⟩
  | @turn i k timer timer₁ timer' node hTurn hRest ih =>
      intro hLinked hAll
      by_cases hDue : ∃ top, heapTop timer.heap = some top ∧ (timer.mem top).due now
      · obtain ⟨top, hTop, hDue⟩ := hDue
        have hAgain : Stays (timer.mem top, rets i) →
            ∃ next, (timer.mem top).rearmed now = some next := by
          intro hStays
          cases hNext : (timer.mem top).rearmed now with
          | some next => exact ⟨next, rfl⟩
          | none =>
              rw [pollTurn_overflow hTop hDue hStays hNext] at hTurn
              cases hTurn
        obtain ⟨timer₂, rest, hTurn₂, hLinked₂, hOld, hNew, -⟩ :=
          pollTurn_due hLinked hTop hDue hAgain
        rw [hTurn₂, Option.some.injEq, Option.some.injEq] at hTurn
        obtain rfl := (Prod.mk.inj hTurn).2
        apply ih hLinked₂
        rw [hOld] at hAll
        intro n hn
        rw [hNew] at hn
        rcases Multiset.mem_add.mp hn with hn | hn
        · rw [Multiset.mem_coe, Option.mem_toList, again] at hn
          split at hn
          · exact hKeep _ n (hAll _ (Multiset.mem_cons_self _ _)) hn
          · cases hn
        · exact hAll n (Multiset.mem_cons_of_mem hn)
      · rw [pollTurn_stop fun top hTop hIs => hDue ⟨top, hTop, hIs⟩] at hTurn
        cases hTurn

/-- A turn that is undefined leaves no result of the loop before it. -/
theorem Turns.undefined {i k : Nat} {timer' : TimerheapT} (hTurns : Turns now rets i timer k timer')
    (hUndefined : pollTurn now (rets k) timer' = none) (fuel : Nat) :
    pollLoop now rets fuel i timer = none := by
  induction hTurns generalizing fuel with
  | here =>
      cases fuel with
      | zero => rfl
      | succ fuel => rw [pollLoop, hUndefined]
  | turn hTurn hRest ih =>
      cases fuel with
      | zero => rfl
      | succ fuel =>
          rw [pollLoop, hTurn]
          simp only [ih hUndefined fuel, Option.bind_eq_bind, Option.bind_none]

end Turns

/-! ## The end of the poll -/

/-- What is armed again without negative seconds goes forward, if its new expiry time does not
overflow. -/
theorem rearmed_forward {n : TimerNode} {now : Timeval} (hSec : 0 ≤ n.intervalTime.tvSec)
    (hRep : n.repeats) (hFits : SumFits now n.intervalTime) :
    ∃ next, n.rearmed now = some next ∧ ¬ next.due now := by
  obtain ⟨expire, hSum⟩ := utilTimeAdd_isSome_iff.mpr hFits
  refine ⟨{ n with expireTime := expire }, rearmed_eq_some.mpr ⟨hSum, rfl⟩, ?_⟩
  exact utilTimeAdd_not_before hSum hSec hRep

/-- The loop of `timer_poll` ends, always with the same result, and it invokes the callbacks of
pending timers, none of them twice. -/
def FiresOnce (timer : TimerheapT) (now : Timeval) (rets : Nat → Int) : Prop :=
  ∃ fired timer', (∀ fuel, timer.heap.size < fuel →
      timerPoll fuel rets timer now = some (fired, timer')) ∧
    (fired.map fun f => f.1.timerId).Nodup ∧ ↑(fired.map Prod.fst) ≤ timer.pending

/-- A poll of an empty heap is the loop as well. -/
theorem timerPoll_eq (fuel : Nat) (rets : Nat → Int) (timer : TimerheapT) (now : Timeval) :
    timerPoll (fuel + 1) rets timer now = pollLoop now rets (fuel + 1) 0 timer := by
  rw [timerPoll]
  split
  · next hSize =>
      have hTop : heapTop timer.heap = none := if_neg (Nat.not_lt.mpr hSize)
      rw [pollLoop, pollTurn_stop]
      intro top hSome
      rw [hTop] at hSome
      cases hSome
  · rfl

/-- The sums that a poll may have to compute do not overflow. -/
def PendingFits (timer : TimerheapT) (now : Timeval) : Prop :=
  ∀ n ∈ timer.pending, n.due now → n.repeats → SumFits now n.intervalTime

instance (timer : TimerheapT) (now : Timeval) : Decidable (PendingFits timer now) :=
  inferInstanceAs (Decidable (∀ n ∈ timer.pending,
    n.due now → n.repeats → SumFits now n.intervalTime))

/-- Then no turn overflows, since turns leave due timers with intervals as they were. -/
theorem PendingFits.turns {timer : TimerheapT} {now : Timeval} {rets : Nat → Int}
    (hLinked : TimerLinked timer) (hFits : PendingFits timer now) {k : Nat} {timer' : TimerheapT}
    (hTurns : Turns now rets 0 timer k timer') : TurnFits now (rets k) timer' := by
  have hKeeps := (hTurns.keeps (P := fun n => n.repeats → SumFits now n.intervalTime ∨ ¬ n.due now)
    ?_ hLinked ?_).2
  · intro top hTop hDue hStays
    exact (hKeeps _ (top_pending hTop) hStays.2).resolve_right (not_not.mpr hDue)
  · intro n next _ hNext _
    left
    obtain ⟨hSum, hEq⟩ := rearmed_eq_some.mp hNext
    rw [hEq]
    exact utilTimeAdd_isSome_iff.mp ⟨_, hSum⟩
  · intro n hn hRep
    by_cases hDue : n.due now
    · exact Or.inl (hFits n hn hDue hRep)
    · exact Or.inr hDue

/-- On any heap of timers whose intervals have no negative fields, in order or not, the loop of
`timer_poll` ends and fires no timer twice if and only if no turn of it overflows; and none does
when `now` and the interval can be added for every due timer that has one. -/
theorem timerPoll_fires_once_iff {timer : TimerheapT} (hLinked : TimerLinked timer)
    (hIntervals : ∀ n ∈ timer.pending, 0 ≤ n.intervalTime.tvSec ∧ 0 ≤ n.intervalTime.tvUsec)
    (now : Timeval) (rets : Nat → Int) :
    (FiresOnce timer now rets ↔
        ∀ k t, Turns now rets 0 timer k t → TurnFits now (rets k) t) ∧
      (PendingFits timer now → FiresOnce timer now rets) := by
  have hIff : FiresOnce timer now rets ↔
      ∀ k t, Turns now rets 0 timer k t → TurnFits now (rets k) t := by
    constructor
    · rintro ⟨fired, timer', hRun, -⟩ k t hTurns top hTop hDue hStays
      by_contra hOut
      have hNone : (t.mem top).rearmed now = none := by
        cases hNext : (t.mem top).rearmed now with
        | none => rfl
        | some next =>
            exact absurd (utilTimeAdd_isSome_iff.mp ⟨_, (rearmed_eq_some.mp hNext).1⟩) hOut
      have hPoll := hRun (timer.heap.size + 1) (Nat.lt_succ_self _)
      rw [timerPoll_eq, hTurns.undefined (pollTurn_overflow hTop hDue hStays hNone)] at hPoll
      cases hPoll
    · intro hFits
      have hForward : ∀ k t, Turns now rets 0 timer k t → TurnForward now (rets k) t := by
        intro k t hTurns top hTop hDue hStays
        have hSec := (hTurns.keeps (P := fun n => 0 ≤ n.intervalTime.tvSec)
          (fun n next hn hNext => by rw [(rearmed_eq_some.mp hNext).2]; exact hn) hLinked
          fun n hn => (hIntervals n hn).1).2
        exact rearmed_forward (hSec _ (top_pending hTop)) hStays.2
          (hFits k t hTurns top hTop hDue hStays)
      obtain ⟨fired, timer', hRun, hDue⟩ := pollLoop_fires_once 0 hLinked hForward
      have hFired : ↑(fired.map Prod.fst) ≤ timer.pending :=
        le_trans hDue (Multiset.filter_le _ _)
      refine ⟨fired, timer', ?_, ?_, hFired⟩
      · intro fuel hFuel
        have hCard := Multiset.card_le_card (Multiset.filter_le (fun n => n.due now) timer.pending)
        rw [pending_card] at hCard
        obtain ⟨fuel, rfl⟩ : ∃ k, fuel = k + 1 := ⟨fuel - 1, by omega⟩
        rw [timerPoll_eq]
        exact hRun (fuel + 1) (by omega)
      · have hIds : (timer.pending.map TimerNode.timerId).Nodup := by
          rw [hLinked.pending_ids]
          exact hLinked.live.keys_nodup
        have hSub := Multiset.nodup_of_le (Multiset.map_le_map hFired) hIds
        rwa [Multiset.map_coe, Multiset.coe_nodup, List.map_map] at hSub
  exact ⟨hIff, fun hFits => hIff.mpr fun k t hTurns => hFits.turns hLinked hTurns⟩

/-- A heap of two nodes. -/
def twoNodes : HeapT Nat where
  array := fun i => { data := some (i + 7), heapKey := i }
  cap := 16
  size := 2
  nextKey := 2
  keyTable := fun k => if k < 2 then k else -1

/-- Two repeating timers, the later one at the top. -/
def twoTimers (interval : Timeval) : TimerheapT where
  heap := twoNodes
  mem := fun p =>
    { timerId := p - 7
      expireTime := if p = 7 then .short 3 0 else .short 2 0
      intervalTime := interval
      args := 0
      cbFunc := 0 }

theorem twoTimers_linked (interval : Timeval) : TimerLinked (twoTimers interval) where
  live := by
    show Live twoNodes
    refine ⟨by decide, ?_, by decide, by decide⟩
    intro i _
    exact ⟨i + 7, rfl⟩
  ids := by
    intro n hn
    obtain ⟨i, hi, rfl⟩ := mem_entries.mp hn
    show ((i + 7 : Nat) : Int) - 7 = i
    omega

/-- Both timers are due, and fire once. -/
theorem timerPoll_fires_once_two :
    FiresOnce (twoTimers { tvSec := 0, tvUsec := 300000 }) { tvSec := 5, tvUsec := 900000 }
      fun _ => 0 :=
  (timerPoll_fires_once_iff (twoTimers_linked _) (by decide) _ _).2 (by decide)

/-- With the longest interval there is, the first of them overflows. -/
theorem timerPoll_overflows :
    TimerLinked (twoTimers { tvSec := 9223372036854775807, tvUsec := 0 }) ∧
      (∀ n ∈ (twoTimers { tvSec := 9223372036854775807, tvUsec := 0 }).pending,
        0 ≤ n.intervalTime.tvSec ∧ 0 ≤ n.intervalTime.tvUsec) ∧
      ¬ FiresOnce (twoTimers { tvSec := 9223372036854775807, tvUsec := 0 })
        { tvSec := 5, tvUsec := 900000 } fun _ => 0 := by
  refine ⟨twoTimers_linked _, by decide, ?_⟩
  rintro ⟨fired, timer', hRun, -⟩
  have hPoll := hRun 3 (by decide)
  rw [timerPoll_eq, (@Turns.here _ _ 0 (twoTimers _)).undefined (by decide)] at hPoll
  cases hPoll

end Gbase.Base.Timer
