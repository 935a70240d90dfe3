import Gbase.Base.HeapHistory
import Gbase.Base.TimerRuns

/-!
# Timer ids

What a client keeps of a timer is its id, so beside the timer heap a run carries the ids that
`timer_register` has returned, and those of the timers that have fired for the last time.  An
unregistered timer leaves no trace of its id, but `heap_pop` does not clear the key table, and
`timer_unregister` of a timer that has fired for the last time takes out another one.  Nothing
here depends on the order of the heap.

## Main results

* `pollLoop_history`: a poll adds the ids of the timers it takes out to those that lead nowhere.
* `timer_unregister_iff`: `timer_unregister` affects only its own timer all along a run if and
  only if it is not called with the id of a timer that has fired for the last time.
-/

namespace Gbase.Base.Timer

open Gbase.Base.Heap
open Gbase.Lib.Run
open Gbase.Util.UtilTime

/-- The ids of the timers that were not armed again. -/
def lastIds (fired : List (TimerNode × Int)) : List Int :=
  (fired.filter fun f => ¬ Stays f).map fun f => f.1.timerId

/-- A timer heap, the ids `timer_register` returned, and the ids of the timers that have fired for
the last time. -/
structure Client where
  timer : TimerheapT
  issued : List Int
  ended : List Int

/-- What a client knows after a call. -/
def Client.after (c : Client) (timer : TimerheapT) : TimerOp → TimerResult → Client
  | .register _ _ _ _ _ _ _, .id timerId =>
      { timer := timer, issued := timerId :: c.issued, ended := c.ended.filter (· ≠ timerId) }
  | .poll _ _ _, .fired fired =>
      { timer := timer, issued := c.issued, ended := c.ended ++ lastIds fired }
  | _, _ => { timer := timer, issued := c.issued, ended := c.ended }

def clientStep : Step Client TimerOp TimerResult := fun c op =>
  (timerStep c.timer op).map fun r => (r.1, c.after r.2 op r.1)

def clientCreate (mem : Nat → TimerNode) : Client :=
  { timer := timerCreateHeap mem, issued := [], ended := [] }

/-- `MALLOC` returns memory no pending timer lives in, ids passed to `timer_unregister` were
returned by `timer_register`, and polls return: they end, and no sum in them is undefined. -/
def MayCall (c : Client) : TimerOp → Prop
  | .register _ ptr _ _ _ _ _ => c.timer.Fresh ptr
  | .unregister timerId => timerId ∈ c.issued
  | .poll now rets fuel => (timerPoll fuel rets c.timer now).isSome

/-- `timer_register` adds one pending timer, or none for want of memory; `timer_unregister` takes
out the pending timer with the id, and nothing when there is none. -/
def Affects (c : Client) : TimerOp → TimerResult → Client → Prop
  | .register ok _ clock interval delay cb args, r, c' =>
      (ok = false ∧ r = .id timerInvalidId ∧ c'.timer.pending = c.timer.pending) ∨
      ∃ id expire, r = .id id ∧ 0 ≤ id ∧ (∀ n ∈ c.timer.pending, n.timerId ≠ id) ∧
        utilTimeAdd clock delay = some expire ∧
        c'.timer.pending = registered id expire interval cb args ::ₘ c.timer.pending
  | .unregister timerId, _, c' =>
      (∃ n, n.timerId = timerId ∧ c.timer.pending = n ::ₘ c'.timer.pending) ∨
      (∀ n ∈ c.timer.pending, n.timerId ≠ timerId) ∧ c'.timer.pending = c.timer.pending
  | .poll _ _ _, _, _ => True

/-- `timer_register` finds a key for the new timer and can compute its expiry time, and
`timer_unregister` is not called for a timer that has fired for the last time. -/
def NotEnded (c : Client) : TimerOp → Prop
  | .register _ _ clock _ delay _ _ => KeyAtHand c.timer.heap ∧ SumFits clock delay
  | .unregister timerId => timerId ∉ c.ended
  | .poll _ _ _ => True

/-- What holds of a client whose calls all met `NotEnded`. -/
structure ClientInv (c : Client) : Prop where
  usable : Usable c.timer.heap
  linked : TimerLinked c.timer
  history : KeyHistory c.timer.heap c.ended
  issued : ∀ id ∈ c.issued, id < c.timer.heap.cap

theorem clientCreate_inv (mem : Nat → TimerNode) : ClientInv (clientCreate mem) where
  usable := heapCreate_usable
  linked := (timerCreateHeap_inv mem).linked
  history := heapCreate_history
  issued := by
    intro id hIn
    cases hIn

/-! ## Registering -/

section Register

variable {c : Client} {ok : Bool} {ptr : Nat} {clock : Timeval} {interval : Option Timeval}
  {delay expire : Timeval} {cb args : Nat}

/-- Taking an id out of a list that it is not in. -/
private theorem filter_ne_self {ids : List Int} {id : Int} (hNot : id ∉ ids) :
    ids.filter (· ≠ id) = ids := by
  rw [List.filter_eq_self]
  intro other hIn
  rw [decide_eq_true_iff]
  rintro rfl
  exact hNot hIn

private theorem timerRegister_client (hInv : ClientInv c) (hFresh : c.timer.Fresh ptr)
    (hKey : KeyAtHand c.timer.heap) (hSum : utilTimeAdd clock delay = some expire) :
    ∃ id timer', timerRegister ok ptr clock c.timer interval delay cb args = some (id, timer') ∧
      ClientInv { timer := timer', issued := id :: c.issued,
                  ended := c.ended.filter (· ≠ id) } ∧
      ((ok = false ∧ id = timerInvalidId ∧ timer'.pending = c.timer.pending) ∨
        (0 ≤ id ∧ (∀ n ∈ c.timer.pending, n.timerId ≠ id) ∧
          timer'.pending =
            registered id expire interval cb args ::ₘ c.timer.pending)) := by
  have hPtr := write_mem_self c.timer ptr
    (registered (c.timer.mem ptr).timerId expire interval cb args)
  have hHeap := write_heap c.timer ptr
    (registered (c.timer.mem ptr).timerId expire interval cb args)
  obtain ⟨hLinked₁, hPending₁⟩ :=
    hInv.linked.write hFresh (registered (c.timer.mem ptr).timerId expire interval cb args)
  have hCases := @timerRegister_cases c.timer _ ptr clock delay expire interval cb args rfl
    hInv.usable hKey ok hSum
  generalize c.timer.write ptr
    (registered (c.timer.mem ptr).timerId expire interval cb args) = timer₁ at *
  have hFresh₁ : timer₁.Fresh ptr := by
    unfold TimerheapT.Fresh
    rw [hHeap]
    exact hFresh
  rw [← hHeap] at hKey
  have hUsable₁ : Usable timer₁.heap := by
    rw [hHeap]
    exact hInv.usable
  have hHistory₁ : KeyHistory timer₁.heap c.ended := by
    rw [hHeap]
    exact hInv.history
  have hIssued₁ : ∀ id ∈ c.issued, id < timer₁.heap.cap := by
    rw [hHeap]
    exact hInv.issued
  rw [← hPending₁]
  rcases hCases with ⟨heap', hMem, hInsert, hId, hRun⟩ | ⟨rfl, hRun⟩
  · obtain ⟨heap₁, hInsert₁, hU', hEntries, hNew, -⟩ :=
      heapInsert_usable (timerCmp timer₁.mem) hUsable₁ hKey ptr hMem
    rw [hInsert] at hInsert₁
    cases hInsert₁
    obtain ⟨next, hNext, hLt, -⟩ := hUsable₁.freeKey hKey
    obtain ⟨hHistory', hCap⟩ := hHistory₁.insert _ hUsable₁ hKey ptr hMem hInsert
    obtain ⟨hLinked', hPending'⟩ := hLinked₁.insert hFresh₁ hU'.live hEntries
      { timer₁.mem ptr with timerId := timer₁.heap.nextKey } rfl
    have hKeep := filter_ne_self fun hIn => hHistory₁.nextKey_not_mem hUsable₁ hIn
    refine ⟨_, _, hRun, ⟨hU', hLinked', ?_, ?_⟩, Or.inr ⟨hId, ?_, ?_⟩⟩
    · change KeyHistory heap' (c.ended.filter (· ≠ timer₁.heap.nextKey))
      rw [hKeep]
      exact hHistory'
    · intro id hIn
      change id < heap'.cap
      rcases List.mem_cons.mp hIn with rfl | hIn
      · rw [(heapInsert_table _ hUsable₁ hKey ptr hMem hInsert).1]
        omega
      · have hOld := hIssued₁ id hIn
        omega
    · intro n hn hEq
      exact hNew (hLinked₁.exists_pending_iff.mp ⟨n, hn, hEq⟩)
    · rw [hPending', hPtr]
      rfl
  · obtain ⟨hLinked', hPending'⟩ := hLinked₁.write hFresh₁ { timer₁.mem ptr with timerId := -1 }
    have hKeep := filter_ne_self fun hIn =>
      absurd (hHistory₁.unused timerInvalidId hIn).1 (by decide)
    refine ⟨_, _, hRun, ⟨hUsable₁, hLinked', ?_, ?_⟩, Or.inl ⟨rfl, rfl, hPending'⟩⟩
    · change KeyHistory timer₁.heap (c.ended.filter (· ≠ timerInvalidId))
      rw [hKeep]
      exact hHistory₁
    · intro id hIn
      change id < timer₁.heap.cap
      rcases List.mem_cons.mp hIn with rfl | hIn
      · change (-1 : Int) < _
        omega
      · exact hIssued₁ id hIn

end Register

/-! ## Polling -/

/-- A poll leaves a usable heap of timers, and the ids of the timers it took out lead nowhere. -/
theorem pollLoop_history {now : Timeval} {rets : Nat → Int} (fuel : Nat) :
    ∀ (i : Nat) {timer timer' : TimerheapT} {ended : List Int} {fired : List (TimerNode × Int)},
      Usable timer.heap → TimerLinked timer → KeyHistory timer.heap ended →
      pollLoop now rets fuel i timer = some (fired, timer') →
      Usable timer'.heap ∧ TimerLinked timer' ∧
        KeyHistory timer'.heap (ended ++ lastIds fired) ∧
        timer'.heap.cap = timer.heap.cap := by
  induction fuel with
  | zero =>
      intro i timer timer' ended fired _ _ _ hRun
      cases hRun
  | succ fuel ih =>
      intro i timer timer' ended fired hUsable hLinked hHistory hRun
      by_cases hDue : ∃ top, heapTop timer.heap = some top ∧ (timer.mem top).due now
      · obtain ⟨top, hTop, hDue⟩ := hDue
        have hAgain : Stays (timer.mem top, rets i) →
            ∃ next, (timer.mem top).rearmed now = some next := by
          intro hStays
          cases hNext : (timer.mem top).rearmed now with
          | some next => exact ⟨next, rfl⟩
          | none =>
              rw [pollLoop, pollTurn_overflow hTop hDue hStays hNext] at hRun
              cases hRun
        obtain ⟨timer₁, rest, hTurn, hLinked₁, -, -, hHeap⟩ :=
          pollTurn_due hLinked hTop hDue hAgain
        rw [pollLoop, hTurn] at hRun
        simp only [Option.bind_eq_bind, Option.bind_eq_some_iff, Option.pure_def] at hRun
        obtain ⟨r, hRest, hEnd⟩ := hRun
        cases hEnd
        obtain ⟨hSize, hData⟩ := heapTop_eq_some hTop
        rcases hHeap with ⟨hStays, hRe⟩ | ⟨hStays, hPop, -⟩
        · have hUsable₁ : Usable timer₁.heap := by
            refine ⟨hLinked₁.live, ?_, hRe.next_free hUsable.live hUsable.next⟩
            rw [hRe.cap]
            exact hUsable.cap_pos
          have hDone := ih (i + 1) hUsable₁ hLinked₁ (hHistory.rearranged hUsable.live hRe) hRest
          rw [hRe.cap] at hDone
          rw [lastIds, List.filter_cons_of_neg (by simp [hStays])]
          exact hDone
        · obtain ⟨heap', hRun', hUsable₁, -⟩ := heapPop_usable (timerCmp timer.mem) hUsable hSize
          rw [hPop] at hRun'
          obtain rfl := (Prod.mk.inj (Option.some.inj hRun')).2
          obtain ⟨hHistory₁, hCap⟩ := hHistory.pop _ hUsable.live hSize hPop
          have hId : (timer.heap.array 0).heapKey = (timer.mem top).timerId := by
            rw [← hLinked.ids _ (array_mem_entries hSize), timerOf, hData]
            rfl
          rw [hId] at hHistory₁
          have hDone := ih (i + 1) hUsable₁ hLinked₁ hHistory₁ hRest
          rw [List.append_assoc, hCap] at hDone
          rw [lastIds, List.filter_cons_of_pos (by simp [hStays])]
          exact hDone
      · rw [pollLoop, pollTurn_stop fun top hTop hIs => hDue ⟨top, hTop, hIs⟩] at hRun
        cases hRun
        refine ⟨hUsable, hLinked, ?_, rfl⟩
        rw [lastIds, List.filter_nil, List.map_nil, List.append_nil]
        exact hHistory

/-! ## One call -/

/-- `timer_unregister` of an id that the heap has, or of one that leads nowhere, affects only its
own timer; of any other, it takes out a timer with another id, or is undefined. -/
theorem timerUnregister_client {c : Client} (hInv : ClientInv c) {id : Int}
    (hIssued : id ∈ c.issued) :
    Does clientStep Affects c (.unregister id) ↔ id ∉ c.ended := by
  have hStep : clientStep c (.unregister id) =
      (timerUnregister c.timer id).map fun timer =>
        (.done, { timer := timer, issued := c.issued, ended := c.ended }) := by
    rw [clientStep, timerStep, Option.map_map]
    rfl
  have hNone : ¬ c.timer.heap.HasKey id → timerUnregister c.timer id = some c.timer →
      Does clientStep Affects c (.unregister id) := by
    intro hNot hRun
    refine ⟨.done, _, by rw [hStep, hRun]; rfl, Or.inr ⟨?_, rfl⟩⟩
    intro n hn hEq
    exact hNot (hInv.linked.exists_pending_iff.mp ⟨n, hn, hEq⟩)
  by_cases hNeg : id < 0
  · refine iff_of_true (hNone ?_ (if_pos hNeg)) ?_
    · rintro ⟨i, hi, hKey⟩
      have hRange := hInv.usable.live.key i hi
      omega
    · intro hIn
      have hRange := (hInv.history.unused id hIn).1
      omega
  · have hCap := hInv.issued id hIssued
    by_cases hHas : c.timer.heap.HasKey id
    · refine iff_of_true ?_ fun hIn => (hInv.history.unused id hIn).2.2 hHas
      obtain ⟨i, hi, hKey⟩ := hHas
      obtain ⟨heap', hRun, hU', hEntries, -⟩ :=
        heapErase_usable (timerCmp c.timer.mem) hInv.usable hi hKey
      refine ⟨.done, ⟨{ c.timer with heap := heap' }, c.issued, c.ended⟩, ?_,
        Or.inl ⟨timerOf c.timer.mem (c.timer.heap.array i), ?_, ?_⟩⟩
      · rw [hStep, timerUnregister, if_neg hNeg, hRun]
        rfl
      · rw [hInv.linked.ids _ (array_mem_entries hi), hKey]
      · exact (hInv.linked.remove hU'.live hEntries).2
    · by_cases hEntry : c.timer.heap.keyTable id.toNat < 0
      · refine iff_of_true (hNone hHas ?_) ?_
        · rw [timerUnregister, if_neg hNeg, heapErase_absent _ (by omega) hCap hEntry]
          rfl
        · intro hIn
          have hLeads := (hInv.history.entry_iff (by omega) hCap hHas).mpr hIn
          omega
      · have hIn := (hInv.history.entry_iff (by omega) hCap hHas).mp (by omega)
        refine iff_of_false ?_ (not_not.mpr hIn)
        rintro ⟨r, c', hRun, hAffects⟩
        rw [hStep, timerUnregister, if_neg hNeg] at hRun
        simp only [Option.bind_eq_bind, Option.map_eq_some_iff, Option.bind_eq_some_iff] at hRun
        obtain ⟨timer', ⟨e, hErase, hTimer⟩, hEnd⟩ := hRun
        cases hTimer
        cases hEnd
        -- the heap is one node shorter, while no pending timer has this id
        have hSize := heapErase_size _ hErase (by omega)
        rcases hAffects with ⟨n, hId, hPending⟩ | ⟨-, hPending⟩
        · apply hHas
          apply hInv.linked.exists_pending_iff.mp
          exact ⟨n, by rw [hPending]; exact Multiset.mem_cons_self _ _, hId⟩
        · have hCard := congrArg Multiset.card hPending
          rw [pending_card, pending_card] at hCard
          simp only at hCard
          omega

theorem clientStep_iff {c : Client} (hInv : ClientInv c) {op : TimerOp} (hMay : MayCall c op) :
    Does clientStep Affects c op ↔ NotEnded c op := by
  cases op with
  | register ok ptr clock interval delay cb args =>
      by_cases hNeeds : KeyAtHand c.timer.heap ∧ SumFits clock delay
      · refine iff_of_true ?_ hNeeds
        obtain ⟨expire, hSum⟩ := utilTimeAdd_isSome_iff.mpr hNeeds.2
        obtain ⟨id, timer', hRun, -, hSpec⟩ := timerRegister_client hInv hMay hNeeds.1 hSum
        refine ⟨.id id, _, by rw [clientStep, timerStep, hRun]; rfl, ?_⟩
        rcases hSpec with ⟨hOk, rfl, hSame⟩ | ⟨hId, hNew, hPending⟩
        · exact Or.inl ⟨hOk, rfl, hSame⟩
        · exact Or.inr ⟨id, expire, rfl, hId, hNew, hSum, hPending⟩
      · refine iff_of_false ?_ hNeeds
        rintro ⟨r, c', hRun, -⟩
        have hUndefined : timerRegister ok ptr clock c.timer interval delay cb args = none := by
          cases hSum : utilTimeAdd clock delay with
          | none => simp only [timerRegister, hSum, Option.bind_eq_bind, Option.bind_none]
          | some expire =>
              have hKey : ¬ KeyAtHand c.timer.heap := fun hKey =>
                hNeeds ⟨hKey, utilTimeAdd_isSome_iff.mp ⟨expire, hSum⟩⟩
              simp only [timerRegister, hSum, write_heap,
                heapInsert_undefined _ ok hInv.usable hKey ptr, Option.bind_eq_bind,
                Option.bind_some, Option.bind_none]
        rw [clientStep, timerStep, hUndefined] at hRun
        cases hRun
  | unregister id => exact timerUnregister_client hInv hMay
  | poll now rets fuel =>
      refine iff_of_true ?_ trivial
      obtain ⟨r, hRun⟩ := Option.isSome_iff_exists.mp hMay
      exact ⟨.fired r.1, _, by rw [clientStep, timerStep, hRun]; rfl, trivial⟩

theorem clientStep_inv {c c' : Client} (hInv : ClientInv c) {op : TimerOp} (hMay : MayCall c op)
    (hNotEnded : NotEnded c op) {r : TimerResult} (hStep : clientStep c op = some (r, c')) :
    ClientInv c' := by
  cases op with
  | register ok ptr clock interval delay cb args =>
      obtain ⟨expire, hSum⟩ := utilTimeAdd_isSome_iff.mpr hNotEnded.2
      obtain ⟨id, timer', hRun, hInv', -⟩ := timerRegister_client hInv hMay hNotEnded.1 hSum
      rw [clientStep, timerStep, hRun] at hStep
      cases hStep
      exact hInv'
  | unregister id =>
      rw [clientStep, timerStep, Option.map_map, Option.map_eq_some_iff] at hStep
      obtain ⟨timer', hRun, hEnd⟩ := hStep
      cases hEnd
      by_cases hNeg : id < 0
      · rw [timerUnregister, if_pos hNeg] at hRun
        cases hRun
        exact ⟨hInv.usable, hInv.linked, hInv.history, hInv.issued⟩
      · have hCap := hInv.issued id hMay
        rw [timerUnregister, if_neg hNeg] at hRun
        by_cases hHas : c.timer.heap.HasKey id
        · obtain ⟨i, hi, hKey⟩ := hHas
          obtain ⟨heap', hErase, hU', hEntries, -⟩ :=
            heapErase_usable (timerCmp c.timer.mem) hInv.usable hi hKey
          rw [hErase] at hRun
          cases hRun
          obtain ⟨hHistory, hSame⟩ := hInv.history.erase _ hInv.usable hi hKey hErase
          refine ⟨hU', (hInv.linked.remove hU'.live hEntries).1, hHistory, ?_⟩
          intro j hIn
          change j < heap'.cap
          rw [hSame]
          exact hInv.issued j hIn
        · have hLeads := mt (hInv.history.entry_iff (by omega) hCap hHas).mp hNotEnded
          rw [heapErase_absent _ (by omega) hCap (by omega)] at hRun
          cases hRun
          exact ⟨hInv.usable, hInv.linked, hInv.history, hInv.issued⟩
  | poll now rets fuel =>
      rw [clientStep, timerStep, Option.map_map, Option.map_eq_some_iff] at hStep
      obtain ⟨⟨fired, timer'⟩, hRun, hEnd⟩ := hStep
      cases hEnd
      rw [timerPoll] at hRun
      split at hRun
      · cases hRun
        refine ⟨hInv.usable, hInv.linked, ?_, hInv.issued⟩
        change KeyHistory c.timer.heap (c.ended ++ [])
        rw [List.append_nil]
        exact hInv.history
      · obtain ⟨hUsable, hLinked, hHistory, hCap⟩ :=
          pollLoop_history fuel 0 hInv.usable hInv.linked hInv.history hRun
        refine ⟨hUsable, hLinked, hHistory, ?_⟩
        intro id hIn
        change id < timer'.heap.cap
        rw [hCap]
        exact hInv.issued id hIn

/-- A call that meets `NotEnded` is defined, and the invariant holds after it. -/
theorem clientStep_defined {c : Client} (hInv : ClientInv c) {op : TimerOp} (hMay : MayCall c op)
    (hNotEnded : NotEnded c op) : ∃ r c', clientStep c op = some (r, c') ∧ ClientInv c' := by
  obtain ⟨r, c', hStep, -⟩ := (clientStep_iff hInv hMay).mpr hNotEnded
  exact ⟨r, c', hStep, clientStep_inv hInv hMay hNotEnded hStep⟩

/-! ## Runs -/

/-- In every run, `timer_register` adds its timer and `timer_unregister` affects only its own, if
and only if `timer_register` always finds a key and a time to expire at, and `timer_unregister` is
never called with the id of a timer that has fired for the last time. -/
theorem timer_unregister_iff (mem : Nat → TimerNode) (ops : List TimerOp)
    (hMay : Along clientStep MayCall (clientCreate mem) ops) :
    Along clientStep (Does clientStep Affects) (clientCreate mem) ops ↔
      Along clientStep NotEnded (clientCreate mem) ops := by
  refine along_iff_of_inv ClientInv ?_ ?_ (clientCreate_inv mem) hMay
  · intro c op hInv hMay
    exact clientStep_iff hInv hMay
  · intro c op r c' hInv hMay hDoes hStep
    exact clientStep_inv hInv hMay ((clientStep_iff hInv hMay).mp hDoes) hStep

instance (c : Client) : ∀ op, Decidable (MayCall c op)
  | .register _ ptr _ _ _ _ _ =>
      inferInstanceAs (Decidable (∀ i < c.timer.heap.size,
        (c.timer.heap.array i).data ≠ some ptr))
  | .unregister timerId => inferInstanceAs (Decidable (timerId ∈ c.issued))
  | .poll now rets fuel => inferInstanceAs (Decidable ((timerPoll fuel rets c.timer now).isSome))

instance (c : Client) : ∀ op, Decidable (NotEnded c op)
  | .register _ _ clock _ delay _ _ =>
      inferInstanceAs (Decidable (KeyAtHand c.timer.heap ∧ SumFits clock delay))
  | .unregister timerId => inferInstanceAs (Decidable (timerId ∉ c.ended))
  | .poll _ _ _ => inferInstanceAs (Decidable True)

/-- A run that unregisters a pending timer, the same timer again, and then a timer that was given
the same id. -/
theorem timer_unregister_twice :
    Along clientStep (Does clientStep Affects) (clientCreate blankMem)
      [once 0 3, once 1 1, .poll { tvSec := 2, tvUsec := 0 } (fun _ => 0) 3, .unregister 0,
        .unregister 0, once 2 9, .unregister 2] :=
  (timer_unregister_iff blankMem _ (by decide)).mpr (by decide)

/-- The timer of 1 second fires at 2 seconds; unregistering it afterwards takes out the timer of
9 seconds. -/
theorem timer_unregister_takes_other :
    ((run clientStep (clientCreate blankMem)
        [once 0 1, once 1 9, .poll { tvSec := 2, tvUsec := 0 } (fun _ => 0) 3]).map fun r =>
          (r.2.timer.heap.size, r.2.issued, r.2.ended)) = some (1, [1, 0], [0]) ∧
      ((run clientStep (clientCreate blankMem)
        [once 0 1, once 1 9, .poll { tvSec := 2, tvUsec := 0 } (fun _ => 0) 3,
          .unregister 0]).map fun r => r.2.timer.heap.size) = some 0 ∧
      Along clientStep MayCall (clientCreate blankMem)
        [once 0 1, once 1 9, .poll { tvSec := 2, tvUsec := 0 } (fun _ => 0) 3, .unregister 0] ∧
      ¬ Along clientStep (Does clientStep Affects) (clientCreate blankMem)
        [once 0 1, once 1 9, .poll { tvSec := 2, tvUsec := 0 } (fun _ => 0) 3,
          .unregister 0] := by
  have hBefore : ((run clientStep (clientCreate blankMem)
      [once 0 1, once 1 9, .poll { tvSec := 2, tvUsec := 0 } (fun _ => 0) 3]).map fun r =>
        (r.2.timer.heap.size, r.2.issued, r.2.ended)) = some (1, [1, 0], [0]) := by decide
  refine ⟨hBefore, by decide, by decide, ?_⟩
  intro hAlong
  have hMay : Along clientStep MayCall (clientCreate blankMem)
      [once 0 1, once 1 9, .poll { tvSec := 2, tvUsec := 0 } (fun _ => 0) 3] := by decide
  have hNotEnded : Along clientStep NotEnded (clientCreate blankMem)
      [once 0 1, once 1 9, .poll { tvSec := 2, tvUsec := 0 } (fun _ => 0) 3] := by decide
  obtain ⟨results, c, hRun, hInv⟩ := run_of_inv ClientInv
    (fun c op hInv hMeets => clientStep_defined hInv hMeets.1 hMeets.2)
    (clientCreate_inv blankMem) (hMay.and hNotEnded)
  rw [hRun, Option.map_some, Option.some.injEq, Prod.mk.injEq, Prod.mk.injEq] at hBefore
  obtain ⟨-, hIssued, hEnded⟩ := hBefore
  have hLast : Along clientStep (Does clientStep Affects) c [.unregister 0] := hAlong.behind hRun
  have hNot := (timerUnregister_client hInv (by rw [hIssued]; decide)).mp hLast.head
  rw [hEnded] at hNot
  exact hNot (by decide)

end Gbase.Base.Timer
