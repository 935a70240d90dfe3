import Gbase.Lib.Run
import Mathlib.Logic.Function.Basic

/-!
# Spin locks (`core/spin.c`)

The lock on the builtins of the compiler (`SPIN_GCC`); it is not `NULL`.  Each builtin is one step,
and so is each access to what the lock protects.

A thread takes the lock by `spin_lock` or `spin_trylock`, changes the shared value by a load and a
store, and gives the lock back.  A run is any order of turns of any number of threads.

## Main results

* `spin_run`: never do two threads hold the lock, and no change of the shared value is lost.
* `spin_turns`: `spin_trylock` tells whether the lock was free, and a free lock is taken.
-/

namespace Gbase.Core.Spin

open Gbase.Lib.Run

universe u v

/-- `spin_lock_t` -/
structure SpinLockT where
  spin : UInt32

/-- `__sync_lock_test_and_set` on the lock. -/
def syncLockTestAndSet (lock : SpinLockT) (value : UInt32) : UInt32 × SpinLockT :=
  (lock.spin, { lock with spin := value })

/-- `__sync_lock_release` on the lock. -/
def syncLockRelease (lock : SpinLockT) : SpinLockT := { lock with spin := 0 }

/-- `spin_create`, in the memory that the allocation gives. -/
def spinCreate (memory : SpinLockT) : SpinLockT := (syncLockTestAndSet memory 0).2

/-- One turn of the loop of `spin_lock`, and whether the loop goes on. -/
def spinLockTurn (lock : SpinLockT) : Bool × SpinLockT :=
  ((syncLockTestAndSet lock 1).1 ≠ 0, (syncLockTestAndSet lock 1).2)

/-- `spin_trylock` -/
def spinTrylock (lock : SpinLockT) : Int × SpinLockT :=
  (if (syncLockTestAndSet lock 1).1 = 0 then 1 else 0, (syncLockTestAndSet lock 1).2)

/-- `spin_unlock` -/
def spinUnlock (lock : SpinLockT) : SpinLockT := syncLockRelease lock

/-! ## Threads -/

/-- Where a thread stands: the access it makes next. -/
inductive Place (α : Type u) where
  | idle
  | spinning
  | load
  | store (loaded : α)
  | unlock

/-- A thread that holds the lock. -/
def Place.Holds {α : Type u} : Place α → Prop
  | .idle => False
  | .spinning => False
  | .load => True
  | .store _ => True
  | .unlock => True

theorem not_holds_idle {α : Type u} : ¬ (.idle : Place α).Holds := id

theorem not_holds_spinning {α : Type u} : ¬ (.spinning : Place α).Holds := id

/-- What an idle thread calls. -/
inductive Call where
  | lock
  | trylock

/-- What can be seen of a turn. -/
inductive Event (τ : Type v) where
  | none
  | trylock (result : Int)
  | stored (thread : τ)

/-- The lock, the value that it protects, and the threads. -/
structure Threads (τ : Type v) (α : Type u) where
  lock : SpinLockT
  shared : α
  place : τ → Place α

/-- What a turn makes of the shared value. -/
def Event.apply {τ : Type v} {α : Type u} (f : τ → α → α) : Event τ → α → α
  | .stored thread, x => f thread x
  | _, x => x

/-- The shared value after some turns, one after the other. -/
def changed {τ : Type v} {α : Type u} (f : τ → α → α) (x : α) (events : List (Event τ)) : α :=
  events.foldl (fun x event => event.apply f x) x

section
variable {τ : Type v} {α : Type u} [DecidableEq τ]

/-- A thread goes on to another place, and leaves the lock and the shared value behind. -/
def Threads.goto (s : Threads τ α) (thread : τ) (place : Place α) (lock : SpinLockT) (shared : α) :
    Threads τ α :=
  { lock := lock, shared := shared, place := Function.update s.place thread place }

/-- A turn of a thread, which is to change the shared value by `f`. -/
def spinStep (f : τ → α → α) : Step (Threads τ α) (τ × Call) (Event τ)
  | s, (thread, call) =>
      match s.place thread with
      | .idle =>
          match call with
          | .lock => some (.none, s.goto thread .spinning s.lock s.shared)
          | .trylock =>
              let (result, lock) := spinTrylock s.lock
              let place := if result = 0 then .idle else .load
              some (.trylock result, s.goto thread place lock s.shared)
      | .spinning =>
          let (again, lock) := spinLockTurn s.lock
          some (.none, s.goto thread (if again then .spinning else .load) lock s.shared)
      | .load => some (.none, s.goto thread (.store s.shared) s.lock s.shared)
      | .store loaded => some (.stored thread, s.goto thread .unlock s.lock (f thread loaded))
      | .unlock => some (.none, s.goto thread .idle (spinUnlock s.lock) s.shared)

end

/-- A new lock, and threads that have not begun. -/
def fresh {α : Type u} (τ : Type v) (memory : SpinLockT) (shared : α) : Threads τ α :=
  { lock := spinCreate memory, shared := shared, place := fun _ => .idle }

/-! ## Who holds the lock -/

section
variable {τ : Type v} {α : Type u} {s : Threads τ α} {t u : τ}

/-- No other thread holds the lock. -/
def Threads.Alone (s : Threads τ α) (t : τ) : Prop := ∀ u, u ≠ t → ¬ (s.place u).Holds

/-- The lock is free exactly when nobody holds it, one thread holds it at most, and what a thread
has loaded is the value still. -/
structure Inv (s : Threads τ α) : Prop where
  free : s.lock.spin = 0 ↔ ∀ t, ¬ (s.place t).Holds
  one : ∀ t u, (s.place t).Holds → (s.place u).Holds → t = u
  loaded : ∀ t x, s.place t = .store x → s.shared = x

/-- What a turn does: the shared value is changed by a store alone, `spin_trylock` tells whether the
lock was free, and a thread in `spin_lock` gets a free lock. -/
structure Turn (f : τ → α → α) (s : Threads τ α) (turn : τ × Call) (event : Event τ)
    (s' : Threads τ α) : Prop where
  shared : s'.shared = event.apply f s.shared
  trylock : ∀ result, event = .trylock result → (result ≠ 0 ↔ ∀ t, ¬ (s.place t).Holds)
  takes : s.place turn.1 = .spinning → (∀ t, ¬ (s.place t).Holds) → (s'.place turn.1).Holds

/-- A turn that does not call `spin_trylock`, and is not one of the loop of `spin_lock`. -/
theorem Turn.plain {f : τ → α → α} {turn : τ × Call} {event : Event τ} {s' : Threads τ α}
    (hShared : s'.shared = event.apply f s.shared) (hEvent : ∀ result, event ≠ .trylock result)
    (hPlace : s.place turn.1 ≠ .spinning) : Turn f s turn event s' :=
  ⟨hShared, fun result hTry => absurd hTry (hEvent result), fun hSpin => absurd hSpin hPlace⟩

theorem fresh_inv (memory : SpinLockT) (x : α) : Inv (fresh τ memory x) where
  free := iff_of_true rfl fun _ hHolds => hHolds
  one := fun _ _ hHolds => hHolds.elim
  loaded := fun _ _ hStore => nomatch hStore

theorem Inv.alone (h : Inv s) (hHolds : (s.place t).Holds) : s.Alone t :=
  fun u hu hOther => hu (h.one u t hOther hHolds)

theorem Inv.taken (h : Inv s) (hHolds : (s.place t).Holds) : s.lock.spin ≠ 0 :=
  fun hFree => h.free.mp hFree t hHolds

theorem Inv.free_iff_alone (h : Inv s) (hNot : ¬ (s.place t).Holds) :
    s.lock.spin = 0 ↔ s.Alone t := by
  rw [h.free]
  constructor
  · intro hNobody u _
    exact hNobody u
  · intro hAlone u
    by_cases hu : u = t
    · rw [hu]
      exact hNot
    · exact hAlone u hu

variable [DecidableEq τ] {place : Place α} {lock : SpinLockT} {x : α} {f : τ → α → α}

@[simp] theorem goto_self : (s.goto t place lock x).place t = place := Function.update_self _ _ _

theorem goto_other (hu : u ≠ t) : (s.goto t place lock x).place u = s.place u :=
  Function.update_of_ne hu _ _

/-- What a thread has to see to when it goes to another place. -/
theorem Inv.goto (h : Inv s) (hFree : lock.spin = 0 ↔ ¬ place.Holds ∧ s.Alone t)
    (hOne : place.Holds → s.Alone t) (hOthers : x = s.shared ∨ s.Alone t)
    (hLoaded : ∀ y, place = .store y → x = y) : Inv (s.goto t place lock x) where
  free := by
    refine Iff.trans hFree ⟨?_, ?_⟩
    · rintro ⟨hNot, hAlone⟩ u
      by_cases hu : u = t
      · rw [hu, goto_self]
        exact hNot
      · rw [goto_other hu]
        exact hAlone u hu
    · intro hNobody
      have hSelf := hNobody t
      rw [goto_self] at hSelf
      refine ⟨hSelf, ?_⟩
      intro u hu
      have hOther := hNobody u
      rwa [goto_other hu] at hOther
  one := by
    intro u w hu hw
    by_cases hut : u = t <;> by_cases hwt : w = t
    · rw [hut, hwt]
    · rw [hut, goto_self] at hu
      rw [goto_other hwt] at hw
      exact absurd hw (hOne hu w hwt)
    · rw [hwt, goto_self] at hw
      rw [goto_other hut] at hu
      exact absurd hu (hOne hw u hut)
    · rw [goto_other hut] at hu
      rw [goto_other hwt] at hw
      exact h.one u w hu hw
  loaded := by
    intro u y hStore
    by_cases hu : u = t
    · rw [hu, goto_self] at hStore
      exact hLoaded y hStore
    · rw [goto_other hu] at hStore
      rcases hOthers with rfl | hAlone
      · exact h.loaded u y hStore
      · have hHolds : (s.place u).Holds := by
          rw [hStore]
          trivial
        exact absurd hHolds (hAlone u hu)

/-- A thread that finds the lock free takes it. -/
theorem Inv.take (h : Inv s) (hNot : ¬ (s.place t).Holds) (hSpin : s.lock.spin = 0) :
    Inv (s.goto t .load (syncLockTestAndSet s.lock 1).2 s.shared) := by
  have hAlone : s.Alone t := (h.free_iff_alone hNot).mp hSpin
  refine h.goto ?_ (fun _ => hAlone) (.inl rfl) nofun
  exact iff_of_false (by decide : ¬ (1 : UInt32) = 0) fun hFree => hFree.1 trivial

/-- A thread that finds the lock taken does not change that. -/
theorem Inv.miss (h : Inv s) (hNot : ¬ (s.place t).Holds) (hSpin : s.lock.spin ≠ 0)
    (place : Place α) (hPlace : ¬ place.Holds) :
    Inv (s.goto t place (syncLockTestAndSet s.lock 1).2 s.shared) := by
  refine h.goto ?_ (fun hHolds => absurd hHolds hPlace) (.inl rfl) ?_
  · apply iff_of_false (by decide : ¬ (1 : UInt32) = 0)
    rintro ⟨-, hAlone⟩
    exact hSpin ((h.free_iff_alone hNot).mpr hAlone)
  · rintro y rfl
    exact absurd trivial hPlace

/-! ## Turns -/

theorem trylock_spec (h : Inv s) (hPlace : s.place t = .idle) :
    ∃ event s', spinStep f s (t, .trylock) = some (event, s') ∧
      Turn f s (t, .trylock) event s' ∧ Inv s' := by
  have hNot : ¬ (s.place t).Holds := by
    rw [hPlace]
    exact not_holds_idle
  have hOther : s.place t ≠ .spinning := by
    rw [hPlace]
    exact nofun
  by_cases hSpin : s.lock.spin = 0
  · refine ⟨.trylock 1, s.goto t .load (syncLockTestAndSet s.lock 1).2 s.shared, ?_,
      ⟨rfl, ?_, fun hSpinning => absurd hSpinning hOther⟩,
      h.take hNot hSpin⟩
    · simp [spinStep, hPlace, spinTrylock, syncLockTestAndSet, hSpin]
    · rintro result ⟨⟩
      exact iff_of_true (by decide) (h.free.mp hSpin)
  · refine ⟨.trylock 0, s.goto t .idle (syncLockTestAndSet s.lock 1).2 s.shared, ?_,
      ⟨rfl, ?_, fun hSpinning => absurd hSpinning hOther⟩,
      h.miss hNot hSpin .idle not_holds_idle⟩
    · simp [spinStep, hPlace, spinTrylock, syncLockTestAndSet, hSpin]
    · rintro result ⟨⟩
      exact iff_of_false (by decide) (fun hNobody => hSpin (h.free.mpr hNobody))

theorem spinLockTurn_spec (h : Inv s) (hPlace : s.place t = .spinning) (call : Call) :
    ∃ event s', spinStep f s (t, call) = some (event, s') ∧
      Turn f s (t, call) event s' ∧ Inv s' := by
  have hNot : ¬ (s.place t).Holds := by
    rw [hPlace]
    exact not_holds_spinning
  by_cases hSpin : s.lock.spin = 0
  · refine ⟨.none, s.goto t .load (syncLockTestAndSet s.lock 1).2 s.shared, ?_,
      ⟨rfl, nofun, ?_⟩, h.take hNot hSpin⟩
    · simp [spinStep, hPlace, spinLockTurn, syncLockTestAndSet, hSpin]
    · intro _ _
      rw [goto_self]
      trivial
  · refine ⟨.none, s.goto t .spinning (syncLockTestAndSet s.lock 1).2 s.shared, ?_,
      ⟨rfl, nofun, ?_⟩, h.miss hNot hSpin .spinning not_holds_spinning⟩
    · simp [spinStep, hPlace, spinLockTurn, syncLockTestAndSet, hSpin]
    · intro _ hNobody
      exact absurd (h.free.mpr hNobody) hSpin

/-- Every turn is defined, does what it should and keeps the invariant. -/
theorem spinStep_spec (h : Inv s) (turn : τ × Call) :
    ∃ event s', spinStep f s turn = some (event, s') ∧ Turn f s turn event s' ∧ Inv s' := by
  obtain ⟨t, call⟩ := turn
  cases hPlace : s.place t with
  | idle =>
      cases call with
      | lock =>
          refine ⟨.none, s.goto t .spinning s.lock s.shared, by simp only [spinStep, hPlace],
            .plain rfl nofun (by rw [hPlace]; exact nofun), ?_⟩
          refine h.goto ?_ (fun hHolds => absurd hHolds not_holds_spinning) (.inl rfl) nofun
          rw [h.free_iff_alone (by rw [hPlace]; exact not_holds_idle)]
          exact (and_iff_right not_holds_spinning).symm
      | trylock => exact trylock_spec h hPlace
  | spinning => exact spinLockTurn_spec h hPlace call
  | load =>
      have hHolds : (s.place t).Holds := by
        rw [hPlace]
        trivial
      refine ⟨.none, s.goto t (.store s.shared) s.lock s.shared, by simp only [spinStep, hPlace],
        .plain rfl nofun (by rw [hPlace]; exact nofun), ?_⟩
      refine h.goto ?_ (fun _ => h.alone hHolds) (.inl rfl) fun _ hStore => Place.store.inj hStore
      exact iff_of_false (h.taken hHolds) fun hFree => hFree.1 trivial
  | store loaded =>
      have hHolds : (s.place t).Holds := by
        rw [hPlace]
        trivial
      have hLoaded : s.shared = loaded := h.loaded t loaded hPlace
      refine ⟨.stored t, s.goto t .unlock s.lock (f t loaded), by simp only [spinStep, hPlace],
        .plain (by rw [Event.apply, hLoaded]; rfl) nofun (by rw [hPlace]; exact nofun), ?_⟩
      refine h.goto ?_ (fun _ => h.alone hHolds) (.inr (h.alone hHolds)) nofun
      exact iff_of_false (h.taken hHolds) fun hFree => hFree.1 trivial
  | unlock =>
      have hHolds : (s.place t).Holds := by
        rw [hPlace]
        trivial
      refine ⟨.none, s.goto t .idle (spinUnlock s.lock) s.shared, by simp only [spinStep, hPlace],
        .plain rfl nofun (by rw [hPlace]; exact nofun), ?_⟩
      refine h.goto ?_ (fun hIdle => absurd hIdle not_holds_idle) (.inl rfl) nofun
      exact iff_of_true rfl ⟨not_holds_idle, h.alone hHolds⟩

/-! ## Runs -/

theorem spin_run_inv (h : Inv s) (turns : List (τ × Call)) : ∃ events s',
    run (spinStep f) s turns = some (events, s') ∧ Inv s' ∧
      s'.shared = changed f s.shared events := by
  induction turns generalizing s with
  | nil => exact ⟨[], s, rfl, h, rfl⟩
  | cons turn turns ih =>
      obtain ⟨event, s', hStep, hTurn, hInv⟩ := spinStep_spec (f := f) h turn
      obtain ⟨events, last, hRun, hLast, hShared⟩ := ih hInv
      refine ⟨event :: events, last, run_cons hStep hRun, hLast, ?_⟩
      rw [hShared, hTurn.shared]
      rfl

end

section
variable {τ : Type v} {α : Type u} [DecidableEq τ]

/-- Whatever the order of turns is, never do two threads hold the lock, and the shared value is what
the stores make of it one after the other, so that no change is lost. -/
theorem spin_run (f : τ → α → α) (memory : SpinLockT) (x : α) (turns : List (τ × Call)) :
    ∃ events s, run (spinStep f) (fresh τ memory x) turns = some (events, s) ∧
      (∀ t u, (s.place t).Holds → (s.place u).Holds → t = u) ∧
      s.shared = changed f x events := by
  obtain ⟨events, s, hRun, hInv, hShared⟩ := spin_run_inv (f := f) (fresh_inv memory x) turns
  exact ⟨events, s, hRun, hInv.one, hShared⟩

/-- In every turn of a run, `spin_trylock` tells whether the lock was free, and a thread in
`spin_lock` gets a free lock. -/
theorem spin_turns (f : τ → α → α) (memory : SpinLockT) (x : α) (turns : List (τ × Call)) :
    Along (spinStep f) (Does (spinStep f) (Turn f)) (fresh τ memory x) turns :=
  along_of_spec Inv (fun _ turn hInv _ => spinStep_spec hInv turn) (fresh_inv memory x)
    (along_true _ _)

end

end Gbase.Core.Spin
