import Gbase.Net.Connector

/-!
# The life of acceptors and connectors (`net/acceptor.c`, `net/connector.c`, `net/sock.c`)

What is asked of the reactor and of the system is a trace, and what they answer comes with the
calls.  What an `on_close` does is left out; where it makes calls, these are calls of the run.  A
call on what was freed is undefined, `none`.

Both objects have the same calls.  `con_stop` forgets the descriptor that it has closed, and
`acc_stop` does not.

## Main results

* `accRun_count`, `conRun_count`: what the calls of a run add to the trace.
* `descriptors_closed_once_iff`: which runs unregister and close a descriptor once.
-/

namespace Gbase.Net.Acceptor

open Gbase.Base.Buffer
open Gbase.Lib.Run
open Gbase.Net.Connector
open Gbase.Net.Reactor

/-- What is asked of the reactor and of the system for a descriptor. -/
inductive Sys where
  | listen (fd : Int)
  | register (fd : Int)
  | unregister (fd : Int)
  | close (fd : Int)
deriving DecidableEq

/-- `sock_close`; the calls of `close` that a signal interrupts and that are made again are one. -/
def sockClose (sock : Int) : List Sys := if sock < 0 then [] else [.close sock]

/-- `acceptor_t` -/
structure AccT where
  fd : Int

/-- `acc_start`, when `sock_listen` returns `listens` and `reactor_register` returns `registers`. -/
def accStart (a : AccT) (listens registers : Int) : Int × List Sys :=
  if a.fd = invalidSock then (-1, [])
  else if listens < 0 then (listens, [.listen a.fd])
  else (registers, [.listen a.fd, .register a.fd])

/-- `acc_stop` -/
def accStop (a : AccT) : Int × List Sys :=
  if a.fd = invalidSock then (-1, []) else (0, .unregister a.fd :: sockClose a.fd)

/-- `acc_release`, up to `FREE` -/
def accRelease (a : AccT) : Int × List Sys := (0, (accStop a).2)

/-- `_acc_close` behind `on_close` -/
def accClose (a : AccT) : Int × List Sys := accRelease a

/-- What `con_start` asks of the reactor. -/
def conStartDone (con : ConT) : List Sys :=
  if con.fd = invalidSock then [] else [.register con.fd]

/-- `con_stop` -/
def conStop (con : ConT) : Int × List Sys × ConT :=
  if con.fd = invalidSock then (-1, [], con)
  else (0, .unregister con.fd :: sockClose con.fd,
    { con with
      fd := invalidSock, rbuf := con.rbuf.map bufferReset, wbuf := con.wbuf.map bufferReset
      events := 0 })

/-- `con_release`, up to the buffers and `FREE` -/
def conRelease (con : ConT) : Int × List Sys := (0, (conStop con).2.1)

/-- `_con_close` behind `on_close` -/
def conClose (_ : ConT) : Int × List Sys := (0, [])

/-! ## Runs -/

/-- An object, until it is freed, and what was asked for it. -/
structure Life (σ : Type) where
  item : Option σ
  trace : List Sys

inductive AccCall where
  | start (listens registers : Int)
  | stop
  | release
  /-- The reactor calls the close callback. -/
  | closed

inductive ConCall where
  | start (rmemory wmemory : Nat → UInt8) (ret : Int)
  | stop
  | release
  | closed

def accLife : Step (Life AccT) AccCall Int
  | ⟨none, _⟩, _ => none
  | ⟨some a, trace⟩, .start listens registers =>
      let (res, done) := accStart a listens registers
      some (res, ⟨some a, trace ++ done⟩)
  | ⟨some a, trace⟩, .stop =>
      let (res, done) := accStop a
      some (res, ⟨some a, trace ++ done⟩)
  | ⟨some a, trace⟩, .release =>
      let (res, done) := accRelease a
      some (res, ⟨none, trace ++ done⟩)
  | ⟨some a, trace⟩, .closed =>
      let (res, done) := accClose a
      some (res, ⟨none, trace ++ done⟩)

def conLife : Step (Life ConT) ConCall Int
  | ⟨none, _⟩, _ => none
  | ⟨some con, trace⟩, .start rmemory wmemory ret =>
      (conStart con rmemory wmemory ret).map fun (res, next) =>
        (res, ⟨some next, trace ++ conStartDone con⟩)
  | ⟨some con, trace⟩, .stop =>
      let (res, done, con) := conStop con
      some (res, ⟨some con, trace ++ done⟩)
  | ⟨some con, trace⟩, .release =>
      let (res, done) := conRelease con
      some (res, ⟨none, trace ++ done⟩)
  | ⟨some con, trace⟩, .closed =>
      let (res, done) := conClose con
      some (res, ⟨some con, trace ++ done⟩)

/-- The object is not freed yet: a release comes last. -/
def Alive {σ ι : Type} (s : Life σ) (_ : ι) : Prop := s.item.isSome = true

instance {σ ι : Type} (s : Life σ) (op : ι) : Decidable (Alive s op) :=
  inferInstanceAs (Decidable (s.item.isSome = true))

/-- No descriptor is unregistered twice, and none is closed twice. -/
def Once (trace : List Sys) : Prop :=
  ∀ fd, trace.count (.unregister fd) ≤ 1 ∧ trace.count (.close fd) ≤ 1

/-- The calls that end an acceptor. -/
def AccCall.ends : AccCall → Nat
  | .start _ _ => 0
  | _ => 1

/-! ## What the calls ask for -/

/-- What both ways to stop ask for, by the descriptor that the object holds. -/
def ending (sock : Int) : List Sys :=
  if sock = invalidSock then [] else .unregister sock :: sockClose sock

/-- How often a descriptor is ended by that: once, if it is the one that the object holds. -/
def held (sock fd : Int) : Nat := if sock = fd ∧ sock ≠ invalidSock then 1 else 0

/-- A trace without an end of any descriptor. -/
def Quiet (trace : List Sys) : Prop :=
  ∀ fd, trace.count (.unregister fd) = 0 ∧ trace.count (.close fd) = 0

private theorem ending_count (sock fd : Int) :
    (ending sock).count (.unregister fd) = held sock fd ∧
      (ending sock).count (.close fd) ≤ held sock fd := by
  unfold ending
  by_cases hNone : sock = invalidSock
  · simp [held, hNone]
  · rw [if_neg hNone]
    unfold sockClose
    by_cases hSame : sock = fd
    · have hHeld : held sock fd = 1 := if_pos ⟨hSame, hNone⟩
      rw [hHeld]
      split_ifs <;> simp [hSame]
    · have hHeld : held sock fd = 0 := if_neg fun hHeld => hSame hHeld.1
      rw [hHeld]
      split_ifs <;> simp [hSame]

private theorem held_le (sock fd : Int) : held sock fd ≤ 1 := by
  unfold held
  split_ifs
  · exact Nat.le_refl 1
  · exact Nat.zero_le 1

/-- What an ending adds to a trace. -/
theorem count_ending (trace : List Sys) (sock fd : Int) :
    (trace ++ ending sock).count (.unregister fd) =
        trace.count (.unregister fd) + held sock fd ∧
      (trace ++ ending sock).count (.close fd) ≤ trace.count (.close fd) + held sock fd := by
  obtain ⟨hUnregister, hClose⟩ := ending_count sock fd
  rw [List.count_append, List.count_append, hUnregister]
  exact ⟨rfl, Nat.add_le_add_left hClose _⟩

theorem accStop_done (a : AccT) : (accStop a).2 = ending a.fd := by
  unfold accStop ending
  split_ifs <;> rfl

private theorem conStop_done (con : ConT) : (conStop con).2.1 = ending con.fd := by
  unfold conStop ending
  split_ifs <;> rfl

/-- `con_stop` leaves no descriptor. -/
theorem conStop_fd (con : ConT) : (conStop con).2.2.fd = invalidSock := by
  unfold conStop
  split_ifs with hNone
  · exact hNone
  · rfl

private theorem accStart_quiet (a : AccT) (listens registers : Int) :
    Quiet (accStart a listens registers).2 := by
  intro fd
  unfold accStart
  split_ifs <;> simp

private theorem conStartDone_quiet (con : ConT) : Quiet (conStartDone con) := by
  intro fd
  unfold conStartDone
  split_ifs <;> simp

/-- `con_start` is defined, and keeps the descriptor. -/
theorem conStart_spec (con : ConT) (rmemory wmemory : Nat → UInt8) (ret : Int) :
    ∃ res next, conStart con rmemory wmemory ret = some (res, next) ∧ next.fd = con.fd := by
  have hCreate : ∀ memory, ∃ cb, bufferCreate connectorBufferSize memory = some cb :=
    fun memory => ⟨_, if_neg (by decide)⟩
  obtain ⟨rnew, hRnew⟩ := hCreate rmemory
  obtain ⟨wnew, hWnew⟩ := hCreate wmemory
  by_cases hNone : con.fd = invalidSock
  · exact ⟨-1, con, if_pos hNone, rfl⟩
  · have hKeep : ∀ con : ConT, (con.register eventIn ret).fd = con.fd := by
      intro con
      unfold ConT.register
      split_ifs <;> rfl
    cases hRbuf : con.rbuf <;> cases hWbuf : con.wbuf <;>
      simp [conStart, hNone, hRbuf, hWbuf, hRnew, hWnew, hKeep]

/-! ## Acceptors -/

/-- How many calls of a run end the acceptor's descriptor. -/
def ends (calls : List AccCall) : Nat := (calls.map AccCall.ends).sum

/-- Nothing is called on what was freed. -/
theorem alive_none {σ ι : Type} {step : Step (Life σ) ι Int} {trace : List Sys} {calls : List ι}
    (hAlive : Along step Alive ⟨none, trace⟩ calls) : calls = [] := by
  cases calls with
  | nil => rfl
  | cons call calls => cases hAlive.head

/-- What a run of calls on an acceptor adds to the trace. -/
theorem accRun_count {a : AccT} {trace : List Sys} {calls : List AccCall}
    (hAlive : Along accLife Alive ⟨some a, trace⟩ calls) :
    ∃ outs t, run accLife ⟨some a, trace⟩ calls = some (outs, t) ∧ ∀ fd,
      t.trace.count (.unregister fd) =
        trace.count (.unregister fd) + held a.fd fd * ends calls ∧
      t.trace.count (.close fd) ≤ trace.count (.close fd) + held a.fd fd * ends calls := by
  induction calls generalizing trace with
  | nil => exact ⟨[], ⟨some a, trace⟩, rfl, fun fd => ⟨rfl, Nat.le_add_right _ _⟩⟩
  | cons call calls ih =>
      cases call with
      | start listens registers =>
          have hStep : accLife ⟨some a, trace⟩ (.start listens registers) =
              some ((accStart a listens registers).1,
                ⟨some a, trace ++ (accStart a listens registers).2⟩) := rfl
          obtain ⟨outs, t, hRun, hCount⟩ := ih (hAlive.tail hStep)
          refine ⟨_, t, run_cons hStep hRun, fun fd => ?_⟩
          obtain ⟨hUnregister, hClose⟩ := hCount fd
          obtain ⟨hNoUnregister, hNoClose⟩ := accStart_quiet a listens registers fd
          rw [List.count_append] at hUnregister hClose
          have hEnds : ends (.start listens registers :: calls) = ends calls := by
            simp [ends, AccCall.ends]
          rw [hEnds]
          omega
      | stop =>
          have hStep : accLife ⟨some a, trace⟩ .stop =
              some ((accStop a).1, ⟨some a, trace ++ (accStop a).2⟩) := rfl
          obtain ⟨outs, t, hRun, hCount⟩ := ih (hAlive.tail hStep)
          refine ⟨_, t, run_cons hStep hRun, fun fd => ?_⟩
          obtain ⟨hUnregister, hClose⟩ := hCount fd
          obtain ⟨hOne, hMost⟩ := count_ending trace a.fd fd
          rw [accStop_done] at hUnregister hClose
          have hEnds : ends (.stop :: calls) = 1 + ends calls := by
            simp [ends, AccCall.ends]
          rw [hEnds, Nat.mul_add]
          omega
      | release =>
          have hStep : accLife ⟨some a, trace⟩ .release =
              some (0, ⟨none, trace ++ (accStop a).2⟩) := rfl
          obtain rfl := alive_none (hAlive.tail hStep)
          refine ⟨_, _, run_cons hStep (run_nil _), fun fd => ?_⟩
          have hEnds : ends [.release] = 1 := rfl
          rw [accStop_done, hEnds, Nat.mul_one]
          exact count_ending trace a.fd fd
      | closed =>
          have hStep : accLife ⟨some a, trace⟩ .closed =
              some (0, ⟨none, trace ++ (accStop a).2⟩) := rfl
          obtain rfl := alive_none (hAlive.tail hStep)
          refine ⟨_, _, run_cons hStep (run_nil _), fun fd => ?_⟩
          have hEnds : ends [.closed] = 1 := rfl
          rw [accStop_done, hEnds, Nat.mul_one]
          exact count_ending trace a.fd fd

/-! ## Connectors -/

/-- What a run of calls on a connector adds to the trace at most. -/
theorem conRun_count {con : ConT} {trace : List Sys} {calls : List ConCall}
    (hAlive : Along conLife Alive ⟨some con, trace⟩ calls) :
    ∃ outs t, run conLife ⟨some con, trace⟩ calls = some (outs, t) ∧ ∀ fd,
      t.trace.count (.unregister fd) ≤ trace.count (.unregister fd) + held con.fd fd ∧
      t.trace.count (.close fd) ≤ trace.count (.close fd) + held con.fd fd := by
  induction calls generalizing con trace with
  | nil =>
      exact ⟨[], ⟨some con, trace⟩, rfl, fun fd => ⟨Nat.le_add_right _ _, Nat.le_add_right _ _⟩⟩
  | cons call calls ih =>
      cases call with
      | start rmemory wmemory ret =>
          obtain ⟨res, next, hStart, hFd⟩ := conStart_spec con rmemory wmemory ret
          have hStep : conLife ⟨some con, trace⟩ (.start rmemory wmemory ret) =
              some (res, ⟨some next, trace ++ conStartDone con⟩) := by
            rw [conLife, hStart]
            rfl
          obtain ⟨outs, t, hRun, hCount⟩ := ih (hAlive.tail hStep)
          refine ⟨_, t, run_cons hStep hRun, fun fd => ?_⟩
          obtain ⟨hUnregister, hClose⟩ := hCount fd
          obtain ⟨hNoUnregister, hNoClose⟩ := conStartDone_quiet con fd
          rw [List.count_append, hFd] at hUnregister hClose
          omega
      | stop =>
          have hStep : conLife ⟨some con, trace⟩ .stop =
              some ((conStop con).1, ⟨some (conStop con).2.2, trace ++ (conStop con).2.1⟩) := rfl
          obtain ⟨outs, t, hRun, hCount⟩ := ih (hAlive.tail hStep)
          refine ⟨_, t, run_cons hStep hRun, fun fd => ?_⟩
          obtain ⟨hUnregister, hClose⟩ := hCount fd
          obtain ⟨hOne, hMost⟩ := count_ending trace con.fd fd
          have hNone : held (conStop con).2.2.fd fd = 0 :=
            if_neg fun hHeld => hHeld.2 (conStop_fd con)
          rw [hNone, conStop_done] at hUnregister hClose
          omega
      | release =>
          have hStep : conLife ⟨some con, trace⟩ .release =
              some (0, ⟨none, trace ++ (conStop con).2.1⟩) := rfl
          obtain rfl := alive_none (hAlive.tail hStep)
          refine ⟨_, _, run_cons hStep (run_nil _), fun fd => ?_⟩
          obtain ⟨hOne, hMost⟩ := count_ending trace con.fd fd
          rw [conStop_done]
          exact ⟨Nat.le_of_eq hOne, hMost⟩
      | closed =>
          have hStep : conLife ⟨some con, trace⟩ .closed = some (0, ⟨some con, trace⟩) := by
            simp [conLife, conClose]
          obtain ⟨outs, t, hRun, hCount⟩ := ih (hAlive.tail hStep)
          exact ⟨_, t, run_cons hStep hRun, hCount⟩

/-- A run on an acceptor, with a release at most at its end, ends its descriptor once exactly if
there is none or at most one of the calls is a stop, a release or a close callback; a run on a
connector always does. -/
theorem descriptors_closed_once_iff (a : AccT) (calls : List AccCall) (con : ConT)
    (conCalls : List ConCall) (hAlive : Along accLife Alive ⟨some a, []⟩ calls)
    (hConAlive : Along conLife Alive ⟨some con, []⟩ conCalls) :
    (∃ outs t, run accLife ⟨some a, []⟩ calls = some (outs, t) ∧
        (Once t.trace ↔ a.fd = invalidSock ∨ ends calls ≤ 1)) ∧
      ∃ outs t, run conLife ⟨some con, []⟩ conCalls = some (outs, t) ∧ Once t.trace := by
  constructor
  · obtain ⟨outs, t, hRun, hCount⟩ := accRun_count hAlive
    refine ⟨outs, t, hRun, ?_, ?_⟩
    · intro hOnce
      by_cases hNone : a.fd = invalidSock
      · exact Or.inl hNone
      · have hEnds := (hCount a.fd).1
        have hHeld : held a.fd a.fd = 1 := if_pos ⟨rfl, hNone⟩
        rw [List.count_nil, hHeld] at hEnds
        have hLe := (hOnce a.fd).1
        exact Or.inr (by omega)
    · intro hEnds fd
      obtain ⟨hUnregister, hClose⟩ := hCount fd
      rw [List.count_nil] at hUnregister hClose
      have hMost : held a.fd fd * ends calls ≤ 1 := by
        rcases hEnds with hNone | hFew
        · have hHeld : held a.fd fd = 0 := if_neg fun hHeld => hHeld.2 hNone
          rw [hHeld, Nat.zero_mul]
          exact Nat.zero_le 1
        · exact Nat.mul_le_mul (held_le a.fd fd) hFew
      omega
  · obtain ⟨outs, t, hRun, hCount⟩ := conRun_count hConAlive
    refine ⟨outs, t, hRun, fun fd => ?_⟩
    obtain ⟨hUnregister, hClose⟩ := hCount fd
    rw [List.count_nil] at hUnregister hClose
    have hHeld := held_le con.fd fd
    omega

/-- An acceptor that is only released, and a connector that is stopped before it is released. -/
theorem descriptors_closed_once_release :
    (∃ outs t, run accLife ⟨some ⟨7⟩, []⟩ [.start 0 0, .release] = some (outs, t) ∧
        (Once t.trace ↔ (7 : Int) = invalidSock ∨ ends [.start 0 0, .release] ≤ 1)) ∧
      ∃ outs t, run conLife ⟨some ⟨8, none, none, 0⟩, []⟩
        [.start UInt8.ofNat UInt8.ofNat 0, .stop, .release] = some (outs, t) ∧ Once t.trace :=
  descriptors_closed_once_iff ⟨7⟩ [.start 0 0, .release] ⟨8, none, none, 0⟩
    [.start UInt8.ofNat UInt8.ofNat 0, .stop, .release] (by decide) (by decide)

/-- An acceptor that is stopped before it is released is closed twice. -/
theorem acceptor_closed_twice :
    ∃ outs t, run accLife ⟨some ⟨7⟩, []⟩ [.start 0 0, .stop, .release] = some (outs, t) ∧
      t.trace = [.listen 7, .register 7, .unregister 7, .close 7, .unregister 7, .close 7] ∧
      ¬ Once t.trace := by
  refine ⟨[0, 0, 0], ⟨none, [.listen 7, .register 7, .unregister 7, .close 7, .unregister 7,
    .close 7]⟩, rfl, rfl, ?_⟩
  intro hOnce
  exact absurd (hOnce 7).2 (by decide)

end Gbase.Net.Acceptor
