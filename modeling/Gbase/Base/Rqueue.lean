import Gbase.Core.OsDef
import Gbase.Lib.Run
import Mathlib.Data.List.Infix
import Mathlib.Logic.Function.Basic

/-!
# The ring queue (`base/rqueue.c`)

A ring of slots that one thread pushes to and one thread pops from.  A turn is one access of one
thread to a shared variable, and a run is any order of turns; the accesses are sequentially
consistent and the operands of a comparison are read from left to right.  `size` has 64 bits and
a position 32.

`rqueue_is_full` and `rqueue_is_empty` answer 0 for yes, and `rqueue_push_back` and
`rqueue_pop_front` take this for a no.  So a push goes ahead only when the queue is full and a
pop only when it is empty.

## Main results

* `rqueue_lags`: in every state the values popped are a prefix of the first contents of the
  slots followed by the values pushed.
* `rqueue_fifo_iff`: the values popped are a prefix of the values pushed along a run if and only
  if no pop of the run comes to its end.
-/

namespace Gbase.Base.Rqueue

open Gbase.Core.OsDef
open Gbase.Lib.Run

universe u

variable {α : Type u}

/-- `rqueue_t` -/
structure RqueueT (α : Type u) where
  data : Nat → α
  readPos : Nat
  writePos : Nat
  size : Nat

/-- `rqueue_create`, with the memory that the allocation gives. -/
def rqueueCreate (size : Nat) (memory : Nat → α) : RqueueT α :=
  { data := memory, readPos := 0, writePos := 0, size := size }

/-- `rqueue_is_empty`, from the two positions it reads. -/
def rqueueIsEmpty (readPos writePos : Nat) : Int := if readPos = writePos then 0 else -1

/-- `(pos + 1) % q->size` -/
def RqueueT.next (q : RqueueT α) (pos : Nat) : Nat := toUint32 (pos + 1) % q.size

/-- `rqueue_is_full`, from the two positions it reads. -/
def rqueueIsFull (q : RqueueT α) (readPos writePos : Nat) : Int :=
  if readPos = q.next writePos then 0 else -1

/-- Where the pushing thread stands in `rqueue_push_back`: the access it makes next. -/
inductive Pusher (α : Type u) where
  | idle
  | readPos (data : α)
  | writePos (data : α) (readPos : Nat)
  | pos (data : α)
  | set (data : α) (pos : Nat)
  | store (data : α) (pos : Nat)

/-- Where the popping thread stands in `rqueue_pop_front`: the access it makes next. -/
inductive Popper (α : Type u) where
  | idle
  | readPos
  | writePos (readPos : Nat)
  | pos
  | load (pos : Nat)
  | set (data : α) (pos : Nat)

/-- What can be seen of a turn: a position was published, or a call came to its end. -/
inductive Event (α : Type u) where
  | none
  | publish (pos : Nat) (data : α)
  | pushBack (result : Option α)
  | popFront (result : Option α)

/-- One access of `rqueue_push_back`.  An idle thread begins a push of `data`. -/
def rqueuePushBack (q : RqueueT α) (data : α) : Pusher α → Event α × RqueueT α × Pusher α
  | .idle => (.none, q, .readPos data)
  | .readPos data => (.none, q, .writePos data q.readPos)
  | .writePos data readPos =>
      if rqueueIsFull q readPos q.writePos ≠ 0 then (.pushBack none, q, .idle)
      else (.none, q, .pos data)
  | .pos data => (.none, q, .set data q.writePos)
  | .set data pos =>
      let q' := { q with writePos := q.next pos }
      if q.writePos ≠ pos then (.none, q', .readPos data)
      else (.publish pos data, q', .store data pos)
  | .store data pos =>
      (.pushBack (some data), { q with data := Function.update q.data pos data }, .idle)

/-- One access of `rqueue_pop_front`.  An idle thread begins a pop. -/
def rqueuePopFront (q : RqueueT α) : Popper α → Event α × RqueueT α × Popper α
  | .idle => (.none, q, .readPos)
  | .readPos => (.none, q, .writePos q.readPos)
  | .writePos readPos =>
      if rqueueIsEmpty readPos q.writePos ≠ 0 then (.popFront none, q, .idle)
      else (.none, q, .pos)
  | .pos => (.none, q, .load q.readPos)
  | .load pos => (.none, q, .set (q.data pos) pos)
  | .set data pos =>
      let q' := { q with readPos := q.next pos }
      if q.readPos ≠ pos then (.none, q', .readPos)
      else (.popFront (some data), q', .idle)

/-! ## Runs -/

/-- The queue and its two threads, with the slots and values whose position was published, and
the values popped. -/
structure State (α : Type u) where
  queue : RqueueT α
  pusher : Pusher α
  popper : Popper α
  pushed : List (Nat × α)
  popped : List α

/-- Which thread makes an access; a push that begins is one of `data`. -/
inductive Turn (α : Type u) where
  | pusher (data : α)
  | popper

def rqueueStep : Step (State α) (Turn α) (Event α)
  | s, .pusher data =>
      let (event, queue, pusher) := rqueuePushBack s.queue data s.pusher
      let pushed :=
        match event with
        | .publish pos data => s.pushed ++ [(pos, data)]
        | _ => s.pushed
      some (event, { s with queue := queue, pusher := pusher, pushed := pushed })
  | s, .popper =>
      let (event, queue, popper) := rqueuePopFront s.queue s.popper
      let popped :=
        match event with
        | .popFront (some data) => s.popped ++ [data]
        | _ => s.popped
      some (event, { s with queue := queue, popper := popper, popped := popped })

/-- Both threads before their first call. -/
def start (size : Nat) (memory : Nat → α) : State α :=
  { queue := rqueueCreate size memory, pusher := .idle, popper := .idle,
    pushed := [], popped := [] }

/-- What every turn should keep: the values popped are a prefix of the values pushed, and a slot
is only filled when every value put there before has been popped. -/
def Sound (s : State α) (turn : Turn α) (_ : Event α) (s' : State α) : Prop :=
  s'.popped <+: s'.pushed.map Prod.snd ∧
    match turn, s.pusher with
    | .pusher _, .store _ pos =>
        ∀ i, i + 1 < s.pushed.length → s.pushed[i]?.map Prod.fst = some pos → i < s.popped.length
    | _, _ => True

def Popper.isSet : Popper α → Bool
  | .set _ _ => true
  | _ => false

/-- The turn does not publish the read position of a pop. -/
def NoPop (s : State α) : Turn α → Prop
  | .pusher _ => True
  | .popper => s.popper.isSet = false

instance NoPop.decidable (s : State α) : ∀ turn, Decidable (NoPop s turn)
  | .pusher _ => isTrue trivial
  | .popper => inferInstanceAs (Decidable (s.popper.isSet = false))

/-! ## What the two threads know of each other -/

section

variable (memory : Nat → α)

/-- The positions there are: those of 32 bits below `size`. -/
def RqueueT.count (q : RqueueT α) : Nat := min q.size (2 ^ 32)

/-- The first contents of the slots, and the values pushed. -/
def stream (count : Nat) (pushed : List (Nat × α)) : List α :=
  (List.range count).map memory ++ pushed.map Prod.snd

/-- How many of the values pushed have reached their slot. -/
def State.stored (s : State α) : Nat :=
  match s.pusher with
  | .store _ _ => s.pushed.length - 1
  | _ => s.pushed.length

/-- What the pushing thread has seen is still so, or was so before the last pop. -/
def State.PusherKnows (s : State α) : Prop :=
  match s.pusher with
  | .idle => True
  | .readPos _ => True
  | .writePos _ readPos =>
      readPos = s.popped.length % s.queue.count ∨ readPos = s.pushed.length % s.queue.count
  | .pos _ => s.popped.length = s.pushed.length + 1
  | .set _ pos =>
      s.popped.length = s.pushed.length + 1 ∧ pos = s.pushed.length % s.queue.count
  | .store data pos =>
      ∃ earlier, s.pushed = earlier ++ [(pos, data)] ∧ pos = earlier.length % s.queue.count

/-- What the popping thread has seen is still so. -/
def State.PopperKnows (s : State α) : Prop :=
  match s.popper with
  | .idle => True
  | .readPos => True
  | .writePos readPos => readPos = s.popped.length % s.queue.count
  | .pos => s.popped.length = s.pushed.length
  | .load pos => s.popped.length = s.pushed.length ∧ pos = s.popped.length % s.queue.count
  | .set data pos =>
      s.popped.length = s.pushed.length ∧ pos = s.popped.length % s.queue.count ∧
        (stream memory s.queue.count s.pushed)[s.popped.length]? = some data

/-- The pops are as many as the pushes, or one ahead of them, and every slot holds the value of
the stream that the next pop of it will take. -/
structure Inv (size : Nat) (s : State α) : Prop where
  size_eq : s.queue.size = size
  count : 2 ≤ s.queue.count
  readPos : s.queue.readPos = s.popped.length % s.queue.count
  writePos : s.queue.writePos = s.pushed.length % s.queue.count
  le : s.pushed.length ≤ s.popped.length
  ahead : s.popped.length ≤ s.pushed.length + 1
  pusher : s.PusherKnows
  popper : s.PopperKnows memory
  slots : ∀ k, s.stored ≤ k → k < s.stored + s.queue.count →
    (stream memory s.queue.count s.pushed)[k]? = some (s.queue.data (k % s.queue.count))
  popped : s.popped <+: stream memory s.queue.count s.pushed

end

section

variable {memory : Nat → α} {size : Nat} {s : State α} {q : RqueueT α}

theorem RqueueT.next_eq (k : Nat) (h : 0 < q.count) :
    q.next (k % q.count) = (k + 1) % q.count := by
  have hMod := Nat.mod_lt k h
  have hCount : q.count = min q.size (2 ^ 32) := rfl
  have hCast : toUint32 ((k % q.count : Nat) + 1) = (k % q.count + 1) % 2 ^ 32 := by
    rw [toUint32]
    omega
  rw [RqueueT.next, ← Nat.mod_add_mod, hCast]
  by_cases hSize : q.size ≤ 2 ^ 32
  · rw [Nat.min_eq_left hSize] at hCount
    rw [hCount] at hMod ⊢
    by_cases hEnd : k % q.size + 1 = 2 ^ 32
    · have hWhole : q.size = 2 ^ 32 := by omega
      rw [hWhole, Nat.mod_mod]
    · rw [Nat.mod_eq_of_lt (by omega : k % q.size + 1 < 2 ^ 32)]
  · rw [Nat.min_eq_right (by omega)] at hCount
    rw [hCount, Nat.mod_eq_of_lt (by omega : _ % 2 ^ 32 < q.size)]

/-- Two numbers less than a whole turn apart lie in different slots. -/
theorem mod_ne {i j c : Nat} (hLess : i < j) (hNear : j < i + c) : i % c ≠ j % c := by
  intro hEq
  have hDvd : c ∣ j - i := Nat.dvd_of_mod_eq_zero (Nat.sub_mod_eq_zero_of_mod_eq hEq.symm)
  have hLe := Nat.le_of_dvd (by omega) hDvd
  omega

theorem stream_push (count : Nat) (pushed : List (Nat × α)) (pos : Nat) (data : α) :
    stream memory count (pushed ++ [(pos, data)]) = stream memory count pushed ++ [data] := by
  rw [stream, List.map_append, ← List.append_assoc]
  rfl

private theorem length_stream (count : Nat) (pushed : List (Nat × α)) :
    (stream memory count pushed).length = count + pushed.length := by
  rw [stream, List.length_append, List.length_map, List.length_range, List.length_map]

private theorem stored_bounds (s : State α) :
    s.stored ≤ s.pushed.length ∧ s.pushed.length ≤ s.stored + 1 := by
  rw [State.stored]
  split <;> omega

/-- The element behind a prefix continues it. -/
theorem prefix_concat {xs ys : List α} {x : α} (h : xs <+: ys) (hAt : ys[xs.length]? = some x) :
    xs ++ [x] <+: ys := by
  obtain ⟨rest, rfl⟩ := h
  rw [List.getElem?_append_right (Nat.le_refl _), Nat.sub_self] at hAt
  cases rest with
  | nil => cases hAt
  | cons y rest =>
      cases hAt
      exact ⟨rest, by rw [List.append_assoc]; rfl⟩

/-- The queue as it is made. -/
theorem inv_start (hSize : 2 ≤ size) : Inv memory size (start size memory) where
  size_eq := rfl
  count := by
    show 2 ≤ min size (2 ^ 32)
    omega
  readPos := (Nat.zero_mod _).symm
  writePos := (Nat.zero_mod _).symm
  le := Nat.le_refl 0
  ahead := Nat.zero_le 1
  pusher := trivial
  popper := trivial
  slots := by
    intro k _ hk
    have hLess : k < min size (2 ^ 32) := by
      have hStored : (start size memory).stored = 0 := rfl
      have hCount : (start size memory).queue.count = min size (2 ^ 32) := rfl
      omega
    show ((List.range (min size (2 ^ 32))).map memory ++ [])[k]? =
      some (memory (k % min size (2 ^ 32)))
    rw [List.append_nil, List.getElem?_map, List.getElem?_range hLess, Nat.mod_eq_of_lt hLess]
    rfl
  popped := List.nil_prefix

/-- The pushing thread moves `write_pos` on, and its value counts as pushed. -/
theorem Inv.publish {queue : RqueueT α} {popper : Popper α} {pushed : List (Nat × α)}
    {popped : List α} {data : α} {pos : Nat}
    (h : Inv memory size ⟨queue, .set data pos, popper, pushed, popped⟩) :
    Inv memory size ⟨{ queue with writePos := queue.next pos }, .store data pos, popper,
      pushed ++ [(pos, data)], popped⟩ := by
  obtain ⟨hAhead', hPos'⟩ := h.pusher
  have hAhead : popped.length = pushed.length + 1 := hAhead'
  have hPos : pos = pushed.length % queue.count := hPos'
  have hCount : 2 ≤ queue.count := h.count
  have hNext := queue.next_eq pushed.length (by omega : 0 < queue.count)
  rw [← hPos] at hNext
  have hSame : (pushed ++ [(pos, data)]).length = pushed.length + 1 := List.length_append
  exact {
    size_eq := h.size_eq
    count := h.count
    readPos := h.readPos
    writePos := by
      show queue.next pos = (pushed ++ [(pos, data)]).length % queue.count
      rw [hSame, hNext]
    le := by
      show (pushed ++ [(pos, data)]).length ≤ popped.length
      omega
    ahead := by
      show popped.length ≤ (pushed ++ [(pos, data)]).length + 1
      omega
    pusher := ⟨pushed, rfl, hPos⟩
    popper := by
      have hPopper := h.popper
      cases popper with
      | idle => trivial
      | readPos => trivial
      | writePos readPos => exact hPopper
      | pos => exact absurd (hAhead.symm.trans hPopper) (by simp)
      | load pos => exact absurd (hAhead.symm.trans hPopper.1) (by simp)
      | set data pos => exact absurd (hAhead.symm.trans hPopper.1) (by simp)
    slots := by
      intro k hLow hHigh
      have hLow' : (pushed ++ [(pos, data)]).length - 1 ≤ k := hLow
      have hHigh' : k < (pushed ++ [(pos, data)]).length - 1 + queue.count := hHigh
      rw [hSame] at hLow' hHigh'
      have hOld := h.slots k hLow' hHigh'
      show (stream memory queue.count (pushed ++ [(pos, data)]))[k]? = _
      rw [stream_push]
      obtain ⟨hk, -⟩ := List.getElem?_eq_some_iff.mp hOld
      rw [List.getElem?_append_left hk]
      exact hOld
    popped := by
      show popped <+: stream memory queue.count (pushed ++ [(pos, data)])
      rw [stream_push]
      exact h.popped.trans (List.prefix_append _ _) }

/-- The pushing thread stores its value into the slot. -/
theorem Inv.fill {queue : RqueueT α} {popper : Popper α} {pushed : List (Nat × α)}
    {popped : List α} {data : α} {pos : Nat}
    (h : Inv memory size ⟨queue, .store data pos, popper, pushed, popped⟩) :
    Inv memory size ⟨{ queue with data := Function.update queue.data pos data }, .idle, popper,
      pushed, popped⟩ := by
  obtain ⟨earlier, hPushed', hPos'⟩ := h.pusher
  have hPushed : pushed = earlier ++ [(pos, data)] := hPushed'
  have hPos : pos = earlier.length % queue.count := hPos'
  have hCount : 2 ≤ queue.count := h.count
  have hSame : pushed.length = earlier.length + 1 := by
    rw [hPushed, List.length_append]
    rfl
  exact { h with
    pusher := trivial
    slots := by
      intro k hLow hHigh
      have hLow' : pushed.length ≤ k := hLow
      have hHigh' : k < pushed.length + queue.count := hHigh
      show (stream memory queue.count pushed)[k]? =
        some (Function.update queue.data pos data (k % queue.count))
      by_cases hLast : k = queue.count + earlier.length
      · rw [hLast, Nat.add_mod_left, ← hPos, Function.update_self, hPushed, stream_push,
          ← length_stream queue.count earlier, List.getElem?_concat_length]
      · have hOther := @mod_ne earlier.length k queue.count (by omega) (by omega)
        rw [Function.update_of_ne (by rw [hPos]; exact hOther.symm)]
        apply h.slots k
        · show pushed.length - 1 ≤ k
          omega
        · show k < pushed.length - 1 + queue.count
          omega }

/-- One access of the pushing thread. -/
theorem Inv.pushBack (h : Inv memory size s) (value : α) :
    ∃ event s', rqueueStep s (.pusher value) = some (event, s') ∧ Inv memory size s' ∧
      s'.popped = s.popped := by
  obtain ⟨queue, pusher, popper, pushed, popped⟩ := s
  have hCount : 2 ≤ queue.count := h.count
  have hWrite : queue.writePos = pushed.length % queue.count := h.writePos
  have hLe : pushed.length ≤ popped.length := h.le
  have hBound : popped.length ≤ pushed.length + 1 := h.ahead
  have hKnows := h.pusher
  cases pusher with
  | idle =>
      refine ⟨_, _, rfl, ?_, rfl⟩
      exact { h with pusher := trivial }
  | readPos data =>
      refine ⟨_, _, rfl, ?_, rfl⟩
      exact { h with pusher := Or.inl h.readPos }
  | writePos data readPos =>
      have hNext := queue.next_eq pushed.length (by omega : 0 < queue.count)
      rw [← hWrite] at hNext
      by_cases hFull : readPos = queue.next queue.writePos
      · -- only a pop that is ahead makes the queue look full
        have hAhead : popped.length = pushed.length + 1 := by
          by_contra hNot
          have hSame : popped.length = pushed.length := by omega
          have hSeen : readPos = pushed.length % queue.count := by
            cases hKnows with
            | inl hNow => exact hSame ▸ hNow
            | inr hBefore => exact hBefore
          rw [hSeen, hNext] at hFull
          exact mod_ne (Nat.lt_succ_self _) (by omega) hFull
        refine ⟨.none, ⟨queue, .pos data, popper, pushed, popped⟩, ?_, ?_, rfl⟩
        · simp [rqueueStep, rqueuePushBack, rqueueIsFull, hFull]
        · exact { h with pusher := hAhead }
      · refine ⟨.pushBack none, ⟨queue, .idle, popper, pushed, popped⟩, ?_, ?_, rfl⟩
        · simp [rqueueStep, rqueuePushBack, rqueueIsFull, hFull]
        · exact { h with pusher := trivial }
  | pos data =>
      refine ⟨_, _, rfl, ?_, rfl⟩
      exact { h with pusher := ⟨hKnows, h.writePos⟩ }
  | set data pos =>
      have hPos : pos = pushed.length % queue.count := hKnows.2
      have hStep : rqueuePushBack queue value (.set data pos) =
          (.publish pos data, { queue with writePos := queue.next pos }, .store data pos) :=
        if_neg (not_not_intro (hWrite.trans hPos.symm))
      exact ⟨.publish pos data, _, by simp only [rqueueStep, hStep], h.publish, rfl⟩
  | store data pos => exact ⟨_, _, rfl, h.fill, rfl⟩

/-- The popping thread moves `read_pos` on, and its value counts as popped. -/
theorem Inv.take {queue : RqueueT α} {pusher : Pusher α} {pushed : List (Nat × α)}
    {popped : List α} {data : α} {pos : Nat}
    (h : Inv memory size ⟨queue, pusher, .set data pos, pushed, popped⟩) :
    Inv memory size ⟨{ queue with readPos := queue.next pos }, pusher, .idle, pushed,
      popped ++ [data]⟩ := by
  obtain ⟨hSame', hPos', hSlot⟩ := h.popper
  have hSame : popped.length = pushed.length := hSame'
  have hPos : pos = popped.length % queue.count := hPos'
  have hCount : 2 ≤ queue.count := h.count
  have hNext := queue.next_eq popped.length (by omega : 0 < queue.count)
  rw [← hPos] at hNext
  have hLong : (popped ++ [data]).length = popped.length + 1 := List.length_append
  exact {
    size_eq := h.size_eq
    count := h.count
    readPos := by
      show queue.next pos = (popped ++ [data]).length % queue.count
      rw [hLong, hNext]
    writePos := h.writePos
    le := by
      show pushed.length ≤ (popped ++ [data]).length
      omega
    ahead := by
      show (popped ++ [data]).length ≤ pushed.length + 1
      omega
    pusher := by
      have hPusher := h.pusher
      cases pusher with
      | idle => trivial
      | readPos value => trivial
      | writePos value readPos =>
          apply Or.inr
          cases hPusher with
          | inl hNow => exact hSame ▸ hNow
          | inr hBefore => exact hBefore
      | pos value => exact absurd (hSame.symm.trans hPusher) (by simp)
      | set value pos => exact absurd (hSame.symm.trans hPusher.1) (by simp)
      | store value pos => exact hPusher
    popper := trivial
    slots := h.slots
    popped := prefix_concat h.popped hSlot }

/-- One access of the popping thread. -/
theorem Inv.popFront (h : Inv memory size s) :
    ∃ event s', rqueueStep s .popper = some (event, s') ∧ Inv memory size s' ∧
        s'.pushed = s.pushed ∧
      (if s.popper.isSet then s.pushed.length < s'.popped.length else s'.popped = s.popped) := by
  obtain ⟨queue, pusher, popper, pushed, popped⟩ := s
  have hCount : 2 ≤ queue.count := h.count
  have hRead : queue.readPos = popped.length % queue.count := h.readPos
  have hLe : pushed.length ≤ popped.length := h.le
  have hBound : popped.length ≤ pushed.length + 1 := h.ahead
  have hKnows := h.popper
  cases popper with
  | idle =>
      refine ⟨_, _, rfl, ?_, rfl, rfl⟩
      exact { h with popper := trivial }
  | readPos =>
      refine ⟨_, _, rfl, ?_, rfl, rfl⟩
      exact { h with popper := hRead }
  | writePos readPos =>
      have hSeen : readPos = popped.length % queue.count := hKnows
      by_cases hEmpty : readPos = queue.writePos
      · have hWrite : queue.writePos = pushed.length % queue.count := h.writePos
        have hSame : popped.length = pushed.length := by
          by_contra hNot
          rw [hSeen, hWrite] at hEmpty
          exact mod_ne (by omega) (by omega) hEmpty.symm
        refine ⟨.none, ⟨queue, pusher, .pos, pushed, popped⟩, ?_, ?_, rfl, rfl⟩
        · simp [rqueueStep, rqueuePopFront, rqueueIsEmpty, hEmpty]
        · exact { h with popper := hSame }
      · refine ⟨.popFront none, ⟨queue, pusher, .idle, pushed, popped⟩, ?_, ?_, rfl, rfl⟩
        · simp [rqueueStep, rqueuePopFront, rqueueIsEmpty, hEmpty]
        · exact { h with popper := trivial }
  | pos =>
      refine ⟨_, _, rfl, ?_, rfl, rfl⟩
      exact { h with popper := ⟨hKnows, hRead⟩ }
  | load pos =>
      have hSame : popped.length = pushed.length := hKnows.1
      have hPos : pos = popped.length % queue.count := hKnows.2
      have hSlot : (stream memory queue.count pushed)[popped.length]? = some (queue.data pos) := by
        rw [hPos]
        have hStored := stored_bounds ⟨queue, pusher, .load pos, pushed, popped⟩
        have hLow : State.stored ⟨queue, pusher, .load pos, pushed, popped⟩ ≤ popped.length := by
          rw [hSame]
          exact hStored.1
        have hHigh : pushed.length ≤ State.stored ⟨queue, pusher, .load pos, pushed, popped⟩ + 1 :=
          hStored.2
        exact h.slots popped.length hLow (by show popped.length < _ + queue.count; omega)
      refine ⟨_, _, rfl, ?_, rfl, rfl⟩
      exact { h with popper := ⟨hSame, hPos, hSlot⟩ }
  | set data pos =>
      have hSame : popped.length = pushed.length := hKnows.1
      have hPos : pos = popped.length % queue.count := hKnows.2.1
      have hStep : rqueuePopFront queue (.set data pos) =
          (.popFront (some data), { queue with readPos := queue.next pos }, .idle) :=
        if_neg (not_not_intro (hRead.trans hPos.symm))
      have hLong : (popped ++ [data]).length = popped.length + 1 := List.length_append
      refine ⟨.popFront (some data), _, by simp only [rqueueStep, hStep], h.take, rfl, ?_⟩
      show pushed.length < (popped ++ [data]).length
      omega

/-- Every turn is defined and keeps the invariant. -/
theorem Inv.step (h : Inv memory size s) (turn : Turn α) :
    ∃ event s', rqueueStep s turn = some (event, s') ∧ Inv memory size s' := by
  cases turn with
  | pusher data =>
      obtain ⟨event, s', hStep, hInv', -⟩ := h.pushBack data
      exact ⟨event, s', hStep, hInv'⟩
  | popper =>
      obtain ⟨event, s', hStep, hInv', -⟩ := h.popFront
      exact ⟨event, s', hStep, hInv'⟩

/-- Before the first pop comes to its end, a turn keeps the order if and only if it is not that
end. -/
theorem Inv.sound_iff (h : Inv memory size s) (hNone : s.popped = []) (turn : Turn α) :
    Does rqueueStep Sound s turn ↔ NoPop s turn := by
  have hEmpty : s.pushed = [] := by
    have hLe := h.le
    rw [hNone] at hLe
    exact List.eq_nil_of_length_eq_zero (Nat.le_zero.mp hLe)
  cases turn with
  | pusher data =>
      obtain ⟨event, s', hStep, -, hPopped⟩ := h.pushBack data
      refine ⟨fun _ => trivial, fun _ => ⟨event, s', hStep, ?_, ?_⟩⟩
      · rw [hPopped, hNone]
        exact List.nil_prefix
      · split
        · intro i hi
          rw [hEmpty] at hi
          exact absurd hi (Nat.not_lt_zero _)
        · trivial
  | popper =>
      obtain ⟨event, s', hStep, -, hPushed, hPopped⟩ := h.popFront
      constructor
      · intro hDoes
        obtain ⟨hPrefix, -⟩ := (does_iff hStep).mp hDoes
        by_contra hSet
        have hTrue : s.popper.isSet = true := eq_true_of_ne_false hSet
        rw [if_pos hTrue] at hPopped
        have hLength := hPrefix.length_le
        rw [List.length_map, hPushed] at hLength
        omega
      · intro hFalse
        have hFalse' : s.popper.isSet = false := hFalse
        rw [hFalse'] at hPopped
        have hSame : s'.popped = s.popped := hPopped
        refine ⟨event, s', hStep, ?_, trivial⟩
        rw [hSame, hNone]
        exact List.nil_prefix

/-- A turn that keeps the order does not add to the values popped. -/
theorem Inv.sound_none (h : Inv memory size s) (hNone : s.popped = []) {turn : Turn α}
    {event : Event α} {s' : State α} (hSound : Does rqueueStep Sound s turn)
    (hStep : rqueueStep s turn = some (event, s')) : s'.popped = [] := by
  have hNoPop := (h.sound_iff hNone turn).mp hSound
  cases turn with
  | pusher data =>
      obtain ⟨event₁, s₁, hStep₁, -, hPopped⟩ := h.pushBack data
      rw [hStep] at hStep₁
      cases hStep₁
      rw [hPopped, hNone]
  | popper =>
      obtain ⟨event₁, s₁, hStep₁, -, -, hPopped⟩ := h.popFront
      rw [hStep] at hStep₁
      cases hStep₁
      have hFalse : s.popper.isSet = false := hNoPop
      rw [hFalse] at hPopped
      have hSame : s'.popped = s.popped := hPopped
      rw [hSame, hNone]

end

/-! ## Whole runs -/

/-- In every state of every run, the values popped are a prefix of the first contents of the slots
followed by the values pushed: a pop takes what was there before the queue went around. -/
theorem rqueue_lags {size : Nat} (hSize : 2 ≤ size) (memory : Nat → α) (turns : List (Turn α)) :
    ∃ events s, run rqueueStep (start size memory) turns = some (events, s) ∧
      s.popped <+: stream memory (min size (2 ^ 32)) s.pushed ∧
      s.pushed.length ≤ s.popped.length ∧ s.popped.length ≤ s.pushed.length + 1 := by
  have hKeep : ∀ s turn, Inv memory size s → True →
      ∃ event s', rqueueStep s turn = some (event, s') ∧ Inv memory size s' :=
    fun s turn hInv _ => hInv.step turn
  obtain ⟨events, s, hRun, hInv⟩ :=
    run_of_inv (Inv memory size) hKeep (inv_start hSize) (along_true _ turns)
  have hCount : s.queue.count = min size (2 ^ 32) := by
    rw [RqueueT.count, hInv.size_eq]
  exact ⟨events, s, hRun, hCount ▸ hInv.popped, hInv.le, hInv.ahead⟩

/-- Along a run from a new queue, the values popped stay a prefix of the values pushed and no
slot is filled too early if and only if no pop of the run comes to its end. -/
theorem rqueue_fifo_iff {size : Nat} (hSize : 2 ≤ size) (memory : Nat → α)
    (turns : List (Turn α)) :
    Along rqueueStep (Does rqueueStep Sound) (start size memory) turns ↔
      Along rqueueStep NoPop (start size memory) turns := by
  have hInit : Inv memory size (start size memory) ∧ (start size memory).popped = [] :=
    ⟨inv_start hSize, rfl⟩
  apply along_iff_of_inv (fun s => Inv memory size s ∧ s.popped = []) _ _ hInit (along_true _ turns)
  · intro s turn hInv _
    exact hInv.1.sound_iff hInv.2 turn
  · intro s turn event s' hInv _ hSound hStep
    obtain ⟨event₁, s₁, hStep₁, hInv'⟩ := hInv.1.step turn
    rw [hStep] at hStep₁
    cases hStep₁
    exact ⟨hInv', hInv.1.sound_none hInv.2 hSound hStep⟩

/-- Two pushes on a queue of three slots, which is not full: neither goes ahead. -/
theorem rqueue_fifo_push_twice :
    Along rqueueStep (Does rqueueStep Sound) (start 3 fun _ => '?')
      [.pusher 'a', .pusher 'a', .popper, .pusher 'a', .pusher 'b', .popper, .pusher 'b'] :=
  (rqueue_fifo_iff (by decide) _ _).mpr (by decide)

/-- A pop on a new queue gives the first contents of a slot, which nobody has pushed. -/
theorem rqueue_pop_before_push :
    (run rqueueStep (start 3 fun _ => '?')
      [.popper, .popper, .popper, .popper, .popper, .popper]).map (fun r => r.2.popped) =
      some ['?'] ∧
    ¬ Along rqueueStep (Does rqueueStep Sound) (start 3 fun _ => '?')
      [.popper, .popper, .popper, .popper, .popper, .popper] := by
  constructor
  · rfl
  · rintro ⟨-, hFirst⟩
    obtain ⟨-, hSecond⟩ := hFirst _ _ rfl
    obtain ⟨-, hThird⟩ := hSecond _ _ rfl
    obtain ⟨-, hFourth⟩ := hThird _ _ rfl
    obtain ⟨-, hFifth⟩ := hFourth _ _ rfl
    obtain ⟨hSixth, -⟩ := hFifth _ _ rfl
    obtain ⟨event, s', hStep, hPrefix, -⟩ := hSixth
    cases hStep
    exact absurd hPrefix.length_le (by decide)

end Gbase.Base.Rqueue
