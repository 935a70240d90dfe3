import Gbase.Lib.Answers
import Mathlib.Algebra.Order.Group.Multiset
import Mathlib.Data.Multiset.Count

/-!
# The array of pointers (`base/array.c`)

An array of a fixed size, filled from its front on.  A pointer is `Option α`, with `none` for
`NULL`; reading or storing outside of the array is undefined.  The handle is not `NULL`, and its
memory was allocated.

`array_del` puts the last pointer into the place of the one it takes out.  So a client sees a
multiset of pointers, and not their order.

## Main results

* `array_run`: in every run the array is a multiset of at most `size` pointers.
-/

namespace Gbase.Base.Array

open Gbase.Lib.Answers
open Gbase.Lib.Run

variable {α : Type}

/-- `array_t` -/
structure ArrayT (α : Type) where
  count : Nat
  size : Nat
  array : List (Option α)

/-- `array_create` -/
def arrayCreate (size : Int) : Option (ArrayT α) :=
  if size ≤ 0 then none
  else some { count := 0, size := size.toNat, array := List.replicate size.toNat none }

/-- `array->array[index] = data` -/
def ArrayT.store (a : ArrayT α) (index : Nat) (data : Option α) : Option (ArrayT α) :=
  if index < a.array.length then some { a with array := a.array.set index data } else none

/-- `array_add` -/
def arrayAdd (a : ArrayT α) (data : Option α) : Option (Int × ArrayT α) :=
  if data.isNone then some (-1, a)
  else if a.count ≥ a.size then some (-1, a)
  else do
    let a ← a.store a.count data
    return (0, { a with count := a.count + 1 })

/-- The loop of `array_del` and `array_has`, for some more turns: where the pointer lies. -/
def findLoop [DecidableEq α] (array : List (Option α)) (data : Option α) :
    Nat → Nat → Option (Option Nat)
  | 0, _ => some none
  | turns + 1, index => do
      if (← array[index]?) = data then return some index
      findLoop array data turns (index + 1)

/-- `array_del` -/
def arrayDel [DecidableEq α] (a : ArrayT α) (data : Option α) : Option (Int × ArrayT α) :=
  if data.isNone then some (-1, a)
  else do
    let some index ← findLoop a.array data a.count 0 | return (0, a)
    let a ← a.store index (← a.array[a.count - 1]?)
    let a ← a.store (a.count - 1) none
    return (0, { a with count := a.count - 1 })

/-- `array_has` -/
def arrayHas [DecidableEq α] (a : ArrayT α) (data : Option α) : Option Int :=
  if data.isNone then some (-1)
  else do
    return if (← findLoop a.array data a.count 0).isSome then 0 else -1

/-- `array_count` -/
def arrayCount (a : ArrayT α) : Int := a.count

/-- One turn of the loop of `array_loop`, with the pointers that `func` was called for before. -/
def loopTurn (a : ArrayT α) (called : List (Option α)) (index : Nat) :
    Option (List (Option α)) := do
  return called ++ [← a.array[index]?]

/-- `array_loop`, with the pointers that `func` is called for. -/
def arrayLoop (a : ArrayT α) : Option (Int × List (Option α)) :=
  if a.count ≤ 0 then some (-1, [])
  else do
    return (0, ← (List.range a.count).foldlM (loopTurn a) [])

/-! ## The multiset -/

/-- The array holds these pointers, the first one in front. -/
structure Holds (n : Nat) (a : ArrayT α) (l : List α) : Prop where
  count : a.count = l.length
  size : a.size = n
  length : a.array.length = n
  array : ∃ rest, a.array = l.map some ++ rest

private theorem arrayCreate_holds {size : Int} (hSize : 0 < size) :
    ∃ a : ArrayT α, arrayCreate size = some a ∧ Holds size.toNat a [] :=
  ⟨_, if_neg (not_le.mpr hSize), rfl, rfl, List.length_replicate, _, rfl⟩

section
variable {n : Nat} {a : ArrayT α} {l : List α}

theorem Holds.add (h : Holds n a l) (x : α) :
    ∃ a', arrayAdd a (some x) = some (if l.length < n then 0 else -1, a') ∧
      Holds n a' (if l.length < n then l ++ [x] else l) := by
  by_cases hRoom : l.length < n
  · have hNotFull : ¬ a.count ≥ a.size := by
      rw [h.count, h.size]
      omega
    have hIn : a.count < a.array.length := by
      rw [h.count, h.length]
      exact hRoom
    obtain ⟨rest, hArray⟩ := h.array
    rw [if_pos hRoom, if_pos hRoom]
    refine ⟨⟨a.count + 1, a.size, a.array.set a.count (some x)⟩, ?_, ?_, h.size, ?_, rest.tail, ?_⟩
    · rw [arrayAdd, if_neg (by simp), if_neg hNotFull, ArrayT.store, if_pos hIn]
      rfl
    · rw [h.count, List.length_append, List.length_singleton]
    · rw [List.length_set, h.length]
    · cases rest with
      | nil =>
          rw [hArray, h.count] at hIn
          simp at hIn
      | cons y rest => simp [hArray, h.count]
  · rw [if_neg hRoom, if_neg hRoom]
    refine ⟨a, ?_, h⟩
    rw [arrayAdd, if_neg (by simp), if_pos (by rw [h.count, h.size]; omega)]

theorem Holds.get (h : Holds n a l) (i : Nat) (hi : i < l.length) :
    a.array[i]? = some (some l[i]) := by
  obtain ⟨rest, hArray⟩ := h.array
  rw [hArray, List.getElem?_append_left (by rwa [List.length_map]), List.getElem?_map,
    List.getElem?_eq_getElem hi]
  rfl

/-- A store between others. -/
theorem ArrayT.store_between {xs ys : List (Option α)} {y : Option α} {index : Nat}
    (hArray : a.array = xs ++ y :: ys) (hIndex : index = xs.length) (z : Option α) :
    a.store index z = some { a with array := xs ++ z :: ys } := by
  have hIn : index < a.array.length := by
    rw [hArray, hIndex, List.length_append, List.length_cons]
    omega
  rw [ArrayT.store, if_pos hIn, hArray, hIndex]
  simp

variable {x : α} {before after : List α}

/-- The last pointer goes to the place of the one that is taken out. -/
theorem Holds.moveLast (h : Holds n a (before ++ x :: after)) : ∃ last moved cleared l',
    a.array[a.count - 1]? = some last ∧
      a.store before.length last = some { a with array := moved } ∧
      ArrayT.store { a with array := moved } (a.count - 1) none =
        some { a with array := cleared } ∧
      Holds n { a with array := cleared, count := a.count - 1 } l' ∧
      (l' : Multiset α) = before + after := by
  obtain ⟨rest, hArray⟩ := h.array
  have hCount := h.count
  have hLength := h.length
  rw [hArray] at hLength
  cases List.eq_nil_or_concat after with
  | inl hNil =>
      subst hNil
      rw [List.map_append, List.append_assoc] at hArray
      have hLast : a.count - 1 = (before.map some).length := by
        rw [hCount, List.length_append, List.length_map]
        rfl
      refine ⟨some x, _, _, before, ?_, a.store_between hArray (List.length_map some).symm _,
        ArrayT.store_between rfl hLast none, ⟨?_, h.size, ?_, none :: rest, rfl⟩, ?_⟩
      · rw [hArray, hLast]
        simp
      · rw [hLast, List.length_map]
      · simpa using hLength
      · simp
  | inr hConcat =>
      obtain ⟨mid, y, rfl⟩ := hConcat
      rw [List.concat_eq_append] at hArray hCount hLength
      have hSplit : a.array = before.map some ++ some x :: (mid.map some ++ some y :: rest) := by
        rw [hArray]
        simp
      have hLast : a.count - 1 = (before.map some ++ some y :: mid.map some).length := by
        rw [hCount]
        simp
      have hMoved : before.map some ++ some y :: (mid.map some ++ some y :: rest) =
          (before.map some ++ some y :: mid.map some) ++ some y :: rest := by simp
      refine ⟨some y, _, _, before ++ y :: mid, ?_,
        a.store_between hSplit (List.length_map some).symm _,
        ArrayT.store_between hMoved hLast none, ⟨?_, h.size, ?_, none :: rest, ?_⟩, ?_⟩
      · rw [hArray, hLast]
        simp
      · rw [hLast]
        simp
      · simpa using hLength
      · simp
      · rw [List.concat_eq_append, Multiset.coe_add, Multiset.coe_eq_coe]
        exact (List.perm_append_singleton y mid).symm.append_left before

variable [DecidableEq α] {array : List (Option α)}

/-- The loop passes what is not looked for. -/
theorem findLoop_before (hNot : x ∉ before) (index : Nat)
    (hArray : ∀ i (hi : i < before.length), array[index + i]? = some (some before[i]))
    (turns : Nat) :
    findLoop array (some x) (before.length + turns) index =
      findLoop array (some x) turns (index + before.length) := by
  induction before generalizing index with
  | nil => rw [List.length_nil, Nat.zero_add, Nat.add_zero]
  | cons y before ih =>
      have hHere : array[index]? = some (some y) := hArray 0 (Nat.zero_lt_succ _)
      have hOther : (some y : Option α) ≠ some x :=
        fun hSame => hNot (by rw [Option.some.inj hSame]; exact List.mem_cons_self)
      have hRest := ih (fun hIn => hNot (List.mem_cons_of_mem y hIn)) (index + 1)
        fun i hi => by
          rw [Nat.add_right_comm]
          exact hArray (i + 1) (Nat.succ_lt_succ hi)
      rw [List.length_cons, Nat.add_right_comm, findLoop, hHere, Option.bind_eq_bind,
        Option.bind_some, if_neg hOther]
      exact hRest.trans (by rw [Nat.add_right_comm index, Nat.add_assoc])

/-- A pointer that is not there is not found. -/
theorem Holds.find_none (h : Holds n a l) (hNot : x ∉ l) :
    findLoop a.array (some x) a.count 0 = some none := by
  have hLoop := findLoop_before hNot 0
    (fun i hi => by rw [Nat.zero_add]; exact h.get i hi) 0
  rw [h.count]
  exact hLoop

/-- And the first place of one that is there is found. -/
theorem Holds.find_some (h : Holds n a (before ++ x :: after)) (hNot : x ∉ before) :
    findLoop a.array (some x) a.count 0 = some (some before.length) := by
  have hLength : a.count = before.length + (after.length + 1) := by
    rw [h.count, List.length_append, List.length_cons]
  have hGet : ∀ i (hi : i < before.length), a.array[0 + i]? = some (some before[i]) := by
    intro i hi
    rw [Nat.zero_add, h.get i (by rw [List.length_append]; omega), List.getElem_append_left hi]
  have hHere : a.array[before.length]? = some (some x) := by
    rw [h.get before.length (by simp)]
    simp
  rw [hLength, findLoop_before hNot 0 hGet, Nat.zero_add, findLoop, hHere]
  simp

/-! ## The calls -/

theorem Holds.del (h : Holds n a l) (x : α) : ∃ a' l', arrayDel a (some x) = some (0, a') ∧
    Holds n a' l' ∧ (l' : Multiset α) = (l : Multiset α).erase x := by
  by_cases hIn : x ∈ l
  · obtain ⟨before, after, rfl, hNot⟩ := List.eq_append_cons_of_mem hIn
    obtain ⟨last, moved, cleared, l', hLast, hMove, hClear, hHolds, hSame⟩ := h.moveLast
    refine ⟨_, l', ?_, hHolds, ?_⟩
    · rw [arrayDel, if_neg (by simp), h.find_some hNot]
      simp only [Option.bind_eq_bind, Option.bind_some, hLast, hMove, hClear, Option.pure_def]
    · rw [hSame, Multiset.coe_erase, List.erase_append_right _ hNot, List.erase_cons_head,
        Multiset.coe_add]
  · refine ⟨a, l, ?_, h, ?_⟩
    · rw [arrayDel, if_neg (by simp), h.find_none hIn]
      rfl
    · rw [Multiset.erase_of_notMem (Multiset.mem_coe.not.mpr hIn)]

theorem Holds.has (h : Holds n a l) (x : α) :
    arrayHas a (some x) = some (if x ∈ l then 0 else -1) := by
  by_cases hIn : x ∈ l
  · obtain ⟨before, after, rfl, hNot⟩ := List.eq_append_cons_of_mem hIn
    rw [arrayHas, if_neg (by simp), h.find_some hNot, if_pos hIn]
    rfl
  · rw [arrayHas, if_neg (by simp), h.find_none hIn, if_neg hIn]
    rfl

omit [DecidableEq α] in
theorem Holds.loop (h : Holds n a l) :
    arrayLoop a = some (if l = [] then -1 else 0, l.map some) := by
  cases l with
  | nil =>
      have hEmpty : a.count ≤ 0 := h.count.le
      rw [arrayLoop, if_pos hEmpty, if_pos rfl, List.map_nil]
  | cons x l =>
      have hSome : ¬ a.count ≤ 0 := by
        rw [h.count, List.length_cons]
        omega
      obtain ⟨called, hLoop, hCalled⟩ := foldlM_range (f := loopTurn a) (s := [])
        (fun i called => called = ((x :: l).take i).map some) (n := a.count) rfl
        fun i called hi hCalled => by
          rw [h.count] at hi
          refine ⟨called ++ [some (x :: l)[i]], ?_, ?_⟩
          · rw [loopTurn, h.get i hi]
            rfl
          · rw [hCalled, List.take_add_one, List.getElem?_eq_getElem hi, List.map_append]
            rfl
      rw [arrayLoop, if_neg hSome, hLoop, hCalled, h.count, List.take_length,
        if_neg (List.cons_ne_nil x l)]
      rfl

end

/-! ## Runs -/

/-- A call. -/
inductive ArrayOp (α : Type) where
  | add (data : Option α)
  | del (data : Option α)
  | has (data : Option α)
  | count
  | loop

/-- What a call returns and hands to `func`, in any order, and what it does. -/
def arrayStep [DecidableEq α] : Step (ArrayT α) (ArrayOp α) (Int × Multiset (Option α))
  | a, .add data => (arrayAdd a data).map fun (ret, a) => ((ret, 0), a)
  | a, .del data => (arrayDel a data).map fun (ret, a) => ((ret, 0), a)
  | a, .has data => (arrayHas a data).map fun ret => ((ret, 0), a)
  | a, .count => some ((arrayCount a, 0), a)
  | a, .loop => (arrayLoop a).map fun (ret, called) => ((ret, called), a)

/-- The same call on a multiset of at most `n` pointers. -/
def bagStep [DecidableEq α] (n : Nat) (m : Multiset α) :
    ArrayOp α → (Int × Multiset (Option α)) × Multiset α
  | .add (some x) => if m.card < n then ((0, 0), x ::ₘ m) else ((-1, 0), m)
  | .del (some x) => ((0, 0), m.erase x)
  | .has (some x) => ((if x ∈ m then 0 else -1, 0), m)
  | .add none => ((-1, 0), m)
  | .del none => ((-1, 0), m)
  | .has none => ((-1, 0), m)
  | .count => ((m.card, 0), m)
  | .loop => ((if m = 0 then -1 else 0, m.map some), m)

/-- The pointers in an array are those of the multiset. -/
def Represents (n : Nat) (a : ArrayT α) (m : Multiset α) : Prop :=
  ∃ l, Holds n a l ∧ (l : Multiset α) = m

section
variable [DecidableEq α]

private theorem array_implements (n : Nat) :
    Implements (arrayStep (α := α)) (bagStep n) (Represents n) := by
  rintro a m op ⟨l, h, rfl⟩
  cases op with
  | add data =>
      cases data with
      | none => exact ⟨a, rfl, l, h, rfl⟩
      | some x =>
          obtain ⟨a', hAdd, hNext⟩ := h.add x
          have hStep : arrayStep a (.add (some x)) =
              some ((if l.length < n then 0 else -1, 0), a') := by
            rw [arrayStep, hAdd]
            rfl
          by_cases hRoom : l.length < n
          · rw [if_pos hRoom] at hStep hNext
            rw [bagStep, if_pos (show (l : Multiset α).card < n from hRoom)]
            refine ⟨a', hStep, l ++ [x], hNext, ?_⟩
            exact Multiset.coe_eq_coe.mpr (List.perm_append_singleton x l)
          · rw [if_neg hRoom] at hStep hNext
            rw [bagStep, if_neg (show ¬ (l : Multiset α).card < n from hRoom)]
            exact ⟨a', hStep, l, hNext, rfl⟩
  | del data =>
      cases data with
      | none => exact ⟨a, rfl, l, h, rfl⟩
      | some x =>
          obtain ⟨a', l', hDel, hNext, hErase⟩ := h.del x
          exact ⟨a', by rw [arrayStep, hDel]; rfl, l', hNext, hErase⟩
  | has data =>
      cases data with
      | none => exact ⟨a, rfl, l, h, rfl⟩
      | some x => exact ⟨a, by rw [arrayStep, h.has x]; rfl, l, h, rfl⟩
  | count => exact ⟨a, by rw [arrayStep, arrayCount, h.count]; rfl, l, h, rfl⟩
  | loop =>
      refine ⟨a, ?_, l, h, rfl⟩
      rw [arrayStep, h.loop]
      simp only [bagStep, Multiset.coe_eq_zero, Multiset.map_coe, Option.map_some]

/-- In every run from `array_create` on no call leaves the array, and all calls answer as a multiset
of at most `size` pointers does. -/
theorem array_run {size : Int} (hSize : 0 < size) (ops : List (ArrayOp α)) :
    ∃ a last, arrayCreate size = some a ∧
      run arrayStep a ops = some (answers (bagStep size.toNat) 0 ops, last) := by
  obtain ⟨a, hCreate, hHolds⟩ := arrayCreate_holds hSize
  obtain ⟨last, hRun⟩ := (array_implements size.toNat).run ⟨[], hHolds, rfl⟩ ops
  exact ⟨a, last, hCreate, hRun⟩

end

/-- Two places. -/
theorem array_run_two : ∃ (a last : ArrayT Nat), arrayCreate 2 = some a ∧
    run arrayStep a [.add (some 7), .add (some 8), .add (some 9), .del (some 7), .loop] =
      some (answers (bagStep 2) 0
        [.add (some 7), .add (some 8), .add (some 9), .del (some 7), .loop], last) :=
  array_run (by decide) _

end Gbase.Base.Array
