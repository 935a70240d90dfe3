import Gbase.Base.Conhash

/-!
# List heads (`base/list.h`)

What the calls on list heads do to one list, and which cells they write to.  Memory and lists are
those of the consistent hash.

A head is a cell of its own circle, and a list is a circle with one cell that is no element.  Each
call writes to the neighbours of the place where it works only, and the lemmas say which cells these
are, so that a caller with several lists can tell that the others are untouched.

## Main results

* `addBetween_spec`, `delBetween_spec`, `splice_spec`: what becomes of a list.
* `listEmpty_eq`: `list_empty` tells whether a list is empty.
-/

namespace Gbase.Base.ListHead

open Gbase.Base.Conhash
open Gbase.Lib.Circular

/-- `INIT_LIST_HEAD` -/
def initListHead (m : Links) (ptr : Option Nat) : Option Links := do
  let m ← setNext m ptr ptr
  setPrev m ptr ptr

/-- `list_add_tail` -/
def listAddTail (m : Links) (new head : Option Nat) : Option Links := do
  let l ← m (← head)
  listAddBetween m new l.prev head

/-- `list_del_init` -/
def listDelInit (m : Links) (entry : Option Nat) : Option Links := do
  let l ← m (← entry)
  let m ← listDelBetween m l.prev l.next
  initListHead m entry

/-- `list_move` -/
def listMove (m : Links) (list head : Option Nat) : Option Links := do
  let l ← m (← list)
  let m ← listDelBetween m l.prev l.next
  listAdd m list head

/-- `list_move_tail` -/
def listMoveTail (m : Links) (list head : Option Nat) : Option Links := do
  let l ← m (← list)
  let m ← listDelBetween m l.prev l.next
  listAddTail m list head

/-- `list_empty` -/
def listEmpty (m : Links) (head : Option Nat) : Option Bool := do
  let l ← m (← head)
  return l.next = head

/-- `__list_splice` -/
def listSpliceBetween (m : Links) (list head : Option Nat) : Option Links := do
  let l ← m (← list)
  let at' := (← m (← head)).next
  let m ← setPrev m l.next head
  let m ← setNext m head l.next
  let m ← setNext m l.prev at'
  setPrev m at' l.prev

/-- `list_splice` -/
def listSplice (m : Links) (list head : Option Nat) : Option Links := do
  if ← listEmpty m list then return m
  listSpliceBetween m list head

/-- `list_splice_init` -/
def listSpliceInit (m : Links) (list head : Option Nat) : Option Links := do
  if ← listEmpty m list then return m
  let m ← listSpliceBetween m list head
  initListHead m list

/-! ## One list -/

/-- Only links of these cells were changed, and no list head came or went. -/
structure Within (m m' : Links) (cells : List Nat) : Prop where
  next : ∀ b, b ∉ cells → nextOf m' b = nextOf m b
  prev : ∀ b, b ∉ cells → prevOf m' b = prevOf m b
  isSome : ∀ b, (m' b).isSome = (m b).isSome

section
variable {m m' : Links} {head a : Nat} {xs ys cells : List Nat}

/-- A list keeps its cells if none of them is written to. -/
theorem Within.circle (h : Within m m' cells) (hCircle : Circle (nextOf m) (prevOf m) head xs)
    (hApart : ∀ b, b ∈ head :: xs → b ∉ cells) : Circle (nextOf m') (prevOf m') head xs := by
  refine ⟨hCircle.nodup, ?_⟩
  intro e he
  have hFst : e.1 ∈ head :: xs := by
    rw [← map_fst_edges head xs head]
    exact List.mem_map_of_mem he
  have hSnd : e.2 ∈ head :: xs := by
    have hIn : e.2 ∈ xs ++ [head] := by
      rw [← map_snd_edges head xs head]
      exact List.mem_map_of_mem he
    rwa [List.mem_append, List.mem_singleton, or_comm, ← List.mem_cons] at hIn
  rw [h.next _ (hApart _ hFst), h.prev _ (hApart _ hSnd)]
  exact hCircle.linked e he

/-- Both links of one cell are set. -/
theorem setLinks_spec (hSome : (m a).isSome) (next prev : Option Nat) :
    ∃ m₁ m', setNext m (some a) next = some m₁ ∧ setPrev m₁ (some a) prev = some m' ∧
      nextOf m' a = next ∧ prevOf m' a = prev ∧ Within m m' [a] := by
  obtain ⟨m₁, h₁, hNext₁, hPrev₁, hSome₁⟩ := setNext_spec next hSome
  obtain ⟨m₂, h₂, hNext₂, hPrev₂, hSome₂⟩ := setPrev_spec prev ((hSome₁ a).trans hSome)
  refine ⟨m₁, m₂, h₁, h₂, ?_, ?_, ?_, ?_, fun b => (hSome₂ b).trans (hSome₁ b)⟩
  · rw [hNext₂, hNext₁, Function.update_self]
  · rw [hPrev₂, Function.update_self]
  · intro b hb
    rw [hNext₂, hNext₁, Function.update_of_ne (List.ne_of_not_mem_cons hb)]
  · intro b hb
    rw [hPrev₂, hPrev₁, Function.update_of_ne (List.ne_of_not_mem_cons hb)]

theorem initListHead_spec (hSome : (m a).isSome) :
    ∃ m', initListHead m (some a) = some m' ∧ Circle (nextOf m') (prevOf m') a [] ∧
      Within m m' [a] := by
  obtain ⟨m₁, m', h₁, h₂, hNext, hPrev, hWithin⟩ := setLinks_spec hSome (some a) (some a)
  refine ⟨m', ?_, Circle.single hNext hPrev, hWithin⟩
  simp only [initListHead, h₁, h₂, Option.bind_eq_bind, Option.bind_some]

/-- `__list_add` at a place of a list. -/
theorem addBetween_spec (h : Circle (nextOf m) (prevOf m) head (xs ++ ys))
    (hNew : a ∉ head :: (xs ++ ys)) (hSome : (m a).isSome) :
    ∃ m', listAddBetween m (some a) (some (lastOf head xs)) (some (firstOf ys head)) = some m' ∧
      Circle (nextOf m') (prevOf m') head (xs ++ a :: ys) ∧
      Within m m' (a :: head :: (xs ++ ys)) := by
  have hLast := lastOf_mem_ring head xs ys
  have hFirst := firstOf_mem_ring head xs ys
  have hLastNe : lastOf head xs ≠ a := fun hEq => hNew (hEq ▸ hLast)
  have hFirstNe : firstOf ys head ≠ a := fun hEq => hNew (hEq ▸ hFirst)
  obtain ⟨m₁, h₁, hNext₁, hPrev₁, hSome₁⟩ := setPrev_spec (some a) (Circle.isSome h hFirst)
  obtain ⟨m₂, h₂, hNext₂, hPrev₂, hSome₂⟩ :=
    setNext_spec (some (firstOf ys head)) ((hSome₁ a).trans hSome)
  obtain ⟨m₃, h₃, hNext₃, hPrev₃, hSome₃⟩ :=
    setPrev_spec (some (lastOf head xs)) ((hSome₂ a).trans ((hSome₁ a).trans hSome))
  have hLastSome : (m₃ (lastOf head xs)).isSome := by
    rw [hSome₃, hSome₂, hSome₁]
    exact Circle.isSome h hLast
  obtain ⟨m₄, h₄, hNext₄, hPrev₄, hSome₄⟩ := setNext_spec (some a) hLastSome
  have hOutside : ∀ b, b ∉ a :: head :: (xs ++ ys) →
      b ≠ a ∧ b ≠ lastOf head xs ∧ b ≠ firstOf ys head := by
    intro b hb
    rw [List.mem_cons, not_or] at hb
    exact ⟨hb.1, fun hEq => hb.2 (hEq ▸ hLast), fun hEq => hb.2 (hEq ▸ hFirst)⟩
  refine ⟨m₄, ?_, ?_, ?_, ?_, fun b => by rw [hSome₄, hSome₃, hSome₂, hSome₁]⟩
  · simp only [listAddBetween, h₁, h₂, h₃, h₄, Option.bind_eq_bind, Option.bind_some]
  · rw [hNext₄, hPrev₄, hNext₃, hPrev₃, hNext₂, hPrev₂, hNext₁, hPrev₁]
    apply h.insert hNew
    · exact Function.update_self _ _ _
    · rw [Function.update_of_ne hLastNe.symm, Function.update_self]
    · intro b hb hba
      rw [Function.update_of_ne hb, Function.update_of_ne hba]
    · exact Function.update_self _ _ _
    · rw [Function.update_of_ne hFirstNe, Function.update_self]
    · intro b hb hba
      rw [Function.update_of_ne hba, Function.update_of_ne hb]
  · intro b hb
    obtain ⟨hba, hbLast, -⟩ := hOutside b hb
    rw [hNext₄, hNext₃, hNext₂, hNext₁, Function.update_of_ne hbLast, Function.update_of_ne hba]
  · intro b hb
    obtain ⟨hba, -, hbFirst⟩ := hOutside b hb
    rw [hPrev₄, hPrev₃, hPrev₂, hPrev₁, Function.update_of_ne hba, Function.update_of_ne hbFirst]

/-- The links of a cell of a list. -/
theorem cell_eq (h : Circle (nextOf m) (prevOf m) head (xs ++ a :: ys)) :
    m a = some ⟨some (firstOf ys head), some (lastOf head xs)⟩ := by
  have hBack : prevOf m a = some (lastOf head xs) := h.edge.2
  have hGo : nextOf m a = some (firstOf ys head) := by
    have hCut := h
    rw [List.append_cons] at hCut
    have hNext := hCut.edge.1
    rwa [lastOf_append] at hNext
  exact link_eq (isSome_of_next hGo) hGo hBack

/-- The links of the head. -/
theorem head_eq (h : Circle (nextOf m) (prevOf m) head xs) :
    m head = some ⟨some (firstOf xs head), some (lastOf head xs)⟩ := by
  have hFront : Circle (nextOf m) (prevOf m) head ([] ++ xs) := h
  have hGo : nextOf m head = some (firstOf xs head) := hFront.edge.1
  have hBack : prevOf m head = some (lastOf head xs) := by
    have hEnd := h
    rw [← List.append_nil xs] at hEnd
    exact hEnd.edge.2
  exact link_eq (isSome_of_next hGo) hGo hBack

/-- `__list_del` around a cell of a list. -/
theorem delBetween_spec (h : Circle (nextOf m) (prevOf m) head (xs ++ a :: ys)) :
    ∃ m', listDelBetween m (some (lastOf head xs)) (some (firstOf ys head)) = some m' ∧
      Circle (nextOf m') (prevOf m') head (xs ++ ys) ∧ Within m m' (head :: (xs ++ ys)) := by
  have hNodup := h.nodup
  rw [← List.cons_append, List.nodup_middle, List.nodup_cons] at hNodup
  have hLast := lastOf_mem_ring head xs ys
  have hFirst := firstOf_mem_ring head xs ys
  have hAll : ∀ b, b ∈ head :: (xs ++ ys) → b ∈ head :: (xs ++ a :: ys) := by
    intro b hb
    rw [← List.cons_append, List.mem_append] at hb ⊢
    exact hb.imp_right (List.mem_cons_of_mem a)
  obtain ⟨m₁, h₁, hNext₁, hPrev₁, hSome₁⟩ :=
    setPrev_spec (some (lastOf head xs)) (Circle.isSome h (hAll _ hFirst))
  obtain ⟨m₂, h₂, hNext₂, hPrev₂, hSome₂⟩ :=
    setNext_spec (some (firstOf ys head)) ((hSome₁ _).trans (Circle.isSome h (hAll _ hLast)))
  refine ⟨m₂, ?_, ?_, ?_, ?_, fun b => by rw [hSome₂, hSome₁]⟩
  · simp only [listDelBetween, h₁, h₂, Option.bind_eq_bind, Option.bind_some]
  · rw [hNext₂, hPrev₂, hNext₁, hPrev₁]
    apply h.erase
    · exact Function.update_self _ _ _
    · exact fun b hb _ => Function.update_of_ne hb _ _
    · exact Function.update_self _ _ _
    · exact fun b hb _ => Function.update_of_ne hb _ _
  · intro b hb
    have hNe : b ≠ lastOf head xs := fun hEq => hb (hEq ▸ hLast)
    rw [hNext₂, hNext₁, Function.update_of_ne hNe]
  · intro b hb
    have hNe : b ≠ firstOf ys head := fun hEq => hb (hEq ▸ hFirst)
    rw [hPrev₂, hPrev₁, Function.update_of_ne hNe]

theorem listEmpty_eq (h : Circle (nextOf m) (prevOf m) head xs) :
    listEmpty m (some head) = some (decide (xs = [])) := by
  have hFirst : firstOf xs head = head ↔ xs = [] := by
    cases xs with
    | nil => exact iff_of_true rfl rfl
    | cons x xs =>
        have hNe : x ≠ head := fun hEq => (List.nodup_cons.mp h.nodup).1 (hEq ▸ List.mem_cons_self)
        exact iff_of_false hNe (List.cons_ne_nil x xs)
  simp only [listEmpty, head_eq h, Option.bind_eq_bind, Option.bind_some, Option.pure_def,
    Option.some.injEq, hFirst]

/-- `__list_splice` of a list that is not empty. -/
theorem splice_spec {list y : Nat} (h : Circle (nextOf m) (prevOf m) head xs)
    (hList : Circle (nextOf m) (prevOf m) list (y :: ys))
    (hApart : ∀ b, b ∈ y :: ys → b ∉ head :: xs) :
    ∃ m', listSpliceBetween m (some list) (some head) = some m' ∧
      Circle (nextOf m') (prevOf m') head (y :: ys ++ xs) ∧
      Within m m' (head :: xs ++ y :: ys) := by
  have hLast : lastOf y ys ∈ y :: ys := lastOf_mem y ys
  have hFirst : firstOf xs head ∈ head :: xs := by
    have hIn := firstOf_mem xs head
    rwa [List.mem_append, List.mem_singleton, or_comm, ← List.mem_cons] at hIn
  have hy : y ≠ firstOf xs head := fun hEq => hApart y List.mem_cons_self (hEq ▸ hFirst)
  have hHead : head ≠ lastOf y ys := fun hEq => hApart _ hLast (hEq ▸ List.mem_cons_self)
  have hListEq : m list = some ⟨some y, some (lastOf y ys)⟩ := head_eq hList
  have hOwn : ∀ b, b ∈ y :: ys → (m b).isSome := fun b hb =>
    Circle.isSome hList (List.mem_cons_of_mem list hb)
  obtain ⟨m₁, h₁, hNext₁, hPrev₁, hSome₁⟩ :=
    setPrev_spec (some head) (hOwn y List.mem_cons_self)
  obtain ⟨m₂, h₂, hNext₂, hPrev₂, hSome₂⟩ :=
    setNext_spec (some y) ((hSome₁ head).trans (Circle.isSome h List.mem_cons_self))
  obtain ⟨m₃, h₃, hNext₃, hPrev₃, hSome₃⟩ := setNext_spec (some (firstOf xs head))
    ((hSome₂ _).trans ((hSome₁ _).trans (hOwn _ hLast)))
  have hFirstSome : (m₃ (firstOf xs head)).isSome := by
    rw [hSome₃, hSome₂, hSome₁]
    exact Circle.isSome h hFirst
  obtain ⟨m₄, h₄, hNext₄, hPrev₄, hSome₄⟩ := setPrev_spec (some (lastOf y ys)) hFirstSome
  have hOutside : ∀ b, b ∉ head :: xs ++ y :: ys →
      b ≠ head ∧ b ≠ lastOf y ys ∧ b ≠ y ∧ b ≠ firstOf xs head := by
    intro b hb
    rw [List.mem_append, not_or] at hb
    exact ⟨fun hEq => hb.1 (hEq ▸ List.mem_cons_self), fun hEq => hb.2 (hEq ▸ hLast),
      fun hEq => hb.2 (hEq ▸ List.mem_cons_self), fun hEq => hb.1 (hEq ▸ hFirst)⟩
  refine ⟨m₄, ?_, ?_, ?_, ?_, fun b => by rw [hSome₄, hSome₃, hSome₂, hSome₁]⟩
  · simp only [listSpliceBetween, head_eq h, hListEq, Option.bind_eq_bind, Option.bind_some, h₁, h₂,
      h₃, h₄]
  · rw [hNext₄, hPrev₄, hNext₃, hPrev₃, hNext₂, hPrev₂, hNext₁, hPrev₁]
    apply Circle.splice h hList hApart
    · rw [Function.update_of_ne hHead, Function.update_self]
    · exact Function.update_self _ _ _
    · intro b hb hbLast
      rw [Function.update_of_ne hbLast, Function.update_of_ne hb]
    · rw [Function.update_of_ne hy, Function.update_self]
    · exact Function.update_self _ _ _
    · intro b hb hbFirst
      rw [Function.update_of_ne hbFirst, Function.update_of_ne hb]
  · intro b hb
    obtain ⟨hbHead, hbLast, -, -⟩ := hOutside b hb
    rw [hNext₄, hNext₃, hNext₂, hNext₁, Function.update_of_ne hbLast, Function.update_of_ne hbHead]
  · intro b hb
    obtain ⟨-, -, hby, hbFirst⟩ := hOutside b hb
    rw [hPrev₄, hPrev₃, hPrev₂, hPrev₁, Function.update_of_ne hbFirst, Function.update_of_ne hby]

end

end Gbase.Base.ListHead
