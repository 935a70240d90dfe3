import Gbase.Base.ListHead
import Gbase.Lib.Run

/-!
# Runs on list heads (`base/list.h`)

Any number of lists lie in one memory, each around a head of its own.  The client says with a cell
that it takes out which list the cell is in; the calls do not need it.  A cell is put into a list
only when it is in no other one.

## Main results

* `listCall_spec`: what a call does to all lists.
* `list_run`: the lists after a run of calls, and that `list_empty` tells which are empty.
-/

namespace Gbase.Base.ListHead

open Gbase.Base.Conhash
open Gbase.Lib.Circular
open Gbase.Lib.Run

/-! ## All lists -/

/-- The cells behind the heads of the lists. -/
abbrev Contents := Nat → Option (List Nat)

/-- The lists in memory; no cell is in two of them. -/
structure Lists (m : Links) (ls : Contents) : Prop where
  circle : ∀ {h xs}, ls h = some xs → Circle (nextOf m) (prevOf m) h xs
  apart : ∀ {h h' xs xs' b}, ls h = some xs → ls h' = some xs' → b ∈ h :: xs → b ∈ h' :: xs' →
    h = h'

/-- The cell is in no other list. -/
def NotElsewhere (ls : Contents) (head b : Nat) : Prop :=
  ∀ h xs, h ≠ head → ls h = some xs → b ∉ h :: xs

/-- The cell is in no list. -/
def Loose (ls : Contents) (b : Nat) : Prop := ∀ h xs, ls h = some xs → b ∉ h :: xs

/-- The cells of one list change. -/
def Contents.change (ls : Contents) (head : Nat) (f : List Nat → List Nat) : Contents :=
  Function.update ls head ((ls head).map f)

section
variable {m m' : Links} {ls : Contents} {head a b : Nat} {xs ys cells : List Nat}

theorem Loose.notElsewhere (h : Loose ls b) (head : Nat) : NotElsewhere ls head b :=
  fun h' xs _ => h h' xs

theorem Lists.notElsewhere (h : Lists m ls) (hHead : ls head = some xs) (hb : b ∈ head :: xs) :
    NotElsewhere ls head b :=
  fun _ _ hNe hOther hIn => hNe (h.apart hOther hHead hIn hb)

/-- One list changes, and takes no cell of another one. -/
theorem Lists.change (h : Lists m ls) (hCircle : Circle (nextOf m') (prevOf m') head xs)
    (hWithin : Within m m' cells) (hCells : ∀ b, b ∈ cells → NotElsewhere ls head b)
    (hOwn : ∀ b, b ∈ head :: xs → NotElsewhere ls head b) :
    Lists m' (Function.update ls head (some xs)) where
  circle := by
    intro h' ys hSome
    by_cases hSame : h' = head
    · rw [hSame, Function.update_self] at hSome
      cases hSome
      rw [hSame]
      exact hCircle
    · rw [Function.update_of_ne hSame] at hSome
      exact hWithin.circle (h.circle hSome) fun b hb hIn => hCells b hIn h' ys hSame hSome hb
  apart := by
    intro h₁ h₂ xs₁ xs₂ b hSome₁ hSome₂ hb₁ hb₂
    by_cases hSame₁ : h₁ = head <;> by_cases hSame₂ : h₂ = head
    · rw [hSame₁, hSame₂]
    · rw [hSame₁, Function.update_self] at hSome₁
      rw [Function.update_of_ne hSame₂] at hSome₂
      cases hSome₁
      exact absurd hb₂ (hOwn b (hSame₁ ▸ hb₁) h₂ xs₂ hSame₂ hSome₂)
    · rw [hSame₂, Function.update_self] at hSome₂
      rw [Function.update_of_ne hSame₁] at hSome₁
      cases hSome₂
      exact absurd hb₁ (hOwn b (hSame₂ ▸ hb₂) h₁ xs₁ hSame₁ hSome₁)
    · rw [Function.update_of_ne hSame₁] at hSome₁
      rw [Function.update_of_ne hSame₂] at hSome₂
      exact h.apart hSome₁ hSome₂ hb₁ hb₂

/-- The links of a loose cell change. -/
theorem Lists.outside (h : Lists m ls) (hWithin : Within m m' [a]) (hLoose : Loose ls a) :
    Lists m' ls where
  circle := fun {_ _} hSome => hWithin.circle (h.circle hSome) fun _ hb hIn =>
    hLoose _ _ hSome (List.mem_singleton.mp hIn ▸ hb)
  apart := h.apart

/-- One list is no list any more. -/
theorem Lists.drop (h : Lists m ls) (head : Nat) : Lists m (Function.update ls head none) := by
  have hOld : ∀ {h' xs}, Function.update ls head none h' = some xs → ls h' = some xs := by
    intro h' xs hSome
    by_cases hSame : h' = head
    · rw [hSame, Function.update_self] at hSome
      cases hSome
    · rwa [Function.update_of_ne hSame] at hSome
  exact ⟨fun hSome => h.circle (hOld hSome), fun h₁ h₂ => h.apart (hOld h₁) (hOld h₂)⟩

private theorem noLists (m : Links) : Lists m fun _ => none where
  circle := fun hSome => nomatch hSome
  apart := fun hSome => nomatch hSome

theorem Lists.init (h : Lists m ls) (hLoose : Loose ls a) (hSome : (m a).isSome) :
    ∃ m', initListHead m (some a) = some m' ∧ Lists m' (Function.update ls a (some [])) ∧
      ∀ b, (m' b).isSome = (m b).isSome := by
  obtain ⟨m', hInit, hCircle, hWithin⟩ := initListHead_spec hSome
  have hFree : ∀ b, b ∈ [a] → NotElsewhere ls a b := by
    intro b hb
    rw [List.mem_singleton] at hb
    exact hb ▸ hLoose.notElsewhere a
  exact ⟨m', hInit, h.change hCircle hWithin hFree hFree, hWithin.isSome⟩

/-- A loose cell is put to a place of a list. -/
theorem Lists.put (h : Lists m ls) (hHead : ls head = some (xs ++ ys)) (hLoose : Loose ls a)
    (hSome : (m a).isSome) :
    ∃ m', listAddBetween m (some a) (some (lastOf head xs)) (some (firstOf ys head)) = some m' ∧
      Lists m' (Function.update ls head (some (xs ++ a :: ys))) := by
  obtain ⟨m', hAdd, hCircle, hWithin⟩ :=
    addBetween_spec (h.circle hHead) (hLoose head _ hHead) hSome
  have hFree : ∀ b, b ∈ a :: head :: (xs ++ ys) → NotElsewhere ls head b := by
    intro b hb
    cases List.mem_cons.mp hb with
    | inl hNew => exact hNew ▸ hLoose.notElsewhere head
    | inr hOld => exact h.notElsewhere hHead hOld
  refine ⟨m', hAdd, h.change hCircle hWithin hFree ?_⟩
  intro b hb
  apply hFree
  rw [← List.cons_append, List.mem_append, List.mem_cons (l := ys)] at hb
  rw [← List.cons_append, List.mem_cons, List.mem_append]
  tauto

theorem Lists.add (h : Lists m ls) (hHead : ls head = some xs) (hLoose : Loose ls a)
    (hSome : (m a).isSome) : ∃ m', listAdd m (some a) (some head) = some m' ∧
      Lists m' (Function.update ls head (some (a :: xs))) := by
  have hFront : ls head = some ([] ++ xs) := hHead
  obtain ⟨m', hAdd, hLists⟩ := h.put hFront hLoose hSome
  refine ⟨m', ?_, hLists⟩
  simp only [listAdd, head_eq (h.circle hHead), Option.bind_eq_bind, Option.bind_some]
  exact hAdd

theorem Lists.addTail (h : Lists m ls) (hHead : ls head = some xs) (hLoose : Loose ls a)
    (hSome : (m a).isSome) : ∃ m', listAddTail m (some a) (some head) = some m' ∧
      Lists m' (Function.update ls head (some (xs ++ [a]))) := by
  have hEnd : ls head = some (xs ++ []) := by rw [List.append_nil, hHead]
  obtain ⟨m', hAdd, hLists⟩ := h.put hEnd hLoose hSome
  refine ⟨m', ?_, hLists⟩
  simp only [listAddTail, head_eq (h.circle hHead), Option.bind_eq_bind, Option.bind_some]
  exact hAdd

/-- A cell is taken out of its list, and is loose then. -/
theorem Lists.take (h : Lists m ls) (hHead : ls head = some xs) (ha : a ∈ xs) :
    ∃ next prev m', m a = some ⟨next, prev⟩ ∧ listDelBetween m prev next = some m' ∧
      Lists m' (Function.update ls head (some (xs.erase a))) ∧
      Loose (Function.update ls head (some (xs.erase a))) a ∧
      ∀ b, (m' b).isSome = (m b).isSome := by
  obtain ⟨before, behind, rfl, hNot⟩ := List.eq_append_cons_of_mem ha
  have hCircle := h.circle hHead
  obtain ⟨m', hDel, hRest, hWithin⟩ := delBetween_spec hCircle
  have hFree : ∀ b, b ∈ head :: (before ++ behind) → NotElsewhere ls head b := by
    intro b hb
    apply h.notElsewhere hHead
    rw [← List.cons_append, List.mem_append] at hb ⊢
    exact hb.imp_right (List.mem_cons_of_mem a)
  rw [List.erase_append_right _ hNot, List.erase_cons_head]
  refine ⟨_, _, m', cell_eq hCircle, hDel, h.change hRest hWithin hFree hFree, ?_, hWithin.isSome⟩
  intro h' ys hSome hIn
  by_cases hSame : h' = head
  · rw [hSame, Function.update_self] at hSome
    cases hSome
    have hNodup := hCircle.nodup
    rw [← List.cons_append, List.nodup_middle, List.nodup_cons] at hNodup
    exact hNodup.1 (hSame ▸ hIn)
  · rw [Function.update_of_ne hSame] at hSome
    exact h.notElsewhere hHead (List.mem_cons_of_mem head ha) h' ys hSame hSome hIn

/-- The cells of one list go in front of those of another one. -/
theorem Lists.splice {list : Nat} (h : Lists m ls) (hHead : ls head = some xs)
    (hList : ls list = some ys) (hNe : list ≠ head) (hSome : ys ≠ []) :
    ∃ m', listSpliceBetween m (some list) (some head) = some m' ∧
      Lists m' (Function.update (Function.update ls list none) head (some (ys ++ xs))) ∧
      ∀ b, (m' b).isSome = (m b).isSome := by
  obtain ⟨y, ys, rfl⟩ := List.exists_cons_of_ne_nil hSome
  have hApart : ∀ b, b ∈ y :: ys → b ∉ head :: xs := fun b hb hIn =>
    hNe (h.apart hList hHead (List.mem_cons_of_mem list hb) hIn)
  obtain ⟨m', hSplice, hCircle, hWithin⟩ := splice_spec (h.circle hHead) (h.circle hList) hApart
  have hFree : ∀ b, b ∈ head :: xs ++ y :: ys →
      NotElsewhere (Function.update ls list none) head b := by
    intro b hb h' zs hOther hSome hIn
    by_cases hSame : h' = list
    · rw [hSame, Function.update_self] at hSome
      cases hSome
    · rw [Function.update_of_ne hSame] at hSome
      cases List.mem_append.mp hb with
      | inl hFirst => exact hOther (h.apart hSome hHead hIn hFirst)
      | inr hSecond => exact hSame (h.apart hSome hList hIn (List.mem_cons_of_mem list hSecond))
  refine ⟨m', hSplice, (h.drop list).change hCircle hWithin hFree ?_, hWithin.isSome⟩
  intro b hb
  apply hFree
  rw [List.mem_cons, List.mem_append] at hb
  rw [List.mem_append, List.mem_cons]
  tauto

/-- Its head is in no list then. -/
theorem Lists.loose_head {list : Nat} (h : Lists m ls) (hHead : ls head = some xs)
    (hList : ls list = some ys) (hNe : list ≠ head) :
    Loose (Function.update (Function.update ls list none) head (some (ys ++ xs))) list := by
  intro h' zs hSome hIn
  by_cases hFirst : h' = head
  · rw [hFirst, Function.update_self] at hSome
    cases hSome
    rw [hFirst, List.mem_cons, List.mem_append] at hIn
    rcases hIn with hSelf | hOwn | hOther
    · exact hNe hSelf
    · exact (List.nodup_cons.mp (h.circle hList).nodup).1 hOwn
    · exact hNe (h.apart hList hHead List.mem_cons_self (List.mem_cons_of_mem head hOther))
  · rw [Function.update_of_ne hFirst] at hSome
    by_cases hSecond : h' = list
    · rw [hSecond, Function.update_self] at hSome
      cases hSome
    · rw [Function.update_of_ne hSecond] at hSome
      exact hSecond (h.apart hSome hList hIn List.mem_cons_self)

end

/-! ## Runs -/

/-- A call; the list that a cell is taken out of is for the client. -/
inductive ListOp where
  | init (ptr : Nat)
  | add (new head : Nat)
  | addTail (new head : Nat)
  | del (entry head : Nat)
  | delInit (entry head : Nat)
  | move (cell source head : Nat)
  | moveTail (cell source head : Nat)
  | splice (list head : Nat)
  | spliceInit (list head : Nat)

/-- What a call does to the memory. -/
def listCall (m : Links) : ListOp → Option Links
  | .init ptr => initListHead m (some ptr)
  | .add new head => listAdd m (some new) (some head)
  | .addTail new head => listAddTail m (some new) (some head)
  | .del entry _ => listDel m (some entry)
  | .delInit entry _ => listDelInit m (some entry)
  | .move cell _ head => listMove m (some cell) (some head)
  | .moveTail cell _ head => listMoveTail m (some cell) (some head)
  | .splice list head => listSplice m (some list) (some head)
  | .spliceInit list head => listSpliceInit m (some list) (some head)

/-- What a call does to the lists.  After `list_splice` the head of the list that was put into the
other one is a list only if that was empty. -/
def Contents.call (ls : Contents) : ListOp → Contents
  | .init ptr => Function.update ls ptr (some [])
  | .add new head => ls.change head (new :: ·)
  | .addTail new head => ls.change head (· ++ [new])
  | .del entry head => ls.change head fun xs => xs.erase entry
  | .delInit entry head =>
      Function.update (ls.change head fun xs => xs.erase entry) entry (some [])
  | .move cell source head => (ls.change source fun xs => xs.erase cell).change head (cell :: ·)
  | .moveTail cell source head =>
      (ls.change source fun xs => xs.erase cell).change head (· ++ [cell])
  | .splice list head =>
      if ls list = some [] then ls
      else Function.update (ls.change head ((ls list).getD [] ++ ·)) list none
  | .spliceInit list head =>
      Function.update (ls.change head ((ls list).getD [] ++ ·)) list (some [])

/-- What a caller has to see to. -/
def Legal : Links × Contents → ListOp → Prop
  | (m, ls), .init ptr => Loose ls ptr ∧ (m ptr).isSome
  | (m, ls), .add new head => Loose ls new ∧ (m new).isSome ∧ (ls head).isSome
  | (m, ls), .addTail new head => Loose ls new ∧ (m new).isSome ∧ (ls head).isSome
  | (_, ls), .del entry head => ∃ xs, ls head = some xs ∧ entry ∈ xs
  | (_, ls), .delInit entry head => ∃ xs, ls head = some xs ∧ entry ∈ xs
  | (_, ls), .move cell source head => (∃ xs, ls source = some xs ∧ cell ∈ xs) ∧ (ls head).isSome
  | (_, ls), .moveTail cell source head =>
      (∃ xs, ls source = some xs ∧ cell ∈ xs) ∧ (ls head).isSome
  | (_, ls), .splice list head => list ≠ head ∧ (ls list).isSome ∧ (ls head).isSome
  | (_, ls), .spliceInit list head => list ≠ head ∧ (ls list).isSome ∧ (ls head).isSome

/-- A call, with the lists next to the memory. -/
def listStep : Step (Links × Contents) ListOp Unit
  | (m, ls), op => (listCall m op).map fun m => ((), (m, ls.call op))

section
variable {m : Links} {ls : Contents}

theorem change_eq {head : Nat} {xs : List Nat} (hHead : ls head = some xs)
    (f : List Nat → List Nat) : ls.change head f = Function.update ls head (some (f xs)) := by
  rw [Contents.change, hHead, Option.map_some]

private theorem isSome_change {head source : Nat} (f : List Nat → List Nat) (h : (ls head).isSome) :
    (ls.change source f head).isSome := by
  by_cases hSame : head = source
  · rw [hSame] at h ⊢
    rwa [Contents.change, Function.update_self, Option.isSome_map]
  · rwa [Contents.change, Function.update_of_ne hSame]

/-- `list_move` and `list_move_tail`: a cell is taken out and put to another place. -/
theorem Lists.move (h : Lists m ls) {cell source head : Nat} {xs : List Nat}
    (hSource : ls source = some xs) (hIn : cell ∈ xs) (hHead : (ls head).isSome) :
    ∃ l m₁ ys, m cell = some l ∧ listDelBetween m l.prev l.next = some m₁ ∧
      ls.change source (fun xs => xs.erase cell) head = some ys ∧
      Lists m₁ (ls.change source fun xs => xs.erase cell) ∧
      Loose (ls.change source fun xs => xs.erase cell) cell ∧ (m₁ cell).isSome := by
  obtain ⟨next, prev, m₁, hCell, hDel, hLists, hLoose, hAlloc⟩ := h.take hSource hIn
  rw [← change_eq hSource fun xs => xs.erase cell] at hLists hLoose
  obtain ⟨ys, hys⟩ := Option.isSome_iff_exists.mp (isSome_change _ hHead)
  refine ⟨_, m₁, ys, hCell, hDel, hys, hLists, hLoose, ?_⟩
  rw [hAlloc, hCell]
  rfl

/-- Every legal call is defined, and does on the lists what it should. -/
theorem listCall_spec (h : Lists m ls) {op : ListOp} (hLegal : Legal (m, ls) op) :
    ∃ m', listCall m op = some m' ∧ Lists m' (ls.call op) := by
  cases op with
  | init ptr =>
      obtain ⟨m', hInit, hLists, -⟩ := h.init hLegal.1 hLegal.2
      exact ⟨m', hInit, hLists⟩
  | add new head =>
      obtain ⟨hLoose, hSome, hHead⟩ := hLegal
      obtain ⟨xs, hxs⟩ := Option.isSome_iff_exists.mp hHead
      rw [Contents.call, change_eq hxs]
      exact h.add hxs hLoose hSome
  | addTail new head =>
      obtain ⟨hLoose, hSome, hHead⟩ := hLegal
      obtain ⟨xs, hxs⟩ := Option.isSome_iff_exists.mp hHead
      rw [Contents.call, change_eq hxs]
      exact h.addTail hxs hLoose hSome
  | del entry head =>
      obtain ⟨xs, hxs, hIn⟩ := hLegal
      obtain ⟨next, prev, m₁, hCell, hDel, hLists, hLoose, hAlloc⟩ := h.take hxs hIn
      have hSome : (m₁ entry).isSome := by
        rw [hAlloc, hCell]
        rfl
      obtain ⟨m₂, m₃, h₂, h₃, -, -, hWithin⟩ := setLinks_spec hSome none none
      refine ⟨m₃, ?_, ?_⟩
      · simp only [listCall, listDel, hCell, hDel, h₂, h₃, Option.bind_eq_bind, Option.bind_some]
      · rw [Contents.call, change_eq hxs]
        exact hLists.outside hWithin hLoose
  | delInit entry head =>
      obtain ⟨xs, hxs, hIn⟩ := hLegal
      obtain ⟨next, prev, m₁, hCell, hDel, hLists, hLoose, hAlloc⟩ := h.take hxs hIn
      have hSome : (m₁ entry).isSome := by
        rw [hAlloc, hCell]
        rfl
      obtain ⟨m₂, hInit, hLists', -⟩ := hLists.init hLoose hSome
      refine ⟨m₂, ?_, ?_⟩
      · simp only [listCall, listDelInit, hCell, hDel, hInit, Option.bind_eq_bind, Option.bind_some]
      · rw [Contents.call, change_eq hxs]
        exact hLists'
  | move cell source head =>
      obtain ⟨⟨xs, hxs, hIn⟩, hHead⟩ := hLegal
      obtain ⟨l, m₁, ys, hCell, hDel, hys, hLists, hLoose, hSome⟩ := h.move hxs hIn hHead
      obtain ⟨m₂, hAdd, hLists'⟩ := hLists.add hys hLoose hSome
      refine ⟨m₂, ?_, ?_⟩
      · simp only [listCall, listMove, hCell, hDel, hAdd, Option.bind_eq_bind, Option.bind_some]
      · rw [Contents.call, change_eq hys]
        exact hLists'
  | moveTail cell source head =>
      obtain ⟨⟨xs, hxs, hIn⟩, hHead⟩ := hLegal
      obtain ⟨l, m₁, ys, hCell, hDel, hys, hLists, hLoose, hSome⟩ := h.move hxs hIn hHead
      obtain ⟨m₂, hAdd, hLists'⟩ := hLists.addTail hys hLoose hSome
      refine ⟨m₂, ?_, ?_⟩
      · simp only [listCall, listMoveTail, hCell, hDel, hAdd, Option.bind_eq_bind,
          Option.bind_some]
      · rw [Contents.call, change_eq hys]
        exact hLists'
  | splice list head =>
      obtain ⟨hNe, hList, hHead⟩ := hLegal
      obtain ⟨ys, hys⟩ := Option.isSome_iff_exists.mp hList
      obtain ⟨xs, hxs⟩ := Option.isSome_iff_exists.mp hHead
      have hEmpty := listEmpty_eq (h.circle hys)
      rw [Contents.call, change_eq hxs, hys, Option.getD_some]
      by_cases hNil : ys = []
      · refine ⟨m, ?_, ?_⟩
        · simp [listCall, listSplice, hEmpty, hNil]
        · rw [if_pos (congrArg some hNil)]
          exact h
      · obtain ⟨m₁, hSplice, hLists, -⟩ := h.splice hxs hys hNe hNil
        rw [Function.update_comm hNe] at hLists
        refine ⟨m₁, ?_, ?_⟩
        · simp [listCall, listSplice, hEmpty, hNil, hSplice]
        · rw [if_neg fun hSame => hNil (Option.some.inj hSame)]
          exact hLists
  | spliceInit list head =>
      obtain ⟨hNe, hList, hHead⟩ := hLegal
      obtain ⟨ys, hys⟩ := Option.isSome_iff_exists.mp hList
      obtain ⟨xs, hxs⟩ := Option.isSome_iff_exists.mp hHead
      have hEmpty := listEmpty_eq (h.circle hys)
      rw [Contents.call, change_eq hxs, hys, Option.getD_some]
      by_cases hNil : ys = []
      · -- nothing is done
        refine ⟨m, ?_, ?_⟩
        · simp [listCall, listSpliceInit, hEmpty, hNil]
        · rw [hNil, List.nil_append, ← hxs, Function.update_eq_self, ← hNil, ← hys,
            Function.update_eq_self]
          exact h
      · obtain ⟨m₁, hSplice, hLists, hAlloc⟩ := h.splice hxs hys hNe hNil
        have hSome : (m₁ list).isSome := by
          rw [hAlloc]
          exact Circle.isSome (h.circle hys) List.mem_cons_self
        obtain ⟨m₂, hInit, hLists', -⟩ := hLists.init (h.loose_head hxs hys hNe) hSome
        rw [Function.update_comm hNe, Function.update_idem] at hLists'
        refine ⟨m₂, ?_, hLists'⟩
        simp [listCall, listSpliceInit, hEmpty, hNil, hSplice, hInit]

/-- The same for a run. -/
theorem listRun_spec (h : Lists m ls) {ops : List ListOp}
    (hLegal : Along listStep Legal (m, ls) ops) : ∃ outs m',
      run listStep (m, ls) ops = some (outs, (m', ops.foldl Contents.call ls)) ∧
      Lists m' (ops.foldl Contents.call ls) := by
  induction ops generalizing m ls with
  | nil => exact ⟨[], m, rfl, h⟩
  | cons op ops ih =>
      obtain ⟨m', hCall, hNext⟩ := listCall_spec h hLegal.head
      have hStep : listStep (m, ls) op = some ((), (m', ls.call op)) := by
        rw [listStep, hCall]
        rfl
      obtain ⟨outs, last, hRun, hLists⟩ := ih hNext (hLegal.tail hStep)
      exact ⟨() :: outs, last, run_cons hStep hRun, hLists⟩

end

/-- The lists after a run of legal calls, from a memory without lists on: each is linked around its
head, no cell is in two of them, and `list_empty` tells which are empty. -/
theorem list_run (m : Links) {ops : List ListOp}
    (hLegal : Along listStep Legal (m, fun _ => none) ops) :
    ∃ outs m' ls, run listStep (m, fun _ => none) ops = some (outs, (m', ls)) ∧
      ls = ops.foldl Contents.call (fun _ => none) ∧
      (∀ head xs, ls head = some xs → Circle (nextOf m') (prevOf m') head xs ∧
        listEmpty m' (some head) = some (decide (xs = []))) ∧
      ∀ h h' xs xs' b, ls h = some xs → ls h' = some xs' → b ∈ h :: xs → b ∈ h' :: xs' →
        h = h' := by
  obtain ⟨outs, m', hRun, hLists⟩ := listRun_spec (noLists m) hLegal
  refine ⟨outs, m', _, hRun, rfl, ?_, fun _ _ _ _ _ => hLists.apart⟩
  intro head xs hHead
  exact ⟨hLists.circle hHead, listEmpty_eq (hLists.circle hHead)⟩

/-- Four cells that are in no list. -/
def fourCells : Links := fun a => if a < 4 then some ⟨none, none⟩ else none

/-- Two cells are put into the list at 0, one of them moves to the list at 1 and comes back with
it, and the other one is taken out. -/
def twoLists : List ListOp :=
  [.init 0, .init 1, .add 2 0, .addTail 3 0, .move 3 0 1, .splice 1 0, .del 2 0]

/-- A cell that is not put into a list stays loose. -/
theorem Loose.update {ls : Contents} {b head : Nat} {xs : List Nat} (h : Loose ls b)
    (hb : b ∉ head :: xs) : Loose (Function.update ls head (some xs)) b := by
  intro h' ys hSome
  by_cases hSame : h' = head
  · rw [hSame, Function.update_self] at hSome
    cases hSome
    exact hSame ▸ hb
  · rw [Function.update_of_ne hSame] at hSome
    exact h h' ys hSome

theorem twoLists_legal : Along listStep Legal (fourCells, fun _ => none) twoLists := by
  have hNone : ∀ b, Loose (fun _ => none) b := fun _ _ _ hSome => nomatch hSome
  refine ⟨⟨hNone 0, rfl⟩, fun _ _ hStep => ?_⟩
  cases hStep
  refine ⟨⟨(hNone 1).update (by decide), rfl⟩, fun _ _ hStep => ?_⟩
  cases hStep
  refine ⟨⟨((hNone 2).update (by decide)).update (by decide), rfl, rfl⟩, fun _ _ hStep => ?_⟩
  cases hStep
  refine ⟨⟨(((hNone 3).update (by decide)).update (by decide)).update (by decide), rfl, rfl⟩,
    fun _ _ hStep => ?_⟩
  cases hStep
  refine ⟨⟨⟨[2, 3], rfl, by decide⟩, rfl⟩, fun _ _ hStep => ?_⟩
  cases hStep
  refine ⟨⟨by decide, rfl, rfl⟩, fun _ _ hStep => ?_⟩
  cases hStep
  exact ⟨⟨[3, 2], rfl, by decide⟩, fun _ _ _ => trivial⟩

/-- The list at 0 is left with the cell 3, and there is no list at 1. -/
theorem list_run_two :
    (∃ outs m' ls, run listStep (fourCells, fun _ => none) twoLists = some (outs, (m', ls)) ∧
      ls = twoLists.foldl Contents.call (fun _ => none) ∧
      (∀ head xs, ls head = some xs → Circle (nextOf m') (prevOf m') head xs ∧
        listEmpty m' (some head) = some (decide (xs = []))) ∧
      ∀ h h' xs xs' b, ls h = some xs → ls h' = some xs' → b ∈ h :: xs → b ∈ h' :: xs' →
        h = h') ∧
      twoLists.foldl Contents.call (fun _ => none) 0 = some [3] ∧
      twoLists.foldl Contents.call (fun _ => none) 1 = none :=
  ⟨list_run fourCells twoLists_legal, rfl, rfl⟩

end Gbase.Base.ListHead
