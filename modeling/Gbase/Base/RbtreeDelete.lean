import Gbase.Base.RbtreeInsert

/-!
# Deletion from the red-black tree

The tree in memory is described by its shape `t` at a position and the frames `fs` above it, so that
a rotation is a rewriting of the innermost frames.  The lemmas of the first half follow the branches
of `_rbtree_delete_adjust`, one for each of its cases, for both sides at once; `TurnLeaves` is what
they have in common, and the loop is then a single induction.  The second half is about taking the
node out.

## Main results

* `rbtreeDeleteAdjust_spec`: the loop ends, and leaves a balanced tree.
* `rbtreeDelete_spec`: deletion takes out the element that compares equal, and no other.
-/

namespace Gbase.Base.Rbtree

open Gbase.Lib.Comparator
open Gbase.Lib.RedBlack
open Gbase.Lib.RedBlack.ColorTree
open Gbase.Lib.Store

variable {α : Type}

section Turn

variable {tree : RbtreeT α} {f : Frame (Nat × α)} {fs : List (Frame (Nat × α))}
  {t near far : ColorTree (Nat × α)} {w : Nat × α} {rest : Multiset (Nat × NodeT α)}

/-- The brother, seen from its parent. -/
theorem Repr.brother (h : Repr tree (f :: fs) t rest) {c : Color}
    (hSib : f.sib = branch f.side c near w far) :
    Repr tree (⟨f.side.flip, f.color, f.x, t⟩ :: fs) (branch f.side c near w far) rest := by
  rw [← hSib]
  exact repr_sib.mp h

/-- The outer child of the brother red: the brother is rotated up, and the loop is over. -/
theorem deleteAdjustOuter_spec (h : Repr tree (f :: fs) t rest)
    (hSib : f.sib = branch f.side .black near w far) (hFar : far.rootColor = .red) :
    ∃ tree', deleteAdjustOuter f.side tree (some f.x.1) (some w.1) =
        some (tree', tree'.root, some f.x.1) ∧
      Repr tree' fs (branch f.side f.color (branch f.side .black t f.x near) w far.blacken)
        rest := by
  obtain ⟨_, u, _, hRed⟩ := exists_red_branch f.side hFar
  have hPtr : ptr far = some u.1 := by rw [hRed, ptr_branch]
  obtain ⟨tree₁, hSet₁, h₁⟩ := (h.brother hSib).setColor f.color
  obtain ⟨tree₂, hSet₂, h₂⟩ := (repr_plug.mpr h₁).setColor .black
  have hW : Repr tree₂ (⟨f.side.flip, .black, f.x, t⟩ :: fs) (branch f.side f.color near w far)
      rest := repr_plug.mp h₂
  have hOuter : Repr tree₂ (⟨f.side.flip, f.color, w, near⟩ :: ⟨f.side.flip, .black, f.x, t⟩ :: fs)
      far rest := by
    rw [← branch_flip] at hW
    exact repr_plug.mp hW
  obtain ⟨tree₃, hSet₃, h₃⟩ := hOuter.blacken hPtr
  have hRotate : Repr tree₃ fs (branch f.side .black t f.x
      (branch f.side f.color near w far.blacken)) rest := by
    have hUp := repr_plug.mpr (repr_plug.mpr h₃)
    rwa [Frame.plug, Frame.plug, branch_flip, branch_flip] at hUp
  obtain ⟨tree₄, hRot, h₄⟩ := rbtreeRot_spec hRotate
  refine ⟨tree₄, ?_, h₄⟩
  simp only [deleteAdjustOuter, h.parent, record_color, hSet₁, hSet₂, hW.node, record_child_flip,
    hSet₃, hRot, Option.bind_eq_bind, Option.bind_some]
  rfl

/-- Both children of a node black. -/
theorem bothBlack_spec {s : Side} {c : Color} (h : Repr tree fs (branch s c near w far) rest)
    (p : Option Nat) (d : α) (e : Color) :
    tree.bothBlack (record s p (ptr near) (ptr far) d e) =
      some (decide (near.rootColor = .black ∧ far.rootColor = .black)) := by
  have hNear : Repr tree (⟨s, c, w, far⟩ :: fs) near rest := repr_plug.mp h
  have hFar : Repr tree (⟨s.flip, c, w, near⟩ :: fs) far rest := by
    rw [← branch_flip] at h
    exact repr_plug.mp h
  have hN := hNear.isBlack
  have hF := hFar.isBlack
  cases s with
  | left =>
      by_cases hB : near.rootColor = .black
      · simp [RbtreeT.bothBlack, record, hN, hF, hB]
      · simp [RbtreeT.bothBlack, record, hN, hB]
  | right =>
      by_cases hB : far.rootColor = .black
      · simp [RbtreeT.bothBlack, record, hN, hF, hB]
      · simp [RbtreeT.bothBlack, record, hF, hB]

/-- A black brother with black children. -/
theorem deleteAdjustBlack_recolor (h : Repr tree (f :: fs) t rest)
    (hSib : f.sib = branch f.side .black near w far) (hNear : near.rootColor = .black)
    (hFar : far.rootColor = .black) :
    ∃ tree', deleteAdjustBlack f.side tree (some f.x.1) (some w.1) =
        some (tree', some f.x.1, ctxParent fs) ∧
      Repr tree' fs (branch f.side f.color t f.x (branch f.side .red near w far)) rest := by
  have hBrother := h.brother hSib
  obtain ⟨tree₁, hSet₁, h₁⟩ := hBrother.setColor .red
  have hUp : Repr tree₁ fs (branch f.side f.color t f.x (branch f.side .red near w far)) rest := by
    have hPlug := repr_plug.mpr h₁
    rwa [Frame.plug, branch_flip] at hPlug
  refine ⟨tree₁, ?_, hUp⟩
  simp only [deleteAdjustBlack, hBrother.node, bothBlack_spec hBrother, hNear, hFar, and_self,
    decide_true, if_true, hSet₁, hUp.node, record_parent, Option.bind_eq_bind, Option.bind_some]
  rfl

/-- A black brother with a red child on the outer side. -/
theorem deleteAdjustBlack_outer (h : Repr tree (f :: fs) t rest)
    (hSib : f.sib = branch f.side .black near w far) (hFar : far.rootColor = .red) :
    deleteAdjustBlack f.side tree (some f.x.1) (some w.1) =
      deleteAdjustOuter f.side tree (some f.x.1) (some w.1) := by
  have hBrother := h.brother hSib
  have hOuter : Repr tree (⟨f.side.flip, .black, w, near⟩ :: ⟨f.side.flip, f.color, f.x, t⟩ :: fs)
      far rest := by
    rw [← branch_flip] at hBrother
    exact repr_plug.mp hBrother
  simp only [deleteAdjustBlack, hBrother.node, bothBlack_spec hBrother, hFar, and_false,
    decide_false, Bool.false_eq_true, if_false, record_child_flip, hOuter.isBlack,
    Option.bind_eq_bind, Option.bind_some, reduceCtorEq]

/-- A black brother with its only red child on the inner side: that child is rotated up and
becomes the brother. -/
theorem deleteAdjustBlack_inner {near' far' : ColorTree (Nat × α)} {v : Nat × α}
    (h : Repr tree (f :: fs) t rest)
    (hSib : f.sib = branch f.side .black (branch f.side .red near' v far') w far)
    (hFar : far.rootColor = .black) :
    ∃ tree', deleteAdjustBlack f.side tree (some f.x.1) (some w.1) =
        deleteAdjustOuter f.side tree' (some f.x.1) (some v.1) ∧
      Repr tree' (⟨f.side, f.color, f.x,
        branch f.side .black near' v (branch f.side .red far' w far)⟩ :: fs) t rest := by
  have hBrother := h.brother hSib
  have hOuter : Repr tree (⟨f.side.flip, .black, w, branch f.side .red near' v far'⟩ ::
      ⟨f.side.flip, f.color, f.x, t⟩ :: fs) far rest := by
    rw [← branch_flip] at hBrother
    exact repr_plug.mp hBrother
  have hInner : Repr tree (⟨f.side, .black, w, far⟩ :: ⟨f.side.flip, f.color, f.x, t⟩ :: fs)
      (branch f.side .red near' v far') rest := repr_plug.mp hBrother
  obtain ⟨tree₁, hSet₁, h₁⟩ := hInner.setColor .black
  obtain ⟨tree₂, hSet₂, h₂⟩ := (repr_plug.mpr h₁).setColor .red
  have hRotate : Repr tree₂ (⟨f.side.flip, f.color, f.x, t⟩ :: fs)
      (branch f.side.flip .red far w (branch f.side.flip .black far' v near')) rest := by
    rw [branch_flip, branch_flip]
    exact h₂
  obtain ⟨tree₃, hRot, h₃⟩ := rbtreeRot_spec hRotate
  have hUp : Repr tree₃ (⟨f.side, f.color, f.x,
      branch f.side .black near' v (branch f.side .red far' w far)⟩ :: fs) t rest := by
    rw [branch_flip, branch_flip] at h₃
    have hSibling := repr_sib.mp h₃
    rwa [Side.flip_flip] at hSibling
  have hBoth := fun p => bothBlack_spec hBrother p w.2 .black
  simp only [ptr_branch] at hBoth
  refine ⟨tree₃, ?_, hUp⟩
  simp only [deleteAdjustBlack, hBrother.node, hBoth, hFar, rootColor_branch, reduceCtorEq,
    false_and, decide_false, Bool.false_eq_true, if_false, record_child_flip,
    hOuter.isBlack, decide_true, if_true, record_child, ptr_branch, hSet₁, hSet₂, hRot,
    hUp.parent, Option.bind_eq_bind, Option.bind_some]

/-- A red brother: it is rotated up, and its inner child becomes the brother. -/
theorem deleteAdjustTurn_red (h : Repr tree (f :: fs) t rest)
    (hSib : f.sib = branch f.side .red near w far) :
    ∃ tree', deleteAdjustTurn f.side tree (some f.x.1) =
        deleteAdjustBlack f.side tree' (some f.x.1) (ptr near) ∧
      Repr tree' (⟨f.side, .red, f.x, near⟩ :: ⟨f.side, .black, w, far⟩ :: fs) t rest := by
  have hBrother := h.brother hSib
  obtain ⟨tree₁, hSet₁, h₁⟩ := hBrother.setColor .black
  obtain ⟨tree₂, hSet₂, h₂⟩ := (repr_plug.mpr h₁).setColor .red
  have hRotate : Repr tree₂ fs (branch f.side .red t f.x (branch f.side .black near w far))
      rest := by
    rwa [branch_flip] at h₂
  obtain ⟨tree₃, hRot, h₃⟩ := rbtreeRot_spec hRotate
  have hDown : Repr tree₃ (⟨f.side, .red, f.x, near⟩ :: ⟨f.side, .black, w, far⟩ :: fs) t rest :=
    repr_plug.mp (repr_plug.mp h₃)
  refine ⟨tree₃, ?_, hDown⟩
  simp only [deleteAdjustTurn, h.parent, record_child_flip, hSib, ptr_branch, hBrother.node,
    record_color, if_true, hSet₁, hSet₂, hRot, hDown.parent, Option.bind_eq_bind,
    Option.bind_some]

private theorem deleteAdjustTurn_black (h : Repr tree (f :: fs) t rest)
    (hSib : f.sib = branch f.side .black near w far) :
    deleteAdjustTurn f.side tree (some f.x.1) =
      deleteAdjustBlack f.side tree (some f.x.1) (some w.1) := by
  simp only [deleteAdjustTurn, h.parent, record_child_flip, hSib, ptr_branch,
    (h.brother hSib).node, record_color, reduceCtorEq, if_false, Option.bind_eq_bind,
    Option.bind_some]

end Turn

/-- What a turn leaves: the shortage one level up, or at the root a tree that only its root
can still be wrong of. -/
structure TurnLeaves (tree' : RbtreeT α) (x parent : Option Nat) (f : Frame (Nat × α))
    (fs : List (Frame (Nat × α))) (t : ColorTree (Nat × α)) (rest : Multiset (Nat × NodeT α))
    (gs : List (Frame (Nat × α))) (t' : ColorTree (Nat × α)) : Prop where
  x_eq : x = ptr t'
  repr : Repr tree' gs t' rest
  contents : (zip gs t').toList = (zip (f :: fs) t).toList
  shorter : (parent = ctxParent gs ∧ gs = fs ∧ DeleteInv gs t' ∧
      (f.color = .red → t'.rootColor = .red)) ∨
    (gs = [] ∧ ∃ m, Balanced t'.blacken .black m)

section Loop

variable {tree : RbtreeT α} {f : Frame (Nat × α)} {fs : List (Frame (Nat × α))}
  {t near far : ColorTree (Nat × α)} {w : Nat × α} {rest : Multiset (Nat × NodeT α)}

theorem deleteAdjustOuter_leaves (h : Repr tree (f :: fs) t rest) (hBlack : t.rootColor = .black)
    (hInv : DeleteInv (f :: fs) t) (hSib : f.sib = branch f.side .black near w far)
    (hFar : far.rootColor = .red) :
    ∃ tree' x p gs t', deleteAdjustOuter f.side tree (some f.x.1) (some w.1) =
        some (tree', x, p) ∧ TurnLeaves tree' x p f fs t rest gs t' := by
  obtain ⟨tree', hRun, h'⟩ := deleteAdjustOuter_spec h hSib hFar
  obtain ⟨m, hBal⟩ := hInv.outer hBlack hSib hFar
  have hTop := repr_zip.mpr (show Repr tree' (fs ++ []) _ rest by simpa using h')
  refine ⟨tree', _, _, [], _, hRun, hTop.root, hTop, ?_, Or.inr ⟨rfl, m, ?_⟩⟩
  · refine @toList_zip_congr _ fs _ _ ?_
    rw [toList_rotate f.side .black f.color, Frame.plug, hSib]
    exact toList_branch_congr rfl (toList_branch_congr rfl (toList_blacken far))
  · rwa [hBal.blacken_eq]

theorem deleteAdjustBlack_leaves (h : Repr tree (f :: fs) t rest) (hBlack : t.rootColor = .black)
    (hInv : DeleteInv (f :: fs) t) (hSib : f.sib = branch f.side .black near w far) :
    ∃ tree' x p gs t', deleteAdjustBlack f.side tree (some f.x.1) (some w.1) =
        some (tree', x, p) ∧ TurnLeaves tree' x p f fs t rest gs t' := by
  cases hFar : far.rootColor with
  | red =>
      rw [deleteAdjustBlack_outer h hSib hFar]
      exact deleteAdjustOuter_leaves h hBlack hInv hSib hFar
  | black =>
      cases hNear : near.rootColor with
      | black =>
          obtain ⟨tree', hRun, h'⟩ := deleteAdjustBlack_recolor h hSib hNear hFar
          refine ⟨tree', _, _, fs, _, hRun, by rw [ptr_branch], h', ?_, Or.inl ⟨rfl, rfl,
            hInv.recolor hBlack hSib hNear hFar, fun hf => by rw [rootColor_branch, hf]⟩⟩
          refine @toList_zip_congr _ fs _ _ ?_
          rw [Frame.plug, hSib]
          exact toList_branch_congr rfl (toList_branch_congr rfl rfl)
      | red =>
          obtain ⟨near', v, far', rfl⟩ := exists_red_branch f.side hNear
          obtain ⟨tree₁, hRun, h₁⟩ := deleteAdjustBlack_inner h hSib hFar
          rw [hRun]
          obtain ⟨tree', x, p, gs, t', hRun', hLeaves⟩ :=
            deleteAdjustOuter_leaves h₁ hBlack (hInv.inner hBlack hSib hFar) rfl
              (rootColor_branch ..)
          refine ⟨tree', x, p, gs, t', hRun', hLeaves.x_eq, hLeaves.repr, ?_, hLeaves.shorter⟩
          rw [hLeaves.contents]
          refine @toList_zip_congr _ fs _ _ ?_
          rw [Frame.plug, Frame.plug, hSib]
          exact toList_branch_congr rfl (toList_rotate ..).symm

/-- One turn of the loop, whatever the colour of the brother. -/
theorem deleteAdjustTurn_leaves (h : Repr tree (f :: fs) t rest) (hBlack : t.rootColor = .black)
    (hInv : DeleteInv (f :: fs) t) :
    ∃ tree' x p gs t', deleteAdjustTurn f.side tree (some f.x.1) = some (tree', x, p) ∧
      Repr tree' gs t' rest ∧ x = ptr t' ∧ (zip gs t').toList = (zip (f :: fs) t).toList ∧
      ((p = ctxParent gs ∧ DeleteInv gs t' ∧ (t'.rootColor = .red ∨ gs = fs)) ∨
        (gs = [] ∧ ∃ m, Balanced t'.blacken .black m)) := by
  cases hNil : f.sib with
  | nil => exact absurd hNil hInv.sibling
  | node c l w r =>
      obtain ⟨near, far, hEq⟩ := exists_branch f.side c l w r
      rw [hEq] at hNil
      cases c with
      | black =>
          rw [deleteAdjustTurn_black h hNil]
          obtain ⟨tree', x, p, gs, t', hRun, hX, hRepr, hList, hShort⟩ :=
            deleteAdjustBlack_leaves h hBlack hInv hNil
          refine ⟨tree', x, p, gs, t', hRun, hRepr, hX, hList, ?_⟩
          rcases hShort with ⟨hp, hgs, hInv', -⟩ | hEnd
          · exact Or.inl ⟨hp, hInv', Or.inr hgs⟩
          · exact Or.inr hEnd
      | red =>
          obtain ⟨tree₁, hRun₁, h₁⟩ := deleteAdjustTurn_red h hNil
          obtain ⟨hNearBlack, hInv₁⟩ := hInv.redSibling hBlack hNil
          rw [hRun₁]
          have hSame :
              (zip (⟨f.side, .red, f.x, near⟩ :: ⟨f.side, .black, w, far⟩ :: fs) t).toList =
              (zip (f :: fs) t).toList := by
            refine @toList_zip_congr _ fs _ _ ?_
            rw [Frame.plug, Frame.plug, Frame.plug, hNil]
            exact toList_rotate ..
          cases hNear : near with
          | nil => exact absurd hNear hInv₁.sibling
          | node d l' v r' =>
              obtain ⟨near', far', hEq'⟩ := exists_branch f.side d l' v r'
              obtain rfl : d = .black := by
                rw [hNear] at hNearBlack
                exact hNearBlack
              rw [hNear, hEq'] at h₁ hInv₁ hSame
              rw [hEq', ptr_branch]
              obtain ⟨tree', x, p, gs, t', hRun, hX, hRepr, hList, hShort⟩ :=
                deleteAdjustBlack_leaves h₁ hBlack hInv₁ rfl
              refine ⟨tree', x, p, gs, t', hRun, hRepr, hX, by rw [hList, hSame], ?_⟩
              rcases hShort with ⟨hp, -, hInv', hRed⟩ | hEnd
              · exact Or.inl ⟨hp, hInv', Or.inl (hRed rfl)⟩
              · exact Or.inr hEnd

/-- The position is not its own brother. -/
theorem Repr.ptr_ne (h : Repr tree (f :: fs) t rest) (hSib : f.sib ≠ .nil) :
    ptr t ≠ ptr f.sib := by
  cases hPtr : ptr t with
  | none =>
      intro hEq
      exact hSib (ptr_eq_none.mp hEq.symm)
  | some a =>
      intro hEq
      have hSide := h.side hPtr none f.side.flip
      rw [record_child_flip] at hSide
      exact Side.flip_ne f.side (hSide.mp hEq).symm

/-- A position below a parent is not the root. -/
theorem Repr.ptr_ne_root (h : Repr tree (f :: fs) t rest) : ptr t ≠ tree.root := by
  cases hPtr : ptr t with
  | none =>
      obtain ⟨a, n, hEq, -⟩ := ctxRoot_mem fs f (ptr t)
      rw [h.root, hEq]
      exact (Option.some_ne_none a).symm
  | some a => exact h.ne_root hPtr

/-- A turn of the loop below a black node: it finds the side the position is on. -/
theorem deleteAdjustLoop_turn {tree tree₁ : RbtreeT α} {f : Frame (Nat × α)}
    {fs : List (Frame (Nat × α))} {t : ColorTree (Nat × α)} {x p : Option Nat}
    (h : Repr tree (f :: fs) t rest) (hColor : t.rootColor = .black) (hSib : f.sib ≠ .nil)
    (hTurn : deleteAdjustTurn f.side tree (ctxParent (f :: fs)) = some (tree₁, x, p))
    (fuel : Nat) :
    deleteAdjustLoop (fuel + 1) tree (ptr t) (ctxParent (f :: fs)) =
      deleteAdjustLoop fuel tree₁ x p := by
  have hNe := h.ptr_ne hSib
  have hSome : (ptr f.sib).isSome := by
    rw [Option.isSome_iff_ne_none]
    exact fun hEq => hSib (ptr_eq_none.mp hEq)
  rw [deleteAdjustLoop, if_neg h.ptr_ne_root, h.isBlack, hColor]
  rw [ctxParent] at hTurn ⊢
  simp only [decide_true, if_true, h.parent, Option.bind_eq_bind, Option.bind_some]
  cases hSide : f.side with
  | left =>
      rw [hSide] at hTurn
      simp only [record, hSome, and_self, if_true, hTurn, Option.bind_some]
  | right =>
      rw [hSide] at hTurn
      simp only [record, hNe, hSome, false_and, and_self, if_false, if_true, hTurn,
        Option.bind_some]

/-- The loop of `_rbtree_delete_adjust` ends, and only the colour of the position is left to
set.  Each turn moves the shortage up, or ends with a red position or at the root. -/
theorem deleteAdjustLoop_spec (fuel : Nat) :
    ∀ {tree : RbtreeT α} {fs : List (Frame (Nat × α))} {t : ColorTree (Nat × α)},
      Repr tree fs t rest → DeleteInv fs t →
      (if t.rootColor = .red then 0 else fs.length) < fuel →
      ∃ tree' gs t', deleteAdjustLoop fuel tree (ptr t) (ctxParent fs) = some (tree', ptr t') ∧
        Repr tree' gs t' rest ∧ (zip gs t').toList = (zip fs t).toList ∧
        ∃ m, Balanced (zip gs t'.blacken) .black m := by
  induction fuel with
  | zero =>
      intro tree fs t _ _ hFuel
      exact absurd hFuel (Nat.not_lt_zero _)
  | succ fuel ih =>
      intro tree fs t h hInv hFuel
      cases fs with
      | nil =>
          refine ⟨tree, [], t, ?_, h, rfl, hInv.done (Or.inl rfl)⟩
          rw [deleteAdjustLoop, if_pos (show ptr t = tree.root from h.root.symm)]
      | cons f fs =>
          cases hColor : t.rootColor with
          | red =>
              refine ⟨tree, f :: fs, t, ?_, h, rfl, hInv.done (Or.inr hColor)⟩
              rw [deleteAdjustLoop, if_neg h.ptr_ne_root, h.isBlack, hColor]
              simp
          | black =>
              obtain ⟨tree₁, x, p, gs, t₁, hTurn, h₁, hX, hList, hShort⟩ :=
                deleteAdjustTurn_leaves h hColor hInv
              simp only [hColor, reduceCtorEq, if_false, List.length_cons] at hFuel
              rw [deleteAdjustLoop_turn h hColor hInv.sibling hTurn, hX, ← hList]
              rcases hShort with ⟨rfl, hInv₁, hMeasure⟩ | ⟨rfl, m, hBal⟩
              · apply ih h₁ hInv₁
                rcases hMeasure with hRed | rfl
                · rw [if_pos hRed]
                  omega
                · split <;> omega
              · obtain ⟨fuel, rfl⟩ := Nat.exists_eq_succ_of_ne_zero (by omega : fuel ≠ 0)
                refine ⟨tree₁, [], t₁, ?_, h₁, rfl, m, hBal⟩
                rw [deleteAdjustLoop, if_pos (show ptr t₁ = tree₁.root from h₁.root.symm)]

end Loop

/-- `_rbtree_delete_adjust` leaves a balanced tree with the same contents. -/
theorem rbtreeDeleteAdjust_spec {tree : RbtreeT α} {fs : List (Frame (Nat × α))}
    {t : ColorTree (Nat × α)} {rest : Multiset (Nat × NodeT α)} (h : Repr tree fs t rest)
    (hInv : DeleteInv fs t) {fuel : Nat} (hFuel : fs.length < fuel) :
    ∃ tree' t', rbtreeDeleteAdjust fuel tree (ptr t) (ctxParent fs) = some tree' ∧
      Repr tree' [] t' rest ∧ t'.toList = (zip fs t).toList ∧ ∃ m, Balanced t' .black m := by
  obtain ⟨tree₁, gs, t₁, hLoop, h₁, hList, hBal⟩ :=
    deleteAdjustLoop_spec fuel h hInv (by split <;> omega)
  have hSame : (zip gs t₁.blacken).toList = (zip fs t).toList := by
    rw [← hList]
    exact toList_zip_congr (toList_blacken t₁)
  have hTop : ∀ {tree' : RbtreeT α}, Repr tree' gs t₁.blacken rest →
      Repr tree' [] (zip gs t₁.blacken) rest := fun h' => repr_zip.mpr (by simpa using h')
  simp only [rbtreeDeleteAdjust, hLoop, Option.bind_eq_bind, Option.bind_some]
  cases hPtr : ptr t₁ with
  | none =>
      have hNil : t₁ = .nil := ptr_eq_none.mp hPtr
      subst hNil
      exact ⟨tree₁, _, rfl, hTop h₁, hSame, hBal⟩
  | some a =>
      obtain ⟨tree₂, hSet, h₂⟩ := h₁.blacken hPtr
      rw [hPtr] at hSet
      exact ⟨tree₂, _, hSet, hTop h₂, hSame, hBal⟩

/-! ## Taking a node out -/

section Unlink

variable {tree : RbtreeT α} {f : Frame (Nat × α)} {fs : List (Frame (Nat × α))}
  {s : Side} {c : Color} {x : Nat × α} {t : ColorTree (Nat × α)} {rest : Multiset (Nat × NodeT α)}

/-- The parent of the position gets another child there. -/
theorem setHole_spec {m : Multiset (Nat × NodeT α)} {p : Option Nat}
    (h : Holds tree.mem (ctxCells (f :: fs) p + m)) (q : Option Nat) :
    ∃ tree', (tree.set (some f.x.1) fun n => n.setChild f.side q) = some tree' ∧
      tree'.root = tree.root ∧ Holds tree'.mem (ctxCells (f :: fs) q + m) := by
  obtain ⟨tree', hSet, hRoot, hHolds⟩ := set_spec (a := f.x.1)
    (n := record f.side (ctxParent fs) p (ptr f.sib) f.x.2 f.color)
    (m := cells (some f.x.1) f.sib + ctxCells fs (some f.x.1) + m) h
    (by rw [ctxCells]; abel) fun n => n.setChild f.side q
  rw [record_setChild] at hHolds
  refine ⟨tree', hSet, hRoot, ?_⟩
  convert hHolds using 1
  rw [ctxCells]
  abel

/-- The only child of a node takes its place; the node itself is not in the tree any more,
but still in memory. -/
theorem Repr.unlink (h : Repr tree (f :: fs) (branch s c .nil x t) rest) :
    ∃ tree', (tree.set (some f.x.1) fun n => n.setChild f.side (ptr t)).bind (fun tree =>
        if (ptr t).isSome then tree.set (ptr t) fun n => n.setParent (some f.x.1)
        else some tree) = some tree' ∧
      Repr tree' (f :: fs) t
        ({(x.1, record s (some f.x.1) none (ptr t) x.2 c)} + rest) := by
  have hHolds := h.holds
  rw [cells_branch, ptr_branch, cells_nil, zero_add, ptr_nil] at hHolds
  obtain ⟨tree₁, hSet₁, hRoot₁, hHolds₁⟩ := setHole_spec hHolds (ptr t)
  obtain ⟨tree₂, hSet₂, hRoot₂, hHolds₂⟩ := setParent_spec (t := t) (p := some x.1)
    (m := ctxCells (f :: fs) (ptr t) +
      ({(x.1, record s (some f.x.1) none (ptr t) x.2 c)} + rest)) hHolds₁
    (by simp only [ctxParent]; abel) (some f.x.1)
  refine ⟨tree₂, by rw [hSet₁]; exact hSet₂, ?_, ?_⟩
  · rw [hRoot₂, hRoot₁]
    exact h.root
  · convert hHolds₂ using 1
    simp only [ctxParent]
    abel

/-- The same with the two stores in the other order. -/
theorem Repr.unlink_child_first (h : Repr tree (f :: fs) (branch s c .nil x t) rest) :
    ∃ tree₁ tree', (if (ptr t).isSome then tree.set (ptr t) fun n => n.setParent (some f.x.1)
        else some tree) = some tree₁ ∧
      tree₁.node (some f.x.1) =
        some (record f.side (ctxParent fs) (some x.1) (ptr f.sib) f.x.2 f.color) ∧
      (tree₁.set (some f.x.1) fun n => n.setChild f.side (ptr t)) = some tree' ∧
      Repr tree' (f :: fs) t
        ({(x.1, record s (some f.x.1) none (ptr t) x.2 c)} + rest) := by
  have hHolds := h.holds
  rw [cells_branch, ptr_branch, cells_nil, zero_add, ptr_nil] at hHolds
  obtain ⟨tree₁, hSet₁, hRoot₁, hHolds₁⟩ := setParent_spec (t := t) (p := some x.1)
    (m := ctxCells (f :: fs) (some x.1) +
      ({(x.1, record s (some f.x.1) none (ptr t) x.2 c)} + rest)) hHolds
    (by simp only [ctxParent]; abel) (some f.x.1)
  have hNode : tree₁.node (some f.x.1) =
      some (record f.side (ctxParent fs) (some x.1) (ptr f.sib) f.x.2 f.color) := by
    apply node_spec hHolds₁
    simp [ctxCells]
  rw [add_left_comm] at hHolds₁
  obtain ⟨tree₂, hSet₂, hRoot₂, hHolds₂⟩ := setHole_spec hHolds₁ (ptr t)
  refine ⟨tree₁, tree₂, hSet₁, hNode, hSet₂, ?_, hHolds₂⟩
  rw [hRoot₂, hRoot₁]
  exact h.root

/-- New data in the node at the position. -/
theorem Repr.setData {near far : ColorTree (Nat × α)}
    (h : Repr tree fs (branch s c near x far) rest)
    (d : α) :
    ∃ tree', (tree.set (some x.1) fun n => { n with data := d }) = some tree' ∧
      Repr tree' fs (branch s c near (x.1, d) far) rest := by
  have hHolds := h.holds
  rw [cells_branch, ptr_branch] at hHolds
  obtain ⟨tree', hSet, hRoot, hHolds'⟩ := set_spec (a := x.1)
    (n := record s (ctxParent fs) (ptr near) (ptr far) x.2 c)
    (m := ctxCells fs (some x.1) + (cells (some x.1) near + (cells (some x.1) far + rest)))
    hHolds (by abel) fun n => { n with data := d }
  have hData : ({ record s (ctxParent fs) (ptr near) (ptr far) x.2 c with data := d } : NodeT α) =
      record s (ctxParent fs) (ptr near) (ptr far) d c := by
    cases s <;> rfl
  rw [hData] at hHolds'
  refine ⟨tree', hSet, ?_, ?_⟩
  · rw [hRoot, h.root, ptr_branch, ptr_branch]
  · rw [cells_branch, ptr_branch]
    convert hHolds' using 1
    abel

/-- The end of a deletion: the repair after taking out a black node, and giving the node
back. -/
theorem release_spec {a : Nat} {n : NodeT α} (h : Repr tree fs t ({(a, n)} + rest))
    (hRed : c = .red → ∃ m, Balanced (zip fs t) .black m)
    (hBlack : c = .black → DeleteInv fs t) {fuel : Nat} (hFuel : fs.length < fuel) :
    ∃ tree' t', (if c = .black then rbtreeDeleteAdjust fuel tree (ptr t) (ctxParent fs)
        else some tree).bind (fun tree => tree.free (some a)) = some tree' ∧
      Repr tree' [] t' rest ∧ t'.toList = (zip fs t).toList ∧ ∃ m, Balanced t' .black m := by
  have hFree : ∀ {tree₁ : RbtreeT α} {t₁ : ColorTree (Nat × α)},
      Repr tree₁ [] t₁ ({(a, n)} + rest) →
      ∃ tree', tree₁.free (some a) = some tree' ∧ Repr tree' [] t₁ rest := by
    intro tree₁ t₁ h₁
    obtain ⟨tree', hRun, hRoot, hHolds⟩ := free_spec
      (m := ctxCells [] (ptr t₁) + (cells (ctxParent []) t₁ + rest)) (a := a) (n := n)
      h₁.holds (by abel)
    exact ⟨tree', hRun, by rw [hRoot, h₁.root], hHolds⟩
  cases c with
  | red =>
      obtain ⟨tree', hRun, h'⟩ := hFree (repr_zip.mpr (by simpa using h))
      exact ⟨tree', zip fs t, hRun, h', rfl, hRed rfl⟩
  | black =>
      obtain ⟨tree₁, t₁, hAdjust, h₁, hList, hBal⟩ := rbtreeDeleteAdjust_spec h (hBlack rfl) hFuel
      obtain ⟨tree', hRun, h'⟩ := hFree h₁
      refine ⟨tree', t₁, ?_, h', hList, hBal⟩
      rw [if_pos rfl, hAdjust]
      exact hRun

end Unlink

/-! ## The three cases of `_rbtree_delete_node` -/

section Cases

variable {tree : RbtreeT α} {f : Frame (Nat × α)} {fs : List (Frame (Nat × α))} {c : Color}
  {x : Nat × α} {l r : ColorTree (Nat × α)} {rest : Multiset (Nat × NodeT α)} {m fuel : Nat}

/-- The node at the position, its fields by name. -/
theorem Repr.fields (h : Repr tree fs (.node c l x r) rest) :
    tree.node (some x.1) = some { parent := ctxParent fs, left := ptr l, right := ptr r,
                                  data := x.2, color := c } :=
  @Repr.node _ tree fs l r .left c x rest h

/-- A leaf below a parent. -/
theorem deleteNode_leaf (h : Repr tree (f :: fs) (.node c .nil x .nil) rest)
    (hBal : Balanced (zip (f :: fs) (.node c .nil x .nil)) .black m)
    (hFuel : fs.length + 1 < fuel) :
    ∃ tree' t', rbtreeDeleteNode fuel tree (some x.1) = some tree' ∧ Repr tree' [] t' rest ∧
      t'.toList = (zip (f :: fs) (.nil : ColorTree (Nat × α))).toList ∧
      ∃ m, Balanced t' .black m := by
  have hBranch : Repr tree (f :: fs) (branch .left c .nil x .nil) rest := h
  obtain ⟨tree₁, hUnlink, h₁⟩ := hBranch.unlink
  obtain ⟨hRed, hBlack⟩ := @removal _ (f :: fs) .left c x .nil m hBal
  obtain ⟨tree', t', hRelease, hDone⟩ := release_spec h₁ hRed hBlack hFuel
  refine ⟨tree', t', ?_, hDone⟩
  have hRoot : tree.root ≠ some x.1 := (h.ne_root rfl).symm
  have hSide := h.side rfl (ctxParent fs) .right
  have hSet : (if (record f.side (ctxParent fs) (some x.1) (ptr f.sib) f.x.2 f.color).right =
        some x.1 then tree.set (some f.x.1) fun n => n.setChild .right none
      else tree.set (some f.x.1) fun n => n.setChild .left none) = some tree₁ := by
    change some x.1 = NodeT.right _ ↔ _ at hSide
    simp only [ptr_nil, Option.isSome_none, Bool.false_eq_true, if_false, Option.bind_fun_some]
      at hUnlink
    cases hf : f.side with
    | left =>
        rw [hf] at hUnlink hSide
        rw [if_neg (fun hEq => by cases hSide.mp hEq.symm), hUnlink]
    | right =>
        rw [hf] at hUnlink hSide
        rw [if_pos (hSide.mpr rfl).symm, hUnlink]
  simp only [ptr_nil, ctxParent_cons] at hRelease
  simp only [rbtreeDeleteNode, h.fields, ptr_nil, Option.isNone_none, and_self, if_true, hRoot,
    if_false, ctxParent_cons, h.parent, ptr_node, hSet, Option.bind_eq_bind, Option.bind_some]
  exact hRelease

/-- The only node of the tree. -/
theorem deleteNode_last (h : Repr tree [] (.node c .nil x .nil) rest) (fuel : Nat) :
    ∃ tree', rbtreeDeleteNode fuel tree (some x.1) = some tree' ∧ Repr tree' [] .nil rest := by
  have hRoot : tree.root = some x.1 := h.root
  have hHolds : Holds tree.mem ({(x.1, record .left none none none x.2 c)} + rest) := by
    have hCells := h.holds
    simpa [ctxCells, cells, ctxParent] using hCells
  obtain ⟨tree', hFree, -, hHolds'⟩ := free_spec hHolds rfl
  refine ⟨{ tree' with root := none }, ?_, rfl, ?_⟩
  · simp only [rbtreeDeleteNode, h.fields, ptr_nil, Option.isNone_none, and_self, if_true, hRoot,
      hFree, Option.bind_eq_bind, Option.bind_some]
    rfl
  · simpa [ctxCells] using hHolds'

/-- A node with one child below a parent; the child is on side `s.flip`. -/
theorem deleteNode_one {s : Side} {t : ColorTree (Nat × α)}
    (h : Repr tree (f :: fs) (branch s c .nil x t) rest) (hT : t ≠ .nil)
    (hBal : Balanced (zip (f :: fs) (branch s c .nil x t)) .black m)
    (hFuel : fs.length + 1 < fuel) :
    ∃ tree' t', rbtreeDeleteNode fuel tree (some x.1) = some tree' ∧ Repr tree' [] t' rest ∧
      t'.toList = (zip (f :: fs) t).toList ∧ ∃ m, Balanced t' .black m := by
  obtain ⟨tree₁, tree₂, hSet₁, hNode₁, hSet₂, h₂⟩ := h.unlink_child_first
  obtain ⟨hRed, hBlack⟩ := removal hBal
  obtain ⟨tree', t', hRelease, hDone⟩ := release_spec h₂ hRed hBlack hFuel
  refine ⟨tree', t', ?_, hDone⟩
  have hNe := (h.ne_root (ptr_branch ..))
  have hSide := h.side (ptr_branch ..) (ctxParent fs) .left
  obtain ⟨a, hPtr⟩ : ∃ a, ptr t = some a := by
    cases t with
    | nil => exact absurd rfl hT
    | node c l y r => exact ⟨y.1, rfl⟩
  have hChild : ∃ nc, tree.node (some a) = some nc := by
    obtain ⟨n, hIn, -⟩ := ptr_mem hPtr (some x.1)
    refine ⟨n, node_spec h.holds ?_⟩
    rw [cells_branch]
    simp [hIn]
  obtain ⟨nc, hChild⟩ := hChild
  have hSet : (if some x.1 = (record f.side (ctxParent fs) (some x.1) (ptr f.sib) f.x.2
        f.color).left then tree₁.set (some f.x.1) fun n => n.setChild .left (ptr t)
      else tree₁.set (some f.x.1) fun n => n.setChild .right (ptr t)) = some tree₂ := by
    change some x.1 = NodeT.left _ ↔ _ at hSide
    cases hf : f.side with
    | left =>
        rw [hf] at hSet₂ hSide
        rw [if_pos (hSide.mpr rfl), hSet₂]
    | right =>
        rw [hf] at hSet₂ hSide
        rw [if_neg (fun hEq => by cases hSide.mp hEq), hSet₂]
  rw [hPtr] at hSet hSet₁ hRelease
  rw [Option.isSome_some, if_pos rfl] at hSet₁
  have hN := h.node
  rw [hPtr, ptr_nil] at hN
  cases s with
  | left =>
      simp only [record] at hN
      simp only [rbtreeDeleteNode, hN, Option.isNone_none, Option.isNone_some, Option.isSome_none,
        Option.isSome_some, Bool.false_eq_true, and_false, false_and, if_false, hChild, hNe,
        ctxParent_cons, hSet₁, hNode₁, hSet, Option.bind_eq_bind, Option.bind_some]
      exact hRelease
  | right =>
      simp only [record] at hN
      simp only [rbtreeDeleteNode, hN, Option.isNone_none, Option.isNone_some, Option.isSome_none,
        Option.isSome_some, Bool.false_eq_true, and_false, false_and, if_false, if_true, hChild,
        hNe, ctxParent_cons, hSet₁, hNode₁, hSet, Option.bind_eq_bind, Option.bind_some]
      exact hRelease

/-- The root with one child, which is a leaf: its data moves up, and the leaf goes. -/
theorem deleteNode_root {s : Side} {y : Nat × α}
    (h : Repr tree [] (branch s c .nil x (.node .red .nil y .nil)) rest) (fuel : Nat) :
    ∃ tree', rbtreeDeleteNode fuel tree (some x.1) = some tree' ∧
      Repr tree' [] (.node .black .nil (x.1, y.2) .nil) rest := by
  have hRoot : tree.root = some x.1 := h.root.trans (by rw [ptr_branch]; rfl)
  have hN := h.node
  have hY : tree.node (some y.1) = some (record .left (some x.1) none none y.2 .red) := by
    apply node_spec h.holds
    rw [cells_branch]
    simp [cells]
  have hHolds := h.holds
  rw [cells_branch] at hHolds
  obtain ⟨tree₁, hSet, hRoot₁, hHolds₁⟩ := set_spec (a := x.1)
    (n := record s (ctxParent []) none (some y.1) x.2 c)
    (m := {(y.1, record .left (some x.1) none none y.2 .red)} + rest) hHolds
    (by simp only [ctxCells, cells, ptr_nil, ptr_node]; abel)
    fun n => { n with parent := none, color := .black, left := none, right := none, data := y.2 }
  obtain ⟨tree₂, hFree, hRoot₂, hHolds₂⟩ := free_spec hHolds₁ (add_left_comm _ _ _)
  have hNew : Holds tree₂.mem
      ({(x.1, record .left none none none y.2 .black)} + rest) := by
    have hRecord : ({ record s (ctxParent ([] : List (Frame (Nat × α)))) none (some y.1) x.2 c with
        parent := none, color := .black, left := none, right := none, data := y.2 } : NodeT α) =
        record .left none none none y.2 .black := by
      cases s <;> rfl
    rwa [hRecord] at hHolds₂
  refine ⟨tree₂, ?_, by rw [hRoot₂, hRoot₁, hRoot]; rfl, ?_⟩
  · cases s with
    | left =>
        simp only [record, ptr_nil, ptr_node] at hN hY
        simp only [rbtreeDeleteNode, hN, hY, hRoot, Option.isNone_none, Option.isNone_some,
          Option.isSome_none, Option.isSome_some, Bool.false_eq_true, and_false, false_and,
          if_false, if_true, hSet, hFree, Option.bind_eq_bind, Option.bind_some]
    | right =>
        simp only [record, ptr_nil, ptr_node] at hN hY
        simp only [rbtreeDeleteNode, hN, hY, hRoot, Option.isNone_none, Option.isNone_some,
          Option.isSome_none, Option.isSome_some, Bool.false_eq_true, and_false, false_and,
          if_false, if_true, hSet, hFree, Option.bind_eq_bind, Option.bind_some]
  · simpa [ctxCells, cells, ctxParent] using hNew

/-- `_rbtree_min_node` walks down to the first element. -/
theorem minNodeLoop_spec (t : ColorTree (Nat × α)) :
    ∀ {fs : List (Frame (Nat × α))} {fuel : Nat}, Repr tree fs t rest → t ≠ .nil →
      t.height ≤ fuel →
      ∃ gs c y s, minNodeLoop tree fuel (ptr t) = some (some y.1) ∧
        t = zip gs (.node c .nil y s) ∧ before gs = [] := by
  induction t with
  | nil =>
      intro fs fuel _ hT _
      exact absurd rfl hT
  | node c l x r ihl _ =>
      intro fs fuel h _ hFuel
      simp only [height] at hFuel
      obtain ⟨fuel, rfl⟩ := Nat.exists_eq_succ_of_ne_zero (by omega : fuel ≠ 0)
      rw [ptr_node, minNodeLoop, h.fields]
      cases hL : l with
      | nil => exact ⟨[], c, x, r, by simp, rfl, rfl⟩
      | node c' l' x' r' =>
          have hDown := (@repr_plug _ tree ⟨.left, c, x, r⟩ fs l rest).mp h
          obtain ⟨gs, d, y, s, hRun, hEq, hBefore⟩ :=
            ihl hDown (by rw [hL]; intro hEq; cases hEq) (by omega : l.height ≤ fuel)
          refine ⟨gs ++ [⟨.left, c, x, r⟩], d, y, s, ?_, ?_, ?_⟩
          · rw [hL] at hRun
            simpa using hRun
          · rw [zip_append, ← hEq, hL]
            rfl
          · rw [before_append, hBefore]
            simp [before]

/-- The parent of a position does not depend on the data higher up. -/
theorem ctxParent_append (gs fs : List (Frame (Nat × α))) (f g : Frame (Nat × α))
    (h : f.x.1 = g.x.1) : ctxParent (gs ++ f :: fs) = ctxParent (gs ++ g :: fs) := by
  cases gs with
  | nil => exact congrArg some h
  | cons e gs => rfl

/-- The four ways of taking the successor out are one. -/
theorem unlinkNext_spec {s : ColorTree (Nat × α)}
    (h : Repr tree (f :: fs) (.node c .nil x s) rest) :
    ∃ tree', (if some x.1 = (record f.side (ctxParent fs) (some x.1) (ptr f.sib) f.x.2
          f.color).left ∧ (ptr s).isSome then
        (tree.set (some f.x.1) fun n => n.setChild .left (ptr s)).bind fun tree =>
          tree.set (ptr s) fun n => n.setParent (some f.x.1)
      else if some x.1 = (record f.side (ctxParent fs) (some x.1) (ptr f.sib) f.x.2
          f.color).left ∧ (ptr s).isNone then
        tree.set (some f.x.1) fun n => n.setChild .left none
      else if some x.1 = (record f.side (ctxParent fs) (some x.1) (ptr f.sib) f.x.2
          f.color).right ∧ (ptr s).isSome then
        (tree.set (some f.x.1) fun n => n.setChild .right (ptr s)).bind fun tree =>
          tree.set (ptr s) fun n => n.setParent (some f.x.1)
      else if some x.1 = (record f.side (ctxParent fs) (some x.1) (ptr f.sib) f.x.2
          f.color).right ∧ (ptr s).isNone then
        tree.set (some f.x.1) fun n => n.setChild .right none
      else some tree) = some tree' ∧
      Repr tree' (f :: fs) s ({(x.1, record .left (some f.x.1) none (ptr s) x.2 c)} + rest) := by
  have hBranch : Repr tree (f :: fs) (branch .left c .nil x s) rest := h
  obtain ⟨tree', hUnlink, h'⟩ := hBranch.unlink
  refine ⟨tree', ?_, h'⟩
  have hLeft := h.side rfl (ctxParent fs) .left
  have hRight := h.side rfl (ctxParent fs) .right
  change some x.1 = NodeT.left _ ↔ _ at hLeft
  change some x.1 = NodeT.right _ ↔ _ at hRight
  rw [if_congr (and_congr_left' hLeft) rfl (if_congr (and_congr_left' hLeft) rfl
    (if_congr (and_congr_left' hRight) rfl (if_congr (and_congr_left' hRight) rfl rfl)))]
  cases hPtr : ptr s with
  | none =>
      simp only [hPtr, Option.isSome_none, Bool.false_eq_true, if_false, Option.bind_fun_some]
        at hUnlink
      cases hf : f.side <;> simpa [hf] using hUnlink
  | some a =>
      simp only [hPtr, Option.isSome_some, if_true] at hUnlink
      cases hf : f.side <;> simpa [hf] using hUnlink

/-- A node with two children: its successor gives its data and goes. -/
theorem deleteNode_two (h : Repr tree fs (.node c l x r) rest) (hL : l ≠ .nil) (hR : r ≠ .nil)
    (hBal : Balanced (zip fs (.node c l x r)) .black m)
    (hFuel : (zip fs (.node c l x r)).size ≤ fuel) :
    ∃ tree' t', rbtreeDeleteNode fuel tree (some x.1) = some tree' ∧ Repr tree' [] t' rest ∧
      elems t' = (before fs).map Prod.snd ++ (elems l ++ elems r) ++ (after fs).map Prod.snd ∧
      ∃ m, Balanced t' .black m := by
  have hSize := length_add_size_le fs (.node c l x r)
  have hHeight := height_le_size r
  simp only [size] at hSize
  have hDown : Repr tree (⟨.right, c, x, l⟩ :: fs) r rest := repr_plug.mp h
  obtain ⟨gs, d, y, s, hMin, hEq, hBefore⟩ :=
    minNodeLoop_spec r hDown hR (by omega : r.height ≤ fuel)
  -- the place of the successor, before and after the data moved
  have hNext : Repr tree (gs ++ ⟨.right, c, x, l⟩ :: fs) (.node d .nil y s) rest := by
    rw [hEq] at hDown
    exact repr_zip.mp hDown
  obtain ⟨tree₁, hData, h₁⟩ := @Repr.setData _ tree fs .left c x rest l r h y.2
  have h₁' : Repr tree₁ (gs ++ ⟨.right, c, (x.1, y.2), l⟩ :: fs) (.node d .nil y s) rest := by
    have hDown₁ : Repr tree₁ (⟨.right, c, (x.1, y.2), l⟩ :: fs) r rest := repr_plug.mp h₁
    rw [hEq] at hDown₁
    exact repr_zip.mp hDown₁
  have hParent : ctxParent (gs ++ ⟨.right, c, x, l⟩ :: fs) =
      ctxParent (gs ++ ⟨.right, c, (x.1, y.2), l⟩ :: fs) := ctxParent_append gs fs _ _ rfl
  obtain ⟨m', hBal₁⟩ : ∃ m, Balanced
      (zip (gs ++ ⟨.right, c, (x.1, y.2), l⟩ :: fs) (.node d .nil y s)) .black m := by
    rw [zip_append, ← hEq]
    obtain ⟨c', n, hNode, hFits⟩ := exists_fits fs hBal
    exact hFits.zip (hNode.replace (x.1, y.2))
  have hLen : (gs ++ ⟨.right, c, (x.1, y.2), l⟩ :: fs).length < fuel := by
    have hGs := length_add_size_le gs (.node d .nil y s)
    rw [← hEq] at hGs
    simp only [size] at hGs
    simp only [List.length_append, List.length_cons]
    have hL' : l.size ≠ 0 := by
      cases l with
      | nil => exact absurd rfl hL
      | node => simp [size]
    omega
  have hElems : ((zip (gs ++ ⟨.right, c, (x.1, y.2), l⟩ :: fs) s).toList).map Prod.snd =
      (before fs).map Prod.snd ++ (elems l ++ elems r) ++ (after fs).map Prod.snd := by
    have hR' : elems r = y.2 :: elems s ++ (after gs).map Prod.snd := by
      rw [elems, hEq, toList_zip, hBefore]
      simp [toList, elems]
    rw [hR', toList_zip, before_append, after_append, hBefore]
    simp [before, after, elems]
  obtain ⟨g, ctx, hCtx⟩ : ∃ g ctx, gs ++ ⟨.right, c, (x.1, y.2), l⟩ :: fs = g :: ctx := by
    cases gs with
    | nil => exact ⟨_, _, rfl⟩
    | cons g gs => exact ⟨_, _, rfl⟩
  have hN := hNext.fields
  rw [hCtx] at h₁' hBal₁ hLen hElems hParent
  rw [hParent, ctxParent_cons] at hN
  obtain ⟨tree₂, hUnlink, h₂⟩ := unlinkNext_spec h₁'
  obtain ⟨hRed, hBlack⟩ := @removal _ (g :: ctx) .left d y s m' hBal₁
  obtain ⟨tree', t', hRelease, hRepr, hList, hBal'⟩ := release_spec h₂ hRed hBlack hLen
  refine ⟨tree', t', ?_, hRepr, by rw [elems, hList, hElems], hBal'⟩
  have hLSome : ∃ a, ptr l = some a := by
    cases l with
    | nil => exact absurd rfl hL
    | node c l y r => exact ⟨y.1, rfl⟩
  have hRSome : (ptr r).isSome := by
    cases r with
    | nil => exact absurd rfl hR
    | node c l y r => rfl
  have hNextNode : rbtreeNextNode fuel tree (some x.1) = some (some y.1) := by
    simp only [rbtreeNextNode, Option.isNone_some, Bool.false_eq_true, if_false, h.fields, hRSome,
      if_true, rbtreeMinNode, hMin, Option.bind_eq_bind, Option.bind_some]
  obtain ⟨a, hLPtr⟩ := hLSome
  simp only [rbtreeDeleteNode, h.fields, hLPtr, Option.isNone_some, Bool.false_eq_true, false_and,
    if_false, Option.isSome_some, hRSome, true_and, if_true, hNextNode, hN, hData, h₁'.parent,
    ptr_node, Option.bind_eq_bind, Option.bind_some]
  rw [hUnlink]
  exact hRelease

/-- `_rbtree_delete_node` takes the data of the node out of the tree, and no other. -/
theorem rbtreeDeleteNode_spec (h : Repr tree fs (.node c l x r) rest)
    (hBal : Balanced (zip fs (.node c l x r)) .black m)
    (hFuel : (zip fs (.node c l x r)).size < fuel) :
    ∃ tree' t', rbtreeDeleteNode fuel tree (some x.1) = some tree' ∧ Repr tree' [] t' rest ∧
      elems t' = (before fs).map Prod.snd ++ (elems l ++ elems r) ++ (after fs).map Prod.snd ∧
      ∃ m, Balanced t' .black m := by
  -- one child, on either side
  have hOne : ∀ {s : Side} {t : ColorTree (Nat × α)},
      node c l x r = branch s c .nil x t → t ≠ .nil →
      elems l ++ elems r = elems t →
      ∃ tree' t', rbtreeDeleteNode fuel tree (some x.1) = some tree' ∧ Repr tree' [] t' rest ∧
        elems t' = (before fs).map Prod.snd ++ (elems l ++ elems r) ++ (after fs).map Prod.snd ∧
        ∃ m, Balanced t' .black m := by
    intro s t hEq hT hElems
    rw [hEq] at h hBal
    cases fs with
    | nil =>
        obtain ⟨-, y, rfl⟩ := hBal.only_child hT
        obtain ⟨tree', hRun, h'⟩ := deleteNode_root h fuel
        refine ⟨tree', _, hRun, h', ?_, 1, .black .nil .nil⟩
        rw [hElems]
        simp [before, after, elems, toList]
    | cons f fs =>
        have hLen := length_add_size_le (f :: fs) (node c l x r)
        rw [List.length_cons] at hLen
        obtain ⟨tree', t', hRun, h', hList, hBal'⟩ :=
          deleteNode_one h hT hBal (by omega : fs.length + 1 < fuel)
        refine ⟨tree', t', hRun, h', ?_, hBal'⟩
        rw [hElems, elems, hList, toList_zip]
        simp [elems]
  cases hL : l with
  | nil =>
      cases hR : r with
      | nil =>
          subst hL hR
          cases fs with
          | nil =>
              obtain ⟨tree', hRun, h'⟩ := deleteNode_last h fuel
              exact ⟨tree', .nil, hRun, h', rfl, 0, .nil⟩
          | cons f fs =>
              have hLen := length_add_size_le (f :: fs) (node c .nil x .nil)
              rw [List.length_cons] at hLen
              obtain ⟨tree', t', hRun, h', hList, hBal'⟩ :=
                deleteNode_leaf h hBal (by omega : fs.length + 1 < fuel)
              refine ⟨tree', t', hRun, h', ?_, hBal'⟩
              rw [elems, hList, toList_zip]
              simp [elems, toList]
      | node c' l' y r' =>
          rw [← hR, ← hL]
          exact @hOne .left r (by rw [hL]; rfl) (by rw [hR]; intro hEq; cases hEq)
            (by rw [hL]; rfl)
  | node c' l' y r' =>
      cases hR : r with
      | nil =>
          rw [← hL, ← hR]
          exact @hOne .right l (by rw [hR]; rfl) (by rw [hL]; intro hEq; cases hEq)
            (by rw [hR]; exact List.append_nil _)
      | node c'' l'' z r'' =>
          rw [← hL, ← hR]
          exact deleteNode_two h (by rw [hL]; intro hEq; cases hEq)
            (by rw [hR]; intro hEq; cases hEq) hBal hFuel.le

end Cases

/-! ## Finding -/

section Find

variable {cmp : α → α → Int} {tree : RbtreeT α} {rest : Multiset (Nat × NodeT α)}
  {t : ColorTree (Nat × α)} {d : α} {fuel : Nat}

/-- `_rbtree_find_node` ends at a node that compares equal, or at an empty place between the
smaller and the larger elements. -/
theorem rbtreeFindNode_spec (hCmp : TotalPreorder cmp) (t : ColorTree (Nat × α)) :
    ∀ {fs : List (Frame (Nat × α))} {fuel : Nat}, Repr tree fs t rest → Sorted cmp (elems t) →
      Splits cmp fs d → t.height < fuel →
      (rbtreeFindNode cmp tree d fuel (ptr t) = some none ∧
          ∃ gs, zip gs .nil = zip fs t ∧ Splits cmp gs d) ∨
      ∃ gs c l x r, rbtreeFindNode cmp tree d fuel (ptr t) = some (some x.1) ∧
        zip gs (.node c l x r) = zip fs t ∧ cmp d x.2 = 0 := by
  induction t with
  | nil =>
      intro fs fuel _ _ hSplits hFuel
      obtain ⟨fuel, rfl⟩ := Nat.exists_eq_succ_of_ne_zero (by omega : fuel ≠ 0)
      exact Or.inl ⟨by simp [rbtreeFindNode], fs, rfl, hSplits⟩
  | node c l x r ihl ihr =>
      intro fs fuel h hSorted hSplits hFuel
      obtain ⟨fuel, rfl⟩ := Nat.exists_eq_succ_of_ne_zero (by omega : fuel ≠ 0)
      simp only [height] at hFuel
      have hLeft := @repr_plug _ tree ⟨.left, c, x, r⟩ fs l rest
      have hRight := @repr_plug _ tree ⟨.right, c, x, l⟩ fs r rest
      simp only [ptr_node, rbtreeFindNode, h.fields, Option.bind_eq_bind, Option.bind_some]
      by_cases hEq : cmp d x.2 = 0
      · exact Or.inr ⟨fs, c, l, x, r, by rw [if_pos hEq]; rfl, rfl, hEq⟩
      · rw [if_neg hEq]
        by_cases hLess : cmp d x.2 < 0
        · rw [if_pos hLess]
          exact ihl (hLeft.mp h) hSorted.children.1 (hSplits.left hCmp hSorted hLess)
            (by omega : l.height < fuel)
        · rw [if_neg hLess]
          have hMore : cmp x.2 d < 0 := hCmp.le_of_lt_swap (by omega)
          exact ihr (hRight.mp h) hSorted.children.2 (hSplits.right hCmp hSorted hMore)
            (by omega : r.height < fuel)

/-- The search from the root. -/
theorem Holding.find (hCmp : TotalPreorder cmp) (h : Holding cmp tree t rest)
    (hFuel : t.size < fuel) (d : α) :
    (rbtreeFindNode cmp tree d fuel tree.root = some none ∧ ∀ e ∈ elems t, cmp d e ≠ 0) ∨
      ∃ gs c l x r, rbtreeFindNode cmp tree d fuel tree.root = some (some x.1) ∧
        zip gs (.node c l x r) = t ∧ cmp d x.2 = 0 := by
  have hHeight := height_le_size t
  have hTop : Splits cmp [] d := ⟨by simp [before], by simp [after]⟩
  rw [h.repr.root, ctxRoot]
  rcases rbtreeFindNode_spec hCmp t h.repr h.sorted hTop (by omega : t.height < fuel) with
    ⟨hRun, gs, hZip, hSplits⟩ | hFound
  · refine Or.inl ⟨hRun, ?_⟩
    obtain ⟨low, high, hElems, -, hLow, hHigh⟩ := elems_zip_nil hSplits
    intro e he
    rw [hZip, zip] at hElems
    rw [hElems, List.mem_append] at he
    rcases he with he | he
    · have hLess := hLow e he
      have hPos := (hCmp.swap d e).mpr hLess
      omega
    · have hLess := hHigh e he
      omega
  · exact Or.inr hFound

/-- `rbtree_find` -/
theorem rbtreeFind_spec (hCmp : TotalPreorder cmp) (h : Holding cmp tree t rest)
    (hFuel : t.size < fuel) (d : α) :
    (rbtreeFind cmp fuel tree (some d) = some none ∧ ∀ e ∈ elems t, cmp d e ≠ 0) ∨
      ∃ e ∈ elems t, rbtreeFind cmp fuel tree (some d) = some (some e) ∧ cmp d e = 0 := by
  cases hRoot : tree.root with
  | none =>
      have hNil : t = .nil := ptr_eq_none.mp (h.repr.root.symm.trans hRoot)
      subst hNil
      refine Or.inl ⟨by simp [rbtreeFind, hRoot], ?_⟩
      simp [elems, toList]
  | some a =>
      rcases h.find hCmp hFuel d with ⟨hRun, hNone⟩ | ⟨gs, c, l, x, r, hRun, hZip, hEq⟩
      · refine Or.inl ⟨?_, hNone⟩
        rw [hRoot] at hRun
        simp [rbtreeFind, hRoot, hRun]
      · have hAt := h.repr
        rw [← hZip] at hAt
        have hNode := (repr_zip.mp hAt).fields
        rw [hRoot] at hRun
        refine Or.inr ⟨x.2, ?_, by simp [rbtreeFind, hRoot, hRun, hNode], hEq⟩
        rw [← hZip, elems, toList_zip]
        simp [toList]

/-- `rbtree_delete` answers `NULL` and changes nothing when no element compares equal, and
otherwise returns that element and takes it out. -/
theorem rbtreeDelete_spec (hCmp : TotalPreorder cmp) (h : Holding cmp tree t rest)
    (hFuel : t.size < fuel) (d : α) :
    (rbtreeDelete cmp fuel tree (some d) = some (none, tree) ∧ ∀ e ∈ elems t, cmp d e ≠ 0) ∨
    ∃ tree' t' low e high, rbtreeDelete cmp fuel tree (some d) = some (some e, tree') ∧
      Holding cmp tree' t' rest ∧ elems t = low ++ e :: high ∧ elems t' = low ++ high ∧
      cmp d e = 0 := by
  cases hRoot : tree.root with
  | none =>
      have hNil : t = .nil := ptr_eq_none.mp (h.repr.root.symm.trans hRoot)
      subst hNil
      refine Or.inl ⟨by simp [rbtreeDelete, hRoot], ?_⟩
      simp [elems, toList]
  | some a =>
      rcases h.find hCmp hFuel d with ⟨hRun, hNone⟩ | ⟨gs, c, l, x, r, hRun, hZip, hEq⟩
      · refine Or.inl ⟨?_, hNone⟩
        rw [hRoot] at hRun
        simp [rbtreeDelete, hRoot, hRun]
      · obtain ⟨m, hBal⟩ := h.balanced
        have hRepr := h.repr
        rw [← hZip] at hRepr hBal hFuel
        have hAt : Repr tree gs (.node c l x r) rest := by
          have hUp := repr_zip.mp hRepr
          rwa [List.append_nil] at hUp
        have hElems : elems t = ((before gs).map Prod.snd ++ elems l) ++ x.2 ::
            (elems r ++ (after gs).map Prod.snd) := by
          rw [← hZip, elems, toList_zip]
          simp [toList, elems]
        obtain ⟨tree', t', hDelete, h', hElems', hBal'⟩ := rbtreeDeleteNode_spec hAt hBal hFuel
        have hNewElems : elems t' = ((before gs).map Prod.snd ++ elems l) ++
            (elems r ++ (after gs).map Prod.snd) := by
          rw [hElems']
          simp
        have hSorted : Sorted cmp (elems t') := by
          rw [hNewElems]
          apply List.Pairwise.sublist _ (hElems ▸ h.sorted)
          exact List.Sublist.append_left (List.sublist_cons_self _ _) _
        rw [hRoot] at hRun
        refine Or.inr ⟨tree', t', _, x.2, _, ?_, ⟨h', hSorted, hBal'⟩, hElems, hNewElems, hEq⟩
        simp [rbtreeDelete, hRoot, hRun, hAt.fields, hDelete]

/-- `_rbtree_loop_node` calls the function on the elements in order. -/
theorem rbtreeLoopNode_spec (t : ColorTree (Nat × α)) :
    ∀ {fs : List (Frame (Nat × α))} {fuel : Nat}, Repr tree fs t rest → t.height < fuel →
      rbtreeLoopNode tree fuel (ptr t) = some (elems t) := by
  induction t with
  | nil =>
      intro fs fuel _ hFuel
      obtain ⟨fuel, rfl⟩ := Nat.exists_eq_succ_of_ne_zero (by omega : fuel ≠ 0)
      rfl
  | node c l x r ihl ihr =>
      intro fs fuel h hFuel
      obtain ⟨fuel, rfl⟩ := Nat.exists_eq_succ_of_ne_zero (by omega : fuel ≠ 0)
      simp only [height] at hFuel
      have hL := ihl ((@repr_plug _ tree ⟨.left, c, x, r⟩ fs l rest).mp h)
        (by omega : l.height < fuel)
      have hR := ihr ((@repr_plug _ tree ⟨.right, c, x, l⟩ fs r rest).mp h)
        (by omega : r.height < fuel)
      have hBranch : ∀ {u : ColorTree (Nat × α)},
          rbtreeLoopNode tree fuel (ptr u) = some (elems u) →
          (if (ptr u).isSome then rbtreeLoopNode tree fuel (ptr u) else some []) =
            some (elems u) := by
        intro u hu
        cases u with
        | nil => rfl
        | node => exact hu
      simp only [ptr_node, rbtreeLoopNode, h.fields, hBranch hL, hBranch hR, Option.bind_eq_bind,
        Option.bind_some]
      simp [elems, toList]

theorem rbtreeLoop_spec (h : Repr tree [] t rest) (hFuel : t.size < fuel) :
    rbtreeLoop fuel tree = some (elems t) := by
  have hHeight := height_le_size t
  have hRun := rbtreeLoopNode_spec t h (by omega : t.height < fuel)
  have hRoot : tree.root = ptr t := h.root
  cases t with
  | nil => simp [rbtreeLoop, hRoot, elems, toList]
  | node c l x r =>
      rw [← hRoot] at hRun
      simp [rbtreeLoop, hRoot, ← hRun]

end Find

end Gbase.Base.Rbtree
