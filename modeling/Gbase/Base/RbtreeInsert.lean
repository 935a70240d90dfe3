import Gbase.Base.RbtreeRepr
import Gbase.Lib.Comparator

/-!
# Insertion into the red-black tree

As in the deletion, the position moves up along the frames, and every turn of the loop consumes two
of them or is the last one.  The search before it is a walk down, which ends where the frames above
split the elements into the smaller and the larger ones; where the new node is linked follows from
that alone.

## Main results

* `insertAdjustLoop_spec`: the loop ends, with a balanced tree once its root is black.
* `rbtreeInsert_spec`: insertion adds the element between its neighbours, or finds an equal
  one.
-/

namespace Gbase.Base.Rbtree

open Gbase.Lib.Comparator
open Gbase.Lib.RedBlack
open Gbase.Lib.RedBlack.ColorTree
open Gbase.Lib.Store

variable {α : Type}

section Turn

variable {tree : RbtreeT α} {f g : Frame (Nat × α)} {gs : List (Frame (Nat × α))}
  {t : ColorTree (Nat × α)} {rest : Multiset (Nat × NodeT α)}

/-- A red uncle. -/
theorem insertAdjustTurn_recolor (h : Repr tree (f :: g :: gs) t rest)
    (hRed : t.rootColor = .red) (hUncle : g.sib.rootColor = .red) :
    ∃ tree', insertAdjustTurn g.side tree (ptr t) = some (tree', some g.x.1) ∧
      Repr tree' gs (branch g.side .red (branch f.side .black t f.x f.sib) g.x g.sib.blacken)
        rest := by
  obtain ⟨near, z, far, rfl⟩ := exists_red_branch f.side hRed
  obtain ⟨_, u, _, hSib⟩ := exists_red_branch g.side hUncle
  have hPtr : ptr g.sib = some u.1 := by rw [hSib, ptr_branch]
  have hUp := repr_plug.mpr h
  have hUncleAt := repr_sib.mp hUp
  obtain ⟨tree₁, hSet₁, h₁⟩ := hUncleAt.blacken hPtr
  have h₁' : Repr tree₁ (⟨g.side, g.color, g.x, g.sib.blacken⟩ :: gs)
      (f.plug (branch f.side .red near z far)) rest := by
    have hBack := repr_sib.mp h₁
    rwa [Side.flip_flip] at hBack
  obtain ⟨tree₂, hSet₂, h₂⟩ := h₁'.setColor .black
  obtain ⟨tree₃, hSet₃, h₃⟩ := (repr_plug.mpr h₂).setColor .red
  refine ⟨tree₃, ?_, h₃⟩
  simp only [ptr_branch, insertAdjustTurn, h.node, h.parent, hUp.parent, hUncleAt.hasColor, hUncle,
    hSet₁, hSet₂, hSet₃, record_parent, record_child_flip, ctxParent, Option.bind_eq_bind,
    Option.bind_some, decide_true, if_true]
  rfl

/-- With the position on the outer side, the grandparent is rotated away. -/
theorem insertAdjustOuter_spec (h : Repr tree (f :: g :: gs) t rest) (hSide : f.side = g.side)
    (hRed : t.rootColor = .red) :
    ∃ tree', insertAdjustOuter g.side tree (ptr t) = some (tree', ptr t) ∧
      Repr tree' (⟨g.side, .black, f.x, branch g.side .red f.sib g.x g.sib⟩ :: gs) t rest := by
  obtain ⟨near, z, far, rfl⟩ := exists_red_branch f.side hRed
  obtain ⟨tree₁, hSet₁, h₁⟩ := (repr_plug.mpr h).setColor .black
  obtain ⟨tree₂, hSet₂, h₂⟩ := (repr_plug.mpr h₁).setColor .red
  have hFlip : Repr tree₂ gs (branch g.side.flip .red g.sib g.x (branch g.side.flip .black f.sib f.x
      (branch f.side .red near z far))) rest := by
    rw [branch_flip, branch_flip, ← hSide]
    rwa [← hSide] at h₂
  obtain ⟨tree₃, hRot, h₃⟩ := rbtreeRot_spec hFlip
  refine ⟨tree₃, ?_, ?_⟩
  · simp only [insertAdjustOuter, ptr_branch, h.node, hSet₁, h₁.node, hSet₂, hRot, record_parent,
      ctxParent, Option.bind_eq_bind, Option.bind_some]
    rfl
  · rw [branch_flip, branch_flip] at h₃
    exact repr_plug.mp h₃

/-- A black uncle: the turn ends with a black node above the position. -/
theorem insertAdjustTurn_rotate (h : Repr tree (f :: g :: gs) t rest) (hf : f.color = .red)
    (hUncle : g.sib.rootColor = .black) (hInv : InsertInv (f :: g :: gs) t) :
    ∃ tree' fs' t', insertAdjustTurn g.side tree (ptr t) = some (tree', ptr t') ∧
      Repr tree' fs' t' rest ∧ InsertInv fs' t' ∧ fs'.length = gs.length + 1 ∧
      (zip fs' t').toList = (zip (f :: g :: gs) t).toList := by
  obtain ⟨n, hBal, -⟩ := id hInv
  obtain ⟨near, z, far, rfl⟩ := exists_red_branch g.side hBal.rootColor
  have hUp := repr_plug.mpr h
  have hColor := (repr_sib.mp hUp).hasColor
  have hTest := h.side (ptr_branch ..) (some g.x.1) g.side.flip
  obtain ⟨side, color, x, sib⟩ := f
  obtain rfl : color = .red := hf
  have hTurn : insertAdjustTurn g.side tree (some z.1) =
      if side = g.side.flip then
        (rbtreeRot g.side tree (some x.1)).bind fun tree =>
          insertAdjustOuter g.side tree (some x.1)
      else insertAdjustOuter g.side tree (some z.1) := by
    simp only [insertAdjustTurn, h.node, h.parent, hUp.parent, hColor, hUncle, record_parent,
      record_child_flip, ctxParent, ptr_branch, hTest, Option.bind_eq_bind, Option.bind_some,
      reduceCtorEq, decide_false, Bool.false_eq_true, if_false]
  rw [ptr_branch, hTurn]
  rcases side.eq_or_flip g.side with rfl | rfl
  · obtain ⟨tree', hOuter, h'⟩ := insertAdjustOuter_spec h rfl (rootColor_branch ..)
    refine ⟨tree', _, _, ?_, h', hInv.outer rfl hUncle, by simp, ?_⟩
    · rw [if_neg (Side.flip_ne g.side).symm]
      rwa [ptr_branch] at hOuter ⊢
    · refine @toList_zip_congr _ gs _ _ ?_
      obtain ⟨side, color', y, sib'⟩ := g
      cases side <;> simp [Frame.plug, branch, toList]
  · have hRotate : Repr tree (g :: gs) (branch g.side .red sib x (branch g.side .red near z far))
        rest := by
      rwa [Frame.plug, branch_flip] at hUp
    obtain ⟨tree₁, hRot, h₁⟩ := rbtreeRot_spec hRotate
    have h₁' : Repr tree₁ (⟨g.side, .red, z, far⟩ :: g :: gs) (branch g.side .red sib x near)
        rest := repr_plug.mp h₁
    obtain ⟨tree', hOuter, h'⟩ := insertAdjustOuter_spec h₁' rfl (rootColor_branch ..)
    refine ⟨tree', _, _, ?_, h', (hInv.inner rfl).outer rfl hUncle, by simp, ?_⟩
    · rw [if_pos rfl, hRot, Option.bind_some]
      rwa [ptr_branch] at hOuter ⊢
    · refine @toList_zip_congr _ gs _ _ ?_
      obtain ⟨side, color', y, sib'⟩ := g
      cases side <;> simp [Frame.plug, branch, toList, Side.flip]

end Turn

/-- The side the loop of `_rbtree_insert_adjust` finds. -/
theorem side_eq {tree : RbtreeT α} {f : Frame (Nat × α)} {fs : List (Frame (Nat × α))}
    {t : ColorTree (Nat × α)} {rest : Multiset (Nat × NodeT α)}
    (h : Repr tree (f :: fs) t rest) {a : Nat}
    (hPtr : ptr t = some a) (p : Option Nat) :
    (if some a = (record f.side p (some a) (ptr f.sib) f.x.2 f.color).left then Side.left
      else Side.right) = f.side := by
  have hLeft := h.side hPtr p .left
  change some a = NodeT.left _ ↔ _ at hLeft
  split
  · next hEq => exact (hLeft.mp hEq).symm
  · next hEq =>
      cases hSide : f.side with
      | left => exact absurd (hLeft.mpr hSide) hEq
      | right => rfl

/-- The loop of `_rbtree_insert_adjust` ends, and its tree is balanced once the root is
black.  Each turn shortens the context. -/
theorem insertAdjustLoop_spec {rest : Multiset (Nat × NodeT α)} (fuel : Nat) :
    ∀ {tree : RbtreeT α} {fs : List (Frame (Nat × α))} {t : ColorTree (Nat × α)},
      Repr tree fs t rest → InsertInv fs t → fs.length < fuel →
      ∃ tree' t', insertAdjustLoop fuel tree (ptr t) = some tree' ∧ Repr tree' [] t' rest ∧
        t'.toList = (zip fs t).toList ∧ ∃ m, Balanced t'.blacken .black m := by
  induction fuel with
  | zero =>
      intro tree fs t _ _ hFuel
      exact absurd hFuel (Nat.not_lt_zero _)
  | succ fuel ih =>
      intro tree fs t h hInv hFuel
      obtain ⟨n, hBal, -⟩ := id hInv
      obtain ⟨near, z, far, rfl⟩ := exists_red_branch .left hBal.rootColor
      rw [ptr_branch, insertAdjustLoop]
      cases fs with
      | nil =>
          refine ⟨tree, _, ?_, h, rfl, hInv.done (by simp)⟩
          have hRoot : tree.root = some z.1 := h.root
          rw [if_pos hRoot.symm]
      | cons f fs =>
          rw [if_neg (h.ne_root (ptr_branch ..))]
          simp only [h.node, h.parent, record_parent, record_color, ctxParent,
            Option.bind_eq_bind, Option.bind_some]
          by_cases hf : f.color = .red
          · rw [if_pos hf]
            obtain ⟨g, gs, rfl, -⟩ : ∃ g gs, fs = g :: gs ∧ g.color = .black := by
              obtain ⟨_, -, hFits⟩ := hInv
              exact hFits.grand hf
            have hUp := repr_plug.mpr h
            simp only [hUp.parent, Frame.plug, ptr_branch, Option.bind_some,
              side_eq hUp (ptr_branch ..)]
            cases hUncle : g.sib.rootColor with
            | red =>
                obtain ⟨tree₁, hTurn, h₁⟩ := insertAdjustTurn_recolor h (rootColor_branch ..) hUncle
                simp only [List.length_cons] at hFuel
                obtain ⟨tree', t', hLoop, h', hList, hBal'⟩ :=
                  ih h₁ (hInv.recolor hf hUncle) (by omega)
                rw [ptr_branch] at hTurn hLoop
                refine ⟨tree', t', ?_, h', ?_, hBal'⟩
                · rw [hTurn]
                  exact hLoop
                · rw [hList]
                  refine @toList_zip_congr _ gs _ _ ?_
                  exact toList_branch_congr (toList_branch_congr rfl rfl) (toList_blacken _)
            | black =>
                obtain ⟨tree₁, fs₁, t₁, hTurn, h₁, hInv₁, hLen, hSame⟩ :=
                  insertAdjustTurn_rotate h hf hUncle hInv
                simp only [List.length_cons] at hFuel
                obtain ⟨tree', t', hLoop, h', hList, hBal'⟩ := ih h₁ hInv₁ (by omega)
                rw [ptr_branch] at hTurn
                refine ⟨tree', t', ?_, h', by rw [hList, hSame], hBal'⟩
                rw [hTurn]
                exact hLoop
          · rw [if_neg hf]
            refine ⟨tree, _, rfl, repr_zip.mpr (by simpa using h), rfl, hInv.done ?_⟩
            intro f' hf'
            cases hf'
            cases hc : f.color with
            | black => rfl
            | red => exact absurd hc hf

/-! ## The place of an element -/

/-- The data of a tree, in order. -/
def elems (t : ColorTree (Nat × α)) : List α := t.toList.map Prod.snd

/-- Strictly increasing. -/
def Sorted (cmp : α → α → Int) (l : List α) : Prop := l.Pairwise fun a b => cmp a b < 0

/-- The context splits the elements of the tree at `d`. -/
structure Splits (cmp : α → α → Int) (fs : List (Frame (Nat × α))) (d : α) : Prop where
  low : ∀ e ∈ before fs, cmp e.2 d < 0
  high : ∀ e ∈ after fs, cmp d e.2 < 0

section Search

variable {cmp : α → α → Int} {tree : RbtreeT α} {fs : List (Frame (Nat × α))}
  {rest : Multiset (Nat × NodeT α)} {d : α} {c : Color} {l r : ColorTree (Nat × α)} {x : Nat × α}

theorem Splits.left (hCmp : TotalPreorder cmp) (h : Splits cmp fs d)
    (hSorted : Sorted cmp (elems (.node c l x r))) (hLess : cmp d x.2 < 0) :
    Splits cmp (⟨.left, c, x, r⟩ :: fs) d where
  low := by
    intro e he
    simp only [before, List.append_nil] at he
    exact h.low e he
  high := by
    intro e he
    simp only [after, List.cons_append, List.mem_cons, List.mem_append] at he
    rcases he with rfl | he | he
    · exact hLess
    · simp only [Sorted, elems, toList, List.map_append, List.map_cons, List.pairwise_append,
        List.pairwise_cons] at hSorted
      exact hCmp.lt_trans hLess (hSorted.2.1.1 e.2 (List.mem_map_of_mem he))
    · exact h.high e he

theorem Splits.right (hCmp : TotalPreorder cmp) (h : Splits cmp fs d)
    (hSorted : Sorted cmp (elems (.node c l x r))) (hLess : cmp x.2 d < 0) :
    Splits cmp (⟨.right, c, x, l⟩ :: fs) d where
  low := by
    intro e he
    simp only [before, List.mem_append, List.mem_singleton] at he
    rcases he with he | he | rfl
    · exact h.low e he
    · simp only [Sorted, elems, toList, List.map_append, List.map_cons, List.pairwise_append]
        at hSorted
      exact hCmp.lt_trans
        (hSorted.2.2 e.2 (List.mem_map_of_mem he) x.2 List.mem_cons_self) hLess
    · exact hLess
  high := by
    intro e he
    simp only [after, List.nil_append] at he
    exact h.high e he

/-- Both subtrees of a sorted tree are sorted. -/
theorem Sorted.children (h : Sorted cmp (elems (.node c l x r))) :
    Sorted cmp (elems l) ∧ Sorted cmp (elems r) := by
  simp only [Sorted, elems, toList, List.map_append, List.map_cons, List.pairwise_append,
    List.pairwise_cons] at h
  exact ⟨h.1, h.2.1.2⟩

/-- The loop of `rbtree_insert` meets an equal element, or ends at the place of the new one. -/
theorem insertLoop_spec (hCmp : TotalPreorder cmp) (t : ColorTree (Nat × α)) :
    ∀ {fs : List (Frame (Nat × α))} {fuel : Nat}, Repr tree fs t rest → Sorted cmp (elems t) →
      Splits cmp fs d → t.height < fuel →
      (insertLoop cmp tree d fuel (ptr t) (ctxParent fs) = some none ∧
          ∃ e ∈ elems t, cmp d e = 0) ∨
      ∃ gs, insertLoop cmp tree d fuel (ptr t) (ctxParent fs) = some (some (ctxParent gs)) ∧
        zip gs .nil = zip fs t ∧ Splits cmp gs d := by
  induction t with
  | nil =>
      intro fs fuel _ _ hSplits hFuel
      obtain ⟨fuel, rfl⟩ := Nat.exists_eq_succ_of_ne_zero (by omega : fuel ≠ 0)
      exact Or.inr ⟨fs, by simp [insertLoop], rfl, hSplits⟩
  | node c l x r ihl ihr =>
      intro fs fuel h hSorted hSplits hFuel
      obtain ⟨fuel, rfl⟩ := Nat.exists_eq_succ_of_ne_zero (by omega : fuel ≠ 0)
      simp only [height] at hFuel
      have hNode := @Repr.node _ tree fs l r .left c x rest h
      have hLeft := @repr_plug _ tree ⟨.left, c, x, r⟩ fs l rest
      have hRight := @repr_plug _ tree ⟨.right, c, x, l⟩ fs r rest
      simp only [ptr, insertLoop, hNode, Option.bind_eq_bind, Option.bind_some, record]
      by_cases hEq : cmp d x.2 = 0
      · refine Or.inl ⟨by rw [if_pos hEq]; rfl, x.2, ?_, hEq⟩
        simp [elems, toList]
      · rw [if_neg hEq]
        by_cases hLess : cmp d x.2 < 0
        · rw [if_pos hLess]
          rcases ihl (hLeft.mp h) hSorted.children.1 (hSplits.left hCmp hSorted hLess)
              (by omega : l.height < fuel) with ⟨hRun, e, he, hde⟩ | ⟨gs, hRun, hZip, hSplits'⟩
          · refine Or.inl ⟨hRun, e, ?_, hde⟩
            simp only [elems, toList, List.map_append, List.mem_append] at he ⊢
            exact Or.inl he
          · exact Or.inr ⟨gs, hRun, hZip, hSplits'⟩
        · rw [if_neg hLess]
          have hMore : cmp x.2 d < 0 := hCmp.le_of_lt_swap (by omega)
          rcases ihr (hRight.mp h) hSorted.children.2 (hSplits.right hCmp hSorted hMore)
              (by omega : r.height < fuel) with ⟨hRun, e, he, hde⟩ | ⟨gs, hRun, hZip, hSplits'⟩
          · refine Or.inl ⟨hRun, e, ?_, hde⟩
            simp only [elems, toList, List.map_append, List.map_cons, List.mem_append,
              List.mem_cons] at he ⊢
            exact Or.inr (Or.inr he)
          · exact Or.inr ⟨gs, hRun, hZip, hSplits'⟩

end Search

/-! ## Insertion -/

/-- The tree in memory is the balanced, strictly increasing tree `t` with a black root. -/
structure Holding (cmp : α → α → Int) (tree : RbtreeT α) (t : ColorTree (Nat × α))
    (rest : Multiset (Nat × NodeT α)) : Prop where
  repr : Repr tree [] t rest
  sorted : Sorted cmp (elems t)
  balanced : ∃ m, Balanced t .black m

/-- Linking a new red node at an empty position. -/
theorem Repr.graft {tree : RbtreeT α} {f : Frame (Nat × α)} {fs : List (Frame (Nat × α))}
    {rest : Multiset (Nat × NodeT α)} (h : Repr tree (f :: fs) .nil rest) {a : Nat}
    (hNew : tree.mem a = none) (d : α) :
    ∃ tree', ((tree.alloc a (record .left (some f.x.1) none none d .red)).set (some f.x.1)
        fun n => n.setChild f.side (some a)) = some tree' ∧
      Repr tree' (f :: fs) (.node .red .nil (a, d) .nil) rest := by
  have hAlloc : Holds (tree.alloc a (record .left (some f.x.1) none none d .red)).mem _ :=
    h.holds.alloc hNew (record .left (some f.x.1) none none d .red)
  obtain ⟨tree', hSet, hRoot, hHolds⟩ := set_spec (a := f.x.1)
    (n := record f.side (ctxParent fs) none (ptr f.sib) f.x.2 f.color)
    (m := {(a, record .left (some f.x.1) none none d .red)} +
      ((cells (some f.x.1) f.sib + ctxCells fs (some f.x.1)) + rest)) hAlloc
    (by simp only [ptr_nil, ctxCells, cells_nil]; abel)
    fun n => n.setChild f.side (some a)
  rw [record_setChild] at hHolds
  refine ⟨tree', hSet, ?_, ?_⟩
  · rw [hRoot]
    exact h.root
  · convert hHolds using 1
    simp only [ctxCells, cells, ptr, ctxParent]
    abel

/-- A new red leaf where nothing was is what the repair starts from. -/
theorem insertInv_leaf {fs : List (Frame (Nat × α))} {m : Nat}
    (h : Balanced (zip fs (.nil : ColorTree (Nat × α))) .black m) (x : Nat × α) :
    InsertInv fs (.node .red .nil x .nil) := by
  obtain ⟨c, n, hNil, hFits⟩ := exists_fits fs h
  cases hNil with
  | nil => exact ⟨0, .red .nil .nil, hFits⟩

theorem elems_zip_nil {cmp : α → α → Int} {fs : List (Frame (Nat × α))} {d : α}
    (h : Splits cmp fs d) :
    ∃ low high, elems (zip fs .nil) = low ++ high ∧
      (∀ t : ColorTree (Nat × α), elems (zip fs t) = low ++ elems t ++ high) ∧
      (∀ e ∈ low, cmp e d < 0) ∧ ∀ e ∈ high, cmp d e < 0 := by
  refine ⟨(before fs).map Prod.snd, (after fs).map Prod.snd, ?_, ?_, ?_, ?_⟩
  · simp [elems, toList_zip, toList]
  · intro t
    simp [elems, toList_zip]
  · intro e he
    obtain ⟨y, hy, rfl⟩ := List.mem_map.mp he
    exact h.low y hy
  · intro e he
    obtain ⟨y, hy, rfl⟩ := List.mem_map.mp he
    exact h.high y hy

/-- The sorted list with `d` put between the smaller and the larger elements. -/
theorem Sorted.insert {cmp : α → α → Int} {low high : List α} {d : α}
    (h : Sorted cmp (low ++ high)) (hLow : ∀ e ∈ low, cmp e d < 0)
    (hHigh : ∀ e ∈ high, cmp d e < 0) : Sorted cmp (low ++ d :: high) := by
  unfold Sorted at h ⊢
  rw [List.pairwise_append] at h ⊢
  refine ⟨h.1, List.pairwise_cons.mpr ⟨hHigh, h.2.1⟩, ?_⟩
  intro a ha b hb
  rcases List.mem_cons.mp hb with rfl | hb
  · exact hLow a ha
  · exact h.2.2 a ha b hb

/-- The first node. -/
theorem rbtreeInsert_first (cmp : α → α → Int) {tree : RbtreeT α}
    {rest : Multiset (Nat × NodeT α)} (h : Repr tree [] .nil rest) (fuel : Nat) {a : Nat}
    (hNew : tree.mem a = none) (d : α) :
    ∃ tree', rbtreeInsert cmp fuel tree (some a) (some d) = some (0, tree') ∧
      Repr tree' [] (.node .black .nil (a, d) .nil) rest := by
  have hRoot : tree.root = none := h.root
  have hAlloc := h.holds.alloc hNew (record .left none none none d .black)
  refine ⟨{ tree.alloc a (record .left none none none d .black) with root := some a }, ?_, ?_⟩
  · simp only [rbtreeInsert, hRoot, Option.isNone_none, if_true]
    rfl
  · constructor
    · rfl
    · have hCells : ctxCells [] (some a) + (cells none (.node .black .nil (a, d) .nil) + rest) =
          {(a, record .left none none none d .black)} +
            (ctxCells [] none + (cells none .nil + rest)) := by
        simp only [ctxCells, cells, ptr]
        abel
      exact hCells ▸ hAlloc

/-- A further node, linked where the search ended, and the repair. -/
theorem rbtreeInsert_link {cmp : α → α → Int} {tree : RbtreeT α} {f : Frame (Nat × α)}
    {fs : List (Frame (Nat × α))} {rest : Multiset (Nat × NodeT α)}
    (h : Repr tree (f :: fs) .nil rest) {m : Nat}
    (hBal : Balanced (zip (f :: fs) (.nil : ColorTree (Nat × α))) .black m) {d : α}
    (hSplits : Splits cmp (f :: fs) d) (hCmp : TotalPreorder cmp) {fuel : Nat}
    (hFuel : fs.length + 1 < fuel)
    (hLoop : insertLoop cmp tree d fuel tree.root none = some (some (ctxParent (f :: fs))))
    {a : Nat} (hNew : tree.mem a = none) :
    ∃ tree' t', rbtreeInsert cmp fuel tree (some a) (some d) = some (0, tree') ∧
      Repr tree' [] t' rest ∧
      t'.toList = (zip (f :: fs) (.node .red .nil (a, d) .nil)).toList ∧
      ∃ m, Balanced t' .black m := by
  obtain ⟨tree₁, hSet, h₁⟩ := h.graft hNew d
  obtain ⟨tree₂, t₂, hAdjust, h₂, hList, m', hBal₂⟩ :=
    insertAdjustLoop_spec fuel h₁ (insertInv_leaf hBal (a, d)) hFuel
  have hDest : tree.mem f.x.1 =
      some (record f.side (ctxParent fs) none (ptr f.sib) f.x.2 f.color) :=
    h.parent
  have hNe : f.x.1 ≠ a := by
    intro hEq
    rw [hEq, hNew] at hDest
    cases hDest
  have hNode : (tree.alloc a (record .left (some f.x.1) none none d .red)).node (some f.x.1) =
      some (record f.side (ctxParent fs) none (ptr f.sib) f.x.2 f.color) := by
    simp [RbtreeT.node, RbtreeT.alloc, Function.update_of_ne hNe, hDest]
  -- the side of the new node is the side the element belongs on
  have hSide : cmp d f.x.2 ≠ 0 ∧ (cmp d f.x.2 < 0 ↔ f.side = .left) := by
    cases hf : f.side with
    | left =>
        have hLess := hSplits.high f.x (by simp [after, hf])
        exact ⟨by omega, iff_of_true hLess rfl⟩
    | right =>
        have hMore := hSplits.low f.x (by simp [before, hf])
        have hPos := (hCmp.swap d f.x.2).mpr hMore
        exact ⟨by omega, iff_of_false (by omega) (by decide)⟩
  have hLink : (if cmp d f.x.2 < 0 then
        (tree.alloc a (record .left (some f.x.1) none none d .red)).set (some f.x.1)
          fun n => n.setChild .left (some a)
      else (tree.alloc a (record .left (some f.x.1) none none d .red)).set (some f.x.1)
          fun n => n.setChild .right (some a)) = some tree₁ := by
    cases hf : f.side with
    | left =>
        rw [hf] at hSet
        rw [if_pos (hSide.2.mpr hf), hSet]
    | right =>
        rw [hf] at hSet
        rw [if_neg (fun hLess => by rw [hSide.2.mp hLess] at hf; cases hf), hSet]
  cases t₂ with
  | nil =>
      simp [toList_zip, toList] at hList
  | node c l x r =>
      obtain ⟨tree₃, hBlack, h₃⟩ := @Repr.setColor _ tree₂ [] l r .left c x rest h₂ .black
      have hRoot₂ : tree₂.root = some x.1 := h₂.root
      have hRoot : tree.root ≠ none := by
        obtain ⟨b, n, hEq, -⟩ := ctxRoot_mem fs f none
        rw [h.root, ptr_nil, hEq]
        exact Option.some_ne_none b
      refine ⟨tree₃, branch .left .black l x r, ?_, h₃, hList, m', hBal₂⟩
      have hIns : rbtreeInsertAdjust fuel tree₁ (some a) = some (0, tree₃) := by
        simp only [rbtreeInsertAdjust, Option.isNone_some, Bool.false_eq_true, if_false]
        rw [show insertAdjustLoop fuel tree₁ (some a) = some tree₂ from hAdjust]
        simp only [Option.bind_eq_bind, Option.bind_some, hRoot₂, hBlack]
        rfl
      simp only [rbtreeInsert, Option.isNone_iff_eq_none, hRoot, if_false, hLoop,
        Option.bind_eq_bind, Option.bind_some, ctxParent]
      have hLeaf : NodeT.mk (some f.x.1) none none d .red =
          record .left (some f.x.1) none none d .red := rfl
      rw [hLeaf, hNode]
      simp only [Option.bind_some, record_data, hSide.1, if_false, hLink, hIns]

/-- `rbtree_insert` answers -1 and changes nothing when an equal element is stored, and
otherwise answers 0 and puts the new element in its place. -/
theorem rbtreeInsert_spec {cmp : α → α → Int} (hCmp : TotalPreorder cmp) {tree : RbtreeT α}
    {t : ColorTree (Nat × α)} {rest : Multiset (Nat × NodeT α)} (h : Holding cmp tree t rest)
    {fuel : Nat} (hFuel : t.size < fuel) {a : Nat} (hNew : tree.mem a = none) (d : α) :
    (rbtreeInsert cmp fuel tree (some a) (some d) = some (-1, tree) ∧
        ∃ e ∈ elems t, cmp d e = 0) ∨
    ∃ tree' t' low high, rbtreeInsert cmp fuel tree (some a) (some d) = some (0, tree') ∧
      Holding cmp tree' t' rest ∧ elems t = low ++ high ∧ elems t' = low ++ d :: high ∧
      (∀ e ∈ low, cmp e d < 0) ∧ ∀ e ∈ high, cmp d e < 0 := by
  have hRoot : tree.root = ptr t := h.repr.root
  obtain ⟨m, hBal⟩ := h.balanced
  have hHeight := height_le_size t
  have hTop : Splits cmp [] d := ⟨by simp [before], by simp [after]⟩
  rcases insertLoop_spec hCmp t h.repr h.sorted hTop (by omega : t.height < fuel) with
    ⟨hLoop, hEq⟩ | ⟨fs, hLoop, hZip, hSplits⟩
  · refine Or.inl ⟨?_, hEq⟩
    cases t with
    | nil => simp [elems, toList] at hEq
    | node c l x r =>
        simp only [rbtreeInsert, hRoot, ptr, Option.isNone_some, Bool.false_eq_true, if_false]
        rw [show insertLoop cmp tree d fuel (some x.1) none = some none from hLoop]
        rfl
  · change zip fs .nil = t at hZip
    obtain ⟨low, high, hElems, hElems', hLow, hHigh⟩ := elems_zip_nil hSplits
    rw [hZip] at hElems
    have hSorted := h.sorted
    rw [hElems] at hSorted
    have hDone : ∀ {tree' : RbtreeT α} {t' : ColorTree (Nat × α)},
        rbtreeInsert cmp fuel tree (some a) (some d) = some (0, tree') → Repr tree' [] t' rest →
        t'.toList = (zip fs (.node .red .nil (a, d) .nil)).toList →
        (∃ m, Balanced t' .black m) →
        ∃ tree' t' low high, rbtreeInsert cmp fuel tree (some a) (some d) = some (0, tree') ∧
          Holding cmp tree' t' rest ∧ elems t = low ++ high ∧ elems t' = low ++ d :: high ∧
          (∀ e ∈ low, cmp e d < 0) ∧ ∀ e ∈ high, cmp d e < 0 := by
      intro tree' t' hRun hRepr hList hBal'
      have hNewElems : elems t' = low ++ d :: high := by
        have hLeaf := hElems' (.node .red .nil (a, d) .nil)
        rw [elems] at hLeaf ⊢
        rw [hList, hLeaf]
        simp [elems, toList]
      refine ⟨tree', t', low, high, hRun, ⟨hRepr, ?_, hBal'⟩, hElems, hNewElems, hLow, hHigh⟩
      rw [hNewElems]
      exact hSorted.insert hLow hHigh
    refine Or.inr ?_
    cases fs with
    | nil =>
        obtain rfl : t = .nil := hZip.symm
        obtain ⟨tree', hRun, hRepr⟩ := rbtreeInsert_first cmp h.repr fuel hNew d
        exact hDone hRun hRepr rfl ⟨1, .black .nil .nil⟩
    | cons f fs =>
        have hLen := length_add_size_le (f :: fs) (.nil : ColorTree (Nat × α))
        rw [hZip, List.length_cons] at hLen
        have hRepr : Repr tree (f :: fs) .nil rest := by
          have hAt := h.repr
          rw [← hZip] at hAt
          simpa using repr_zip.mp hAt
        rw [← hZip] at hBal
        rw [← hRoot] at hLoop
        obtain ⟨tree', t', hRun, hRepr', hList, hBal'⟩ := rbtreeInsert_link hRepr hBal hSplits hCmp
          (by omega : fs.length + 1 < fuel) hLoop hNew
        exact hDone hRun hRepr' hList hBal'

end Gbase.Base.Rbtree
