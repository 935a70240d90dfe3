import Gbase.Base.Rbtree
import Gbase.Lib.Store
import Mathlib.Tactic.Abel

/-!
# Trees in memory

How the nodes of `base/rbtree.c` lie in memory: `Repr tree fs t rest` says that the tree is
`t` in the context `fs`, with all parent and child pointers as they should be, and that
`rest` is what else the memory holds.  The values of the abstract tree are pairs of the
address and the data of a node.

## Main results

* `repr_zip`: moving the position up or down in the tree does not change what it says.
* `rbtreeRot_spec`: the rotation in memory is the rotation of the tree at the position.
-/

namespace Gbase.Base.Rbtree

open Gbase.Lib.RedBlack
open Gbase.Lib.RedBlack.ColorTree
open Gbase.Lib.Store

variable {α : Type}

/-! ## Nodes -/

/-- A node with the child on side `s` given first. -/
def record (s : Side) (parent near far : Option Nat) (data : α) (color : Color) : NodeT α :=
  match s with
  | .left => { parent := parent, left := near, right := far, data := data, color := color }
  | .right => { parent := parent, left := far, right := near, data := data, color := color }

section Record

variable (s : Side) (parent near far p : Option Nat) (data d : α) (color c : Color)

@[simp] theorem record_child : (record s parent near far data color).child s = near := by
  cases s <;> rfl

@[simp] theorem record_child_flip :
    (record s parent near far data color).child s.flip = far := by
  cases s <;> rfl

@[simp] theorem record_parent : (record s parent near far data color).parent = parent := by
  cases s <;> rfl

@[simp] theorem record_data : (record s parent near far data color).data = data := by
  cases s <;> rfl

@[simp] theorem record_color : (record s parent near far data color).color = color := by
  cases s <;> rfl

@[simp] theorem record_setChild :
    (record s parent near far data color).setChild s p = record s parent p far data color := by
  cases s <;> rfl

@[simp] theorem record_setChild_flip :
    (record s parent near far data color).setChild s.flip p =
      record s parent near p data color := by
  cases s <;> rfl

@[simp] theorem record_setParent :
    (record s parent near far data color).setParent p = record s p near far data color := by
  cases s <;> rfl

@[simp] theorem record_setColor :
    (record s parent near far data color).setColor c = record s parent near far data c := by
  cases s <;> rfl

end Record

/-- The pointer to the root of a tree. -/
def ptr : ColorTree (Nat × α) → Option Nat
  | .nil => none
  | .node _ _ x _ => some x.1

@[simp] theorem ptr_nil : ptr (.nil : ColorTree (Nat × α)) = none := rfl

@[simp] theorem ptr_branch (s : Side) (c : Color) (near : ColorTree (Nat × α)) (x : Nat × α)
    (far : ColorTree (Nat × α)) : ptr (branch s c near x far) = some x.1 := by
  cases s <;> rfl

@[simp] theorem ptr_node (c : Color) (l : ColorTree (Nat × α)) (x : Nat × α)
    (r : ColorTree (Nat × α)) :
    ptr (.node c l x r) = some x.1 := rfl

theorem ptr_eq_none {t : ColorTree (Nat × α)} : ptr t = none ↔ t = .nil := by
  cases t <;> simp [ptr]

/-- The memory cells of a tree whose root has the given parent. -/
def cells : Option Nat → ColorTree (Nat × α) → Multiset (Nat × NodeT α)
  | _, .nil => 0
  | parent, .node c l x r =>
      {(x.1, record .left parent (ptr l) (ptr r) x.2 c)} +
        (cells (some x.1) l + cells (some x.1) r)

@[simp] theorem cells_nil (parent : Option Nat) :
    cells parent (.nil : ColorTree (Nat × α)) = 0 := rfl

@[simp] theorem cells_branch (s : Side) (parent : Option Nat) (c : Color)
    (near : ColorTree (Nat × α))
    (x : Nat × α) (far : ColorTree (Nat × α)) :
    cells parent (branch s c near x far) =
      {(x.1, record s parent (ptr near) (ptr far) x.2 c)} +
        (cells (some x.1) near + cells (some x.1) far) := by
  cases s with
  | left => rfl
  | right =>
      rw [add_comm (cells (some x.1) near)]
      rfl

/-- The root of a tree has a cell. -/
theorem ptr_mem {t : ColorTree (Nat × α)} {a : Nat} (h : ptr t = some a) (parent : Option Nat) :
    ∃ n, (a, n) ∈ cells parent t ∧ n.color = t.rootColor := by
  cases t with
  | nil => cases h
  | node c l x r =>
      obtain rfl : x.1 = a := Option.some.inj h
      exact ⟨_, Multiset.mem_add.mpr (Or.inl (Multiset.mem_singleton_self _)), rfl⟩

/-! ## Contexts -/

/-- The parent of the position. -/
def ctxParent : List (Frame (Nat × α)) → Option Nat
  | [] => none
  | f :: _ => some f.x.1

@[simp] theorem ctxParent_cons (f : Frame (Nat × α)) (fs : List (Frame (Nat × α))) :
    ctxParent (f :: fs) = some f.x.1 := rfl

/-- The root of the whole tree, when `p` points to the position. -/
def ctxRoot : List (Frame (Nat × α)) → Option Nat → Option Nat
  | [], p => p
  | f :: fs, _ => ctxRoot fs (some f.x.1)

/-- The cells of a context, when `p` points to the position. -/
def ctxCells : List (Frame (Nat × α)) → Option Nat → Multiset (Nat × NodeT α)
  | [], _ => 0
  | f :: fs, p =>
      {(f.x.1, record f.side (ctxParent fs) p (ptr f.sib) f.x.2 f.color)} +
        (cells (some f.x.1) f.sib + ctxCells fs (some f.x.1))

/-- The root is the position or a node of the context. -/
theorem ctxRoot_mem (fs : List (Frame (Nat × α))) (f : Frame (Nat × α)) (p : Option Nat) :
    ∃ a n, ctxRoot (f :: fs) p = some a ∧ (a, n) ∈ ctxCells (f :: fs) p := by
  induction fs generalizing f p with
  | nil =>
      exact ⟨f.x.1, _, rfl, Multiset.mem_add.mpr (Or.inl (Multiset.mem_singleton_self _))⟩
  | cons g gs ih =>
      obtain ⟨a, n, hRoot, hIn⟩ := ih g (some f.x.1)
      refine ⟨a, n, hRoot, ?_⟩
      rw [ctxCells, Multiset.mem_add, Multiset.mem_add]
      exact Or.inr (Or.inr hIn)

/-- The tree is `t` in the context `fs`, and `rest` is what else the memory holds. -/
structure Repr (tree : RbtreeT α) (fs : List (Frame (Nat × α))) (t : ColorTree (Nat × α))
    (rest : Multiset (Nat × NodeT α)) : Prop where
  root : tree.root = ctxRoot fs (ptr t)
  holds : Holds tree.mem (ctxCells fs (ptr t) + (cells (ctxParent fs) t + rest))

/-- Moving the position up to its parent. -/
theorem repr_plug {tree : RbtreeT α} {f : Frame (Nat × α)} {fs : List (Frame (Nat × α))}
    {t : ColorTree (Nat × α)} {rest : Multiset (Nat × NodeT α)} :
    Repr tree fs (f.plug t) rest ↔ Repr tree (f :: fs) t rest := by
  have hRoot : ctxRoot fs (ptr (f.plug t)) = ctxRoot (f :: fs) (ptr t) := by
    rw [Frame.plug, ptr_branch]
    rfl
  have hCells : ctxCells fs (ptr (f.plug t)) + (cells (ctxParent fs) (f.plug t) + rest) =
      ctxCells (f :: fs) (ptr t) + (cells (ctxParent (f :: fs)) t + rest) := by
    rw [Frame.plug, ptr_branch, cells_branch, ctxCells]
    simp only [ctxParent]
    abel
  constructor
  · intro h
    exact ⟨by rw [← hRoot]; exact h.root, by rw [← hCells]; exact h.holds⟩
  · intro h
    exact ⟨by rw [hRoot]; exact h.root, by rw [hCells]; exact h.holds⟩

/-- Moving the position to the root. -/
theorem repr_zip {tree : RbtreeT α} {fs gs : List (Frame (Nat × α))} {t : ColorTree (Nat × α)}
    {rest : Multiset (Nat × NodeT α)} :
    Repr tree gs (zip fs t) rest ↔ Repr tree (fs ++ gs) t rest := by
  induction fs generalizing t with
  | nil => exact Iff.rfl
  | cons f fs ih => exact ih.trans repr_plug

/-! ## Single accesses -/

section Access

variable {tree : RbtreeT α} {M m : Multiset (Nat × NodeT α)} {a : Nat} {n : NodeT α}

theorem node_spec (h : Holds tree.mem M) (hIn : (a, n) ∈ M) : tree.node (some a) = some n :=
  h.read hIn

/-- Changing one node. -/
theorem set_spec (h : Holds tree.mem M) (hM : M = {(a, n)} + m) (f : NodeT α → NodeT α) :
    ∃ tree', tree.set (some a) f = some tree' ∧ tree'.root = tree.root ∧
      Holds tree'.mem ({(a, f n)} + m) := by
  subst hM
  have hRead : tree.mem a = some n :=
    h.read (Multiset.mem_add.mpr (Or.inl (Multiset.mem_singleton_self _)))
  refine ⟨{ tree with mem := Function.update tree.mem a (some (f n)) }, ?_, rfl, h.write (f n)⟩
  simp [RbtreeT.set, hRead]

/-- Giving one node back. -/
theorem free_spec (h : Holds tree.mem M) (hM : M = {(a, n)} + m) :
    ∃ tree', tree.free (some a) = some tree' ∧ tree'.root = tree.root ∧ Holds tree'.mem m := by
  subst hM
  have hRead : tree.mem a = some n :=
    h.read (Multiset.mem_add.mpr (Or.inl (Multiset.mem_singleton_self _)))
  refine ⟨{ tree with mem := Function.update tree.mem a none }, ?_, rfl, h.free⟩
  simp [RbtreeT.free, hRead]

/-- `if (p) p->parent = q` for the root of a tree. -/
theorem setParent_spec {t : ColorTree (Nat × α)} {p : Option Nat} (h : Holds tree.mem M)
    (hM : M = cells p t + m) (q : Option Nat) :
    ∃ tree', (if (ptr t).isSome then tree.set (ptr t) fun n => n.setParent q else some tree) =
        some tree' ∧ tree'.root = tree.root ∧ Holds tree'.mem (cells q t + m) := by
  subst hM
  cases t with
  | nil => exact ⟨tree, rfl, rfl, h⟩
  | node c l x r =>
      obtain ⟨tree', hSet, hRoot, hHolds⟩ := set_spec h
        (show cells p (.node c l x r) + m = {(x.1, record .left p (ptr l) (ptr r) x.2 c)} +
          ((cells (some x.1) l + cells (some x.1) r) + m) from add_assoc _ _ _)
        fun n => n.setParent q
      refine ⟨tree', hSet, hRoot, ?_⟩
      rw [record_setParent, ← add_assoc] at hHolds
      exact hHolds

/-- Two cells that lie next to each other have different addresses. -/
theorem cells_ne (h : Holds tree.mem M) (hM : M = {(a, n)} + m) {b : Nat} {n' : NodeT α}
    (hIn : (b, n') ∈ m) : a ≠ b := by
  subst hM
  exact h.ne hIn

/-- The colour of the root of a tree in memory. -/
theorem hasColor_spec {t : ColorTree (Nat × α)} {p : Option Nat} (h : Holds tree.mem M)
    (hM : ∀ e ∈ cells p t, e ∈ M) :
    tree.hasColor (ptr t) .red = some (decide (t.rootColor = .red)) := by
  cases hPtr : ptr t with
  | none =>
      rw [ptr_eq_none.mp hPtr]
      rfl
  | some a =>
      obtain ⟨n, hIn, hColor⟩ := ptr_mem hPtr p
      simp [RbtreeT.hasColor, node_spec h (hM _ hIn), hColor]

theorem isBlack_spec {t : ColorTree (Nat × α)} {p : Option Nat} (h : Holds tree.mem M)
    (hM : ∀ e ∈ cells p t, e ∈ M) :
    tree.isBlack (ptr t) = some (decide (t.rootColor = .black)) := by
  cases hPtr : ptr t with
  | none =>
      rw [ptr_eq_none.mp hPtr]
      rfl
  | some a =>
      obtain ⟨n, hIn, hColor⟩ := ptr_mem hPtr p
      simp [RbtreeT.isBlack, node_spec h (hM _ hIn), hColor]

end Access

/-! ## Relinking the position -/

/-- Which child of its parent a node is. -/
theorem side_of_child {tree : RbtreeT α} {M m : Multiset (Nat × NodeT α)} {x : Nat}
    {nx : NodeT α} {f : Frame (Nat × α)} {p : Option Nat} (h : Holds tree.mem M)
    (hM : M = {(x, nx)} + m) (hSib : ∀ e ∈ cells (some f.x.1) f.sib, e ∈ m) (s : Side) :
    some x = (record f.side p (some x) (ptr f.sib) f.x.2 f.color).child s ↔ f.side = s := by
  rcases s.eq_or_flip f.side with rfl | rfl
  · simp
  · rw [record_child_flip]
    refine iff_of_false ?_ (Side.flip_ne f.side).symm
    intro hEq
    obtain ⟨n, hIn, -⟩ := ptr_mem hEq.symm (some f.x.1)
    exact cells_ne h hM (hSib _ hIn) rfl

/-- A node that is not in the context is the root only without a context. -/
theorem root_ne {tree : RbtreeT α} {M m : Multiset (Nat × NodeT α)} {x : Nat} {nx : NodeT α}
    {f : Frame (Nat × α)} {fs : List (Frame (Nat × α))} {p : Option Nat}
    (h : Holds tree.mem M) (hM : M = {(x, nx)} + m)
    (hCtx : ∀ e ∈ ctxCells (f :: fs) p, e ∈ m) (hRoot : tree.root = ctxRoot (f :: fs) p) :
    some x ≠ tree.root := by
  obtain ⟨a, n, hEq, hIn⟩ := ctxRoot_mem fs f p
  rw [hRoot, hEq]
  intro hx
  exact cells_ne h hM (hCtx _ hIn) (Option.some.inj hx)

/-- The part of a rotation that puts `y` in the place of `x`. -/
theorem relink_spec {tree : RbtreeT α} {M m : Multiset (Nat × NodeT α)} (x y : Nat)
    (nx ny : NodeT α) (fs : List (Frame (Nat × α))) (h : Holds tree.mem M)
    (hM : M = {(x, nx)} + ({(y, ny)} + (ctxCells fs (some x) + m)))
    (hRoot : tree.root = ctxRoot fs (some x)) (hParent : ny.parent = ctxParent fs) :
    ∃ tree', (if some x = tree.root then do
          let tree ← tree.set (some y) fun n => n.setParent none
          some { tree with root := some y }
        else do
          let np ← tree.node (ctxParent fs)
          if some x = np.left then tree.set (ctxParent fs) fun n => n.setChild .left (some y)
          else tree.set (ctxParent fs) fun n => n.setChild .right (some y)) = some tree' ∧
      tree'.root = ctxRoot fs (some y) ∧
      Holds tree'.mem ({(x, nx)} + ({(y, ny)} + (ctxCells fs (some y) + m))) := by
  cases fs with
  | nil =>
      obtain ⟨tree', hSet, -, hHolds⟩ := set_spec h
        (show M = {(y, ny)} + ({(x, nx)} + (ctxCells [] (some x) + m)) by rw [hM]; abel)
        fun n => n.setParent none
      have hSame : ny.setParent none = ny := by
        cases ny
        cases hParent
        rfl
      refine ⟨{ tree' with root := some y }, ?_, rfl, ?_⟩
      · rw [if_pos (show some x = tree.root from hRoot.symm), hSet]
        rfl
      · rw [hSame] at hHolds
        convert hHolds using 1
        rw [ctxCells, ctxCells]
        abel
  | cons f fs =>
      have hNe := root_ne (p := some x) h hM
        (fun e he => Multiset.mem_add.mpr (Or.inr (Multiset.mem_add.mpr (Or.inl he)))) hRoot
      have hLeft := side_of_child (p := ctxParent fs) h hM (f := f) (by
        intro e he
        simp only [ctxCells, Multiset.mem_add]
        exact Or.inr (Or.inl (Or.inr (Or.inl he)))) .left
      change some x = NodeT.left _ ↔ _ at hLeft
      have hNode : tree.node (ctxParent (f :: fs)) =
          some (record f.side (ctxParent fs) (some x) (ptr f.sib) f.x.2 f.color) := by
        apply node_spec h
        rw [hM]
        simp [ctxCells]
      obtain ⟨tree', hSet, hRoot', hHolds⟩ := set_spec h
        (show M = {(f.x.1, record f.side (ctxParent fs) (some x) (ptr f.sib) f.x.2 f.color)} +
          ({(x, nx)} + ({(y, ny)} +
            (cells (some f.x.1) f.sib + ctxCells fs (some f.x.1) + m))) by
          rw [hM, ctxCells]; abel)
        fun n => n.setChild f.side (some y)
      refine ⟨tree', ?_, by rw [hRoot', hRoot]; rfl, ?_⟩
      · rw [if_neg hNe, hNode]
        simp only [Option.bind_eq_bind, Option.bind_some]
        cases hSide : f.side with
        | left =>
            rw [hSide] at hLeft hSet
            rw [if_pos (hLeft.mpr rfl)]
            exact hSet
        | right =>
            rw [hSide] at hLeft hSet
            rw [if_neg (fun hEq => by cases hLeft.mp hEq)]
            exact hSet
      · rw [record_setChild] at hHolds
        convert hHolds using 1
        rw [ctxCells]
        abel

/-! ## Rotations -/

/-- Rotating the node at the position towards `s` puts its child on the other side in its
place. -/
theorem rbtreeRot_spec {tree : RbtreeT α} {fs : List (Frame (Nat × α))} {s : Side}
    {cx cy : Color} {a b c : ColorTree (Nat × α)} {x y : Nat × α} {rest : Multiset (Nat × NodeT α)}
    (h : Repr tree fs (branch s cx a x (branch s cy b y c)) rest) :
    ∃ tree', rbtreeRot s tree (some x.1) = some tree' ∧
      Repr tree' fs (branch s cy (branch s cx a x b) y c) rest := by
  obtain ⟨hRoot, hHolds⟩ := h
  rw [ptr_branch] at hRoot hHolds
  rw [cells_branch, cells_branch, ptr_branch] at hHolds
  have hX : tree.node (some x.1) =
      some (record s (ctxParent fs) (ptr a) (some y.1) x.2 cx) := by
    apply node_spec hHolds
    simp
  have hY : tree.node (some y.1) = some (record s (some x.1) (ptr b) (ptr c) y.2 cy) := by
    apply node_spec hHolds
    simp
  -- the inner subtree moves over to x
  obtain ⟨tree₁, hSet₁, hRoot₁, hHolds₁⟩ := set_spec (m := cells (some y.1) b +
      ({(y.1, record s (some x.1) (ptr b) (ptr c) y.2 cy)} + (ctxCells fs (some x.1) +
        (cells (some x.1) a + (cells (some y.1) c + rest))))) hHolds
    (n := record s (ctxParent fs) (ptr a) (some y.1) x.2 cx) (a := x.1) (by abel)
    fun n => n.setChild s.flip (ptr b)
  rw [record_setChild_flip] at hHolds₁
  obtain ⟨tree₂, hSet₂, hRoot₂, hHolds₂⟩ := setParent_spec (t := b) (p := some y.1)
    (m := {(x.1, record s (ctxParent fs) (ptr a) (ptr b) x.2 cx)} +
      ({(y.1, record s (some x.1) (ptr b) (ptr c) y.2 cy)} + (ctxCells fs (some x.1) +
        (cells (some x.1) a + (cells (some y.1) c + rest))))) hHolds₁ (by abel) (some x.1)
  have hX₂ : tree₂.node (some x.1) =
      some (record s (ctxParent fs) (ptr a) (ptr b) x.2 cx) := by
    apply node_spec hHolds₂
    simp
  -- x and y change places
  obtain ⟨tree₃, hSet₃, hRoot₃, hHolds₃⟩ := set_spec (m := {(x.1, record s (ctxParent fs)
      (ptr a) (ptr b) x.2 cx)} + (ctxCells fs (some x.1) + (cells (some x.1) b +
        (cells (some x.1) a + (cells (some y.1) c + rest))))) hHolds₂
    (n := record s (some x.1) (ptr b) (ptr c) y.2 cy) (a := y.1) (by abel)
    fun n => n.setParent (ctxParent fs)
  rw [record_setParent] at hHolds₃
  obtain ⟨tree₄, hLink, hRoot₄, hHolds₄⟩ := relink_spec x.1 y.1
    (record s (ctxParent fs) (ptr a) (ptr b) x.2 cx)
    (record s (ctxParent fs) (ptr b) (ptr c) y.2 cy) fs
    (m := cells (some x.1) b + (cells (some x.1) a + (cells (some y.1) c + rest)))
    hHolds₃ (by abel) (by rw [hRoot₃, hRoot₂, hRoot₁, hRoot]) (record_parent ..)
  obtain ⟨tree₅, hSet₅, hRoot₅, hHolds₅⟩ := set_spec (m := {(x.1, record s (ctxParent fs)
      (ptr a) (ptr b) x.2 cx)} + (ctxCells fs (some y.1) + (cells (some x.1) b +
        (cells (some x.1) a + (cells (some y.1) c + rest))))) hHolds₄
    (n := record s (ctxParent fs) (ptr b) (ptr c) y.2 cy) (a := y.1) (by abel)
    fun n => n.setChild s (some x.1)
  rw [record_setChild] at hHolds₅
  obtain ⟨tree₆, hSet₆, hRoot₆, hHolds₆⟩ := set_spec (m := {(y.1, record s (ctxParent fs)
      (some x.1) (ptr c) y.2 cy)} + (ctxCells fs (some y.1) + (cells (some x.1) b +
        (cells (some x.1) a + (cells (some y.1) c + rest))))) hHolds₅
    (n := record s (ctxParent fs) (ptr a) (ptr b) x.2 cx) (a := x.1) (by abel)
    fun n => n.setParent (some y.1)
  rw [record_setParent] at hHolds₆
  refine ⟨tree₆, ?_, ?_, ?_⟩
  · simp only [Option.bind_eq_bind] at hLink
    simp only [rbtreeRot, hX, hY, hSet₁, hSet₂, hX₂, hSet₃, hLink, hSet₅, hSet₆, record_child,
      record_child_flip, record_parent, Option.bind_eq_bind, Option.bind_some]
  · rw [hRoot₆, hRoot₅, hRoot₄, ptr_branch]
  · rw [cells_branch, cells_branch, ptr_branch, ptr_branch]
    convert hHolds₆ using 1
    abel

/-! ## The position -/

section Position

variable {tree : RbtreeT α} {fs : List (Frame (Nat × α))} {f : Frame (Nat × α)}
  {t near far : ColorTree (Nat × α)} {s : Side} {c : Color} {x : Nat × α}
  {rest : Multiset (Nat × NodeT α)}

/-- Moving the position to its sibling. -/
theorem repr_sib :
    Repr tree (f :: fs) t rest ↔ Repr tree (⟨f.side.flip, f.color, f.x, t⟩ :: fs) f.sib rest := by
  rw [← repr_plug, ← repr_plug, Frame.plug, Frame.plug, branch_flip]

/-- Reading the node at the position. -/
theorem Repr.node (h : Repr tree fs (branch s c near x far) rest) :
    tree.node (some x.1) = some (record s (ctxParent fs) (ptr near) (ptr far) x.2 c) := by
  apply node_spec h.holds
  rw [cells_branch]
  simp

/-- Reading the parent of the position. -/
theorem Repr.parent (h : Repr tree (f :: fs) t rest) :
    tree.node (some f.x.1) =
      some (record f.side (ctxParent fs) (ptr t) (ptr f.sib) f.x.2 f.color) :=
  (repr_plug.mpr h).node

/-- Changing the colour of the node at the position. -/
theorem Repr.setColor (h : Repr tree fs (branch s c near x far) rest) (d : Color) :
    ∃ tree', (tree.set (some x.1) fun n => n.setColor d) = some tree' ∧
      Repr tree' fs (branch s d near x far) rest := by
  have hHolds := h.holds
  rw [cells_branch, ptr_branch] at hHolds
  obtain ⟨tree', hSet, hRoot, hHolds'⟩ := set_spec (a := x.1)
    (n := record s (ctxParent fs) (ptr near) (ptr far) x.2 c)
    (m := ctxCells fs (some x.1) + (cells (some x.1) near + (cells (some x.1) far + rest)))
    hHolds (by abel) fun n => n.setColor d
  rw [record_setColor] at hHolds'
  refine ⟨tree', hSet, ?_, ?_⟩
  · rw [hRoot, h.root, ptr_branch, ptr_branch]
  · rw [cells_branch, ptr_branch]
    convert hHolds' using 1
    abel

/-- The same through a pointer to the root of a subtree. -/
theorem Repr.blacken (h : Repr tree fs t rest) {a : Nat} (hPtr : ptr t = some a) :
    ∃ tree', (tree.set (ptr t) fun n => n.setColor .black) = some tree' ∧
      Repr tree' fs t.blacken rest := by
  cases t with
  | nil => cases hPtr
  | node c l x r =>
      have hBranch : Repr tree fs (branch .left c l x r) rest := h
      exact hBranch.setColor .black

/-- Which child of its parent the position is. -/
theorem Repr.side (h : Repr tree (f :: fs) t rest) {a : Nat} (hPtr : ptr t = some a)
    (p : Option Nat) (s : Side) :
    some a = (record f.side p (some a) (ptr f.sib) f.x.2 f.color).child s ↔ f.side = s := by
  cases t with
  | nil => cases hPtr
  | node c l x r =>
      obtain rfl : x.1 = a := Option.some.inj hPtr
      have hHolds := h.holds
      apply side_of_child hHolds (m := ctxCells (f :: fs) (some x.1) + ((cells (some x.1) l +
        cells (some x.1) r) + rest))
      · simp only [cells, ptr]
        abel
      · intro e he
        simp only [ctxCells, Multiset.mem_add]
        exact Or.inl (Or.inr (Or.inl he))

/-- The position is the root only without a context. -/
theorem Repr.ne_root (h : Repr tree (f :: fs) t rest) {a : Nat} (hPtr : ptr t = some a) :
    some a ≠ tree.root := by
  cases t with
  | nil => cases hPtr
  | node c l x r =>
      obtain rfl : x.1 = a := Option.some.inj hPtr
      have hHolds := h.holds
      have hCells : ctxCells (f :: fs) (some x.1) +
          (cells (ctxParent (f :: fs)) (.node c l x r) + rest) =
          {(x.1, record .left (ctxParent (f :: fs)) (ptr l) (ptr r) x.2 c)} +
            (ctxCells (f :: fs) (some x.1) +
              ((cells (some x.1) l + cells (some x.1) r) + rest)) := by
        simp only [cells]
        abel
      exact root_ne hHolds hCells (fun e he => Multiset.mem_add.mpr (Or.inl he)) h.root

theorem Repr.hasColor (h : Repr tree fs t rest) :
    tree.hasColor (ptr t) .red = some (decide (t.rootColor = .red)) := by
  apply hasColor_spec (p := ctxParent fs) h.holds
  intro e he
  simp only [Multiset.mem_add]
  exact Or.inr (Or.inl he)

theorem Repr.isBlack (h : Repr tree fs t rest) :
    tree.isBlack (ptr t) = some (decide (t.rootColor = .black)) := by
  apply isBlack_spec (p := ctxParent fs) h.holds
  intro e he
  simp only [Multiset.mem_add]
  exact Or.inr (Or.inl he)

end Position

end Gbase.Base.Rbtree
