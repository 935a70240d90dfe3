import Gbase.Lib.RedBlack
import Mathlib.Logic.Function.Basic

/-!
# The red-black tree (`base/rbtree.c`)

Nodes in memory with pointers to parent and children.  A pointer is `Option Nat` with
`none` for `NULL`; `mem` maps the addresses in use to the nodes there, so reading or writing
through `NULL`, or through an address that was freed, is undefined.  Loops and recursions
take `fuel`, and are undefined when they need more turns.  `_rbtree_rotl` and `_rbtree_rotr`
are mirror images of each other, and so are the two halves of both `adjust` loops; each pair
is one definition with the side as a parameter.

A data pointer is `Option α` at the interface; `NULL` is never stored.  The address `MALLOC`
returns is an argument.
-/

namespace Gbase.Base.Rbtree

open Gbase.Lib.RedBlack

/-- `node_t` -/
structure NodeT (α : Type) where
  parent : Option Nat
  left : Option Nat
  right : Option Nat
  data : α
  color : Color

/-- `rbtree_t`, with the memory its nodes live in. -/
structure RbtreeT (α : Type) where
  root : Option Nat
  mem : Nat → Option (NodeT α)

variable {α : Type}

/-- `rbtree_create` in an unused memory. -/
def rbtreeCreate : RbtreeT α := { root := none, mem := fun _ => none }

/-! ## Accesses -/

def NodeT.child (n : NodeT α) : Side → Option Nat
  | .left => n.left
  | .right => n.right

def NodeT.setChild (n : NodeT α) (side : Side) (p : Option Nat) : NodeT α :=
  match side with
  | .left => { n with left := p }
  | .right => { n with right := p }

def NodeT.setParent (n : NodeT α) (p : Option Nat) : NodeT α := { n with parent := p }

def NodeT.setColor (n : NodeT α) (c : Color) : NodeT α := { n with color := c }

/-- Read the node at `p`. -/
def RbtreeT.node (tree : RbtreeT α) (p : Option Nat) : Option (NodeT α) := p.bind tree.mem

/-- Change the node at `p`. -/
def RbtreeT.set (tree : RbtreeT α) (p : Option Nat) (f : NodeT α → NodeT α) :
    Option (RbtreeT α) := do
  let a ← p
  let n ← tree.mem a
  return { tree with mem := Function.update tree.mem a (some (f n)) }

/-- `FREE(p)` -/
def RbtreeT.free (tree : RbtreeT α) (p : Option Nat) : Option (RbtreeT α) := do
  let a ← p
  let _ ← tree.mem a
  return { tree with mem := Function.update tree.mem a none }

/-- `MALLOC` answered `a`, and the new node is filled in. -/
def RbtreeT.alloc (tree : RbtreeT α) (a : Nat) (n : NodeT α) : RbtreeT α :=
  { tree with mem := Function.update tree.mem a (some n) }

/-- `p && p->color == c` -/
def RbtreeT.hasColor (tree : RbtreeT α) (p : Option Nat) (c : Color) : Option Bool :=
  match p with
  | none => some false
  | some _ => (tree.node p).map fun n => n.color = c

/-- `!p || p->color == RBTREE_BLACK` -/
def RbtreeT.isBlack (tree : RbtreeT α) (p : Option Nat) : Option Bool :=
  match p with
  | none => some true
  | some _ => (tree.node p).map fun n => n.color = .black

/-- Both children of the node are missing or black. -/
def RbtreeT.bothBlack (tree : RbtreeT α) (n : NodeT α) : Option Bool := do
  let left ← tree.isBlack n.left
  if left then tree.isBlack n.right
  else return false

/-! ## Walks -/

/-- The loop of `_rbtree_min_node`. -/
def minNodeLoop (tree : RbtreeT α) : Nat → Option Nat → Option (Option Nat)
  | 0, _ => none
  | fuel + 1, p => do
      let n ← tree.node p
      if n.left.isSome then minNodeLoop tree fuel n.left
      else return p

/-- `_rbtree_min_node` -/
def rbtreeMinNode (fuel : Nat) (tree : RbtreeT α) (node : Option Nat) : Option (Option Nat) :=
  if node.isSome then minNodeLoop tree fuel node else some none

/-- The loop of `_rbtree_next_node` that looks for the first parent whose left subtree
holds the node. -/
def nextNodeLoop (tree : RbtreeT α) : Nat → Option Nat → Option Nat → Option (Option Nat)
  | 0, _, _ => none
  | _ + 1, _, none => some none
  | fuel + 1, source, some dest => do
      let n ← tree.node (some dest)
      if source = n.right then nextNodeLoop tree fuel (some dest) n.parent
      else return some dest

/-- `_rbtree_next_node` -/
def rbtreeNextNode (fuel : Nat) (tree : RbtreeT α) (node : Option Nat) : Option (Option Nat) :=
  if node.isNone then some none
  else do
    let n ← tree.node node
    if n.right.isSome then rbtreeMinNode fuel tree n.right
    else nextNodeLoop tree fuel node n.parent

/-- `_rbtree_find_node` -/
def rbtreeFindNode (cmp : α → α → Int) (tree : RbtreeT α) (data : α) :
    Nat → Option Nat → Option (Option Nat)
  | 0, _ => none
  | _ + 1, none => some none
  | fuel + 1, some a => do
      let n ← tree.node (some a)
      let ret := cmp data n.data
      if ret = 0 then return some a
      else if ret < 0 then rbtreeFindNode cmp tree data fuel n.left
      else rbtreeFindNode cmp tree data fuel n.right

/-- `rbtree_find` -/
def rbtreeFind (cmp : α → α → Int) (fuel : Nat) (tree : RbtreeT α) (data : Option α) :
    Option (Option α) :=
  match data with
  | none => some none
  | some d =>
      if tree.root.isNone then some none
      else do
        let node ← rbtreeFindNode cmp tree d fuel tree.root
        if node.isSome then
          let n ← tree.node node
          return some n.data
        else return none

/-- `_rbtree_loop_node`: the data `func` is called with, in order. -/
def rbtreeLoopNode (tree : RbtreeT α) : Nat → Option Nat → Option (List α)
  | 0, _ => none
  | _ + 1, none => some []
  | fuel + 1, some a => do
      let n ← tree.node (some a)
      let before ← (if n.left.isSome then rbtreeLoopNode tree fuel n.left else some [])
      let after ← (if n.right.isSome then rbtreeLoopNode tree fuel n.right else some [])
      return before ++ n.data :: after

/-- `rbtree_loop` -/
def rbtreeLoop (fuel : Nat) (tree : RbtreeT α) : Option (List α) :=
  if tree.root.isNone then some [] else rbtreeLoopNode tree fuel tree.root

/-! ## Rotations -/

/-- The rotation of `x` towards `side`: its child on the other side takes its place. -/
def rbtreeRot (side : Side) (tree : RbtreeT α) (x : Option Nat) : Option (RbtreeT α) := do
  let nx ← tree.node x
  let y := nx.child side.flip
  let ny ← tree.node y
  -- node b
  let b := ny.child side
  let tree ← tree.set x fun n => n.setChild side.flip b
  let tree ← (if b.isSome then tree.set b fun n => n.setParent x else some tree)
  -- x and y change
  let nx ← tree.node x
  let tree ← tree.set y fun n => n.setParent nx.parent
  let tree ←
    (if x = tree.root then do
       let tree ← tree.set y fun n => n.setParent none
       some { tree with root := y }
     else do
       let np ← tree.node nx.parent
       if x = np.left then tree.set nx.parent fun n => n.setChild .left y
       else tree.set nx.parent fun n => n.setChild .right y)
  let tree ← tree.set y fun n => n.setChild side x
  tree.set x fun n => n.setParent y

/-- `_rbtree_rotl` -/
def rbtreeRotl (tree : RbtreeT α) (node : Option Nat) : Option (RbtreeT α) :=
  rbtreeRot .left tree node

/-- `_rbtree_rotr` -/
def rbtreeRotr (tree : RbtreeT α) (node : Option Nat) : Option (RbtreeT α) :=
  rbtreeRot .right tree node

/-! ## Insertion -/

/-- Case 3 of `_rbtree_insert_adjust`: the uncle is black and `z` the outer child. -/
def insertAdjustOuter (side : Side) (tree : RbtreeT α) (z : Option Nat) :
    Option (RbtreeT α × Option Nat) := do
  let nz ← tree.node z
  let tree ← tree.set nz.parent fun n => n.setColor .black
  let np ← tree.node nz.parent
  let tree ← tree.set np.parent fun n => n.setColor .red
  let tree ← rbtreeRot side.flip tree np.parent
  return (tree, z)

/-- One turn of `_rbtree_insert_adjust`; the parent of `z` is the child of its parent on
`side`. -/
def insertAdjustTurn (side : Side) (tree : RbtreeT α) (z : Option Nat) :
    Option (RbtreeT α × Option Nat) := do
  let nz ← tree.node z
  let np ← tree.node nz.parent
  let ng ← tree.node np.parent
  -- 1. uncle is red
  let y := ng.child side.flip
  let redUncle ← tree.hasColor y .red
  if redUncle then
    let tree ← tree.set y fun n => n.setColor .black
    let tree ← tree.set nz.parent fun n => n.setColor .black
    let tree ← tree.set np.parent fun n => n.setColor .red
    return (tree, np.parent)
  -- 2. transform to 3.
  else if z = np.child side.flip then
    let z := nz.parent
    let tree ← rbtreeRot side tree z
    insertAdjustOuter side tree z
  else insertAdjustOuter side tree z

/-- The loop of `_rbtree_insert_adjust`. -/
def insertAdjustLoop : Nat → RbtreeT α → Option Nat → Option (RbtreeT α)
  | 0, _, _ => none
  | fuel + 1, tree, z =>
      if z = tree.root then some tree
      else do
        let nz ← tree.node z
        let np ← tree.node nz.parent
        if np.color = .red then
          let ng ← tree.node np.parent
          let side := if nz.parent = ng.left then Side.left else Side.right
          let (tree, z) ← insertAdjustTurn side tree z
          insertAdjustLoop fuel tree z
        else return tree

/-- `_rbtree_insert_adjust` -/
def rbtreeInsertAdjust (fuel : Nat) (tree : RbtreeT α) (node : Option Nat) :
    Option (Int × RbtreeT α) :=
  if node.isNone then some (-1, tree)
  else do
    let tree ← insertAdjustLoop fuel tree node
    let tree ← tree.set tree.root fun n => n.setColor .black
    return (0, tree)

/-- The loop of `rbtree_insert`: the parent of the new node, or nothing when an equal
element is met. -/
def insertLoop (cmp : α → α → Int) (tree : RbtreeT α) (data : α) :
    Nat → Option Nat → Option Nat → Option (Option (Option Nat))
  | 0, _, _ => none
  | _ + 1, none, dest => some (some dest)
  | fuel + 1, some parent, _ => do
      let n ← tree.node (some parent)
      if cmp data n.data = 0 then return none
      else if cmp data n.data < 0 then insertLoop cmp tree data fuel n.left (some parent)
      else insertLoop cmp tree data fuel n.right (some parent)

/-- `rbtree_insert`; `node` is what `MALLOC` returns. -/
def rbtreeInsert (cmp : α → α → Int) (fuel : Nat) (tree : RbtreeT α) (node : Option Nat)
    (data : Option α) : Option (Int × RbtreeT α) :=
  match data with
  | none => some (-1, tree)
  | some d =>
      if tree.root.isNone then
        match node with
        | none => some (-1, tree)
        | some a =>
            some (0, { tree.alloc a
              { parent := none, left := none, right := none, data := d, color := .black } with
                root := some a })
      else do
        let dest ← insertLoop cmp tree d fuel tree.root none
        match dest, node with
        | none, _ => return (-1, tree)
        | some _, none => return (-1, tree)
        | some dest, some a =>
            let tree := tree.alloc a
              { parent := dest, left := none, right := none, data := d, color := .red }
            let nd ← tree.node dest
            -- no circumstance allows same key in a tree
            if cmp d nd.data = 0 then none
            else
              let tree ←
                (if cmp d nd.data < 0 then tree.set dest fun n => n.setChild .left (some a)
                 else tree.set dest fun n => n.setChild .right (some a))
              rbtreeInsertAdjust fuel tree (some a)

/-! ## Deletion -/

/-- Case 4 of `_rbtree_delete_adjust`: the brother is black, and its outer child red. -/
def deleteAdjustOuter (side : Side) (tree : RbtreeT α) (parent w : Option Nat) :
    Option (RbtreeT α × Option Nat × Option Nat) := do
  let np ← tree.node parent
  let tree ← tree.set w fun n => n.setColor np.color
  let tree ← tree.set parent fun n => n.setColor .black
  let nw ← tree.node w
  let tree ← tree.set (nw.child side.flip) fun n => n.setColor .black
  let tree ← rbtreeRot side tree parent
  return (tree, tree.root, parent)

/-- Cases 2 to 4 of `_rbtree_delete_adjust`: the brother `w` is black. -/
def deleteAdjustBlack (side : Side) (tree : RbtreeT α) (parent w : Option Nat) :
    Option (RbtreeT α × Option Nat × Option Nat) := do
  let nw ← tree.node w
  let childrenBlack ← tree.bothBlack nw
  -- 2. if brother node black, set red
  if childrenBlack then
    let tree ← tree.set w fun n => n.setColor .red
    let np ← tree.node parent
    return (tree, parent, np.parent)
  else
    -- 3. brother's outer child black
    let outerBlack ← tree.isBlack (nw.child side.flip)
    if outerBlack then
      let tree ← tree.set (nw.child side) fun n => n.setColor .black
      let tree ← tree.set w fun n => n.setColor .red
      let tree ← rbtreeRot side.flip tree w
      let np ← tree.node parent
      deleteAdjustOuter side tree parent (np.child side.flip)
    else deleteAdjustOuter side tree parent w

/-- One turn of `_rbtree_delete_adjust`, for the child of `parent` on `side`; the result is
the next `x` and `parent`. -/
def deleteAdjustTurn (side : Side) (tree : RbtreeT α) (parent : Option Nat) :
    Option (RbtreeT α × Option Nat × Option Nat) := do
  let np ← tree.node parent
  let w := np.child side.flip
  let nw ← tree.node w
  -- 1. if brother red, set black, set father red, then rotate
  if nw.color = .red then
    let tree ← tree.set w fun n => n.setColor .black
    let tree ← tree.set parent fun n => n.setColor .red
    let tree ← rbtreeRot side tree parent
    let np ← tree.node parent
    deleteAdjustBlack side tree parent (np.child side.flip)
  else deleteAdjustBlack side tree parent w

/-- The loop of `_rbtree_delete_adjust`.  When `x` is on neither side, or has no brother,
a turn changes nothing, and the loop never ends. -/
def deleteAdjustLoop : Nat → RbtreeT α → Option Nat → Option Nat →
    Option (RbtreeT α × Option Nat)
  | 0, _, _, _ => none
  | fuel + 1, tree, x, parent =>
      if x = tree.root then some (tree, x)
      else do
        let black ← tree.isBlack x
        if black then
          let np ← tree.node parent
          if x = np.left ∧ np.right.isSome then
            let (tree, x, parent) ← deleteAdjustTurn .left tree parent
            deleteAdjustLoop fuel tree x parent
          else if x = np.right ∧ np.left.isSome then
            let (tree, x, parent) ← deleteAdjustTurn .right tree parent
            deleteAdjustLoop fuel tree x parent
          else deleteAdjustLoop fuel tree x parent
        else return (tree, x)

/-- `_rbtree_delete_adjust` -/
def rbtreeDeleteAdjust (fuel : Nat) (tree : RbtreeT α) (node parent : Option Nat) :
    Option (RbtreeT α) := do
  let (tree, x) ← deleteAdjustLoop fuel tree node parent
  if x.isSome then tree.set x fun n => n.setColor .black
  else return tree

/-- `_rbtree_delete_node` -/
def rbtreeDeleteNode (fuel : Nat) (tree : RbtreeT α) (node : Option Nat) :
    Option (RbtreeT α) := do
  let n ← tree.node node
  if n.left.isNone ∧ n.right.isNone then
    -- 1. no child
    if tree.root = node then
      let tree ← tree.free tree.root
      return { tree with root := none }
    else
      let np ← tree.node n.parent
      let tree ←
        (if np.right = node then tree.set n.parent fun n => n.setChild .right none
         else tree.set n.parent fun n => n.setChild .left none)
      let tree ←
        (if n.color = .black then rbtreeDeleteAdjust fuel tree none n.parent else some tree)
      tree.free node
  else if n.left.isSome ∧ n.right.isSome then
    -- 2. two children: the successor gives its data and is released
    let next ← rbtreeNextNode fuel tree node
    let nn ← tree.node next
    let tree ← tree.set node fun n => { n with data := nn.data }
    let np ← tree.node nn.parent
    let ch := nn.right
    let tree ←
      (if next = np.left ∧ ch.isSome then do
         let tree ← tree.set nn.parent fun n => n.setChild .left ch
         tree.set ch fun n => n.setParent nn.parent
       else if next = np.left ∧ ch.isNone then tree.set nn.parent fun n => n.setChild .left none
       else if next = np.right ∧ ch.isSome then do
         let tree ← tree.set nn.parent fun n => n.setChild .right ch
         tree.set ch fun n => n.setParent nn.parent
       else if next = np.right ∧ ch.isNone then
         tree.set nn.parent fun n => n.setChild .right none
       else some tree)
    let tree ←
      (if nn.color = .black then rbtreeDeleteAdjust fuel tree ch nn.parent else some tree)
    tree.free next
  else
    -- 3. one child
    let ch := if n.left.isSome then n.left else n.right
    let nc ← tree.node ch
    if node = tree.root then
      let tree ← tree.set node fun n =>
        { n with parent := none, color := .black, left := nc.left, right := nc.right,
                 data := nc.data }
      let tree ← (if nc.left.isSome then tree.set nc.left fun n => n.setParent node else some tree)
      let tree ←
        (if nc.right.isSome then tree.set nc.right fun n => n.setParent node else some tree)
      tree.free ch
    else
      let tree ← tree.set ch fun c => c.setParent n.parent
      let np ← tree.node n.parent
      let tree ←
        (if node = np.left then tree.set n.parent fun n => n.setChild .left ch
         else tree.set n.parent fun n => n.setChild .right ch)
      let tree ←
        (if n.color = .black then rbtreeDeleteAdjust fuel tree ch n.parent else some tree)
      tree.free node

/-- `rbtree_delete` -/
def rbtreeDelete (cmp : α → α → Int) (fuel : Nat) (tree : RbtreeT α) (data : Option α) :
    Option (Option α × RbtreeT α) :=
  match data with
  | none => some (none, tree)
  | some d =>
      if tree.root.isNone then some (none, tree)
      else do
        let node ← rbtreeFindNode cmp tree d fuel tree.root
        if node.isNone then return (none, tree)
        else
          let n ← tree.node node
          let tree ← rbtreeDeleteNode fuel tree node
          return (some n.data, tree)

end Gbase.Base.Rbtree
