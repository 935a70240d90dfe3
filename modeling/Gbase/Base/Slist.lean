import Gbase.Lib.Run
import Gbase.Lib.Segment

/-!
# The single list (`base/slist.c`)

Nodes in memory, each linked to the next, and a counter beside them.  A pointer to a node is
`Option Nat` with `none` for `NULL`; `mem` maps the addresses in use to the nodes there, so
reading, writing or freeing through an address that is not in use is undefined.  Loops take
`fuel`, and are undefined when they need more turns.

A data pointer is `Option α` with `none` for `NULL`; both pushes refuse `NULL`, so nodes hold an
`α`.  The address `MALLOC` returns is an argument, `none` when it fails.  The list itself is not
`NULL`, and the counter does not overflow: a list of `2 ^ 31` nodes does not fit the memory these
machines have.
-/

namespace Gbase.Base.Slist

/-- `node_t` -/
structure NodeT (α : Type) where
  next : Option Nat
  data : α

/-- `slist_t`, with the memory its nodes live in. -/
structure SlistT (α : Type) where
  size : Int
  node : Option Nat
  mem : Nat → Option (NodeT α)

variable {α : Type}

/-- `slist_create` in an unused memory. -/
def slistCreate : SlistT α := { size := 0, node := none, mem := fun _ => none }

/-! ## Accesses -/

/-- Let `q` follow the node at `prev`, or let the list start with it when there is no node
before. -/
def SlistT.link (sl : SlistT α) (prev q : Option Nat) : Option (SlistT α) :=
  match prev with
  | none => some { sl with node := q }
  | some p => do
      let n ← sl.mem p
      return { sl with mem := Function.update sl.mem p (some { n with next := q }) }

/-- `MALLOC` answered `a`, and the new node is filled in. -/
def SlistT.alloc (sl : SlistT α) (a : Nat) (n : NodeT α) : SlistT α :=
  { sl with mem := Function.update sl.mem a (some n) }

/-- `FREE` of the node at `a`. -/
def SlistT.free (sl : SlistT α) (a : Nat) : Option (SlistT α) := do
  let _ ← sl.mem a
  return { sl with mem := Function.update sl.mem a none }

/-! ## Loops -/

/-- The loop to the last node in `slist_push_back` and `slist_pop_back`: that node, and the one
before it, which only the second keeps. -/
def lastLoop (mem : Nat → Option (NodeT α)) : Nat → Option Nat → Nat → Option (Option Nat × Nat)
  | 0, _, _ => none
  | fuel + 1, prev, n => do
      let node ← mem n
      match node.next with
      | none => return (prev, n)
      | some next => lastLoop mem fuel (some n) next

/-- The loop of `slist_remove` and `slist_find` to the first node with `data`, if there is one,
with the node before it. -/
def dataLoop [DecidableEq α] (mem : Nat → Option (NodeT α)) (data : α) :
    Nat → Option Nat → Option Nat → Option (Option Nat × Option Nat)
  | 0, _, _ => none
  | fuel + 1, tmp, node =>
      match node with
      | none => some (tmp, none)
      | some a => do
          let n ← mem a
          if n.data ≠ data then dataLoop mem data fuel (some a) n.next else return (tmp, some a)

/-- The loop of `slist_clean`. -/
def cleanLoop : Nat → SlistT α → Option Nat → Option (SlistT α)
  | 0, _, _ => none
  | fuel + 1, sl, node =>
      match node with
      | none => some sl
      | some a => do
          let n ← sl.mem a
          let sl ← sl.free a
          cleanLoop fuel sl n.next

/-! ## The interface -/

/-- `slist_push_front` -/
def slistPushFront (sl : SlistT α) (ptr : Option Nat) (data : Option α) : Int × SlistT α :=
  match data, ptr with
  | none, _ => (-1, sl)
  | some _, none => (-1, sl)
  | some d, some a =>
      let sl := sl.alloc a { next := sl.node, data := d }
      (0, { sl with size := sl.size + 1, node := some a })

/-- `slist_push_back` -/
def slistPushBack (fuel : Nat) (sl : SlistT α) (ptr : Option Nat) (data : Option α) :
    Option (Int × SlistT α) :=
  match data, ptr with
  | none, _ => some (-1, sl)
  | some _, none => some (-1, sl)
  | some d, some a => do
      let sl := sl.alloc a { next := none, data := d }
      let sl := { sl with size := sl.size + 1 }
      match sl.node with
      | none => return (0, { sl with node := some a })
      | some node =>
          let last ← lastLoop sl.mem fuel none node
          let sl ← sl.link (some last.2) (some a)
          return (0, sl)

/-- `slist_pop_front` -/
def slistPopFront (sl : SlistT α) : Option (Option α × SlistT α) :=
  match sl.node with
  | none => some (none, sl)
  | some a => do
      let n ← sl.mem a
      let sl := { sl with node := n.next }
      let sl ← sl.free a
      return (some n.data, { sl with size := sl.size - 1 })

/-- `slist_pop_back` -/
def slistPopBack (fuel : Nat) (sl : SlistT α) : Option (Option α × SlistT α) :=
  match sl.node with
  | none => some (none, sl)
  | some node => do
      let last ← lastLoop sl.mem fuel none node
      let sl ← sl.link last.1 none
      let n ← sl.mem last.2
      let sl ← sl.free last.2
      return (some n.data, { sl with size := sl.size - 1 })

/-- `slist_remove` -/
def slistRemove [DecidableEq α] (fuel : Nat) (sl : SlistT α) (data : Option α) :
    Option (Int × SlistT α) :=
  match data with
  | none => some (-1, sl)
  | some d => do
      let found ← dataLoop sl.mem d fuel none sl.node
      match found.2 with
      | none => return (0, sl)
      | some a =>
          let n ← sl.mem a
          let sl ← sl.link found.1 n.next
          let sl ← sl.free a
          return (0, { sl with size := sl.size - 1 })

/-- `slist_find` -/
def slistFind [DecidableEq α] (fuel : Nat) (sl : SlistT α) (data : Option α) : Option Int :=
  match data with
  | none => some (-1)
  | some d => do
      let found ← dataLoop sl.mem d fuel none sl.node
      return if found.2.isSome then 0 else -1

/-- `slist_clean`: the nodes are freed; the counter is left as it is. -/
def slistClean (fuel : Nat) (sl : SlistT α) : Option (Int × SlistT α) := do
  let sl ← cleanLoop fuel sl sl.node
  return (0, { sl with node := none })

/-- `slist_size` -/
def slistSize (sl : SlistT α) : Int := sl.size

end Gbase.Base.Slist
