import Mathlib.Algebra.Group.Int.Defs
import Mathlib.Algebra.Group.Nat.Defs
import Mathlib.Logic.Function.Basic

/-!
# The skiplist (`base/skiplist.c`)

Nodes in memory, each linked on the levels up to its own.  A pointer is `Option Nat` with `none`
for `NULL`; `mem` maps the addresses in use to the nodes there, the head among them, so reading or
writing through `NULL`, or through an address that was freed, is undefined, and so is a link
outside the array.  Loops take `fuel`, and are undefined when they need more turns.

The four loops that walk along a level are one definition with what is done at a node as a
parameter, and so are the three that go down the levels and change nothing.

A data pointer is `Option α` with `none` for `NULL`, and the comparator is undefined on `NULL`.
The address `MALLOC` returns and the number `rand` returns are arguments.  Counters do not
overflow: a list of `2 ^ 31` nodes does not fit the memory these machines have.
-/

namespace Gbase.Base.Skiplist

/-- `MAX_SKIPLIST_LEVEL` -/
def maxSkiplistLevel : Nat := 4

/-- An element of the array `link`. -/
structure LinkT where
  next : Option Nat
  prev : Option Nat
  span : Int
deriving DecidableEq

/-- `memset` of a link. -/
def emptyLink : LinkT := { next := none, prev := none, span := 0 }

/-- `skiplist_node_t` -/
structure NodeT (α : Type) where
  link : Nat → LinkT
  level : Nat
  data : Option α

/-- `skiplist_t`, with the address of its head and the memory its nodes live in. -/
structure SkiplistT (α : Type) where
  random : Nat → Int
  head : Nat
  mem : Nat → Option (NodeT α)

variable {α : Type}

/-- `skiplist_create` in an unused memory; a power that is not an `int` is undefined. -/
def skiplistCreate (head : Nat) (levelCoff : Int) : Option (SkiplistT α) :=
  if ∀ i < maxSkiplistLevel, -2 ^ 31 ≤ levelCoff ^ i ∧ levelCoff ^ i < 2 ^ 31 then
    some
      { random := fun i => levelCoff ^ i
        head := head
        mem := Function.update (fun _ => none) head
          (some { link := fun _ => emptyLink, level := 0, data := none }) }
  else none

/-- `_skiplist_rand_level`, for what `rand` returns. -/
def skiplistRandLevel (random : Nat → Int) (rand : Nat) : Option Nat :=
  if random (maxSkiplistLevel - 1) = 0 then none
  else
    ((List.range maxSkiplistLevel).find? fun i =>
      (rand : Int).tmod (random (maxSkiplistLevel - 1)) < random i).map fun i =>
        maxSkiplistLevel - 1 - i

/-! ## Accesses -/

/-- Read a link of the node at `a`. -/
def SkiplistT.link (sl : SkiplistT α) (a level : Nat) : Option LinkT := do
  let n ← sl.mem a
  if level < maxSkiplistLevel then return n.link level else none

/-- Change a link of the node at `a`. -/
def SkiplistT.setLink (sl : SkiplistT α) (a level : Nat) (f : LinkT → LinkT) :
    Option (SkiplistT α) := do
  let n ← sl.mem a
  if level < maxSkiplistLevel then
    return { sl with
      mem := Function.update sl.mem a
        (some { n with link := Function.update n.link level (f (n.link level)) }) }
  else none

/-- `MALLOC` answered `a`, and the new node is filled in. -/
def SkiplistT.alloc (sl : SkiplistT α) (a : Nat) (n : NodeT α) : SkiplistT α :=
  { sl with mem := Function.update sl.mem a (some n) }

/-- `FREE` of the node at `a`. -/
def SkiplistT.free (sl : SkiplistT α) (a : Nat) : Option (SkiplistT α) := do
  let _ ← sl.mem a
  return { sl with mem := Function.update sl.mem a none }

/-! ## Walks -/

/-- What a loop does at the next node of a level: go on behind it, end before it, or be done. -/
inductive Turn where
  | pass
  | stop
  | found
deriving DecidableEq

/-- Where a loop along a level ends: done at a node; or behind `prev`, with the node it stopped at,
if there is one. -/
inductive Walk where
  | found (node : Nat) (span : Int)
  | stopped (prev : Nat) (next : Option Nat) (span : Int)

/-- A loop along a level from behind `prev`; `turn` gets the next node and the span up to it. -/
def walk (sl : SkiplistT α) (level : Nat) (turn : NodeT α → Int → Option Turn) :
    Nat → Nat → Int → Option Walk
  | 0, _, _ => none
  | fuel + 1, prev, span => do
      let l ← sl.link prev level
      match l.next with
      | none => return .stopped prev none span
      | some next => do
          let n ← sl.mem next
          let ln ← sl.link next level
          match ← turn n (span + ln.span) with
          | .pass => walk sl level turn fuel next (span + ln.span)
          | .stop => return .stopped prev (some next) span
          | .found => return .found next (span + ln.span)

/-- Where a loop down the levels ends: done at a node met on `level`; or below the last level.
`change` has the nodes where the levels above were left. -/
inductive Descent where
  | found (node level : Nat) (span : Int) (change : Nat → Option Nat)
  | bottom (prev : Nat) (span : Int)

/-- A loop down the levels below the given one. -/
def descend (sl : SkiplistT α) (turn : NodeT α → Int → Option Turn) (fuel : Nat) :
    Nat → Nat → Int → (Nat → Option Nat) → Option Descent
  | 0, prev, span, _ => some (.bottom prev span)
  | level + 1, prev, span, change => do
      match ← walk sl level turn fuel prev span with
      | .found node span => return .found node level span change
      | .stopped prev next span =>
          descend sl turn fuel level prev span (Function.update change level next)

/-! ## Insertion -/

/-- `_skiplist_insert_node` -/
def skiplistInsertNode (sl : SkiplistT α) (prev node level : Nat) : Option (SkiplistT α) := do
  let l ← sl.link prev level
  let next := l.next
  let sl ← sl.setLink prev level fun l => { l with next := some node }
  let sl ← sl.setLink node level fun l => { l with prev := some prev }
  let sl ← sl.setLink node level fun l => { l with next := next }
  match next with
  | none => return sl
  | some next => sl.setLink next level fun l => { l with prev := some node }

/-- The nodes that `skiplist_insert` passes. -/
def insertTurn (cmp : α → α → Int) (data : α) (n : NodeT α) (_ : Int) : Option Turn := do
  let d ← n.data
  if cmp d data ≤ 0 then return .pass else return .stop

/-- The first loop of `skiplist_insert`, on the levels below the given one. -/
def insertLevels (cmp : α → α → Int) (fuel node nodeLevel : Nat) (data : α) :
    Nat → SkiplistT α → Nat → (Nat → Int) → Option (SkiplistT α × (Nat → Int))
  | 0, sl, _, span => some (sl, span)
  | level + 1, sl, prev, span => do
      match ← walk sl level (insertTurn cmp data) fuel prev (span level) with
      | .found _ _ => none
      | .stopped prev next sum =>
          let sl ←
            (if level ≤ nodeLevel then skiplistInsertNode sl prev node level
             else
               match next with
               | none => some sl
               | some next => sl.setLink next level fun l => { l with span := l.span + 1 })
          insertLevels cmp fuel node nodeLevel data level sl prev
            (Function.update span level sum)

/-- The turns of the second loop of `skiplist_insert` up to the given `i`. -/
def insertSpans (node : Nat) (span : Nat → Int) (sl : SkiplistT α) : Nat → Option (SkiplistT α)
  | 0 => some sl
  | i + 1 => do
      let sl ← insertSpans node span sl i
      let below ← sl.link node i
      let sl ← sl.setLink node (i + 1) fun l => { l with span := below.span + span i }
      let l ← sl.link node (i + 1)
      match l.next with
      | none => return sl
      | some next => sl.setLink next (i + 1) fun n => { n with span := n.span - (l.span - 1) }

/-- `skiplist_insert`; `node` is what `MALLOC` returns, and `rand` what `rand` does. -/
def skiplistInsert (cmp : α → α → Int) (fuel : Nat) (sl : SkiplistT α) (node : Option Nat)
    (rand : Nat) (data : Option α) : Option (Int × SkiplistT α) :=
  match data with
  | none => some (-1, sl)
  | some d => do
      let a ← node
      let level ← skiplistRandLevel sl.random rand
      let sl := sl.alloc a { link := fun _ => emptyLink, level := level, data := some d }
      let (sl, span) ←
        insertLevels cmp fuel a level d maxSkiplistLevel sl sl.head fun _ => 0
      let sl ← sl.setLink a 0 fun l => { l with span := 1 }
      let sl ← insertSpans a span sl level
      return (0, sl)

/-! ## Search and removal -/

/-- `_skiplist_erase_node` -/
def skiplistEraseNode (sl : SkiplistT α) (node level : Nat) : Option (SkiplistT α) := do
  let l ← sl.link node level
  let sl ←
    (match l.prev with
     | none => some sl
     | some prev => sl.setLink prev level fun p => { p with next := l.next })
  match l.next with
  | none => return sl
  | some next =>
      let sl ← sl.setLink next level fun n => { n with prev := l.prev }
      let ln ← sl.link node level
      sl.setLink next level fun n => { n with span := n.span + (ln.span - 1) }

/-- What `_skiplist_find_erase` does at a node. -/
def findTurn (cmp : α → α → Int) (data : α) (n : NodeT α) (_ : Int) : Option Turn := do
  let d ← n.data
  if cmp d data = 0 then return .found
  else if cmp d data < 0 then return .pass
  else return .stop

/-- The node is taken out of the levels below the given one. -/
def eraseLevels (node : Nat) : Nat → SkiplistT α → Option (SkiplistT α)
  | 0, sl => some sl
  | level + 1, sl => do
      let sl ← skiplistEraseNode sl node level
      eraseLevels node level sl

/-- The turns of the loop over `change` below the given `i`. -/
def changeSpans (change : Nat → Option Nat) (sl : SkiplistT α) : Nat → Option (SkiplistT α)
  | 0 => some sl
  | i + 1 => do
      let sl ← changeSpans change sl i
      match change i with
      | none => return sl
      | some next => sl.setLink next i fun l => { l with span := l.span - 1 }

/-- `_skiplist_find_erase`: the data that is found, with its rank. -/
def skiplistFindErase (cmp : α → α → Int) (fuel : Nat) (sl : SkiplistT α) (data : Option α)
    (erase : Int) : Option (Option (Option α × Int) × SkiplistT α) :=
  match data with
  | none => some (none, sl)
  | some d => do
      match ← descend sl (findTurn cmp d) fuel maxSkiplistLevel sl.head 0 fun _ => none with
      | .bottom _ _ => return (none, sl)
      | .found node level span change =>
          let n ← sl.mem node
          let sl ←
            (if erase = 0 then do
               let sl ← eraseLevels node (level + 1) sl
               let sl ← sl.free node
               changeSpans change sl maxSkiplistLevel
             else some sl)
          return (some (n.data, span), sl)

/-- `skiplist_find` -/
def skiplistFind (cmp : α → α → Int) (fuel : Nat) (sl : SkiplistT α) (data : Option α) :
    Option (Option (Option α × Int) × SkiplistT α) :=
  skiplistFindErase cmp fuel sl data (-1)

/-- `skiplist_erase` -/
def skiplistErase (cmp : α → α → Int) (fuel : Nat) (sl : SkiplistT α) (data : Option α) :
    Option (Option α × SkiplistT α) := do
  let (found, sl) ← skiplistFindErase cmp fuel sl data 0
  return (found.bind Prod.fst, sl)

/-! ## Ranks -/

/-- What `_skiplist_find_node_by_rank` does at a node. -/
def rankTurn (rank : Int) (_ : NodeT α) (span : Int) : Option Turn :=
  if span = rank then some .found
  else if span < rank then some .pass
  else some .stop

/-- `_skiplist_find_node_by_rank` -/
def skiplistFindNodeByRank (fuel : Nat) (sl : SkiplistT α) (rank : Int) : Option (Option Nat) :=
  if rank ≤ 0 then some none
  else do
    match ← descend sl (rankTurn rank) fuel maxSkiplistLevel sl.head 0 fun _ => none with
    | .found node _ _ _ => return some node
    | .bottom _ _ => return none

/-- `skiplist_find_by_rank` -/
def skiplistFindByRank (fuel : Nat) (sl : SkiplistT α) (rank : Int) : Option (Option α) :=
  if rank ≤ 0 then some none
  else do
    let node ← skiplistFindNodeByRank fuel sl rank
    match node with
    | none => return none
    | some node =>
        let n ← sl.mem node
        return n.data

/-- The loop of the searches with a filter `f`, which may change what `arg` points to: a result of
zero accepts.  `next` is the pointer that the loop follows. -/
def filterLoop {β : Type} (f : α → β → Int × β) (next : LinkT → Option Nat) (sl : SkiplistT α) :
    Nat → Option Nat → β → Option (Option α × β)
  | 0, _, _ => none
  | _ + 1, none, arg => some (none, arg)
  | fuel + 1, some node, arg =>
      if node = sl.head then some (none, arg)
      else do
        let n ← sl.mem node
        let d ← n.data
        let (ret, arg) := f d arg
        if ret = 0 then return (some d, arg)
        else
          let l ← sl.link node 0
          filterLoop f next sl fuel (next l) arg

/-- A search with a filter from a rank on. -/
def findFromRank {β : Type} (next : LinkT → Option Nat) (fuel : Nat) (sl : SkiplistT α)
    (rank : Int) (f : Option (α → β → Int × β)) (arg : β) : Option (Option α × β) :=
  if rank ≤ 0 then some (none, arg)
  else do
    let node ← skiplistFindNodeByRank fuel sl rank
    match f with
    | none => return (none, arg)
    | some f => filterLoop f next sl fuel node arg

/-- `skiplist_find_from_rank_forward` -/
def skiplistFindFromRankForward {β : Type} (fuel : Nat) (sl : SkiplistT α) (rank : Int)
    (f : Option (α → β → Int × β)) (arg : β) : Option (Option α × β) :=
  findFromRank LinkT.next fuel sl rank f arg

/-- `skiplist_find_from_rank_backward` -/
def skiplistFindFromRankBackward {β : Type} (fuel : Nat) (sl : SkiplistT α) (rank : Int)
    (f : Option (α → β → Int × β)) (arg : β) : Option (Option α × β) :=
  findFromRank LinkT.prev fuel sl rank f arg

/-- The loop of `skiplist_find_list_by_rank`, with so many turns left: what is written to the array
behind the first `i` elements, and the scope. -/
def listLoop (sl : SkiplistT α) : Nat → Nat → Option Nat → Int → Option (List (Option α) × Int)
  | 0, _, _, scope => some ([], scope)
  | _ + 1, _, none, scope => some ([], scope)
  | left + 1, i, some node, _ => do
      let n ← sl.mem node
      let l ← sl.link node 0
      let (list, scope) ← listLoop sl left (i + 1) l.next ((i : Int) + 1)
      return (n.data :: list, scope)

/-- `skiplist_find_list_by_rank`: the result, the scope, and what is written to the array.  `list`
tells whether there is an array, which then is long enough. -/
def skiplistFindListByRank (fuel : Nat) (sl : SkiplistT α) (rank : Int) (scope : Option Int)
    (list : Bool) : Option (Int × Option Int × List (Option α)) :=
  match scope with
  | none => some (-1, none, [])
  | some last =>
      if list = false ∨ rank ≤ 0 then some (-1, scope, [])
      else do
        let node ← skiplistFindNodeByRank fuel sl rank
        match node with
        | none => return (-1, scope, [])
        | some node =>
            let (written, scope) ← listLoop sl last.toNat 0 (some node) last
            return (0, some scope, written)

/-- `skiplist_size` -/
def skiplistSize (fuel : Nat) (sl : SkiplistT α) : Option Int := do
  match ← descend sl (fun _ _ => some .pass) fuel maxSkiplistLevel sl.head 0 fun _ => none with
  | .bottom _ span => return span
  | .found _ _ _ _ => none

end Gbase.Base.Skiplist
