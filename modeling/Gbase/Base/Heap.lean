import Gbase.Lib.ImplicitHeap

/-!
# The minimum heap with keys (`base/heap.c`)

An array of `(data, heap_key)` nodes in heap order, and a table that maps each key to the
position of its node, so that a client can erase or update by key.  Positions and sizes
are `Nat`, keys and table entries `Int`; reading or writing either array outside its
`cap` cells is undefined, `none`.  A data pointer is `Option α` with `none` for `NULL`,
and the comparator is undefined on `NULL`.

The comparator of the heap object is an argument of the operations: it may read memory
that changes between two calls (the timer does that).  Counters do not overflow: a heap
of `2 ^ 31` nodes does not fit the memory these machines have.
-/

namespace Gbase.Base.Heap

open Gbase.Lib.ImplicitHeap

/-- `node_t` -/
structure NodeT (α : Type) where
  data : Option α
  heapKey : Int

/-- `heap_t` -/
structure HeapT (α : Type) where
  array : Nat → NodeT α
  cap : Nat
  size : Nat
  nextKey : Int
  keyTable : Nat → Int

/-- `HEAP_DEFAULT_SIZE` -/
def heapDefaultSize : Nat := 16

variable {α : Type}

/-- `heap_create`, its allocations succeeding. -/
def heapCreate : HeapT α where
  array := fun _ => { data := none, heapKey := -1 }
  cap := heapDefaultSize
  size := 0
  nextKey := 0
  keyTable := fun _ => -1

/-! ## Accesses to the two arrays -/

/-- Read `array[pos]`. -/
def HeapT.node (heap : HeapT α) (pos : Nat) : Option (NodeT α) :=
  if pos < heap.cap then some (heap.array pos) else none

/-- Write `array[pos]`. -/
def HeapT.setNode (heap : HeapT α) (pos : Nat) (n : NodeT α) : Option (HeapT α) :=
  if pos < heap.cap then
    some { heap with array := fun i => if i = pos then n else heap.array i }
  else none

/-- Read `key_table[key]`. -/
def HeapT.keyPos (heap : HeapT α) (key : Int) : Option Int :=
  if 0 ≤ key ∧ key < heap.cap then some (heap.keyTable key.toNat) else none

/-- Write `key_table[key]`. -/
def HeapT.setKeyPos (heap : HeapT α) (key pos : Int) : Option (HeapT α) :=
  if 0 ≤ key ∧ key < heap.cap then
    some { heap with keyTable := fun k => if k = key.toNat then pos else heap.keyTable k }
  else none

/-- The position `size - 1` of the last node; in an empty heap it is -1, outside the array. -/
def HeapT.lastPos (heap : HeapT α) : Option Nat :=
  if heap.size = 0 then none else some (heap.size - 1)

/-- `cmp_func(array[pos1].data, array[pos2].data)` -/
def heapCmp (cmp : α → α → Int) (heap : HeapT α) (pos1 pos2 : Nat) : Option Int := do
  let n1 ← heap.node pos1
  let n2 ← heap.node pos2
  let d1 ← n1.data
  let d2 ← n2.data
  return cmp d1 d2

/-- `_heap_swap` -/
def heapSwap (heap : HeapT α) (pos1 pos2 : Nat) : Option (HeapT α) := do
  let n1 ← heap.node pos1
  let n2 ← heap.node pos2
  let heap ← heap.setKeyPos n1.heapKey pos2
  let heap ← heap.setKeyPos n2.heapKey pos1
  let heap ← heap.setNode pos1 n2
  heap.setNode pos2 n1

/-- `_heap_full`: 0 when the array is used up. -/
def heapFull (heap : HeapT α) : Int := if heap.cap = heap.size then 0 else -1

/-- `_heap_realloc`; `mem` tells whether its two allocations succeed. -/
def heapRealloc (mem : Bool) (heap : HeapT α) : Int × HeapT α :=
  if mem then
    (0, { heap with
          array := fun i => if i < heap.cap then heap.array i else { data := none, heapKey := -1 }
          keyTable := fun k => if k < heap.cap then heap.keyTable k else -1
          cap := heap.cap * 2 })
  else (-1, heap)

/-- The loop of `_heap_set_next_key` from `key` on; undefined when it does not end. -/
def nextKeyLoop (heap : HeapT α) : Nat → Nat → Option Int
  | 0, _ => none
  | fuel + 1, key =>
      if (key : Int) = heap.nextKey then some heap.cap
      else if heap.keyTable key < 0 then some key
      else nextKeyLoop heap fuel ((key + 1) % heap.cap)

/-- `_heap_set_next_key`: the next free key after `next_key`, or `cap` when there is none. -/
def heapSetNextKey (heap : HeapT α) : Option (HeapT α) := do
  let key ← nextKeyLoop heap (heap.cap + 1) ((heap.nextKey.toNat + 1) % heap.cap)
  return { heap with nextKey := key }

/-- The loop of `_heap_rotdown`. -/
def rotdownLoop (cmp : α → α → Int) : Nat → HeapT α → Nat → Option (HeapT α)
  | 0, _, _ => none
  | fuel + 1, heap, pos =>
      let left := 2 * pos + 1
      let right := 2 * pos + 2
      if pos < heap.size then
        -- no left and no right child
        if heap.size ≤ left then some heap
        -- no right child
        else if heap.size ≤ right then do
          let c ← heapCmp cmp heap left pos
          if c < 0 then
            let heap ← heapSwap heap pos left
            rotdownLoop cmp fuel heap left
          else some heap
        else do
          let c ← heapCmp cmp heap left right
          let child := if c < 0 then left else right
          let c ← heapCmp cmp heap child pos
          if c < 0 then
            let heap ← heapSwap heap pos child
            rotdownLoop cmp fuel heap child
          else some heap
      else some heap

/-- `_heap_rotdown` -/
def heapRotdown (cmp : α → α → Int) (heap : HeapT α) (pos : Nat) : Option (HeapT α) :=
  rotdownLoop cmp (heap.size + 1) heap pos

/-- The loop of `heap_insert` that moves the new node up. -/
def rotupLoop (cmp : α → α → Int) : Nat → HeapT α → Nat → Option (HeapT α)
  | 0, _, _ => none
  | fuel + 1, heap, pos =>
      if 0 < pos then do
        let posUp := parent pos
        let c ← heapCmp cmp heap pos posUp
        if 0 ≤ c then some heap
        else
          let heap ← heapSwap heap pos posUp
          rotupLoop cmp fuel heap posUp
      else some heap

/-! ## The interface -/

/-- `heap_insert`: the key of the new node, or -1. -/
def heapInsert (cmp : α → α → Int) (mem : Bool) (heap : HeapT α) (data : Option α) :
    Option (Int × HeapT α) :=
  if data.isNone then some (-1, heap)
  else
    let (ret, heap) := if heapFull heap = 0 then heapRealloc mem heap else (0, heap)
    if ret < 0 then some (-1, heap)
    else do
      let pos := heap.size
      let res := heap.nextKey
      let heap := { heap with size := heap.size + 1 }
      let heap ← heap.setNode pos { data := data, heapKey := res }
      let heap ← heap.setKeyPos res pos
      let heap ← heapSetNextKey heap
      let heap ← rotupLoop cmp (pos + 1) heap pos
      return (res, heap)

/-- `heap_erase` -/
def heapErase (cmp : α → α → Int) (heap : HeapT α) (key : Int) :
    Option (Option α × HeapT α) := do
  let index ← heap.keyPos key
  if index < 0 then return (none, heap)
  else
    let n ← heap.node index.toNat
    let heap := if heap.nextKey = heap.cap then { heap with nextKey := key } else heap
    let last ← heap.lastPos
    let heap ← heapSwap heap index.toNat last
    let heap := { heap with size := heap.size - 1 }
    let heap ← heapRotdown cmp heap index.toNat
    let heap ← heap.setKeyPos key (-1)
    return (n.data, heap)

/-- `heap_update` -/
def heapUpdate (cmp : α → α → Int) (heap : HeapT α) (key : Int) (data : Option α) :
    Option (HeapT α) :=
  if data.isNone then some heap
  else do
    let index ← heap.keyPos key
    if index < 0 then return heap
    else
      let n ← heap.node index.toNat
      let heap ← heap.setNode index.toNat { n with data := data }
      heapRotdown cmp heap index.toNat

/-- `heap_size` -/
def heapSize (heap : HeapT α) : Nat := heap.size

/-- `heap_top` -/
def heapTop (heap : HeapT α) : Option α :=
  if 0 < heap.size then (heap.array 0).data else none

/-- `heap_pop` -/
def heapPop (cmp : α → α → Int) (heap : HeapT α) : Option (Option α × HeapT α) :=
  if heap.size = 0 then some (none, heap)
  else do
    let n ← heap.node 0
    let heap ← heapSwap heap 0 (heap.size - 1)
    let heap := { heap with size := heap.size - 1 }
    let heap ← heapRotdown cmp heap 0
    return (n.data, heap)

end Gbase.Base.Heap
