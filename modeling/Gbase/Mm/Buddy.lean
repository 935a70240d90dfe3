import Gbase.Core.OsDef
import Mathlib.Logic.Function.Basic

/-!
# The buddy allocator (`mm/buddy.c`)

The index is an array of tags, one for each node of a binary tree numbered as in a heap;
`tree` maps the numbers of the nodes to their tags.  Entry 0 of the array is reserved, and no
node, so an access to it counts as undefined here like one outside of the array, and so does
a failed assertion.  A pointer into the pool is its offset, and `NULL` is `none`.  The orders
`min_order` and `max_order`, which nothing reads, are left out.
-/

namespace Gbase.Mm.Buddy

open Gbase.Core.OsDef

/-- `BUDDY_UNUSED`, `BUDDY_USED`, `BUDDY_SPLIT`, `BUDDY_FULL` -/
inductive Tag where
  | unused
  | used
  | split
  | full
  deriving DecidableEq

/-- `buddy_t` -/
structure BuddyT where
  poolSize : Nat
  minSize : Nat
  tree : Nat → Option Tag
  treeSize : Nat
  pool : Nat → UInt8

/-- `BUDDY_MIN_SIZE` -/
def buddyMinSize : Nat := 4

/-- The most `MALLOC` can give, `PTRDIFF_MAX`. -/
def mallocMax : Nat := 2 ^ 63 - 1

/-- `buddy_init`; `pool` is what the new memory contains.  A pool of `2 ^ 30` bytes would have
an index of negative size, and a larger one a negative size itself; `MALLOC` fails on these,
and succeeds otherwise. -/
def buddyInit (pool : Nat → UInt8) (size minAllocSize : Nat) : Option BuddyT :=
  let minAllocSize := if minAllocSize < buddyMinSize then buddyMinSize else minAllocSize
  -- round up size by 2^n
  let realSize := toSize (roundup size)
  let realMinSize := toSize (roundup minAllocSize)
  if realMinSize ≥ realSize then none
  else
    let poolSize := toInt realSize
    let minSize := toInt realMinSize
    let treeSize := (toInt (poolSize * 2)).tdiv minSize
    if mallocMax < toSize treeSize ∨ mallocMax < toSize poolSize then none
    else
      some { poolSize := poolSize.toNat
             minSize := minSize.toNat
             treeSize := treeSize.toNat
             tree := fun index =>
               if 1 ≤ index ∧ index < treeSize.toNat then some .unused else none
             pool := pool }

/-- `buddy->tree[index]` -/
def BuddyT.tag (buddy : BuddyT) (index : Nat) : Option Tag := buddy.tree index

/-- `buddy->tree[index] = tag` -/
def BuddyT.setTag (buddy : BuddyT) (index : Nat) (tag : Tag) : Option BuddyT :=
  (buddy.tree index).map fun _ =>
    { buddy with tree := Function.update buddy.tree index (some tag) }

/-- `BUDDY_SIZE_FROM_INDEX` -/
def sizeFromIndex (buddy : BuddyT) (index : Nat) : Nat := buddy.poolSize >>> ilog2 index

/-- `BUDDY_SHIFT_FROM_INDEX` -/
def shiftFromIndex (buddy : BuddyT) (index : Nat) : Nat :=
  (buddy.poolSize >>> ilog2 index) * (index - (1 <<< ilog2 index))

/-- `tree[left]` and `tree[right]` are both used or full. -/
def BuddyT.bothTaken (buddy : BuddyT) (left right : Nat) : Option Bool := do
  let tag ← buddy.tag left
  if tag = .used ∨ tag = .full then
    let tag ← buddy.tag right
    return tag = .used ∨ tag = .full
  else return false

/-- `tree[left]` and `tree[right]` are both unused. -/
def BuddyT.bothUnused (buddy : BuddyT) (left right : Nat) : Option Bool := do
  let tag ← buddy.tag left
  if tag = .unused then
    let tag ← buddy.tag right
    return tag = .unused
  else return false

/-! ## Allocation -/

/-- `while (index > 1)`: loop back to set the full flag.  Halving ends after `index` turns. -/
def fullLoop : Nat → BuddyT → Nat → Option BuddyT
  | 0, buddy, _ => some buddy
  | turns + 1, buddy, index =>
      if index > 1 then do
        let left := (index >>> 1) <<< 1
        let right := left + 1
        let taken ← buddy.bothTaken left right
        if taken then
          let buddy ← buddy.setTag (index / 2) .full
          fullLoop turns buddy (index / 2)
        else return buddy
      else some buddy

/-- `while ((index & 1) && (index > 1)) index /= 2`, at most `index` turns. -/
def climbLoop : Nat → Nat → Nat
  | 0, index => index
  | turns + 1, index =>
      if index % 2 = 1 ∧ index > 1 then climbLoop turns (index / 2) else index

def climb (index : Nat) : Nat := climbLoop index index

/-- The depth first search of `buddy_alloc`; undefined when it takes more than `fuel`
turns. -/
def allocLoop (mallocSize : Nat) : Nat → BuddyT → Nat → Option (Option Nat × BuddyT)
  | 0, _, _ => none
  | fuel + 1, buddy, index =>
      if index < buddy.treeSize then do
        let tag ← buddy.tag index
        match tag with
        | .unused =>
            let memSize := sizeFromIndex buddy index
            -- mark used
            if memSize = mallocSize then
              let buddy ← buddy.setTag index .used
              let mem := shiftFromIndex buddy index
              let buddy ← fullLoop index buddy index
              return (some mem, buddy)
            -- split and going down to get required
            else if memSize > mallocSize then
              let buddy ← buddy.setTag index .split
              allocLoop mallocSize fuel buddy (index * 2)
            -- go back to parent's buddy
            else
              let index := climb (index / 2)
              if index = 1 then return (none, buddy)
              else allocLoop mallocSize fuel buddy (index + 1)
        | .used | .full =>
            -- try self or parent's buddy
            let index := climb index
            if index = 1 then return (none, buddy)
            else allocLoop mallocSize fuel buddy (index + 1)
        | .split =>
            let memSize := sizeFromIndex buddy index
            if memSize ≤ mallocSize then
              let index := climb index
              if index = 1 then return (none, buddy)
              else allocLoop mallocSize fuel buddy (index + 1)
            -- go to child
            else allocLoop mallocSize fuel buddy (index * 2)
      else some (none, buddy)

/-- `buddy_alloc`.  The search visits a node once, so a search that ends takes fewer than
`tree_size` turns. -/
def buddyAlloc (buddy : BuddyT) (nbytes : Nat) : Option (Option Nat × BuddyT) :=
  -- calculate malloc size
  let mallocSize := toSize (roundup nbytes)
  if toInt nbytes > buddy.poolSize then some (none, buddy)
  else
    let mallocSize := if toInt mallocSize < buddy.minSize then buddy.minSize else mallocSize
    allocLoop mallocSize buddy.treeSize buddy 1

/-! ## Search by offset -/

/-- The loop of `buddy_free` and `buddy_realloc` that finds the used node by dichotomy: the
node and `current`.  The index at least doubles, so it leaves the array in fewer than
`tree_size` turns. -/
def searchLoop (buddy : BuddyT) (offset : Nat) :
    Nat → Nat → Nat → Nat → Option (Nat × Nat)
  | 0, _, _, _ => none
  | turns + 1, index, step, current => do
      let tag ← buddy.tag index
      if tag = .used then return (index, current)
      else
        -- find dest by dichotomy
        let step := step / 2
        let index := index * 2
        if offset ≥ current + step then
          searchLoop buddy offset turns (index + 1) step (current + step)
        else searchLoop buddy offset turns index step current

/-- The whole search, with the assertion before it. -/
def search (buddy : BuddyT) (offset : Nat) : Option (Nat × Nat) :=
  if offset ≤ buddy.poolSize then
    searchLoop buddy offset buddy.treeSize 1 buddy.poolSize 0
  else none

/-! ## Release -/

/-- Try merge buddy and set parent unused. -/
def mergeLoop : Nat → BuddyT → Nat → Option BuddyT
  | 0, buddy, _ => some buddy
  | turns + 1, buddy, loop =>
      if loop > 1 then do
        let left := (loop >>> 1) <<< 1
        let right := left + 1
        let unused ← buddy.bothUnused left right
        if unused then
          let buddy ← buddy.setTag (loop / 2) .unused
          mergeLoop turns buddy (loop / 2)
        else return buddy
      else some buddy

/-- Set full parent to split status. -/
def unfullLoop : Nat → BuddyT → Nat → Option BuddyT
  | 0, buddy, _ => some buddy
  | turns + 1, buddy, loop =>
      if loop > 1 then do
        let tag ← buddy.tag (loop / 2)
        if tag = .full then
          let buddy ← buddy.setTag (loop / 2) .split
          unfullLoop turns buddy (loop / 2)
        else return buddy
      else some buddy

/-- `buddy_free` -/
def buddyFree (buddy : BuddyT) (mem : Option Nat) : Option BuddyT :=
  match mem with
  | none => some buddy
  | some offset => do
      let (index, current) ← search buddy offset
      if current = offset then
        let buddy ← buddy.setTag index .unused
        let buddy ← mergeLoop index buddy index
        unfullLoop index buddy index
      else none

/-- `memcpy` within the pool, undefined outside of it or when the regions overlap. -/
def memcpy (buddy : BuddyT) (dest src n : Nat) : Option BuddyT :=
  if dest + n ≤ buddy.poolSize ∧ src + n ≤ buddy.poolSize ∧ (dest + n ≤ src ∨ src + n ≤ dest) then
    some { buddy with pool := fun i =>
      if dest ≤ i ∧ i < dest + n then buddy.pool (src + (i - dest)) else buddy.pool i }
  else none

/-- `buddy_realloc`.  The old block is given back whether or not there is a new one. -/
def buddyRealloc (buddy : BuddyT) (mem : Option Nat) (nbytes : Nat) :
    Option (Option Nat × BuddyT) :=
  match mem with
  | none => buddyAlloc buddy nbytes
  | some offset =>
      if nbytes = 0 then do
        let buddy ← buddyFree buddy mem
        return (none, buddy)
      else do
        let (index, _) ← search buddy offset
        let memSize := sizeFromIndex buddy index
        -- alloc new memory
        let (newMem, buddy) ← buddyAlloc buddy nbytes
        let buddy ← (match newMem with
          | some dest => memcpy buddy dest offset (if memSize < nbytes then memSize else nbytes)
          | none => some buddy)
        let buddy ← buddyFree buddy mem
        return (newMem, buddy)

end Gbase.Mm.Buddy
