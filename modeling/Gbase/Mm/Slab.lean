import Gbase.Core.OsDef
import Mathlib.Logic.Function.Basic

/-!
# The slab allocator (`mm/slab.c`)

A page has `PAGE_SIZE` bytes, aligned to its size, so that a pointer is the number of a page
and a shift in it.  `metas` is what the page contains behind its header, read as `meta_t` at
each multiple of 8 bytes; an access to another shift counts as undefined, and so does a failed
assertion.  The 16 bits of a field are never exhausted, as everything in it is below
`PAGE_SIZE`, and `sz` below `SLAB_SIZE_MAX` once the list is chosen, so these are integers
here.  The four lists hold the numbers of their pages; `NULL` is `none`.
-/

namespace Gbase.Mm.Slab

open Gbase.Core.OsDef

/-- `meta_t` -/
structure MetaT where
  size : Int
  color : BitVec 16
  -- saved shift position according to page
  freeNext : Int
  freePrev : Int
  deriving DecidableEq

/-- `page_t`, without its link, and the rest of the page. -/
structure PageT where
  -- first free memory shift
  free : Int
  -- remain free size
  remain : Int
  metas : Int → MetaT

def metaColorDefault : BitVec 16 := 0
def metaColorAlloc : BitVec 16 := 1

/-- `META_SIZE` -/
def metaSize : Int := 8

def pageSize : Int := 4096

/-- `PAGE_HEAD_SIZE` -/
def pageHeadSize : Int := 24

def slabSizeMinor : Nat := 128
def slabSizeMax : Nat := 1024

/-- `SLAB_ALIGN` of a `size_t`. -/
def slabAlign (sz : Nat) : Nat := ((((sz + 7) % 2 ^ 64) >>> 3) <<< 3) % 2 ^ 64

/-- A `meta_t` may stand there. -/
def ValidShift (shift : Int) : Prop :=
  pageHeadSize ≤ shift ∧ shift + metaSize ≤ pageSize ∧ shift % 8 = 0

instance (shift : Int) : Decidable (ValidShift shift) := by
  unfold ValidShift
  infer_instance

/-- `*meta` -/
def PageT.get (page : PageT) (shift : Int) : Option MetaT :=
  if ValidShift shift then some (page.metas shift) else none

/-- An assignment to fields of `*meta`. -/
def PageT.modify (page : PageT) (shift : Int) (change : MetaT → MetaT) : Option PageT :=
  if ValidShift shift then
    some { page with metas := Function.update page.metas shift (change (page.metas shift)) }
  else none

/-- `meta->color & META_COLOR_ALLOC` -/
def MetaT.allocated (cell : MetaT) : Bool := cell.color &&& metaColorAlloc ≠ 0

/-! ## The free list of a page -/

/-- `_slab_free_insert` -/
def slabFreeInsert (page : PageT) (shift insert : Int) : Option PageT := do
  let cell ← page.get shift
  let page ← (if cell.freeNext > 0 then do
      let next := cell.freeNext
      let page ← page.modify insert fun m => { m with freeNext := next }
      page.modify next fun m => { m with freePrev := insert }
    else some page)
  let page ← page.modify insert fun m => { m with freePrev := shift }
  page.modify shift fun m => { m with freeNext := insert }

/-- `_slab_free_erase`, with the next meta, if any. -/
def slabFreeErase (page : PageT) (shift : Int) : Option (Option Int × PageT) := do
  -- prev and next free link
  let cell ← page.get shift
  let prev := if cell.freePrev > 0 then some cell.freePrev else none
  let next := if cell.freeNext > 0 then some cell.freeNext else none
  -- relink
  let page ← (match next with
    | some next => page.modify next fun m => { m with freePrev := prev.getD (-1) }
    | none => some page)
  let page ← (match prev with
    | some prev => page.modify prev fun m => { m with freeNext := next.getD (-1) }
    | none => some page)
  -- erase self link
  let page ← page.modify shift fun m => { m with freePrev := -1, freeNext := -1 }
  return (next, page)

/-- `_slab_free_replace` -/
def slabFreeReplace (page : PageT) (shift replace : Int) : Option PageT := do
  let cell ← page.get shift
  let page ← (if cell.freePrev > 0 then do
      let prev := cell.freePrev
      let page ← page.modify prev fun m => { m with freeNext := replace }
      page.modify replace fun m => { m with freePrev := prev }
    else page.modify replace fun m => { m with freePrev := -1 })
  let cell ← page.get shift
  if cell.freeNext > 0 then do
    let next := cell.freeNext
    let page ← page.modify next fun m => { m with freePrev := replace }
    page.modify replace fun m => { m with freeNext := next }
  else page.modify replace fun m => { m with freeNext := -1 }

/-- `_slab_free_quick_merge`; returns 0 on success. -/
def slabFreeQuickMerge (page : PageT) (shift replaceNext : Int) : Option (Int × PageT) := do
  let cell ← page.get shift
  let next := shift + metaSize + cell.size
  if next < pageSize then
    let nextCell ← page.get next
    if ¬ nextCell.allocated then
      let prev := if nextCell.freePrev > 0 then some nextCell.freePrev else none
      -- quick merge with next
      let page ← page.modify shift fun m => { m with size := m.size + (nextCell.size + metaSize) }
      let page ← (if replaceNext = 0 then do
          let page ← slabFreeReplace page next shift
          return if next = page.free then { page with free := shift } else page
        else some page)
      -- quick merge with prev
      match prev with
      | none => return (0, page)
      | some prev =>
          let prevCell ← page.get prev
          if prev + metaSize + prevCell.size = shift then
            let cell ← page.get shift
            let page ← page.modify prev fun m =>
              { m with size := m.size + (metaSize + cell.size), freeNext := cell.freeNext }
            let page ← (if cell.freeNext > 0 then
                page.modify cell.freeNext fun m => { m with freePrev := prev }
              else some page)
            return (0, page)
          else return (0, page)
    else return (-1, page)
  else return (-1, page)

/-- `_slab_meta_init` -/
def slabMetaInit (page : PageT) (shift sz : Int) : Option PageT :=
  page.modify shift fun _ =>
    { size := sz, color := metaColorDefault, freeNext := -1, freePrev := -1 }

/-- `_slab_free_split`, with the split meta. -/
def slabFreeSplit (page : PageT) (shift used : Int) : Option (Int × PageT) := do
  let cell ← page.get shift
  if cell.size > used + metaSize then
    let next := shift + metaSize + used
    let page ← slabMetaInit page next (cell.size - used - metaSize)
    let page ← page.modify shift fun m => { m with size := used }
    return (next, page)
  else none

/-! ## The lists of pages -/

/-- The heads `g_slab_minor`, `g_slab_common`, `g_alloc_slab_minor`, `g_alloc_slab_common`. -/
inductive Head where
  | slabMinor
  | slabCommon
  | allocSlabMinor
  | allocSlabCommon
  deriving DecidableEq

/-- The lists and the pages on them. -/
structure SlabT where
  lists : Head → List Nat
  pages : Nat → Option PageT

def slabInit : SlabT where
  lists := fun _ => []
  pages := fun _ => none

/-- The page is linked. -/
def SlabT.linked (slab : SlabT) (number : Nat) : Prop :=
  number ∈ slab.lists .slabMinor ∨ number ∈ slab.lists .slabCommon ∨
    number ∈ slab.lists .allocSlabMinor ∨ number ∈ slab.lists .allocSlabCommon

instance (slab : SlabT) (number : Nat) : Decidable (slab.linked number) := by
  unfold SlabT.linked
  infer_instance

/-- `list_del(&page->link)` -/
def listDel (slab : SlabT) (number : Nat) : Option SlabT :=
  if slab.linked number then
    some { slab with lists := fun head => (slab.lists head).filter (· ≠ number) }
  else none

/-- `list_add(&page->link, head)` -/
def listAdd (slab : SlabT) (number : Nat) (head : Head) : SlabT :=
  { slab with lists := Function.update slab.lists head (number :: slab.lists head) }

/-- `*page = ..` -/
def SlabT.setPage (slab : SlabT) (number : Nat) (page : PageT) : SlabT :=
  { slab with pages := Function.update slab.pages number (some page) }

/-- `_slab_free_page` -/
def slabFreePage (sz : Nat) : Option Head :=
  if sz ≤ slabSizeMinor then some .slabMinor
  else if sz ≤ slabSizeMax then some .slabCommon
  else none

/-- `_slab_page_erase`: make full threshold as size limit. -/
def slabPageErase (slab : SlabT) (number : Nat) (page : PageT) (head : Head) : Option SlabT :=
  match head with
  | .slabMinor =>
      if page.remain < slabSizeMinor then
        (listDel slab number).map fun slab => listAdd slab number .allocSlabMinor
      else some slab
  | .slabCommon =>
      if page.remain < slabSizeMax then
        (listDel slab number).map fun slab => listAdd slab number .allocSlabCommon
      else some slab
  | _ => some slab

/-- `_slab_page_insert` -/
def slabPageInsert (slab : SlabT) (number : Nat) (cell : MetaT) : Option SlabT :=
  match slabFreePage (toSize cell.size) with
  | some head => (listDel slab number).map fun slab => listAdd slab number head
  | none => some slab

/-! ## Allocation -/

/-- The loop over free memory of `_slab_alloc`: the meta that was taken, if any.  A page has
less than 512 blocks. -/
def allocLoop (page : PageT) (sz : Nat) : Nat → Int → Option (Option Int × PageT)
  | 0, _ => none
  | turns + 1, shift =>
      if shift > 0 then do
        let cell ← page.get shift
        -- not enough, ignore
        if cell.size < sz then allocLoop page sz turns cell.freeNext
        -- just fit, erase from free list
        else if cell.size ≤ sz + metaSize then
          let (next, page) ← slabFreeErase page shift
          return (some shift,
            if shift = page.free then { page with free := next.getD (-1) } else page)
        -- do split
        else
          let (split, page) ← slabFreeSplit page shift sz
          let page ← slabFreeReplace page shift split
          return (some shift, if shift = page.free then { page with free := split } else page)
      else some (none, page)

/-- `_slab_alloc` up to `_slab_page_erase`, on the page itself. -/
def pageAlloc (page : PageT) (sz : Nat) : Option (Option Int × PageT) :=
  -- no free memory
  if page.free ≤ 0 ∨ page.remain < sz + metaSize then some (none, page)
  else do
    -- loop free memory
    let (taken, page) ← allocLoop page sz 512 page.free
    match taken with
    | none => return (none, page)
    | some shift =>
        let page ← page.modify shift fun m =>
          { m with color := m.color ||| metaColorAlloc, freeNext := -1, freePrev := -1 }
        let cell ← page.get shift
        return (some shift, { page with remain := page.remain - (metaSize + cell.size) })

/-- The address of `META_MEM`. -/
def metaMem (number : Nat) (shift : Int) : Nat :=
  number * pageSize.toNat + (shift + metaSize).toNat

/-- `_slab_alloc` -/
def slabAllocIn (slab : SlabT) (number : Nat) (head : Head) (sz : Nat) :
    Option (Option Nat × SlabT) := do
  let page ← slab.pages number
  let (taken, page) ← pageAlloc page sz
  let slab := slab.setPage number page
  match taken with
  | none => return (none, slab)
  | some shift =>
      let slab ← slabPageErase slab number page head
      return (some (metaMem number shift), slab)

/-- `list_for_each_entry` of `slab_alloc` -/
def slabAllocLoop (slab : SlabT) (head : Head) (sz : Nat) :
    List Nat → Option (Option Nat × SlabT)
  | [] => some (none, slab)
  | number :: rest => do
      let (memory, slab) ← slabAllocIn slab number head sz
      if memory.isSome then return (memory, slab)
      else slabAllocLoop slab head sz rest

/-- A page as `slab_alloc` sets it up; `content` is what the new memory contains. -/
def newPage (content : Int → MetaT) : Option PageT :=
  let page := { free := pageHeadSize, remain := pageSize - pageHeadSize, metas := content }
  slabMetaInit page pageHeadSize (pageSize - pageHeadSize - metaSize)

/-- `slab_alloc`; `fresh` is the answer of `posix_memalign`. -/
def slabAlloc (slab : SlabT) (sz : Nat) (fresh : Option (Nat × (Int → MetaT))) :
    Option (Option Nat × SlabT) :=
  if sz = 0 then some (none, slab)
  else
    let sz := slabAlign sz
    -- try different list, if exceeds max return null
    match slabFreePage sz with
    | none => some (none, slab)
    | some head => do
        -- alloc from free page
        let (memory, slab) ← slabAllocLoop slab head sz (slab.lists head)
        if memory.isSome then return (memory, slab)
        -- now, we need alloc a new page
        else
          match fresh with
          | none => return (none, slab)
          | some (number, content) =>
              let page ← newPage content
              -- add to link list
              let slab := listAdd (slab.setPage number page) number head
              slabAllocIn slab number head sz

/-! ## Release -/

/-- The loop over the free list of `slab_free`: `prev`. -/
def freeLoop (page : PageT) (shift : Int) : Nat → Int → Option Int
  | 0, _ => none
  | turns + 1, next => do
      let prev := next
      let cell ← page.get prev
      if cell.freeNext < 0 then return prev
      else if shift < cell.freeNext then return prev
      else freeLoop page shift turns cell.freeNext

/-- `slab_free` from the first `_slab_free_quick_merge` to `FREE_SUCCESS`. -/
def pageFree (page : PageT) (shift : Int) : Option PageT := do
  -- try quick merge with next one
  let (rc, page) ← slabFreeQuickMerge page shift 0
  if rc = 0 then return page
  -- if no free head
  else if page.free < 0 then
    let page ← page.modify shift fun m => { m with freePrev := -1, freeNext := -1 }
    return { page with free := shift }
  else
    -- insert from head
    let nextShift := page.free
    if shift < nextShift then
      let page ← page.modify shift fun m => { m with freePrev := -1, freeNext := nextShift }
      let page ← page.modify nextShift fun m => { m with freePrev := shift }
      return { page with free := shift }
    else
      let prev ← freeLoop page shift 512 nextShift
      -- if cant merge, then do link after
      let (rc, page) ← slabFreeQuickMerge page prev (-1)
      if rc ≠ 0 then slabFreeInsert page prev shift else return page

/-- `slab_free` -/
def slabFree (slab : SlabT) (memory : Option Nat) : Option SlabT :=
  match memory with
  | none => some slab
  | some memory => do
      let number := (memory - metaSize.toNat) / pageSize.toNat
      let shift : Int := ((memory - metaSize.toNat) % pageSize.toNat : Nat)
      let page ← slab.pages number
      let cell ← page.get shift
      if ¬ cell.allocated then none
      else
        let page ← page.modify shift fun m => { m with color := m.color &&& ~~~metaColorAlloc }
        let slab ← slabPageInsert slab number cell
        let page ← pageFree { page with remain := page.remain + (cell.size + metaSize) } shift
        -- free page
        if page.remain + pageHeadSize = pageSize then
          let slab ← listDel slab number
          return { slab with pages := Function.update slab.pages number none }
        else return slab.setPage number page

end Gbase.Mm.Slab
