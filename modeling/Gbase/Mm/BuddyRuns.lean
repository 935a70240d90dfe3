import Gbase.Lib.Run
import Gbase.Mm.BuddyOps

/-!
# Runs of the buddy allocator

A run keeps, next to the pool, the pointers that were handed out and not given back, with the
sizes that were asked for.  `buddy_realloc` gives its argument back also when it fails.

Only these pointers are given to `buddy_free` and `buddy_realloc`, once each; that is the legality
of a run.  Blocks are disjoint because regions at different places of the tree are.

## Main results

* `buddy_run_sound`: after every call the live blocks are those of the index, disjoint,
  aligned, large enough and inside the pool, and no call is undefined or fails to return.
-/

namespace Gbase.Mm.Buddy

open Gbase.Core.OsDef
open Gbase.Lib.BuddyTree
open Gbase.Lib.BuddyTree.Blocks
open Gbase.Lib.Run
open Gbase.Lib.Store

/-! ## Calls -/

/-- A pool, and the live pointers with the sizes asked for. -/
structure State where
  buddy : BuddyT
  live : List (Nat × Nat)

inductive BuddyOp where
  | alloc (nbytes : Nat)
  | realloc (mem : Option Nat) (nbytes : Nat)
  | free (mem : Option Nat)

/-- A pointer that is handed out. -/
def grant (p : Option Nat) (nbytes : Nat) (live : List (Nat × Nat)) : List (Nat × Nat) :=
  match p with
  | none => live
  | some p => (p, nbytes) :: live

/-- A pointer that is given back. -/
def revoke (p : Option Nat) (live : List (Nat × Nat)) : List (Nat × Nat) :=
  match p with
  | none => live
  | some p => live.filter fun b => b.1 ≠ p

/-- One call, with the pointer it returns. -/
def buddyStep : Step State BuddyOp (Option Nat)
  | s, .alloc nbytes =>
      (buddyAlloc s.buddy nbytes).map fun r => (r.1, ⟨r.2, grant r.1 nbytes s.live⟩)
  | s, .realloc mem nbytes =>
      (buddyRealloc s.buddy mem nbytes).map fun r =>
        (r.1, ⟨r.2, grant r.1 nbytes (revoke mem s.live)⟩)
  | s, .free mem => (buddyFree s.buddy mem).map fun buddy => (none, ⟨buddy, revoke mem s.live⟩)

/-- `NULL` or a live pointer. -/
def IsLive (s : State) : Option Nat → Prop
  | none => True
  | some p => p ∈ s.live.map Prod.fst

instance (s : State) (mem : Option Nat) : Decidable (IsLive s mem) := by
  unfold IsLive
  split <;> infer_instance

/-- Calls with sizes up to that of the pool, and with live pointers. -/
def Legal (s : State) : BuddyOp → Prop
  | .alloc nbytes => 1 ≤ nbytes ∧ nbytes ≤ s.buddy.poolSize
  | .realloc mem nbytes => IsLive s mem ∧ (mem = none → 1 ≤ nbytes) ∧ nbytes ≤ s.buddy.poolSize
  | .free mem => IsLive s mem

instance (s : State) (op : BuddyOp) : Decidable (Legal s op) := by
  unfold Legal
  split <;> infer_instance

/-! ## Blocks of the index -/

/-- The node `index` is marked used, and its memory starts at `p`. -/
structure IsBlock (buddy : BuddyT) (index p : Nat) : Prop where
  low : 1 ≤ index
  high : index < buddy.treeSize
  used : buddy.tag index = some .used
  shift : shiftFromIndex buddy index = p

/-- The live blocks are the used nodes of the index. -/
structure Sound (s : State) : Prop where
  block : ∀ p nbytes, (p, nbytes) ∈ s.live → ∃ index, IsBlock s.buddy index p ∧
    search s.buddy p = some (index, p) ∧
    (∃ e, sizeFromIndex s.buddy index = 2 ^ e) ∧
    nbytes ≤ sizeFromIndex s.buddy index ∧ s.buddy.minSize ≤ sizeFromIndex s.buddy index ∧
    sizeFromIndex s.buddy index ∣ p ∧ p + sizeFromIndex s.buddy index ≤ s.buddy.poolSize
  unique : ∀ i j p, IsBlock s.buddy i p → IsBlock s.buddy j p → i = j
  live : ∀ index p, IsBlock s.buddy index p → p ∈ s.live.map Prod.fst
  disjoint : s.live.Pairwise fun a b => ∀ i j, IsBlock s.buddy i a.1 → IsBlock s.buddy j b.1 →
    a.1 + sizeFromIndex s.buddy i ≤ b.1 ∨ b.1 + sizeFromIndex s.buddy j ≤ a.1

section Blocks

variable {buddy : BuddyT} {M H : Nat} {t : Blocks}

/-- Used nodes are positions of used regions. -/
theorem exists_used (t : Blocks) :
    ∀ {h i : Nat} {fs : List Frame}, (i, Tag.used) ∈ cells h (index fs) t → t.Fits h →
      ∃ gs k, zip gs .used = zip fs t ∧ k + gs.length = h + fs.length ∧ index gs = i := by
  induction t with
  | unused =>
      intro h i fs hIn _
      have hTag := (mem_cells_unused.mp hIn).1
      cases hTag
  | used =>
      intro h i fs hIn _
      cases h with
      | zero =>
          simp only [cells, Multiset.mem_singleton, Prod.mk.injEq] at hIn
          exact ⟨fs, 0, rfl, rfl, hIn.1.symm⟩
      | succ h =>
          simp only [cells, Multiset.mem_add, Multiset.mem_singleton, Prod.mk.injEq] at hIn
          rcases hIn with hHere | hLeft | hRight
          · exact ⟨fs, h + 1, rfl, rfl, hHere.1.symm⟩
          · have hTag := (mem_cells_unused.mp hLeft).1
            cases hTag
          · have hTag := (mem_cells_unused.mp hRight).1
            cases hTag
  | split l r ihl ihr =>
      intro h i fs hIn hFits
      cases h with
      | zero => cases hFits
      | succ h =>
          have hLen : ∀ f : Frame, h + (f :: fs).length = h + 1 + fs.length := by
            intro f
            rw [List.length_cons]
            omega
          simp only [cells, Multiset.mem_add, Multiset.mem_singleton, Prod.mk.injEq] at hIn
          rcases hIn with hHere | hLeft | hRight
          · have hTag := hHere.2
            simp only [tagOf, splitTag] at hTag
            split at hTag <;> cases hTag
          · obtain ⟨gs, k, hZip, hHeight, hIndex⟩ := @ihl h i (⟨false, r⟩ :: fs)
              (by simpa [index, Blocks.left] using hLeft) hFits.1
            exact ⟨gs, k, hZip, by rw [hHeight, hLen], hIndex⟩
          · obtain ⟨gs, k, hZip, hHeight, hIndex⟩ := @ihr h i (⟨true, l⟩ :: fs)
              (by simpa [index, Blocks.right] using hRight) hFits.2
            exact ⟨gs, k, hZip, by rw [hHeight, hLen], hIndex⟩

/-- A used position is a block of the tree. -/
theorem mem_live_zip (gs : List Frame) (k : Nat) :
    (start k gs, k) ∈ (zip gs .used).live (k + gs.length) 0 := by
  rw [live_zip]
  simp [Blocks.live]

/-- The used nodes of the index are the blocks of the tree. -/
theorem Pool.isBlock (hPool : Pool buddy M H t) {i p : Nat} :
    IsBlock buddy i p ↔ ∃ gs k, zip gs .used = t ∧ k + gs.length = H ∧ index gs = i ∧
      p = 2 ^ M * start k gs ∧ (start k gs, k) ∈ t.live H 0 ∧
          sizeFromIndex buddy i = 2 ^ (M + k) := by
  constructor
  · intro hBlock
    have hIn : (i, Tag.used) ∈ cells H 1 t := (hPool.holds.cells i .used).mp hBlock.used
    obtain ⟨gs, k, hZip, hHeight, rfl⟩ := @exists_used t H i [] hIn hPool.fits
    have hZip' : zip gs .used = t := hZip
    have hHeight' : k + gs.length = H := hHeight
    subst hHeight'
    refine ⟨gs, k, hZip', rfl, rfl, ?_, ?_, sizeFromIndex_spec hPool.shape⟩
    · rw [← hBlock.shift, shiftFromIndex_spec hPool.shape]
    · rw [← hZip']
      exact mem_live_zip gs k
  · rintro ⟨gs, k, rfl, rfl, rfl, rfl, -, -⟩
    have hHolds := hPool.holds
    rw [cells_zip] at hHolds
    exact ⟨index_pos gs, index_lt hPool.shape,
      tag_spec hHolds (Multiset.mem_add.mpr (Or.inr (mem_cells ..))),
      shiftFromIndex_spec hPool.shape⟩

/-- The start and the height of a position determine its node. -/
theorem index_inj {gs hs : List Frame} {k : Nat} (hLen : gs.length = hs.length)
    (hStart : start k gs = start k hs) : index gs = index hs := by
  rw [start_eq, start_eq, hLen] at hStart
  have hCancel := Nat.eq_of_mul_eq_mul_left (Nat.two_pow_pos k) hStart
  have hG := (index_bounds gs).1
  have hH := (index_bounds hs).1
  rw [hLen] at hG
  omega

end Blocks

/-! ## The invariant -/

/-- The live pointers are the starts of the blocks of the tree, which are large enough. -/
structure Matches (M H : Nat) (t : Blocks) (live : List (Nat × Nat)) : Prop where
  starts : (live.map Prod.fst).Perm ((t.live H 0).map fun b => 2 ^ M * b.1)
  large : ∀ p nbytes, (p, nbytes) ∈ live →
    ∃ o k, (o, k) ∈ t.live H 0 ∧ p = 2 ^ M * o ∧ nbytes ≤ 2 ^ (M + k)

/-- The pool is a tree whose blocks are the live ones. -/
def Inv (s : State) : Prop := ∃ M H t, Pool s.buddy M H t ∧ Matches M H t s.live

section Inv

variable {buddy : BuddyT} {M H : Nat} {t t' : Blocks} {live : List (Nat × Nat)}

private theorem starts_nodup (M H : Nat) (t : Blocks) :
    ((t.live H 0).map fun b => 2 ^ M * b.1).Nodup := by
  have hNodup := live_starts_nodup t H
  rw [List.Nodup, List.pairwise_map] at hNodup ⊢
  refine hNodup.imp ?_
  intro a b hNe hEq
  exact hNe (Nat.eq_of_mul_eq_mul_left (Nat.two_pow_pos M) hEq)

/-- The block of a live pointer. -/
theorem Matches.mem (h : Matches M H t live) {p : Nat} (hIn : p ∈ live.map Prod.fst) :
    ∃ o k, (o, k) ∈ t.live H 0 ∧ p = 2 ^ M * o := by
  rw [h.starts.mem_iff, List.mem_map] at hIn
  obtain ⟨⟨o, k⟩, hLive, rfl⟩ := hIn
  exact ⟨o, k, hLive, rfl⟩

/-- Every live pointer is the start of a block that is related to the size asked for. -/
def Backed (R : Nat → Nat → Prop) (M : Nat) (blocks live : List (Nat × Nat)) : Prop :=
  ∀ p nbytes, (p, nbytes) ∈ live → ∃ o k, (o, k) ∈ blocks ∧ p = 2 ^ M * o ∧ R nbytes k

section Backed

variable {R : Nat → Nat → Prop} {o k nbytes : Nat} {low high : List (Nat × Nat)}

theorem Backed.grant (h : Backed R M (low ++ high) live) (hNew : R nbytes k) :
    Backed R M (low ++ (o, k) :: high) ((2 ^ M * o, nbytes) :: live) := by
  intro p n hIn
  rcases List.mem_cons.mp hIn with hEq | hOld
  · cases hEq
    exact ⟨o, k, by simp, rfl, hNew⟩
  · obtain ⟨o', k', hBlock, hp, hn⟩ := h p n hOld
    refine ⟨o', k', ?_, hp, hn⟩
    rw [List.mem_append] at hBlock
    rw [List.mem_append, List.mem_cons]
    tauto

theorem Backed.revoke (h : Backed R M (low ++ (o, k) :: high) live) :
    Backed R M (low ++ high) (revoke (some (2 ^ M * o)) live) := by
  intro p n hIn
  rw [Buddy.revoke, List.mem_filter] at hIn
  obtain ⟨hOld, hNe⟩ := hIn
  obtain ⟨o', k', hBlock, hp, hn⟩ := h p n hOld
  refine ⟨o', k', ?_, hp, hn⟩
  rw [List.mem_append, List.mem_cons] at hBlock
  rw [List.mem_append]
  rcases hBlock with hLow | hHere | hHigh
  · exact Or.inl hLow
  · cases hHere
    simp [hp] at hNe
  · exact Or.inr hHigh

end Backed

/-- A new block. -/
theorem Matches.grant (h : Matches M H t live) {o k nbytes : Nat} {low high : List (Nat × Nat)}
    (hLive : t.live H 0 = low ++ high) (hLive' : t'.live H 0 = low ++ (o, k) :: high)
    (hSize : nbytes ≤ 2 ^ (M + k)) : Matches M H t' ((2 ^ M * o, nbytes) :: live) where
  starts := by
    have hStarts := h.starts
    rw [hLive] at hStarts
    rw [hLive', List.map_cons, List.map_append, List.map_cons]
    rw [List.map_append] at hStarts
    exact (hStarts.cons _).trans List.perm_middle.symm
  large := by
    have hLarge : Backed (fun n k => n ≤ 2 ^ (M + k)) M (t.live H 0) live := h.large
    rw [hLive] at hLarge
    rw [hLive']
    exact hLarge.grant hSize

/-- A block that goes. -/
theorem Matches.revoke (h : Matches M H t live) {o k : Nat} {low high : List (Nat × Nat)}
    (hLive : t.live H 0 = low ++ (o, k) :: high) (hLive' : t'.live H 0 = low ++ high) :
    Matches M H t' (revoke (some (2 ^ M * o)) live) where
  starts := by
    have hNodup := starts_nodup M H t
    have hStarts := h.starts.filter fun p => p ≠ 2 ^ M * o
    rw [hLive, List.map_append, List.map_cons] at hNodup hStarts
    rw [hLive', List.map_append, Buddy.revoke]
    have hOthers : ∀ {p : Nat}, p ∈ low.map (fun b => 2 ^ M * b.1) ++
        high.map (fun b => 2 ^ M * b.1) → p ≠ 2 ^ M * o := by
      intro p hp
      have hSplit := (List.nodup_middle.mp hNodup)
      rw [List.nodup_cons] at hSplit
      intro hEq
      exact hSplit.1 (hEq ▸ hp)
    have hMapFilter : (live.filter fun b => b.1 ≠ 2 ^ M * o).map Prod.fst =
        (live.map Prod.fst).filter fun p => p ≠ 2 ^ M * o := by
      rw [List.filter_map]
      rfl
    rw [hMapFilter]
    refine hStarts.trans ?_
    rw [List.filter_append, List.filter_cons_of_neg (by simp), ← List.filter_append,
      List.filter_eq_self.mpr fun p hp => by simpa using hOthers hp]
  large := by
    have hLarge : Backed (fun n k => n ≤ 2 ^ (M + k)) M (t.live H 0) live := h.large
    rw [hLive] at hLarge
    rw [hLive']
    exact hLarge.revoke

/-- What the invariant says about the index and the live pointers. -/
theorem sound_of_inv {s : State} (h : Inv s) : Sound s := by
  obtain ⟨M, H, t, hPool, hMatches⟩ := h
  -- the block of a live pointer and its node
  have hNode : ∀ {o k : Nat}, (o, k) ∈ t.live H 0 → ∀ {j : Nat}, IsBlock s.buddy j (2 ^ M * o) →
      sizeFromIndex s.buddy j = 2 ^ (M + k) := by
    intro o k hIn j hBlock
    obtain ⟨gs, k', -, -, -, hStart, hIn', hSize⟩ := hPool.isBlock.mp hBlock
    have hSame := live_start_inj hIn hIn' (Nat.eq_of_mul_eq_mul_left (Nat.two_pow_pos M) hStart)
    cases hSame
    exact hSize
  refine ⟨?_, ?_, ?_, ?_⟩
  · intro p nbytes hIn
    obtain ⟨o, k, hLive, rfl, hLarge⟩ := hMatches.large p nbytes hIn
    obtain ⟨gs, hSearch, hZip, hHeight, hStart⟩ := hPool.search hLive
    have hBounds := live_spec t hLive (Nat.dvd_zero _)
    have hBlock : IsBlock s.buddy (index gs) (2 ^ M * o) := by
      rw [hPool.isBlock]
      subst hHeight
      exact ⟨gs, k, hZip, rfl, rfl, by rw [hStart], by rw [hStart]; exact hLive,
        sizeFromIndex_spec hPool.shape⟩
    have hSize := hNode hLive hBlock
    refine ⟨index gs, hBlock, hSearch, ⟨M + k, hSize⟩, by rw [hSize]; exact hLarge, ?_, ?_, ?_⟩
    · rw [hSize, hPool.shape.minSize]
      exact Nat.pow_le_pow_right (by decide) (by omega)
    · rw [hSize, Nat.pow_add]
      exact Nat.mul_dvd_mul_left _ hBounds.2.2.1
    · rw [hSize, hPool.shape.poolSize, Nat.pow_add, Nat.pow_add, ← Nat.mul_add]
      exact Nat.mul_le_mul_left _ (by omega)
  · intro i j p hI hJ
    obtain ⟨gs, k, -, hHeight, rfl, rfl, hIn, -⟩ := hPool.isBlock.mp hI
    obtain ⟨hs, k', -, hHeight', rfl, hStart, hIn', -⟩ := hPool.isBlock.mp hJ
    have hSame := live_start_inj hIn hIn' (Nat.eq_of_mul_eq_mul_left (Nat.two_pow_pos M) hStart)
    simp only [Prod.mk.injEq] at hSame
    obtain ⟨hStarts, rfl⟩ := hSame
    exact index_inj (by omega) hStarts
  · intro i p hBlock
    obtain ⟨gs, k, -, -, -, rfl, hIn, -⟩ := hPool.isBlock.mp hBlock
    rw [hMatches.starts.mem_iff, List.mem_map]
    exact ⟨_, hIn, rfl⟩
  · have hNodup := hMatches.starts.nodup_iff.mpr (starts_nodup M H t)
    rw [List.Nodup, List.pairwise_map] at hNodup
    refine hNodup.imp ?_
    intro a b hNe i j hI hJ
    obtain ⟨gs, k, -, -, -, hStart, hIn, hSize⟩ := hPool.isBlock.mp hI
    obtain ⟨hs, k', -, -, -, hStart', hIn', hSize'⟩ := hPool.isBlock.mp hJ
    have hDiff : (start k gs, k) ≠ (start k' hs, k') := by
      intro hEq
      simp only [Prod.mk.injEq] at hEq
      exact hNe (by rw [hStart, hStart', hEq.1])
    rw [hStart, hStart', hSize, hSize', Nat.pow_add, Nat.pow_add, ← Nat.mul_add, ← Nat.mul_add]
    rcases live_separate hIn hIn' hDiff with hOrder | hOrder
    · exact Or.inl (Nat.mul_le_mul_left _ hOrder)
    · exact Or.inr (Nat.mul_le_mul_left _ hOrder)

/-- A new pool has no live blocks. -/
theorem inv_init {pool : Nat → UInt8} {size minAllocSize : Nat}
    (h : buddyInit pool size minAllocSize = some buddy) : Inv ⟨buddy, []⟩ := by
  obtain ⟨M, H, hShape, hHolds⟩ := buddyInit_spec h
  refine ⟨M, H, .unused, ⟨hShape, hHolds, by cases H <;> trivial⟩, ?_, ?_⟩
  · simp [Blocks.live]
  · intro p nbytes hIn
    cases hIn

end Inv

/-! ## One call -/

section Calls

variable {buddy : BuddyT} {M H : Nat} {t t' : Blocks} {live : List (Nat × Nat)}

theorem alloc_inv (hPool : Pool buddy M H t) (hMatches : Matches M H t live) {nbytes : Nat}
    (hPos : 1 ≤ nbytes) (hLe : nbytes ≤ buddy.poolSize) :
    ∃ p buddy', buddyAlloc buddy nbytes = some (p, buddy') ∧
      Inv ⟨buddy', grant p nbytes live⟩ := by
  obtain ⟨k, hk, hSize, -, ⟨-, hRun⟩ | ⟨o, t', tree, hAlloc, hRun, hPool'⟩⟩ :=
    buddyAlloc_spec hPool hPos hLe
  · exact ⟨none, buddy, hRun, M, H, t, hPool, hMatches⟩
  · obtain ⟨-, low, high, hLive, hLive'⟩ := alloc_spec t hAlloc hk hPool.fits
    exact ⟨_, _, hRun, M, H, t', hPool', hMatches.grant hLive hLive' hSize⟩

/-- The blocks around a position, before and after its release. -/
theorem live_release {gs : List Frame} {o k : Nat} (hZip : zip gs .used = t)
    (hHeight : k + gs.length = H) (hStart : start k gs = o) :
    t.live H 0 = before k gs ++ (o, k) :: behind k gs ∧
      (zipMerge gs .unused).live H 0 = before k gs ++ behind k gs := by
  constructor
  · rw [← hZip, ← hHeight, live_zip, Blocks.live, hStart]
    simp
  · rw [← hHeight, live_zipMerge, live_zip]
    simp [Blocks.live]

theorem free_inv (hPool : Pool buddy M H t) (hMatches : Matches M H t live) {mem : Option Nat}
    (hLive : IsLive ⟨buddy, live⟩ mem) :
    ∃ buddy', buddyFree buddy mem = some buddy' ∧ Inv ⟨buddy', revoke mem live⟩ := by
  cases mem with
  | none => exact ⟨buddy, rfl, M, H, t, hPool, hMatches⟩
  | some p =>
      obtain ⟨o, k, hIn, rfl⟩ := hMatches.mem hLive
      obtain ⟨gs, tree, hZip, hHeight, hStart, hRun, hPool'⟩ := buddyFree_spec hPool hIn
      obtain ⟨hBefore, hAfter⟩ := live_release hZip hHeight hStart
      exact ⟨_, hRun, M, H, _, hPool', hMatches.revoke hBefore hAfter⟩

/-- The memory of a pool does not matter to its index. -/
theorem Pool.withPool (hPool : Pool buddy M H t) (pool : Nat → UInt8) :
    Pool { buddy with pool := pool } M H t :=
  ⟨⟨hPool.shape.poolSize, hPool.shape.minSize, hPool.shape.treeSize, hPool.shape.bound⟩,
    hPool.holds, hPool.fits⟩

/-- A block is inside the pool. -/
theorem Pool.block_le (hPool : Pool buddy M H t) {o k : Nat} (hIn : (o, k) ∈ t.live H 0) :
    2 ^ M * o + 2 ^ (M + k) ≤ buddy.poolSize := by
  have hBounds := live_spec t hIn (Nat.dvd_zero _)
  rw [hPool.shape.poolSize, Nat.pow_add, Nat.pow_add, ← Nat.mul_add]
  exact Nat.mul_le_mul_left _ (by omega)

/-- The memory after a copy of `n` bytes. -/
def copied (pool : Nat → UInt8) (dest src n : Nat) : Nat → UInt8 := fun i =>
  if dest ≤ i ∧ i < dest + n then pool (src + (i - dest)) else pool i

/-- The memory after `buddy_realloc` copied `n` bytes to the new block, if there is one. -/
def filled (pool : Nat → UInt8) (newMem : Option Nat) (src n : Nat) : Nat → UInt8 :=
  match newMem with
  | none => pool
  | some dest => copied pool dest src n

/-- Copying between two blocks. -/
theorem memcpy_spec (hPool : Pool buddy M H t) {o k o' k' n : Nat} (hIn : (o, k) ∈ t.live H 0)
    (hIn' : (o', k') ∈ t.live H 0) (hNe : o' ≠ o) (hSrc : n ≤ 2 ^ (M + k))
    (hDest : n ≤ 2 ^ (M + k')) :
    memcpy buddy (2 ^ M * o') (2 ^ M * o) n =
      some { buddy with pool := copied buddy.pool (2 ^ M * o') (2 ^ M * o) n } := by
  have hLe := hPool.block_le hIn
  have hLe' := hPool.block_le hIn'
  have hApart : 2 ^ M * o' + n ≤ 2 ^ M * o ∨ 2 ^ M * o + n ≤ 2 ^ M * o' := by
    rcases live_separate hIn' hIn (fun hEq => hNe (congrArg Prod.fst hEq)) with hOrder | hOrder
    · have hScaled := Nat.mul_le_mul_left (2 ^ M) hOrder
      rw [Nat.mul_add, ← Nat.pow_add] at hScaled
      change 2 ^ M * o' + 2 ^ (M + k') ≤ 2 ^ M * o at hScaled
      exact Or.inl (by omega)
    · have hScaled := Nat.mul_le_mul_left (2 ^ M) hOrder
      rw [Nat.mul_add, ← Nat.pow_add] at hScaled
      change 2 ^ M * o + 2 ^ (M + k) ≤ 2 ^ M * o' at hScaled
      exact Or.inr (by omega)
  rw [memcpy, if_pos ⟨by omega, by omega, hApart⟩]
  rfl

/-- A new block does not start where there was one. -/
theorem alloc_fresh {k o o' k' : Nat} (hAlloc : alloc k H 0 t = some (o', t')) (hk : k ≤ H)
    (hFits : t.Fits H) (hIn : (o, k') ∈ t.live H 0) : o ≠ o' := by
  obtain ⟨-, low, high, hBlocks, hBlocks'⟩ := alloc_spec t hAlloc hk hFits
  have hNodup := live_starts_nodup t' H
  rw [hBlocks', List.map_append, List.map_cons, List.nodup_middle, List.nodup_cons,
    ← List.map_append, ← hBlocks] at hNodup
  rintro rfl
  exact hNodup.1 (List.mem_map.mpr ⟨(o, k'), hIn, rfl⟩)

/-- `buddy_realloc` of a block is an allocation, a copy if there is a new block, and then the
release of the block. -/
theorem buddyRealloc_spec (hPool : Pool buddy M H t) {o k : Nat} (hIn : (o, k) ∈ t.live H 0)
    {nbytes : Nat} (hPos : 1 ≤ nbytes) (hLe : nbytes ≤ buddy.poolSize) :
    ∃ p tree, buddyAlloc buddy nbytes = some (p, { buddy with tree := tree }) ∧
      p ≠ some (2 ^ M * o) ∧
      buddyRealloc buddy (some (2 ^ M * o)) nbytes =
        (buddyFree { buddy with
            tree := tree, pool := filled buddy.pool p (2 ^ M * o) (min (2 ^ (M + k)) nbytes) }
          (some (2 ^ M * o))).map fun b => (p, b) := by
  have hZero : nbytes ≠ 0 := by omega
  obtain ⟨gs, hSearch, -, hHeight, -⟩ := hPool.search hIn
  have hMemSize : sizeFromIndex buddy (index gs) = 2 ^ (M + k) := by
    subst hHeight
    exact sizeFromIndex_spec hPool.shape
  obtain ⟨k', hk', hSize, -, ⟨-, hRun⟩ | ⟨o', t', tree, hAlloc, hRun, hPool'⟩⟩ :=
    buddyAlloc_spec hPool hPos hLe
  · -- no memory: the old block is given back all the same
    refine ⟨none, buddy.tree, hRun, by simp, ?_⟩
    simp only [buddyRealloc, hZero, if_false, hSearch, hRun, Option.bind_eq_bind,
      Option.bind_some, Option.pure_def, filled]
    cases buddyFree buddy (some (2 ^ M * o)) <;> rfl
  · obtain ⟨-, low, high, hBlocks, hBlocks'⟩ := alloc_spec t hAlloc hk' hPool.fits
    have hIn' : (o, k) ∈ t'.live H 0 := by
      rw [hBlocks, List.mem_append] at hIn
      rw [hBlocks', List.mem_append, List.mem_cons]
      exact hIn.imp_right Or.inr
    have hNew : (o', k') ∈ t'.live H 0 := by
      rw [hBlocks']
      simp
    have hNe : o' ≠ o := (alloc_fresh hAlloc hk' hPool.fits hIn).symm
    have hMin : (if 2 ^ (M + k) < nbytes then 2 ^ (M + k) else nbytes) =
        min (2 ^ (M + k)) nbytes := by
      split <;> omega
    have hCopy := memcpy_spec hPool' hIn' hNew hNe (Nat.min_le_left (2 ^ (M + k)) nbytes)
      ((Nat.min_le_right _ _).trans hSize)
    refine ⟨some (2 ^ M * o'), tree, hRun, ?_, ?_⟩
    · intro hEq
      exact hNe (Nat.eq_of_mul_eq_mul_left (Nat.two_pow_pos M) (Option.some.inj hEq))
    · simp only [buddyRealloc, hZero, if_false, hSearch, hRun, hMemSize, hMin, hCopy,
        Option.bind_eq_bind, Option.bind_some, Option.pure_def, filled]
      generalize copied buddy.pool (2 ^ M * o') (2 ^ M * o) (min (2 ^ (M + k)) nbytes) = pool
      cases buddyFree { buddy with tree := tree, pool := pool } (some (2 ^ M * o)) <;> rfl

end Calls

/-! ## Invariants of all calls -/

/-- What makes a property of states an invariant: allocation and release keep it, and the
memory of the pool does not matter to it. -/
structure Kept (P : State → Prop) : Prop where
  inv : ∀ s, P s → Inv s
  alloc : ∀ s nbytes, P s → 1 ≤ nbytes → nbytes ≤ s.buddy.poolSize →
    ∃ p buddy, buddyAlloc s.buddy nbytes = some (p, buddy) ∧ P ⟨buddy, grant p nbytes s.live⟩
  free : ∀ s mem, P s → IsLive s mem →
    ∃ buddy, buddyFree s.buddy mem = some buddy ∧ P ⟨buddy, revoke mem s.live⟩
  memory : ∀ s pool, P s → P ⟨{ s.buddy with pool := pool }, s.live⟩

private theorem revoke_grant {p : Option Nat} {q nbytes : Nat} {live : List (Nat × Nat)}
    (hNe : p ≠ some q) :
    revoke (some q) (grant p nbytes live) = grant p nbytes (revoke (some q) live) := by
  cases p with
  | none => rfl
  | some p =>
      have hPtr : p ≠ q := fun hEq => hNe (congrArg some hEq)
      rw [grant, revoke, List.filter_cons_of_pos (by simpa using hPtr)]
      rfl

private theorem isLive_grant {buddy buddy' : BuddyT} {live : List (Nat × Nat)} {p mem : Option Nat}
    {nbytes : Nat} (hLive : IsLive ⟨buddy, live⟩ mem) :
    IsLive ⟨buddy', grant p nbytes live⟩ mem := by
  cases mem with
  | none => trivial
  | some q =>
      cases p with
      | none => exact hLive
      | some p => exact List.mem_cons_of_mem _ hLive

section Kept

variable {P : State → Prop} (hP : Kept P) {s : State}

include hP

theorem Kept.realloc (hs : P s) {mem : Option Nat} {nbytes : Nat} (hLive : IsLive s mem)
    (hPos : mem = none → 1 ≤ nbytes) (hLe : nbytes ≤ s.buddy.poolSize) :
    ∃ p buddy, buddyRealloc s.buddy mem nbytes = some (p, buddy) ∧
      P ⟨buddy, grant p nbytes (revoke mem s.live)⟩ := by
  cases mem with
  | none =>
      obtain ⟨p, buddy, hRun, hKeep⟩ := hP.alloc s nbytes hs (hPos rfl) hLe
      exact ⟨p, buddy, by rw [buddyRealloc, hRun], hKeep⟩
  | some q =>
      by_cases hZero : nbytes = 0
      · obtain ⟨buddy, hRun, hKeep⟩ := hP.free s (some q) hs hLive
        exact ⟨none, buddy, by simp [buddyRealloc, hZero, hRun], hKeep⟩
      · obtain ⟨M, H, t, hPool, hMatches⟩ := hP.inv s hs
        obtain ⟨o, k, hIn, rfl⟩ := hMatches.mem hLive
        obtain ⟨p, tree, hAlloc, hNe, hRun⟩ :=
          buddyRealloc_spec hPool hIn (by omega : 1 ≤ nbytes) hLe
        obtain ⟨p', buddy', hAlloc', hKeep⟩ := hP.alloc s nbytes hs (by omega) hLe
        rw [hAlloc] at hAlloc'
        cases hAlloc'
        obtain ⟨buddy', hFree, hKeep'⟩ :=
          hP.free _ (some (2 ^ M * o)) (hP.memory _ _ hKeep) (isLive_grant hLive)
        rw [revoke_grant hNe] at hKeep'
        exact ⟨p, buddy', by rw [hRun, hFree]; rfl, hKeep'⟩

/-- Every legal call returns and keeps an invariant. -/
theorem Kept.step {op : BuddyOp} (hs : P s) (hLegal : Legal s op) :
    ∃ p s', buddyStep s op = some (p, s') ∧ P s' := by
  cases op with
  | alloc nbytes =>
      obtain ⟨p, buddy', hRun, hKeep⟩ := hP.alloc s nbytes hs hLegal.1 hLegal.2
      exact ⟨p, _, by rw [buddyStep, hRun]; rfl, hKeep⟩
  | realloc mem nbytes =>
      obtain ⟨p, buddy', hRun, hKeep⟩ := hP.realloc hs hLegal.1 hLegal.2.1 hLegal.2.2
      exact ⟨p, _, by rw [buddyStep, hRun]; rfl, hKeep⟩
  | free mem =>
      obtain ⟨buddy', hRun, hKeep⟩ := hP.free s mem hs hLegal
      exact ⟨none, _, by rw [buddyStep, hRun]; rfl, hKeep⟩

end Kept

private theorem inv_kept : Kept Inv where
  inv := fun _ hInv => hInv
  alloc := by
    rintro s nbytes ⟨M, H, t, hPool, hMatches⟩ hPos hLe
    exact alloc_inv hPool hMatches hPos hLe
  free := by
    rintro s mem ⟨M, H, t, hPool, hMatches⟩ hLive
    exact free_inv hPool hMatches hLive
  memory := by
    rintro s pool ⟨M, H, t, hPool, hMatches⟩
    exact ⟨M, H, t, hPool.withPool pool, hMatches⟩

/-! ## Whole runs -/

/-- From a new pool, every call returns, and the live blocks are sound after it: they are disjoint,
aligned to their size, inside the pool, and as large as was asked for. -/
theorem buddy_run_sound {pool : Nat → UInt8} {size minAllocSize : Nat} {buddy : BuddyT}
    (hInit : buddyInit pool size minAllocSize = some buddy) {ops : List BuddyOp}
    (hLegal : Along buddyStep Legal ⟨buddy, []⟩ ops) :
    Sound ⟨buddy, []⟩ ∧
      Along buddyStep (Does buddyStep fun _ _ _ s' => Sound s') ⟨buddy, []⟩ ops := by
  have hNew := inv_init hInit
  refine ⟨sound_of_inv hNew, along_of_spec Inv ?_ hNew hLegal⟩
  intro s op hInv hOp
  obtain ⟨p, s', hStep, hInv'⟩ := inv_kept.step hInv hOp
  exact ⟨p, s', hStep, sound_of_inv hInv', hInv'⟩

/-- A pool of 32 bytes with units of 8. -/
def smallPool : BuddyT := (buddyInit (fun _ => 0) 32 8).get (by decide)

/-- Blocks of both sizes, a move to a larger block, and a release that merges. -/
theorem buddy_run_sound_small :
    Sound ⟨smallPool, []⟩ ∧ Along buddyStep (Does buddyStep fun _ _ _ s' => Sound s')
      ⟨smallPool, []⟩
      [.alloc 5, .alloc 8, .free (some 0), .realloc (some 8) 16, .free (some 16), .alloc 32] :=
  buddy_run_sound (Option.some_get _).symm (by decide)

end Gbase.Mm.Buddy
