import Gbase.Mm.BuddyCanon

/-!
# What `buddy_realloc` does to the data

`buddy_realloc` allocates the new block, copies and gives the old one back.  When there is a new
block its first bytes are those of the old one, and the other blocks keep theirs, since live blocks
do not overlap.  When there is none the old block is given back all the same.

## Main results

* `Pool.isBlock_iff`: the used nodes of the index, from the blocks alone.
* `Pool.realloc_some`, `Pool.realloc_none`: `buddy_realloc` with and without a new block.
* `buddy_realloc_iff`: a call in a reachable pool keeps the data if and only if there is a place for
  the new block.
-/

namespace Gbase.Mm.Buddy

open Gbase.Lib.BuddyTree
open Gbase.Lib.BuddyTree.Blocks
open Gbase.Lib.Run

/-! ## Nodes of blocks -/

/-- The number of the node of the `2 ^ k` units at `o`. -/
def nodeOf (H o k : Nat) : Nat := 2 ^ (H - k) + o / 2 ^ k

section Blocks

variable {buddy buddy' : BuddyT} {M H o k : Nat} {t t' : Blocks}

/-- The node of a position, from its start and its height. -/
theorem index_eq_nodeOf {gs : List Frame} (hHeight : k + gs.length = H) :
    index gs = nodeOf H (start k gs) k := by
  have hLow := (index_bounds gs).1
  have hLength : gs.length = H - k := by omega
  rw [nodeOf, start_eq, Nat.mul_div_cancel_left _ (Nat.two_pow_pos k), hLength]
  rw [hLength] at hLow
  omega

/-- The node of a block is marked used. -/
theorem Pool.block (hPool : Pool buddy M H t) (hIn : (o, k) ∈ t.live H 0) :
    IsBlock buddy (nodeOf H o k) (2 ^ M * o) ∧
      sizeFromIndex buddy (nodeOf H o k) = 2 ^ (M + k) := by
  obtain ⟨gs, -, hZip, hHeight, rfl⟩ := hPool.search hIn
  rw [← index_eq_nodeOf hHeight]
  subst hHeight
  have hSize : sizeFromIndex buddy (index gs) = 2 ^ (M + k) := sizeFromIndex_spec hPool.shape
  exact ⟨hPool.isBlock.mpr ⟨gs, k, hZip, rfl, rfl, rfl, hIn, hSize⟩, hSize⟩

/-- The used nodes are those of the blocks. -/
theorem Pool.isBlock_iff (hPool : Pool buddy M H t) {i p : Nat} :
    IsBlock buddy i p ↔ ∃ o k, (o, k) ∈ t.live H 0 ∧ p = 2 ^ M * o ∧ i = nodeOf H o k := by
  constructor
  · intro hBlock
    obtain ⟨gs, k, -, hHeight, rfl, rfl, hIn, -⟩ := hPool.isBlock.mp hBlock
    exact ⟨start k gs, k, hIn, rfl, index_eq_nodeOf hHeight⟩
  · rintro ⟨o, k, hIn, rfl, rfl⟩
    exact (hPool.block hIn).1

/-- Giving a block back takes it away. -/
theorem mem_release {gs : List Frame} (hZip : zip gs .used = t) (hHeight : k + gs.length = H)
    (hStart : start k gs = o) (b : Nat × Nat) :
    b ∈ (zipMerge gs .unused).live H 0 ↔ b ∈ t.live H 0 ∧ b.1 ≠ o := by
  obtain ⟨hBefore, hAfter⟩ := live_release hZip hHeight hStart
  have hNodup := live_starts_nodup t H
  rw [hBefore, List.map_append, List.map_cons, List.nodup_middle, List.nodup_cons,
    ← List.map_append] at hNodup
  rw [hBefore, hAfter]
  constructor
  · intro hb
    refine ⟨List.mem_append.mpr ((List.mem_append.mp hb).imp_right (List.mem_cons_of_mem _)), ?_⟩
    rintro rfl
    exact hNodup.1 (List.mem_map.mpr ⟨b, hb, rfl⟩)
  · rintro ⟨hb, hNe⟩
    rcases List.mem_append.mp hb with hLow | hHigh
    · exact List.mem_append.mpr (Or.inl hLow)
    · rcases List.mem_cons.mp hHigh with rfl | hHigh
      · exact absurd rfl hNe
      · exact List.mem_append.mpr (Or.inr hHigh)

/-- Taking a block adds it. -/
theorem mem_alloc {o' k' : Nat} (hAlloc : alloc k' H 0 t = some (o', t')) (hk : k' ≤ H)
    (hFits : t.Fits H) (b : Nat × Nat) :
    b ∈ t'.live H 0 ↔ b = (o', k') ∨ b ∈ t.live H 0 := by
  obtain ⟨-, low, high, hBlocks, hBlocks'⟩ := alloc_spec t hAlloc hk hFits
  rw [hBlocks, hBlocks', List.mem_append, List.mem_append, List.mem_cons]
  tauto

end Blocks

/-! ## The data -/

/-- What a call of `buddy_realloc` on a live block should do: the new block starts with the bytes
of the old one, which is gone, and the other blocks and their bytes stay; or the old block and the
whole index stay. -/
def KeepsData (buddy : BuddyT) (mem nbytes : Nat) (newMem : Option Nat) (buddy' : BuddyT) : Prop :=
  match newMem with
  | some dest =>
      (∃ i j, IsBlock buddy i mem ∧ IsBlock buddy' j dest ∧ nbytes ≤ sizeFromIndex buddy' j ∧
        ∀ x < min (sizeFromIndex buddy i) nbytes, buddy'.pool (dest + x) = buddy.pool (mem + x)) ∧
      (∀ j, ¬ IsBlock buddy' j mem) ∧
      (∀ i p, IsBlock buddy i p → p ≠ mem → IsBlock buddy' i p ∧ p ≠ dest ∧
        sizeFromIndex buddy' i = sizeFromIndex buddy i ∧
        ∀ x < sizeFromIndex buddy i, buddy'.pool (p + x) = buddy.pool (p + x)) ∧
      ∀ j p, IsBlock buddy' j p → p ≠ dest → IsBlock buddy j p
  | none =>
      (∃ i, IsBlock buddy' i mem ∧
        ∀ x < sizeFromIndex buddy' i, buddy'.pool (mem + x) = buddy.pool (mem + x)) ∧
      buddy'.tree = buddy.tree

section Calls

variable {buddy : BuddyT} {M H o k nbytes : Nat} {t : Blocks}

/-- A copy puts the bytes of the source at the destination. -/
theorem copied_at {pool : Nat → UInt8} {dest src n x : Nat} (hx : x < n) :
    copied pool dest src n (dest + x) = pool (src + x) := by
  rw [copied, if_pos ⟨Nat.le_add_right dest x, Nat.add_lt_add_left hx dest⟩,
    Nat.add_sub_cancel_left]

/-- Outside of the destination a copy changes nothing. -/
theorem copied_outside {pool : Nat → UInt8} {dest src n i : Nat}
    (hi : i < dest ∨ dest + n ≤ i) : copied pool dest src n i = pool i := by
  rw [copied, if_neg]
  omega

/-- Two blocks of the tree do not overlap in the pool. -/
theorem blocks_apart {o' k' : Nat} (hIn : (o, k) ∈ t.live H 0) (hIn' : (o', k') ∈ t.live H 0)
    (hNe : o ≠ o') :
    2 ^ M * o + 2 ^ (M + k) ≤ 2 ^ M * o' ∨ 2 ^ M * o' + 2 ^ (M + k') ≤ 2 ^ M * o := by
  rw [Nat.pow_add, Nat.pow_add, ← Nat.mul_add, ← Nat.mul_add]
  exact (live_separate hIn hIn' fun hEq => hNe (congrArg Prod.fst hEq)).imp
    (Nat.mul_le_mul_left _) (Nat.mul_le_mul_left _)

/-- With a new block `buddy_realloc` keeps the data. -/
theorem Pool.realloc_some (hPool : Pool buddy M H t) (hIn : (o, k) ∈ t.live H 0)
    (hPos : 1 ≤ nbytes) (hLe : nbytes ≤ buddy.poolSize) {dest : Nat} {buddy₁ : BuddyT}
    (hAlloc : buddyAlloc buddy nbytes = some (some dest, buddy₁)) :
    ∃ buddy', buddyRealloc buddy (some (2 ^ M * o)) nbytes = some (some dest, buddy') ∧
      KeepsData buddy (2 ^ M * o) nbytes (some dest) buddy' := by
  obtain ⟨k', hk', hSize, -, ⟨-, hRun⟩ | ⟨o', t', tree, hTree, hRun, hPool'⟩⟩ :=
    buddyAlloc_spec hPool hPos hLe
  · rw [hRun] at hAlloc
    cases hAlloc
  · rw [hRun] at hAlloc
    cases hAlloc
    obtain ⟨mem, tree₁, hRun', -, hRealloc⟩ := buddyRealloc_spec hPool hIn hPos hLe
    rw [hRun] at hRun'
    cases hRun'
    -- the tree with both blocks, and then without the old one
    have hBoth := mem_alloc hTree hk' hPool.fits
    have hOld := (hBoth (o, k)).mpr (Or.inr hIn)
    have hFresh : o ≠ o' := alloc_fresh hTree hk' hPool.fits hIn
    obtain ⟨gs, tree₂, hZip, hHeight, hStart, hFree, hPool₂⟩ :=
      buddyFree_spec (hPool'.withPool (filled buddy.pool (some (2 ^ M * o')) (2 ^ M * o)
        (min (2 ^ (M + k)) nbytes))) hOld
    have hLeft := mem_release hZip hHeight hStart
    refine ⟨_, by rw [hRealloc, hFree]; rfl, ?_, ?_, ?_, ?_⟩
    · have hNew := (hLeft (o', k')).mpr ⟨(hBoth _).mpr (Or.inl rfl), hFresh.symm⟩
      obtain ⟨hBlock, hBytes⟩ := hPool.block hIn
      obtain ⟨hBlock', hBytes'⟩ := hPool₂.block hNew
      refine ⟨_, _, hBlock, hBlock', ?_, ?_⟩
      · rw [hBytes']
        exact hSize
      · intro x hx
        rw [hBytes] at hx
        exact copied_at hx
    · intro j hBlock
      obtain ⟨o₂, k₂, hIn₂, hEq, -⟩ := hPool₂.isBlock_iff.mp hBlock
      exact ((hLeft _).mp hIn₂).2 (Nat.eq_of_mul_eq_mul_left (Nat.two_pow_pos M) hEq.symm)
    · intro i p hBlock hNe
      obtain ⟨o₂, k₂, hIn₂, rfl, rfl⟩ := hPool.isBlock_iff.mp hBlock
      have hOther : o₂ ≠ o := fun hEq => hNe (congrArg (2 ^ M * ·) hEq)
      have hFresh₂ : o₂ ≠ o' := alloc_fresh hTree hk' hPool.fits hIn₂
      have hStays := (hLeft (o₂, k₂)).mpr ⟨(hBoth _).mpr (Or.inr hIn₂), hOther⟩
      have hBytes := (hPool.block hIn₂).2
      obtain ⟨hBlock', hBytes'⟩ := hPool₂.block hStays
      refine ⟨hBlock', ?_, hBytes'.trans hBytes.symm, ?_⟩
      · intro hEq
        exact hFresh₂ (Nat.eq_of_mul_eq_mul_left (Nat.two_pow_pos M) hEq)
      · intro x hx
        rw [hBytes] at hx
        have hApart := @blocks_apart M H _ _ t' _ _ ((hBoth (o₂, k₂)).mpr (Or.inr hIn₂))
          ((hBoth (o', k')).mpr (Or.inl rfl)) hFresh₂
        have hCount : min (2 ^ (M + k)) nbytes ≤ 2 ^ (M + k') :=
          (Nat.min_le_right _ _).trans hSize
        apply copied_outside
        omega
    · intro j p hBlock hNe
      obtain ⟨o₂, k₂, hIn₂, rfl, rfl⟩ := hPool₂.isBlock_iff.mp hBlock
      rcases (hBoth _).mp ((hLeft _).mp hIn₂).1 with hEq | hThere
      · cases hEq
        exact absurd rfl hNe
      · exact (hPool.block hThere).1

/-- Without a new block the old one is given back all the same. -/
theorem Pool.realloc_none (hPool : Pool buddy M H t) (hIn : (o, k) ∈ t.live H 0)
    (hPos : 1 ≤ nbytes) (hLe : nbytes ≤ buddy.poolSize) {buddy₁ : BuddyT}
    (hAlloc : buddyAlloc buddy nbytes = some (none, buddy₁)) :
    ∃ buddy', buddyRealloc buddy (some (2 ^ M * o)) nbytes = some (none, buddy') ∧
      ∀ i, ¬ IsBlock buddy' i (2 ^ M * o) := by
  obtain ⟨k', hk', -, -, ⟨-, hRun⟩ | ⟨o', t', tree, -, hRun, -⟩⟩ :=
    buddyAlloc_spec hPool hPos hLe
  · obtain ⟨mem, tree₁, hRun', -, hRealloc⟩ := buddyRealloc_spec hPool hIn hPos hLe
    rw [hRun] at hRun'
    obtain ⟨rfl, hSame⟩ := Prod.mk.inj (Option.some.inj hRun')
    obtain rfl : buddy.tree = tree₁ := congrArg BuddyT.tree hSame
    obtain ⟨gs, tree₂, hZip, hHeight, hStart, hFree, hPool₂⟩ := buddyFree_spec hPool hIn
    refine ⟨_, by rw [hRealloc, filled, hFree]; rfl, ?_⟩
    intro i hBlock
    obtain ⟨o₂, k₂, hIn₂, hEq, -⟩ := hPool₂.isBlock_iff.mp hBlock
    exact ((mem_release hZip hHeight hStart _).mp hIn₂).2
      (Nat.eq_of_mul_eq_mul_left (Nat.two_pow_pos M) hEq.symm)
  · rw [hRun] at hAlloc
    cases hAlloc

end Calls

/-! ## Reachable pools -/

/-- In every reachable pool, whatever its memory holds, `buddy_realloc` of a live block keeps the
data if and only if there is a place for the new block. -/
theorem buddy_realloc_iff {pool : Nat → UInt8} {size minAllocSize : Nat} {buddy : BuddyT}
    (hInit : buddyInit pool size minAllocSize = some buddy) {ops : List BuddyOp}
    (hLegal : Along buddyStep Legal ⟨buddy, []⟩ ops) :
    ∃ os s, run buddyStep ⟨buddy, []⟩ ops = some (os, s) ∧
      ∀ memory mem nbytes, mem ∈ s.live.map Prod.fst → 1 ≤ nbytes → nbytes ≤ s.buddy.poolSize →
        ((∃ newMem buddy', buddyRealloc { s.buddy with pool := memory } (some mem) nbytes =
              some (newMem, buddy') ∧
            KeepsData { s.buddy with pool := memory } mem nbytes newMem buddy') ↔
          ∃ o, Place s (blockSize s.buddy nbytes) o) := by
  obtain ⟨M, H, hNew⟩ := canonical_init hInit
  obtain ⟨os, s, hRun, ⟨t, h⟩, -, -⟩ := canonical_run hNew hLegal
  refine ⟨os, s, hRun, ?_⟩
  intro memory mem nbytes hLive hPos hLe
  obtain ⟨o, k, hIn, rfl⟩ := h.matching.mem hLive
  have h' : Exact M H t ⟨{ s.buddy with pool := memory }, s.live⟩ :=
    ⟨h.pool.withPool memory, h.matching, h.reduced, h.sizes⟩
  rcases h'.alloc hPos hLe with ⟨hAlloc, hNone⟩ | ⟨dest, buddy₁, -, hAlloc, hLeast, -⟩
  · obtain ⟨buddy', hRealloc, hGone⟩ := h'.pool.realloc_none hIn hPos hLe hAlloc
    constructor
    · rintro ⟨newMem, buddy₂, hRealloc₂, hKeeps⟩
      rw [hRealloc] at hRealloc₂
      cases hRealloc₂
      obtain ⟨⟨i, hBlock, -⟩, -⟩ := hKeeps
      exact absurd hBlock (hGone i)
    · rintro ⟨p, hPlace⟩
      exact absurd hPlace (hNone p)
  · obtain ⟨buddy', hRealloc, hKeeps⟩ := h'.pool.realloc_some hIn hPos hLe hAlloc
    exact iff_of_true ⟨_, buddy', hRealloc, hKeeps⟩ ⟨dest, hLeast.1⟩

/-- A pool with two blocks of 8 bytes. -/
theorem buddy_realloc_small :
    ∃ os s, run buddyStep ⟨smallPool, []⟩ [.alloc 8, .alloc 8] = some (os, s) ∧
      ∀ memory mem nbytes, mem ∈ s.live.map Prod.fst → 1 ≤ nbytes → nbytes ≤ s.buddy.poolSize →
        ((∃ newMem buddy', buddyRealloc { s.buddy with pool := memory } (some mem) nbytes =
              some (newMem, buddy') ∧
            KeepsData { s.buddy with pool := memory } mem nbytes newMem buddy') ↔
          ∃ o, Place s (blockSize s.buddy nbytes) o) :=
  buddy_realloc_iff (Option.some_get _).symm (by decide)

/-- Both halves of the pool are in use, and the first one should become the whole. -/
def halves : State := ((run buddyStep ⟨smallPool, []⟩ [.alloc 16, .alloc 16]).get (by decide)).2

theorem buddy_realloc_loses :
    0 ∈ halves.live.map Prod.fst ∧
      ¬ ∃ newMem buddy', buddyRealloc halves.buddy (some 0) 32 = some (newMem, buddy') ∧
        KeepsData halves.buddy 0 32 newMem buddy' := by
  refine ⟨by decide, ?_⟩
  rintro ⟨newMem, buddy', hRealloc, hKeeps⟩
  have hNull : (buddyRealloc halves.buddy (some 0) 32).map Prod.fst = some none := by decide
  have hLeft : (buddyRealloc halves.buddy (some 0) 32).map (fun r => r.2.tag 2) =
      some (some .unused) := by decide
  have hBefore : halves.buddy.tag 2 = some .used := by decide
  rw [hRealloc] at hNull hLeft
  obtain rfl : newMem = none := Option.some.inj hNull
  have hTag : buddy'.tag 2 = some .unused := Option.some.inj hLeft
  have hSame : buddy'.tag 2 = halves.buddy.tag 2 := congrFun hKeeps.2 2
  rw [hTag, hBefore] at hSame
  cases hSame

end Gbase.Mm.Buddy
