import Gbase.Mm.BuddyRuns

/-!
# The index of the buddy allocator is a function of the live blocks

A block has the least size the pool knows that holds what was asked for.  The tag of a node
can be read off the blocks alone: used for a block, unused where no block is inside of the
node, and full or split above a block, as the blocks cover the node or not.  So the index
does not remember in which order the calls came, and an allocation, which searches the
index, finds the lowest aligned place free of blocks whenever there is one.

## Main results

* `buddy_tree_canonical`: after every run the index is that of the live blocks.
* `buddy_alloc_complete`: in every reachable state `buddy_alloc` fails only when there is no
  place, and otherwise returns the lowest one.
-/

namespace Gbase.Mm.Buddy

open Gbase.Core.OsDef
open Gbase.Lib.BuddyTree
open Gbase.Lib.BuddyTree.Blocks
open Gbase.Lib.Run
open Gbase.Lib.Store

/-! ## Blocks in bytes -/

/-- The size of the block for a request: a power of two, and at least the minimum. -/
def blockSize (buddy : BuddyT) (nbytes : Nat) : Nat := max buddy.minSize (2 ^ Nat.clog 2 nbytes)

/-- The live blocks, as their offsets and sizes. -/
def State.blocks (s : State) : List (Nat × Nat) :=
  s.live.map fun b => (b.1, blockSize s.buddy b.2)

/-- A block is a proper part of the `size` bytes at `shift`. -/
def HasPart (blocks : List (Nat × Nat)) (shift size : Nat) : Prop :=
  ∃ b ∈ blocks, shift ≤ b.1 ∧ b.1 + b.2 ≤ shift + size ∧ b.2 < size

/-- Blocks cover the `size` bytes at `shift`. -/
def Filled (blocks : List (Nat × Nat)) (shift size : Nat) : Prop :=
  ∀ x < size, ∃ b ∈ blocks, b.1 ≤ shift + x ∧ shift + x < b.1 + b.2

instance (blocks : List (Nat × Nat)) (shift size : Nat) : Decidable (HasPart blocks shift size) :=
  inferInstanceAs (Decidable (∃ b ∈ blocks, _))

instance (blocks : List (Nat × Nat)) (shift size : Nat) : Decidable (Filled blocks shift size) :=
  inferInstanceAs (Decidable (∀ x < size, _))

/-- The tag of the node of `size` bytes at `shift`, from the blocks. -/
def canonicalTag (blocks : List (Nat × Nat)) (shift size : Nat) : Tag :=
  if (shift, size) ∈ blocks then .used
  else if HasPart blocks shift size then
    if Filled blocks shift size then .full else .split
  else .unused

/-- The index of a pool, from the blocks. -/
def canonicalTree (buddy : BuddyT) (blocks : List (Nat × Nat)) (index : Nat) : Option Tag :=
  if 1 ≤ index ∧ index < buddy.treeSize then
    some (canonicalTag blocks (shiftFromIndex buddy index) (sizeFromIndex buddy index))
  else none

/-- An aligned place of `size` bytes in the pool that no live block reaches into. -/
def Place (s : State) (size o : Nat) : Prop :=
  size ∣ o ∧ o + size ≤ s.buddy.poolSize ∧ ∀ b ∈ s.blocks, b.1 + b.2 ≤ o ∨ o + size ≤ b.1

/-- Only the blocks that reach into a node matter to its tag. -/
theorem canonicalTag_congr {A B : List (Nat × Nat)} {shift size : Nat} (hSize : 0 < size)
    (hA : ∀ b ∈ A, 0 < b.2) (hB : ∀ b ∈ B, 0 < b.2)
    (hSame : ∀ b : Nat × Nat, b.1 < shift + size → shift < b.1 + b.2 → (b ∈ A ↔ b ∈ B)) :
    canonicalTag A shift size = canonicalTag B shift size := by
  have hUsed : (shift, size) ∈ A ↔ (shift, size) ∈ B :=
    hSame (shift, size) (Nat.lt_add_of_pos_right hSize) (Nat.lt_add_of_pos_right hSize)
  have hPart : HasPart A shift size ↔ HasPart B shift size := by
    constructor
    · rintro ⟨b, hb, hLow, hHigh, hLess⟩
      have hPos := hA b hb
      exact ⟨b, (hSame b (by omega) (by omega)).mp hb, hLow, hHigh, hLess⟩
    · rintro ⟨b, hb, hLow, hHigh, hLess⟩
      have hPos := hB b hb
      exact ⟨b, (hSame b (by omega) (by omega)).mpr hb, hLow, hHigh, hLess⟩
  have hFilled : Filled A shift size ↔ Filled B shift size := by
    refine forall₂_congr fun x hx => exists_congr fun b => ?_
    constructor
    · rintro ⟨hb, hLow, hHigh⟩
      exact ⟨(hSame b (by omega) (by omega)).mp hb, hLow, hHigh⟩
    · rintro ⟨hb, hLow, hHigh⟩
      exact ⟨(hSame b (by omega) (by omega)).mpr hb, hLow, hHigh⟩
  simp only [canonicalTag, hUsed, hPart, hFilled]

/-- The order of the blocks does not matter. -/
theorem canonicalTree_congr {A B : List (Nat × Nat)} (hSame : ∀ b, b ∈ A ↔ b ∈ B)
    (buddy : BuddyT) : canonicalTree buddy A = canonicalTree buddy B := by
  have hPart : ∀ shift size, HasPart A shift size ↔ HasPart B shift size := by
    intro shift size
    simp only [HasPart, hSame]
  have hFilled : ∀ shift size, Filled A shift size ↔ Filled B shift size := by
    intro shift size
    simp only [Filled, hSame]
  funext index
  simp only [canonicalTree, canonicalTag, hSame, hPart, hFilled]

private theorem canonicalTag_nil (shift size : Nat) : canonicalTag [] shift size = .unused := by
  simp [canonicalTag, HasPart]

/-- Nothing is marked below a block. -/
theorem canonicalTag_below {b : Nat × Nat} {shift size : Nat} (hLess : size < b.2) :
    canonicalTag [b] shift size = .unused := by
  have hUsed : (shift, size) ∉ [b] := by
    rw [List.mem_singleton]
    rintro rfl
    exact Nat.lt_irrefl _ hLess
  have hPart : ¬ HasPart [b] shift size := by
    rintro ⟨c, hc, -, -, hSmall⟩
    rw [List.mem_singleton.mp hc] at hSmall
    omega
  rw [canonicalTag, if_neg hUsed, if_neg hPart]

/-! ## The blocks of a tree -/

/-- Units of `2 ^ M` bytes. -/
def bytes (M : Nat) (blocks : List (Nat × Nat)) : List (Nat × Nat) :=
  blocks.map fun b => (2 ^ M * b.1, 2 ^ (M + b.2))

section Bytes

variable {M h base : Nat} {t : Blocks}

theorem mem_bytes {blocks : List (Nat × Nat)} {b : Nat × Nat} :
    b ∈ bytes M blocks ↔ ∃ o k, (o, k) ∈ blocks ∧ b = (2 ^ M * o, 2 ^ (M + k)) := by
  rw [bytes, List.mem_map]
  constructor
  · rintro ⟨⟨o, k⟩, hIn, rfl⟩
    exact ⟨o, k, hIn, rfl⟩
  · rintro ⟨o, k, hIn, rfl⟩
    exact ⟨(o, k), hIn, rfl⟩

theorem bytes_pos {blocks : List (Nat × Nat)} {b : Nat × Nat} (hb : b ∈ bytes M blocks) :
    0 < b.2 := by
  obtain ⟨o, k, -, rfl⟩ := mem_bytes.mp hb
  exact Nat.two_pow_pos _

/-- The blocks of a region lie inside it. -/
theorem bytes_spec (hBase : 2 ^ h ∣ base) {b : Nat × Nat} (hb : b ∈ bytes M (t.live h base)) :
    2 ^ M * base ≤ b.1 ∧ b.1 + b.2 ≤ 2 ^ M * base + 2 ^ (M + h) ∧ b.2 ≤ 2 ^ (M + h) := by
  obtain ⟨o, k, hIn, rfl⟩ := mem_bytes.mp hb
  have hBounds := live_spec t hIn hBase
  refine ⟨Nat.mul_le_mul_left _ hBounds.1, ?_, Nat.pow_le_pow_right (by decide) (by omega)⟩
  rw [Nat.pow_add, Nat.pow_add, ← Nat.mul_add, ← Nat.mul_add]
  exact Nat.mul_le_mul_left _ hBounds.2.1

private theorem bytes_split (l r : Blocks) :
    bytes M ((Blocks.split l r).live (h + 1) base) =
      bytes M (l.live h base) ++ bytes M (r.live h (base + 2 ^ h)) := by
  rw [live, bytes, List.map_append]
  rfl

/-- A region is full when its blocks cover its bytes. -/
theorem filled_iff (hFits : t.Fits h) (hBase : 2 ^ h ∣ base) :
    Filled (bytes M (t.live h base)) (2 ^ M * base) (2 ^ (M + h)) ↔ t.full = true := by
  have hPos := Nat.two_pow_pos M
  rw [full_iff t hFits hBase]
  constructor
  · intro hFilled u hLow hHigh
    obtain ⟨x, rfl⟩ := Nat.exists_eq_add_of_le hLow
    have hx : 2 ^ M * x < 2 ^ (M + h) := by
      rw [Nat.pow_add]
      exact Nat.mul_lt_mul_of_pos_left (by omega) hPos
    obtain ⟨b, hb, hStart, hEnd⟩ := hFilled _ hx
    obtain ⟨o, k, hIn, rfl⟩ := mem_bytes.mp hb
    dsimp only at hStart hEnd
    rw [← Nat.mul_add] at hStart hEnd
    rw [Nat.pow_add, ← Nat.mul_add] at hEnd
    exact ⟨(o, k), hIn, Nat.le_of_mul_le_mul_left hStart hPos, Nat.lt_of_mul_lt_mul_left hEnd⟩
  · intro hCovered x hx
    have hUnit : x / 2 ^ M < 2 ^ h := by
      rw [Nat.div_lt_iff_lt_mul hPos, Nat.mul_comm, ← Nat.pow_add]
      exact hx
    obtain ⟨⟨o, k⟩, hIn, hStart, hEnd⟩ := hCovered (base + x / 2 ^ M)
      (Nat.le_add_right _ _) (Nat.add_lt_add_left hUnit base)
    refine ⟨_, mem_bytes.mpr ⟨o, k, hIn, rfl⟩, ?_, ?_⟩
    · have hScaled := Nat.mul_le_mul_left (2 ^ M) hStart
      have hRound := Nat.mul_div_le x (2 ^ M)
      rw [Nat.mul_add] at hScaled
      dsimp only at hScaled ⊢
      omega
    · have hScaled := Nat.mul_le_mul_left (2 ^ M) (Nat.succ_le_of_lt hEnd)
      have hRound := Nat.lt_mul_div_succ x hPos
      rw [Nat.succ_eq_add_one, Nat.add_assoc, Nat.mul_add] at hScaled
      dsimp only at hScaled ⊢
      rw [Nat.pow_add, ← Nat.mul_add]
      omega

/-- The tag of the node of a region. -/
theorem tagOf_eq (hFits : t.Fits h) (hReduced : t.Reduced) (hBase : 2 ^ h ∣ base) :
    tagOf t = canonicalTag (bytes M (t.live h base)) (2 ^ M * base) (2 ^ (M + h)) := by
  cases t with
  | unused =>
      rw [live]
      exact (canonicalTag_nil _ _).symm
  | used => simp [tagOf, live, bytes, canonicalTag]
  | split l r =>
      cases h with
      | zero => cases hFits
      | succ h =>
          have hHalf : 2 ^ h ∣ base := (Nat.pow_dvd_pow 2 (Nat.le_succ h)).trans hBase
          have hMiddle : 2 ^ h ∣ base + 2 ^ h := Nat.dvd_add hHalf (Nat.dvd_refl _)
          have hGrow : 2 ^ (M + h) < 2 ^ (M + (h + 1)) :=
            Nat.pow_lt_pow_right (by decide) (by omega)
          have hSmall : ∀ b ∈ bytes M ((Blocks.split l r).live (h + 1) base),
              b.2 < 2 ^ (M + (h + 1)) := by
            intro b hb
            rw [bytes_split] at hb
            rcases List.mem_append.mp hb with hb | hb
            · exact Nat.lt_of_le_of_lt (bytes_spec hHalf hb).2.2 hGrow
            · exact Nat.lt_of_le_of_lt (bytes_spec hMiddle hb).2.2 hGrow
          have hUsed : (2 ^ M * base, 2 ^ (M + (h + 1))) ∉
              bytes M ((Blocks.split l r).live (h + 1) base) :=
            fun hIn => Nat.lt_irrefl _ (hSmall _ hIn)
          have hPart : HasPart (bytes M ((Blocks.split l r).live (h + 1) base)) (2 ^ M * base)
              (2 ^ (M + (h + 1))) := by
            have hSome : (Blocks.split l r).live (h + 1) base ≠ [] :=
              hReduced.live_ne_nil hFits Blocks.noConfusion
            obtain ⟨b, hb⟩ := List.exists_mem_of_ne_nil _ hSome
            have hIn : (2 ^ M * b.1, 2 ^ (M + b.2)) ∈
                bytes M ((Blocks.split l r).live (h + 1) base) :=
              mem_bytes.mpr ⟨b.1, b.2, hb, rfl⟩
            have hBounds := bytes_spec hBase hIn
            exact ⟨_, hIn, hBounds.1, hBounds.2.1, hSmall _ hIn⟩
          have hFilled := @filled_iff M (h + 1) base (.split l r) hFits hBase
          rw [canonicalTag, if_neg hUsed, if_pos hPart, tagOf, splitTag]
          simp only [hFilled, full]

/-- One half of a region. -/
def half (right : Bool) (t : Blocks) : Blocks := if right then t.right else t.left

private theorem fits_half (right : Bool) (hFits : t.Fits (h + 1)) : (half right t).Fits h := by
  cases t with
  | unused => cases right <;> cases h <;> trivial
  | used => cases right <;> cases h <;> trivial
  | split l r =>
      cases right
      · exact hFits.1
      · exact hFits.2

private theorem reduced_half (right : Bool) (hReduced : t.Reduced) : (half right t).Reduced := by
  cases t with
  | unused => cases right <;> trivial
  | used => cases right <;> trivial
  | split l r =>
      cases right
      · exact hReduced.2.1
      · exact hReduced.2.2

/-- For a node in a half, the blocks of the half say the same as those of the whole. -/
theorem canonicalTag_half (right : Bool) (hBase : 2 ^ (h + 1) ∣ base) {o k : Nat}
    (hLow : base + (if right then 2 ^ h else 0) ≤ o)
    (hHigh : o + 2 ^ k ≤ base + (if right then 2 ^ h else 0) + 2 ^ h) :
    canonicalTag (bytes M ((half right t).live h (base + if right then 2 ^ h else 0)))
        (2 ^ M * o) (2 ^ (M + k)) =
      canonicalTag (bytes M (t.live (h + 1) base)) (2 ^ M * o) (2 ^ (M + k)) := by
  have hHalf : 2 ^ h ∣ base := (Nat.pow_dvd_pow 2 (Nat.le_succ h)).trans hBase
  have hMiddle : 2 ^ h ∣ base + 2 ^ h := Nat.dvd_add hHalf (Nat.dvd_refl _)
  have hScaledLow := Nat.mul_le_mul_left (2 ^ M) hLow
  have hScaledHigh := Nat.mul_le_mul_left (2 ^ M) hHigh
  rw [Nat.mul_add (2 ^ M) o, ← Nat.pow_add] at hScaledHigh
  cases t with
  | unused =>
      have hNil : (half right Blocks.unused).live h (base + if right then 2 ^ h else 0) = [] := by
        cases right <;> cases h <;> rfl
      rw [hNil, live]
  | used =>
      have hNil : (half right Blocks.used).live h (base + if right then 2 ^ h else 0) = [] := by
        cases right <;> cases h <;> rfl
      have hSmall : 2 ^ (M + k) < 2 ^ (M + (h + 1)) := by
        have hPow : 2 ^ k ≤ 2 ^ h := by omega
        have hPos := Nat.two_pow_pos (M + h)
        have hScaled := Nat.mul_le_mul_left (2 ^ M) hPow
        rw [← Nat.pow_add, ← Nat.pow_add] at hScaled
        rw [← Nat.add_assoc M h 1, Nat.pow_succ]
        omega
      rw [hNil, live]
      exact (canonicalTag_nil _ _).trans (canonicalTag_below hSmall).symm
  | split l r =>
      rw [bytes_split]
      apply canonicalTag_congr (Nat.two_pow_pos _)
      · intro b hb
        exact bytes_pos hb
      · intro b hb
        rcases List.mem_append.mp hb with hb | hb
        · exact bytes_pos hb
        · exact bytes_pos hb
      · intro b hBefore hBehind
        rw [List.mem_append]
        cases right
        · -- the blocks of the right half are behind the node
          refine ⟨Or.inl, ?_⟩
          rintro (hb | hb)
          · exact hb
          · have hBounds := bytes_spec hMiddle hb
            simp only [Bool.false_eq_true, if_false, Nat.add_zero] at hScaledHigh
            omega
        · refine ⟨Or.inr, ?_⟩
          rintro (hb | hb)
          · have hBounds := bytes_spec hHalf hb
            simp only [if_true, Nat.mul_add, ← Nat.pow_add] at hScaledLow
            omega
          · exact hb

/-- A node of a region is a position in it, and its tag is that of the blocks. -/
theorem cells_canonical {j : Nat} {tag : Tag} :
    ∀ {h : Nat} {t : Blocks} {fs : List Frame}, t.Fits h → t.Reduced →
      (j, tag) ∈ cells h (index fs) t →
      ∃ gs k, index gs = j ∧ k + gs.length = h + fs.length ∧ start h fs ≤ start k gs ∧
        start k gs + 2 ^ k ≤ start h fs + 2 ^ h ∧
        tag = canonicalTag (bytes M (t.live h (start h fs))) (2 ^ M * start k gs)
            (2 ^ (M + k)) := by
  intro h
  induction h with
  | zero =>
      intro t fs hFits hReduced hIn
      simp only [cells, Multiset.mem_singleton, Prod.mk.injEq] at hIn
      obtain ⟨rfl, rfl⟩ := hIn
      exact ⟨fs, 0, rfl, rfl, Nat.le_refl _, Nat.le_refl _,
        tagOf_eq hFits hReduced (dvd_start 0 fs)⟩
  | succ h ih =>
      intro t fs hFits hReduced hIn
      have hAlign : 2 ^ (h + 1) ∣ start (h + 1) fs := dvd_start (h + 1) fs
      have hHalf : ∀ right : Bool,
          (j, tag) ∈ cells h (index ({ right := right, sib := .unused } :: fs)) (half right t) →
          ∃ gs k, index gs = j ∧ k + gs.length = h + 1 + fs.length ∧
            start (h + 1) fs ≤ start k gs ∧
            start k gs + 2 ^ k ≤ start (h + 1) fs + 2 ^ (h + 1) ∧
            tag = canonicalTag (bytes M (t.live (h + 1) (start (h + 1) fs)))
              (2 ^ M * start k gs) (2 ^ (M + k)) := by
        intro right hIn
        obtain ⟨gs, k, hIndex, hHeight, hLow, hHigh, hTag⟩ :=
          ih (fits_half right hFits) (reduced_half right hReduced) hIn
        simp only [start, List.length_cons] at hHeight hLow hHigh hTag
        refine ⟨gs, k, hIndex, by omega, Nat.le_of_add_right_le hLow, ?_, ?_⟩
        · rw [Nat.pow_succ]
          split at hHigh <;> omega
        · rw [hTag]
          exact canonicalTag_half right hAlign hLow hHigh
      simp only [cells, Multiset.mem_add, Multiset.mem_singleton, Prod.mk.injEq] at hIn
      rcases hIn with ⟨rfl, rfl⟩ | hLeft | hRight
      · exact ⟨fs, h + 1, rfl, rfl, Nat.le_refl _, Nat.le_refl _,
          tagOf_eq hFits hReduced hAlign⟩
      · exact hHalf false (by simpa [index, half] using hLeft)
      · exact hHalf true (by simpa [index, half] using hRight)

end Bytes

/-! ## The index of a pool -/

/-- The nodes of a region do not depend on how it is divided. -/
theorem keys_cells (h i : Nat) (t : Blocks) :
    (cells h i t).map Prod.fst = (cells h i .unused).map Prod.fst := by
  induction h generalizing i t with
  | zero => rfl
  | succ h ih =>
      simp only [cells, Multiset.map_add, Multiset.map_singleton]
      rw [ih _ t.left, ih _ t.right, ih _ Blocks.unused.left, ih _ Blocks.unused.right]

section Pool

variable {buddy : BuddyT} {M H : Nat} {t : Blocks}

/-- The index of a pool is that of its blocks. -/
theorem Pool.tree_eq (hPool : Pool buddy M H t) (hReduced : t.Reduced) :
    buddy.tree = canonicalTree buddy (bytes M (t.live H 0)) := by
  have hKeys : ∀ i, i ∈ (cells H 1 t).map Prod.fst ↔ 1 ≤ i ∧ i < buddy.treeSize := by
    intro i
    have hUnused := (holds_unused H).cells i
    rw [keys_cells, hPool.shape.treeSize, Multiset.mem_map]
    constructor
    · rintro ⟨⟨j, tag⟩, hIn, rfl⟩
      have hTree := (hUnused tag).mpr hIn
      by_contra hOut
      rw [if_neg hOut] at hTree
      cases hTree
    · intro hIn
      exact ⟨(i, .unused), (hUnused .unused).mp (if_pos hIn), rfl⟩
  funext i
  rw [canonicalTree]
  by_cases hIn : 1 ≤ i ∧ i < buddy.treeSize
  · rw [if_pos hIn]
    obtain ⟨⟨j, tag⟩, hCell, rfl⟩ := Multiset.mem_map.mp ((hKeys i).mpr hIn)
    rw [hPool.holds.read hCell]
    obtain ⟨gs, k, hIndex, hHeight, -, -, hTag⟩ :=
      @cells_canonical M j tag H t [] hPool.fits hReduced hCell
    have hHeight' : k + gs.length = H := hHeight
    subst hHeight'
    rw [hTag, ← hIndex, shiftFromIndex_spec hPool.shape, sizeFromIndex_spec hPool.shape]
    rfl
  · rw [if_neg hIn]
    cases hTree : buddy.tree i with
    | none => rfl
    | some tag =>
        have hCell := (hPool.holds.cells i tag).mp hTree
        exact absurd ((hKeys i).mp (Multiset.mem_map_of_mem Prod.fst hCell)) hIn

/-- What `buddy_alloc` rounds a request to is the size of a block for it. -/
theorem blockSize_eq (hShape : Shape buddy M H) {nbytes k : Nat} (hUp : nbytes ≤ 2 ^ (M + k))
    (hDown : k = 0 ∨ 2 ^ (M + k) < 2 * nbytes) : blockSize buddy nbytes = 2 ^ (M + k) := by
  have hClog : Nat.clog 2 nbytes ≤ M + k := Nat.clog_le_of_le_pow hUp
  have hPow : 2 ^ Nat.clog 2 nbytes ≤ 2 ^ (M + k) := Nat.pow_le_pow_right (by decide) hClog
  rw [blockSize, hShape.minSize]
  rcases hDown with rfl | hDown
  · exact Nat.max_eq_left hPow
  · have hExact : Nat.clog 2 nbytes = M + k := by
      by_contra hNe
      have hHalf : 2 ^ (Nat.clog 2 nbytes + 1) ≤ 2 ^ (M + k) :=
        Nat.pow_le_pow_right (by decide) (by omega)
      have hLarge := Nat.le_pow_clog (by decide : 1 < 2) nbytes
      rw [Nat.pow_succ] at hHalf
      omega
    rw [hExact]
    exact Nat.max_eq_right (Nat.pow_le_pow_right (by decide) (by omega))

end Pool

/-! ## The invariant -/

/-- The pool is the reduced tree `t`, and its blocks have the sizes of the requests. -/
structure Exact (M H : Nat) (t : Blocks) (s : State) : Prop where
  pool : Pool s.buddy M H t
  matching : Matches M H t s.live
  reduced : t.Reduced
  sizes : Backed (fun nbytes k => blockSize s.buddy nbytes = 2 ^ (M + k)) M (t.live H 0) s.live

/-- The sizes of a pool stay, and there is a tree for it. -/
def Canonical (M H : Nat) (s : State) : Prop := ∃ t, Exact M H t s

section Exact

variable {s : State} {M H : Nat} {t : Blocks}

/-- The live blocks are those of the tree. -/
theorem Exact.mem_blocks (h : Exact M H t s) (b : Nat × Nat) :
    b ∈ s.blocks ↔ b ∈ bytes M (t.live H 0) := by
  rw [State.blocks, List.mem_map, mem_bytes]
  constructor
  · rintro ⟨⟨p, nbytes⟩, hIn, rfl⟩
    obtain ⟨o, k, hBlock, rfl, hSize⟩ := h.sizes p nbytes hIn
    exact ⟨o, k, hBlock, by rw [hSize]⟩
  · rintro ⟨o, k, hBlock, rfl⟩
    have hStart : 2 ^ M * o ∈ s.live.map Prod.fst := by
      rw [h.matching.starts.mem_iff, List.mem_map]
      exact ⟨(o, k), hBlock, rfl⟩
    obtain ⟨⟨p, nbytes⟩, hIn, hp⟩ := List.mem_map.mp hStart
    obtain ⟨o', k', hBlock', hp', hSize⟩ := h.sizes p nbytes hIn
    have hSame : o' = o := by
      apply Nat.eq_of_mul_eq_mul_left (Nat.two_pow_pos M)
      rw [← hp']
      exact hp
    have hEq := live_start_inj hBlock' hBlock hSame
    cases hEq
    exact ⟨(p, nbytes), hIn, by rw [hSize, hp']⟩

/-- The index of a pool is that of its live blocks. -/
theorem Exact.tree_eq (h : Exact M H t s) : s.buddy.tree = canonicalTree s.buddy s.blocks := by
  rw [h.pool.tree_eq h.reduced]
  exact canonicalTree_congr (fun b => (h.mem_blocks b).symm) s.buddy

/-- A place in the pool is one in the tree. -/
theorem Exact.place_iff (h : Exact M H t s) {k p : Nat} :
    Place s (2 ^ (M + k)) p ↔ ∃ o, p = 2 ^ M * o ∧ Room (t.live H 0) k H 0 o := by
  have hPos := Nat.two_pow_pos M
  have hBlocks : (∀ b ∈ s.blocks, b.1 + b.2 ≤ p ∨ p + 2 ^ (M + k) ≤ b.1) ↔
      ∀ b ∈ t.live H 0, 2 ^ M * (b.1 + 2 ^ b.2) ≤ p ∨ p + 2 ^ (M + k) ≤ 2 ^ M * b.1 := by
    constructor
    · intro hFree b hb
      have hApart := hFree _ ((h.mem_blocks _).mpr (mem_bytes.mpr ⟨b.1, b.2, hb, rfl⟩))
      rw [Nat.mul_add, ← Nat.pow_add]
      exact hApart
    · intro hFree b hb
      obtain ⟨o, k', hIn, rfl⟩ := mem_bytes.mp ((h.mem_blocks b).mp hb)
      have hApart := hFree (o, k') hIn
      rw [Nat.mul_add, ← Nat.pow_add] at hApart
      exact hApart
  rw [Place, hBlocks, h.pool.shape.poolSize]
  constructor
  · rintro ⟨hAlign, hEnd, hFree⟩
    obtain ⟨o, rfl⟩ := (Nat.pow_dvd_pow 2 (Nat.le_add_right M k)).trans hAlign
    rw [Nat.pow_add] at hAlign hEnd
    rw [Nat.pow_add, ← Nat.mul_add] at hEnd
    refine ⟨o, rfl, Nat.dvd_of_mul_dvd_mul_left hPos hAlign, Nat.zero_le o, ?_, ?_⟩
    · have hUnits := Nat.le_of_mul_le_mul_left hEnd hPos
      omega
    · intro b hb
      have hApart := hFree b hb
      rw [Nat.pow_add, ← Nat.mul_add, Nat.mul_le_mul_left_iff hPos,
        Nat.mul_le_mul_left_iff hPos] at hApart
      exact hApart
  · rintro ⟨o, rfl, hAlign, -, hEnd, hFree⟩
    rw [Nat.pow_add]
    refine ⟨Nat.mul_dvd_mul_left _ hAlign, ?_, ?_⟩
    · rw [Nat.pow_add, ← Nat.mul_add]
      exact Nat.mul_le_mul_left _ (by omega)
    · intro b hb
      rw [← Nat.mul_add, Nat.mul_le_mul_left_iff hPos, Nat.mul_le_mul_left_iff hPos]
      exact hFree b hb

/-- There is no place exactly when the search finds none. -/
theorem Exact.alloc_none_iff (h : Exact M H t s) {k : Nat} (hk : k ≤ H) :
    alloc k H 0 t = none ↔ ∀ p, ¬ Place s (2 ^ (M + k)) p := by
  have hZero : 2 ^ H ∣ 0 := Nat.dvd_zero _
  constructor
  · intro hNone p hPlace
    obtain ⟨o, -, hRoom⟩ := h.place_iff.mp hPlace
    exact alloc_none h.reduced hk h.pool.fits hZero hNone o hRoom
  · intro hNot
    cases hAlloc : alloc k H 0 t with
    | none => rfl
    | some found =>
        obtain ⟨o, t'⟩ := found
        have hRoom := (alloc_least h.reduced hk h.pool.fits hZero hAlloc).1
        exact absurd (h.place_iff.mpr ⟨o, rfl, hRoom⟩) (hNot _)

end Exact

theorem canonical_init {pool : Nat → UInt8} {size minAllocSize : Nat} {buddy : BuddyT}
    (h : buddyInit pool size minAllocSize = some buddy) :
    ∃ M H, Canonical M H ⟨buddy, []⟩ := by
  obtain ⟨M, H, hShape, hHolds⟩ := buddyInit_spec h
  refine ⟨M, H, .unused, ⟨hShape, hHolds, by cases H <;> trivial⟩, ⟨?_, ?_⟩, trivial, ?_⟩
  · simp [Blocks.live]
  · intro p nbytes hIn
    cases hIn
  · intro p nbytes hIn
    cases hIn

/-! ## One call -/

section Calls

variable {s : State} {M H : Nat} {t : Blocks}

/-- `buddy_alloc` in a pool: nothing changes when there is no place, and otherwise it takes
the lowest one. -/
theorem Exact.alloc (h : Exact M H t s) {nbytes : Nat} (hPos : 1 ≤ nbytes)
    (hLe : nbytes ≤ s.buddy.poolSize) :
    (buddyAlloc s.buddy nbytes = some (none, s.buddy) ∧
        ∀ o, ¬ Place s (blockSize s.buddy nbytes) o) ∨
      ∃ p buddy t', buddyAlloc s.buddy nbytes = some (some p, buddy) ∧
        IsLeast {o | Place s (blockSize s.buddy nbytes) o} p ∧
        Exact M H t' ⟨buddy, grant (some p) nbytes s.live⟩ := by
  obtain ⟨k, hk, hUp, hDown, hCases⟩ := buddyAlloc_spec h.pool hPos hLe
  have hSize := blockSize_eq h.pool.shape hUp hDown
  have hZero : 2 ^ H ∣ 0 := Nat.dvd_zero _
  rw [hSize]
  rcases hCases with ⟨hNone, hRun⟩ | ⟨o, t', tree, hAlloc, hRun, hPool⟩
  · exact Or.inl ⟨hRun, (h.alloc_none_iff hk).mp hNone⟩
  · obtain ⟨-, low, high, hLive, hLive'⟩ := alloc_spec t hAlloc hk h.pool.fits
    obtain ⟨hRoom, hLow⟩ := alloc_least h.reduced hk h.pool.fits hZero hAlloc
    refine Or.inr ⟨_, _, t', hRun, ⟨h.place_iff.mpr ⟨o, rfl, hRoom⟩, ?_⟩, hPool, ?_, ?_, ?_⟩
    · intro p hPlace
      obtain ⟨o', rfl, hRoom'⟩ := h.place_iff.mp hPlace
      exact Nat.mul_le_mul_left _ (hLow hRoom')
    · exact h.matching.grant hLive hLive' hUp
    · exact (reduced_alloc h.reduced hAlloc).1
    · have hSizes := h.sizes
      rw [hLive] at hSizes
      rw [hLive']
      exact hSizes.grant hSize

/-- `buddy_free` of a live pointer keeps the invariant. -/
theorem Exact.free (h : Exact M H t s) {mem : Option Nat} (hLive : IsLive s mem) :
    ∃ buddy t', buddyFree s.buddy mem = some buddy ∧ Exact M H t' ⟨buddy, revoke mem s.live⟩ := by
  cases mem with
  | none => exact ⟨s.buddy, t, rfl, h⟩
  | some p =>
      obtain ⟨o, k, hIn, rfl⟩ := h.matching.mem hLive
      obtain ⟨gs, tree, hZip, hHeight, hStart, hRun, hPool⟩ := buddyFree_spec h.pool hIn
      obtain ⟨hBefore, hAfter⟩ := live_release hZip hHeight hStart
      have hReduced := h.reduced
      rw [← hZip] at hReduced
      refine ⟨_, _, hRun, hPool, h.matching.revoke hBefore hAfter, ?_, ?_⟩
      · exact reduced_zipMerge trivial (reduced_of_zip hReduced).2
      · have hSizes := h.sizes
        rw [hBefore] at hSizes
        rw [hAfter]
        exact hSizes.revoke

theorem canonical_kept (M H : Nat) : Kept (Canonical M H) where
  inv := by
    rintro s ⟨t, h⟩
    exact ⟨M, H, t, h.pool, h.matching⟩
  alloc := by
    rintro s nbytes ⟨t, h⟩ hPos hLe
    rcases h.alloc hPos hLe with ⟨hRun, -⟩ | ⟨p, buddy, t', hRun, -, h'⟩
    · exact ⟨none, s.buddy, hRun, t, h⟩
    · exact ⟨some p, buddy, hRun, t', h'⟩
  free := by
    rintro s mem ⟨t, h⟩ hLive
    obtain ⟨buddy, t', hRun, h'⟩ := h.free hLive
    exact ⟨buddy, hRun, t', h'⟩
  memory := by
    rintro s pool ⟨t, h⟩
    exact ⟨t, h.pool.withPool pool, h.matching, h.reduced, h.sizes⟩

end Calls

/-! ## Whole runs -/

section Runs

variable {pool : Nat → UInt8} {size minAllocSize : Nat} {buddy : BuddyT}

/-- Runs of legal calls end in the invariant, with the sizes of the pool unchanged. -/
theorem canonical_run {M H : Nat} (hInit : Canonical M H ⟨buddy, []⟩) {ops : List BuddyOp}
    (hLegal : Along buddyStep Legal ⟨buddy, []⟩ ops) :
    ∃ os s, run buddyStep ⟨buddy, []⟩ ops = some (os, s) ∧ Canonical M H s ∧
      s.buddy.poolSize = buddy.poolSize ∧ s.buddy.treeSize = buddy.treeSize := by
  obtain ⟨os, s, hRun, hCanonical⟩ := run_of_inv (Canonical M H)
    (fun s op hKeep hOp => (canonical_kept M H).step hKeep hOp) hInit hLegal
  obtain ⟨t₀, h₀⟩ := hInit
  obtain ⟨t, h⟩ := hCanonical
  refine ⟨os, s, hRun, ⟨t, h⟩, ?_, ?_⟩
  · exact h.pool.shape.poolSize.trans h₀.pool.shape.poolSize.symm
  · exact h.pool.shape.treeSize.trans h₀.pool.shape.treeSize.symm

/-- Every run returns, and the index is then that of the live blocks; two runs with the same
live blocks end with the same index, and a run that gave everything back with the first. -/
theorem buddy_tree_canonical (hInit : buddyInit pool size minAllocSize = some buddy)
    {ops ops' : List BuddyOp} (hLegal : Along buddyStep Legal ⟨buddy, []⟩ ops)
    (hLegal' : Along buddyStep Legal ⟨buddy, []⟩ ops') :
    ∃ os s os' s', run buddyStep ⟨buddy, []⟩ ops = some (os, s) ∧
      run buddyStep ⟨buddy, []⟩ ops' = some (os', s') ∧
      s.buddy.tree = canonicalTree buddy s.blocks ∧
      ((∀ b, b ∈ s.blocks ↔ b ∈ s'.blocks) → s.buddy.tree = s'.buddy.tree) ∧
      (s.live = [] → s.buddy.tree = buddy.tree) := by
  obtain ⟨M, H, hNew⟩ := canonical_init hInit
  have hTree : ∀ {t : Blocks} {s : State}, Exact M H t s → s.buddy.poolSize = buddy.poolSize →
      s.buddy.treeSize = buddy.treeSize → s.buddy.tree = canonicalTree buddy s.blocks := by
    intro t s h hPoolSize hTreeSize
    rw [h.tree_eq]
    funext i
    simp only [canonicalTree, shiftFromIndex, sizeFromIndex, hPoolSize, hTreeSize]
  obtain ⟨os, s, hRun, ⟨t, h⟩, hPoolSize, hTreeSize⟩ := canonical_run hNew hLegal
  obtain ⟨os', s', hRun', ⟨t', h'⟩, hPoolSize', hTreeSize'⟩ := canonical_run hNew hLegal'
  refine ⟨os, s, os', s', hRun, hRun', hTree h hPoolSize hTreeSize, ?_, ?_⟩
  · intro hSame
    rw [hTree h hPoolSize hTreeSize, hTree h' hPoolSize' hTreeSize']
    exact canonicalTree_congr hSame buddy
  · intro hNone
    obtain ⟨t₀, h₀⟩ := hNew
    rw [hTree h hPoolSize hTreeSize, hTree h₀ rfl rfl, State.blocks, hNone]
    rfl

/-- The blocks of the first run are given back in another order than they were taken; both
runs end with the block of 16 bytes at 16. -/
theorem buddy_tree_canonical_small :
    ∃ os s os' s', run buddyStep ⟨smallPool, []⟩
        [.alloc 5, .alloc 8, .alloc 16, .free (some 0), .free (some 8)] = some (os, s) ∧
      run buddyStep ⟨smallPool, []⟩ [.alloc 9, .alloc 12, .free (some 0)] = some (os', s') ∧
      s.buddy.tree = canonicalTree smallPool s.blocks ∧
      ((∀ b, b ∈ s.blocks ↔ b ∈ s'.blocks) → s.buddy.tree = s'.buddy.tree) ∧
      (s.live = [] → s.buddy.tree = smallPool.tree) :=
  buddy_tree_canonical (Option.some_get _).symm (by decide) (by decide)

/-- In every reachable state `buddy_alloc` returns; it gives `NULL` exactly when no aligned
place of the size of the block is free, and then changes nothing, and otherwise the lowest of
these places. -/
theorem buddy_alloc_complete (hInit : buddyInit pool size minAllocSize = some buddy)
    {ops : List BuddyOp} (hLegal : Along buddyStep Legal ⟨buddy, []⟩ ops) :
    ∃ os s, run buddyStep ⟨buddy, []⟩ ops = some (os, s) ∧
      ∀ nbytes, 1 ≤ nbytes → nbytes ≤ s.buddy.poolSize →
        ∃ p buddy', buddyAlloc s.buddy nbytes = some (p, buddy') ∧
          (p = none ↔ ∀ o, ¬ Place s (blockSize s.buddy nbytes) o) ∧
          (p = none → buddy' = s.buddy) ∧
          ∀ o, p = some o → IsLeast {o | Place s (blockSize s.buddy nbytes) o} o := by
  obtain ⟨M, H, hNew⟩ := canonical_init hInit
  obtain ⟨os, s, hRun, ⟨t, h⟩, -, -⟩ := canonical_run hNew hLegal
  refine ⟨os, s, hRun, ?_⟩
  intro nbytes hPos hLe
  rcases h.alloc hPos hLe with ⟨hAlloc, hNone⟩ | ⟨p, buddy', t', hAlloc, hLeast, -⟩
  · refine ⟨none, s.buddy, hAlloc, iff_of_true rfl hNone, fun _ => rfl, ?_⟩
    intro o hEq
    cases hEq
  · refine ⟨some p, buddy', hAlloc, iff_of_false (by simp) ?_, ?_, ?_⟩
    · intro hNone
      exact hNone p hLeast.1
    · intro hEq
      cases hEq
    · intro o hEq
      cases hEq
      exact hLeast

/-- A pool with a hole of 8 bytes in front of a block. -/
theorem buddy_alloc_complete_hole :
    ∃ os s, run buddyStep ⟨smallPool, []⟩ [.alloc 8, .alloc 8, .free (some 0)] = some (os, s) ∧
      ∀ nbytes, 1 ≤ nbytes → nbytes ≤ s.buddy.poolSize →
        ∃ p buddy', buddyAlloc s.buddy nbytes = some (p, buddy') ∧
          (p = none ↔ ∀ o, ¬ Place s (blockSize s.buddy nbytes) o) ∧
          (p = none → buddy' = s.buddy) ∧
          ∀ o, p = some o → IsLeast {o | Place s (blockSize s.buddy nbytes) o} o :=
  buddy_alloc_complete (Option.some_get _).symm (by decide)

end Runs

end Gbase.Mm.Buddy
