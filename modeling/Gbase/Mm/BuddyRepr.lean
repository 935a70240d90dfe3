import Gbase.Lib.BuddyTree
import Gbase.Lib.Store
import Gbase.Mm.Buddy
import Mathlib.Tactic.Abel

/-!
# The index of the buddy allocator as a tree

The tags of `mm/buddy.c` are those of a buddy tree: a split node is marked full when both of
its halves are.  `cells` lays the tags of a tree out by the numbers of the nodes.  While a
position is worked on, the tags above it may still be those of another tree there, which
matters only in so far as that tree was full; `ctxCells` has that as an argument.

## Main results

* `cells_zip`: the cells of a tree are those of a position and those of its context.
* `buddyInit_spec`: a new pool is one unused region.
-/

namespace Gbase.Mm.Buddy

open Gbase.Core.OsDef
open Gbase.Lib.BuddyTree
open Gbase.Lib.BuddyTree.Blocks
open Gbase.Lib.Store

/-! ## Cells -/

/-- The tag of a split node. -/
def splitTag (full : Bool) : Tag := if full then .full else .split

/-- The tag of a node. -/
def tagOf : Blocks → Tag
  | .unused => .unused
  | .used => .used
  | .split l r => splitTag (l.full && r.full)

/-- The tags of a region of height `h` whose node has number `i`. -/
def cells : Nat → Nat → Blocks → Multiset (Nat × Tag)
  | 0, i, t => {(i, tagOf t)}
  | h + 1, i, t => {(i, tagOf t)} + (cells h (2 * i) t.left + cells h (2 * i + 1) t.right)

/-- The tags above a position of height `h` and next to it, when the tree there is full or
not. -/
def ctxCells : Nat → List Frame → Bool → Multiset (Nat × Tag)
  | _, [], _ => 0
  | h, f :: fs, full =>
      {(index fs, splitTag (full && f.sib.full))} +
        (cells h (sibIndex f fs) f.sib + ctxCells (h + 1) fs (full && f.sib.full))

/-- The tag of a node is taken when nothing in its region is unused. -/
theorem tagOf_taken (t : Blocks) : (tagOf t = .used ∨ tagOf t = .full) ↔ t.full = true := by
  cases t with
  | unused => simp [tagOf, full]
  | used => simp [tagOf, full]
  | split l r =>
      simp only [tagOf, full]
      cases l.full && r.full <;> simp [splitTag]

theorem tagOf_unused (t : Blocks) : tagOf t = .unused ↔ t = .unused := by
  cases t with
  | unused => simp [tagOf]
  | used => simp [tagOf]
  | split l r =>
      simp only [tagOf, splitTag]
      split <;> simp

theorem mem_cells (h i : Nat) (t : Blocks) : (i, tagOf t) ∈ cells h i t := by
  cases h <;> simp [cells]

/-- A used region has the cells of an unused one but for its own. -/
theorem cells_used (h i : Nat) :
    ∃ m, cells h i .unused = {(i, .unused)} + m ∧ cells h i .used = {(i, .used)} + m := by
  cases h with
  | zero => exact ⟨0, (add_zero _).symm, (add_zero _).symm⟩
  | succ h => exact ⟨_, rfl, rfl⟩

theorem full_plug (f : Frame) (t : Blocks) : (f.plug t).full = (t.full && f.sib.full) := by
  rw [Frame.plug]
  cases f.right <;> simp [full, Bool.and_comm]

private theorem tagOf_plug (f : Frame) (t : Blocks) :
    tagOf (f.plug t) = splitTag (t.full && f.sib.full) := by
  rw [Frame.plug]
  cases f.right <;> simp [tagOf, Bool.and_comm]

/-- The two halves of a region, the one at a position first. -/
theorem cells_plug (h : Nat) (f : Frame) (fs : List Frame) (t : Blocks) :
    cells (h + 1) (index fs) (f.plug t) =
      {(index fs, splitTag (t.full && f.sib.full))} +
        (cells h (index (f :: fs)) t + cells h (sibIndex f fs) f.sib) := by
  rw [cells, tagOf_plug, Frame.plug, index, sibIndex]
  cases f.right
  · simp [Blocks.left, Blocks.right]
  · simp [Blocks.left, Blocks.right, add_comm]

/-- The cells of a tree are those of a position and those of its context. -/
theorem cells_zip (fs : List Frame) (h : Nat) (t : Blocks) :
    cells (h + fs.length) 1 (zip fs t) = ctxCells h fs t.full + cells h (index fs) t := by
  induction fs generalizing h t with
  | nil => simp [zip, ctxCells, index]
  | cons f fs ih =>
      rw [zip, List.length_cons, show h + (fs.length + 1) = h + 1 + fs.length by omega, ih,
        cells_plug, ctxCells, full_plug]
      abel

/-- The node numbers of a region. -/
theorem mem_map_cells {h i j : Nat} {t : Blocks} (hIn : j ∈ (cells h i t).map Prod.fst) :
    ∃ d, d ≤ h ∧ j / 2 ^ d = i := by
  induction h generalizing i t with
  | zero =>
      simp only [cells, Multiset.map_singleton, Multiset.mem_singleton] at hIn
      exact ⟨0, Nat.le_refl 0, by simpa using hIn⟩
  | succ h ih =>
      rw [cells, Multiset.map_add, Multiset.map_add, Multiset.mem_add, Multiset.mem_add] at hIn
      rcases hIn with hHere | hLeft | hRight
      · simp only [Multiset.map_singleton, Multiset.mem_singleton] at hHere
        exact ⟨0, Nat.zero_le _, by simpa using hHere⟩
      · obtain ⟨d, hd, hDiv⟩ := ih hLeft
        exact ⟨d + 1, by omega, by rw [Nat.pow_succ, ← Nat.div_div_eq_div_mul, hDiv]; omega⟩
      · obtain ⟨d, hd, hDiv⟩ := ih hRight
        exact ⟨d + 1, by omega, by rw [Nat.pow_succ, ← Nat.div_div_eq_div_mul, hDiv]; omega⟩

private theorem cells_nodup (h : Nat) {i : Nat} (hi : 1 ≤ i) (t : Blocks) :
    ((cells h i t).map Prod.fst).Nodup := by
  induction h generalizing i t with
  | zero => simp [cells]
  | succ h ih =>
      rw [cells, Multiset.map_add, Multiset.map_add, Multiset.map_singleton,
        Multiset.singleton_add, Multiset.nodup_cons, Multiset.nodup_add]
      refine ⟨?_, ih (by omega) _, ih (by omega) _, ?_⟩
      · intro hIn
        rcases Multiset.mem_add.mp hIn with hLeft | hRight
        · obtain ⟨d, -, hDiv⟩ := mem_map_cells hLeft
          have hLe : i / 2 ^ d ≤ i := Nat.div_le_self i (2 ^ d)
          change i / 2 ^ d = 2 * i at hDiv
          omega
        · obtain ⟨d, -, hDiv⟩ := mem_map_cells hRight
          have hLe : i / 2 ^ d ≤ i := Nat.div_le_self i (2 ^ d)
          change i / 2 ^ d = 2 * i + 1 at hDiv
          omega
      · rw [Multiset.disjoint_left]
        intro j hLeft hRight
        obtain ⟨d, -, hDiv⟩ := mem_map_cells hLeft
        obtain ⟨d', -, hDiv'⟩ := mem_map_cells hRight
        -- the deeper of the two would be below the other one
        have hBelow : ∀ {a b e : Nat}, a / 2 ^ (e + 1) = b → 2 * b ≤ a := by
          intro a b e hEq
          rw [Nat.pow_succ, Nat.mul_comm, ← Nat.div_div_eq_div_mul] at hEq
          have hLe := Nat.div_le_self (a / 2) (2 ^ e)
          omega
        rcases Nat.lt_trichotomy d d' with hLess | rfl | hMore
        · obtain ⟨e, rfl⟩ := Nat.exists_eq_add_of_lt hLess
          rw [show d + e + 1 = d + (e + 1) by omega, Nat.pow_add, ← Nat.div_div_eq_div_mul,
            hDiv] at hDiv'
          have hTwice := hBelow hDiv'
          omega
        · omega
        · obtain ⟨e, rfl⟩ := Nat.exists_eq_add_of_lt hMore
          rw [show d' + e + 1 = d' + (e + 1) by omega, Nat.pow_add, ← Nat.div_div_eq_div_mul,
            hDiv'] at hDiv
          have hTwice := hBelow hDiv
          omega

theorem mem_cells_unused {h i j : Nat} {tag : Tag} :
    (j, tag) ∈ cells h i .unused ↔ tag = .unused ∧ ∃ d, d ≤ h ∧ j / 2 ^ d = i := by
  induction h generalizing i with
  | zero =>
      simp only [cells, tagOf, Multiset.mem_singleton, Prod.mk.injEq, Nat.le_zero]
      constructor
      · rintro ⟨rfl, rfl⟩
        exact ⟨rfl, 0, rfl, by simp⟩
      · rintro ⟨rfl, d, rfl, hDiv⟩
        exact ⟨by simpa using hDiv, rfl⟩
  | succ h ih =>
      rw [cells, Multiset.mem_add, Multiset.mem_add, show Blocks.unused.left = .unused from rfl,
        show Blocks.unused.right = .unused from rfl, ih, ih, Multiset.mem_singleton, tagOf,
        Prod.mk.injEq]
      constructor
      · rintro (⟨rfl, rfl⟩ | ⟨rfl, d, hd, hDiv⟩ | ⟨rfl, d, hd, hDiv⟩)
        · exact ⟨rfl, 0, Nat.zero_le _, by simp⟩
        · exact ⟨rfl, d + 1, by omega, by
            rw [Nat.pow_succ, ← Nat.div_div_eq_div_mul, hDiv]; omega⟩
        · exact ⟨rfl, d + 1, by omega, by
            rw [Nat.pow_succ, ← Nat.div_div_eq_div_mul, hDiv]; omega⟩
      · rintro ⟨rfl, d, hd, hDiv⟩
        cases d with
        | zero => exact Or.inl ⟨by simpa using hDiv, rfl⟩
        | succ d =>
            rw [Nat.pow_succ, ← Nat.div_div_eq_div_mul] at hDiv
            have hHalf : j / 2 ^ d = 2 * i ∨ j / 2 ^ d = 2 * i + 1 := by omega
            rcases hHalf with hLeft | hRight
            · exact Or.inr (Or.inl ⟨rfl, d, by omega, hLeft⟩)
            · exact Or.inr (Or.inr ⟨rfl, d, by omega, hRight⟩)

/-- The nodes of the whole tree are the entries of the index but the first. -/
theorem holds_unused (H : Nat) :
    Holds (fun index => if 1 ≤ index ∧ index < 2 ^ (H + 1) then some Tag.unused else none)
      (cells H 1 .unused) where
  nodup := cells_nodup H (Nat.le_refl 1) _
  cells := by
    intro j tag
    rw [mem_cells_unused]
    have hRow : (1 ≤ j ∧ j < 2 ^ (H + 1)) ↔ ∃ d, d ≤ H ∧ j / 2 ^ d = 1 := by
      constructor
      · rintro ⟨hPos, hLess⟩
        refine ⟨Nat.log 2 j, ?_, ?_⟩
        · have hLog := Nat.log_lt_of_lt_pow (by omega : j ≠ 0) hLess
          omega
        · have hLow := Nat.pow_log_le_self 2 (by omega : j ≠ 0)
          have hHigh := Nat.lt_pow_succ_log_self (by decide : 1 < 2) j
          rw [Nat.pow_succ] at hHigh
          exact Nat.div_eq_of_lt_le (by omega) (by omega)
      · rintro ⟨d, hd, hDiv⟩
        have hPos : 0 < 2 ^ d := Nat.two_pow_pos d
        have hLow := Nat.div_mul_le_self j (2 ^ d)
        have hHigh := Nat.lt_mul_div_succ j hPos
        have hPow : 2 ^ (d + 1) ≤ 2 ^ (H + 1) := Nat.pow_le_pow_right (by decide) (by omega)
        rw [hDiv] at hLow hHigh
        rw [Nat.pow_succ] at hPow
        omega
    rw [← hRow]
    split <;> simp_all [eq_comm]

/-! ## The shape of a pool -/

/-- The sizes of a pool, which never change. -/
structure Shape (buddy : BuddyT) (M H : Nat) : Prop where
  poolSize : buddy.poolSize = 2 ^ (M + H)
  minSize : buddy.minSize = 2 ^ M
  treeSize : buddy.treeSize = 2 ^ (H + 1)
  bound : M + H < 30

theorem rows_eq {a M : Nat} (h : M < a) : 2 ^ (a + 1) / 2 ^ M = 2 ^ (a - M + 1) := by
  rw [Nat.pow_div (by omega) (by decide), show a + 1 - M = a - M + 1 by omega]

/-- A new pool is one unused region. -/
theorem buddyInit_spec {pool : Nat → UInt8} {size minAllocSize : Nat} {buddy : BuddyT}
    (h : buddyInit pool size minAllocSize = some buddy) :
    ∃ M H, Shape buddy M H ∧ Holds buddy.tree (cells H 1 .unused) := by
  simp only [buddyInit] at h
  generalize (if minAllocSize < buddyMinSize then buddyMinSize else minAllocSize) = least at h
  split at h
  · cases h
  · next hLess =>
      split at h
      · cases h
      · next hMalloc =>
          rw [not_or, Nat.not_lt, Nat.not_lt] at hMalloc
          obtain ⟨hTree, hPool⟩ := hMalloc
          -- a negative size is more than can be allocated
          rcases roundup_pow size with hSize | ⟨a, ha, hSize⟩
          · rw [hSize] at hPool
            exact absurd hPool (by decide)
          have hPowA : 2 ^ a ≤ 2 ^ 30 := Nat.pow_le_pow_right (by decide) ha
          have hSizeA : toSize (2 ^ a) = 2 ^ a := by
            exact_mod_cast @toSize_eq (2 ^ a) (by omega)
          rw [hSize, hSizeA] at hLess hTree hPool
          rcases roundup_pow least with hMin | ⟨M, hM, hMin⟩
          · have hBig : toSize (-2 ^ 31) = 2 ^ 64 - 2 ^ 31 := by decide
            rw [hMin, hBig] at hLess
            omega
          have hPowM : 2 ^ M ≤ 2 ^ 30 := Nat.pow_le_pow_right (by decide) hM
          have hSizeM : toSize (2 ^ M) = 2 ^ M := by
            exact_mod_cast @toSize_eq (2 ^ M) (by omega)
          rw [hMin, hSizeM] at hLess hTree
          rw [Nat.not_le] at hLess
          have hMa : M < a := (Nat.pow_lt_pow_iff_right (by decide)).mp hLess
          have hIntA : toInt ((2 ^ a : Nat) : Int) = ((2 ^ a : Nat) : Int) := toInt_eq (by omega)
          have hIntM : toInt ((2 ^ M : Nat) : Int) = ((2 ^ M : Nat) : Int) := toInt_eq (by omega)
          have hQuot : ∀ b : Nat, ((b : Int)).tdiv ((2 ^ M : Nat) : Int) =
              ((b / 2 ^ M : Nat) : Int) :=
            fun b => (Int.ofNat_tdiv b (2 ^ M)).symm
          rcases Nat.lt_or_eq_of_le ha with hSmall | rfl
          · have hPow : 2 ^ (a + 1) ≤ 2 ^ 30 := Nat.pow_le_pow_right (by decide) (by omega)
            have hDouble : toInt (((2 ^ a : Nat) : Int) * 2) = ((2 ^ (a + 1) : Nat) : Int) := by
              have hTwice : ((2 ^ a : Nat) : Int) * 2 = ((2 ^ (a + 1) : Nat) : Int) := by
                rw [Nat.pow_succ]
                rfl
              rw [hTwice]
              exact toInt_eq (Nat.lt_of_le_of_lt hPow (by decide))
            have hTreeSize := rows_eq hMa
            simp only [hSize, hMin, hSizeA, hSizeM, hIntA, hIntM, hDouble, hQuot, hTreeSize,
              Option.some.injEq] at h
            subst h
            refine ⟨M, a - M, ⟨?_, rfl, rfl, by omega⟩, holds_unused (a - M)⟩
            rw [show M + (a - M) = a by omega]
            rfl
          · have hDouble : toInt (((2 ^ 30 : Nat) : Int) * 2) = -((2 ^ 31 : Nat) : Int) := by decide
            rw [hIntA, hIntM, hDouble, Int.neg_tdiv, hQuot] at hTree
            have hPos : 0 < 2 ^ 31 / 2 ^ M := Nat.div_pos (by omega) (Nat.two_pow_pos M)
            have hLe := Nat.div_le_self (2 ^ 31) (2 ^ M)
            rw [toSize, mallocMax] at hTree
            omega

end Gbase.Mm.Buddy
