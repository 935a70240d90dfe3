import Mathlib.Algebra.Order.Ring.Nat
import Mathlib.Order.Bounds.Defs
import Mathlib.Tactic.Ring

/-!
# Buddy trees

A region of `2 ^ h` units is unused, used as one block, or split into two halves.  The
nodes of such a tree are numbered as in a heap, the root with 1 and the halves of node `i`
with `2 * i` and `2 * i + 1`.  A position is a subtree with its context, the list of frames
up to the root.

## Main results

* `live_spec`, `live_disjoint`: the blocks of a tree are inside it, aligned and disjoint.
* `live_zip`: the blocks of a tree, seen from a position.
* `start_eq`: where a position starts, from the number of its node.
* `full_iff`: a region is full exactly when its blocks cover it.
* `alloc_least`, `alloc_none`: in a reduced tree, one without a split into two unused halves,
  an allocation finds the lowest aligned place that is free of blocks, if there is any.
-/

namespace Gbase.Lib.BuddyTree

inductive Blocks where
  | unused
  | used
  | split (left right : Blocks)
  deriving DecidableEq

/-- One step of a context: whether the position is the right half, and the other half. -/
structure Frame where
  right : Bool
  sib : Blocks

namespace Blocks

/-- Nothing unused is left. -/
def full : Blocks → Bool
  | unused => false
  | used => true
  | split l r => l.full && r.full

/-- The halves; those of an unsplit region are unused. -/
def left : Blocks → Blocks
  | split l _ => l
  | _ => unused

def right : Blocks → Blocks
  | split _ r => r
  | _ => unused

/-- A region of `2 ^ h` units can be split `h` times. -/
def Fits : Nat → Blocks → Prop
  | _, unused => True
  | _, used => True
  | 0, split _ _ => False
  | h + 1, split l r => Fits h l ∧ Fits h r

/-- The blocks of a region at `base`, as their start and their height. -/
def live : Nat → Nat → Blocks → List (Nat × Nat)
  | _, _, unused => []
  | h, base, used => [(base, h)]
  | 0, _, split _ _ => []
  | h + 1, base, split l r => l.live h base ++ r.live h (base + 2 ^ h)

end Blocks

open Blocks

/-! ## Positions -/

/-- A region with two halves, the one at the position given first. -/
def Frame.plug (f : Frame) (t : Blocks) : Blocks :=
  if f.right then .split f.sib t else .split t f.sib

/-- The whole tree. -/
def zip : List Frame → Blocks → Blocks
  | [], t => t
  | f :: fs, t => zip fs (f.plug t)

/-- The number of the node at the position. -/
def index : List Frame → Nat
  | [] => 1
  | f :: fs => 2 * index fs + if f.right then 1 else 0

/-- The number of its brother. -/
def sibIndex (f : Frame) (fs : List Frame) : Nat := 2 * index fs + if f.right then 0 else 1

/-- Where the position starts, when it is `h` high. -/
def start : Nat → List Frame → Nat
  | _, [] => 0
  | h, f :: fs => start (h + 1) fs + if f.right then 2 ^ h else 0

theorem index_pos (fs : List Frame) : 1 ≤ index fs := by
  induction fs with
  | nil => exact Nat.le_refl 1
  | cons f fs ih =>
      rw [index]
      omega

theorem index_div (f : Frame) (fs : List Frame) : index (f :: fs) / 2 = index fs := by
  rw [index]
  split <;> omega

/-- The nodes at depth `d` are those from `2 ^ d` on. -/
theorem index_bounds (fs : List Frame) :
    2 ^ fs.length ≤ index fs ∧ index fs < 2 ^ (fs.length + 1) := by
  induction fs with
  | nil => decide
  | cons f fs ih =>
      rw [index, List.length_cons, Nat.pow_succ, Nat.pow_succ]
      rw [Nat.pow_succ] at ih
      split <;> omega

/-- A node starts at its place in its row times its size. -/
theorem start_eq (fs : List Frame) (h : Nat) :
    start h fs = 2 ^ h * (index fs - 2 ^ fs.length) := by
  induction fs generalizing h with
  | nil => simp [start, index]
  | cons f fs ih =>
      have hLow := (index_bounds fs).1
      obtain ⟨k, hk⟩ := Nat.exists_eq_add_of_le hLow
      rw [start, ih, index, List.length_cons, Nat.pow_succ, Nat.pow_succ, hk]
      cases f.right
      · rw [if_neg (by decide), if_neg (by decide)]
        rw [Nat.add_sub_cancel_left,
          show 2 * (2 ^ fs.length + k) + 0 - 2 ^ fs.length * 2 = 2 * k by omega]
        ring
      · rw [if_pos rfl, if_pos rfl]
        rw [Nat.add_sub_cancel_left,
          show 2 * (2 ^ fs.length + k) + 1 - 2 ^ fs.length * 2 = 2 * k + 1 by omega]
        ring

/-! ## Blocks -/

/-- The blocks of a region lie inside it and are aligned to their size. -/
theorem live_spec (t : Blocks) :
    ∀ {h base o k : Nat}, (o, k) ∈ t.live h base → 2 ^ h ∣ base →
      base ≤ o ∧ o + 2 ^ k ≤ base + 2 ^ h ∧ 2 ^ k ∣ o ∧ k ≤ h := by
  induction t with
  | unused =>
      intro h base o k hIn
      simp [live] at hIn
  | used =>
      intro h base o k hIn hBase
      simp only [live, List.mem_singleton, Prod.mk.injEq] at hIn
      obtain ⟨rfl, rfl⟩ := hIn
      exact ⟨Nat.le_refl _, Nat.le_refl _, hBase, Nat.le_refl _⟩
  | split l r ihl ihr =>
      intro h base o k hIn hBase
      cases h with
      | zero => simp [live] at hIn
      | succ h =>
          have hHalf : 2 ^ h ∣ base := (Nat.pow_dvd_pow 2 (Nat.le_succ h)).trans hBase
          rw [Nat.pow_succ]
          rw [live, List.mem_append] at hIn
          rcases hIn with hLeft | hRight
          · obtain ⟨hLow, hHigh, hAlign, hk⟩ := ihl hLeft hHalf
            exact ⟨hLow, by omega, hAlign, by omega⟩
          · obtain ⟨hLow, hHigh, hAlign, hk⟩ :=
              ihr hRight (Nat.dvd_add hHalf (Nat.dvd_refl _))
            exact ⟨by omega, by omega, hAlign, by omega⟩

/-- The blocks of a region lie behind each other. -/
theorem live_disjoint (t : Blocks) :
    ∀ {h base : Nat}, 2 ^ h ∣ base →
      (t.live h base).Pairwise fun a b => a.1 + 2 ^ a.2 ≤ b.1 := by
  induction t with
  | unused =>
      intro h base _
      simp [live]
  | used =>
      intro h base _
      simp [live]
  | split l r ihl ihr =>
      intro h base hBase
      cases h with
      | zero => simp [live]
      | succ h =>
          have hHalf : 2 ^ h ∣ base := (Nat.pow_dvd_pow 2 (Nat.le_succ h)).trans hBase
          have hRight : 2 ^ h ∣ base + 2 ^ h := Nat.dvd_add hHalf (Nat.dvd_refl _)
          rw [live, List.pairwise_append]
          refine ⟨ihl hHalf, ihr hRight, ?_⟩
          intro a ha b hb
          have hA := live_spec l ha hHalf
          have hB := live_spec r hb hRight
          omega

/-- Two different elements of a list are related one way or the other. -/
theorem pairwise_or {α : Type} {R : α → α → Prop} {l : List α} (h : l.Pairwise R) {a b : α}
    (ha : a ∈ l) (hb : b ∈ l) (hNe : a ≠ b) : R a b ∨ R b a := by
  induction h with
  | nil => cases ha
  | cons hHead _ ih =>
      rcases List.mem_cons.mp ha with rfl | ha'
      · rcases List.mem_cons.mp hb with rfl | hb'
        · exact absurd rfl hNe
        · exact Or.inl (hHead b hb')
      · rcases List.mem_cons.mp hb with rfl | hb'
        · exact Or.inr (hHead a ha')
        · exact ih ha' hb'

/-- Different blocks of a tree do not overlap. -/
theorem live_separate {t : Blocks} {h : Nat} {a b : Nat × Nat} (ha : a ∈ t.live h 0)
    (hb : b ∈ t.live h 0) (hNe : a ≠ b) : a.1 + 2 ^ a.2 ≤ b.1 ∨ b.1 + 2 ^ b.2 ≤ a.1 :=
  pairwise_or (live_disjoint t (Nat.dvd_zero _)) ha hb hNe

/-- The start of a block determines the block. -/
theorem live_start_inj {t : Blocks} {h : Nat} {a b : Nat × Nat} (ha : a ∈ t.live h 0)
    (hb : b ∈ t.live h 0) (hStart : a.1 = b.1) : a = b := by
  by_contra hNe
  have hA := Nat.two_pow_pos a.2
  have hB := Nat.two_pow_pos b.2
  rcases live_separate ha hb hNe with hOrder | hOrder
  · omega
  · omega

theorem live_starts_nodup (t : Blocks) (h : Nat) : ((t.live h 0).map Prod.fst).Nodup := by
  rw [List.Nodup, List.pairwise_map]
  refine (live_disjoint t (Nat.dvd_zero (2 ^ h))).imp ?_
  intro a b hOrder hEq
  have hSize := Nat.two_pow_pos a.2
  omega

/-- The blocks before a position. -/
def before : Nat → List Frame → List (Nat × Nat)
  | _, [] => []
  | h, f :: fs => before (h + 1) fs ++
      if f.right then f.sib.live h (start (h + 1) fs) else []

/-- The blocks behind a position. -/
def behind : Nat → List Frame → List (Nat × Nat)
  | _, [] => []
  | h, f :: fs => (if f.right then [] else f.sib.live h (start (h + 1) fs + 2 ^ h)) ++
      behind (h + 1) fs

/-- The blocks of the whole tree, seen from a position. -/
theorem live_zip (fs : List Frame) (t : Blocks) (h : Nat) :
    (zip fs t).live (h + fs.length) 0 = before h fs ++ t.live h (start h fs) ++ behind h fs := by
  induction fs generalizing t h with
  | nil => simp [zip, before, behind, start]
  | cons f fs ih =>
      rw [zip, List.length_cons, show h + (fs.length + 1) = h + 1 + fs.length by omega, ih, before,
        behind, start, Frame.plug]
      cases f.right <;> simp [live]

/-- The halves next to the way to a position fit their height. -/
def CtxFits : Nat → List Frame → Prop
  | _, [] => True
  | h, f :: fs => f.sib.Fits h ∧ CtxFits (h + 1) fs

private theorem fits_plug (f : Frame) (t : Blocks) (h : Nat) :
    (f.plug t).Fits (h + 1) ↔ t.Fits h ∧ f.sib.Fits h := by
  rw [Frame.plug]
  cases f.right <;> simp [Fits, and_comm]

theorem fits_zip (fs : List Frame) (t : Blocks) (h : Nat) :
    (zip fs t).Fits (h + fs.length) ↔ t.Fits h ∧ CtxFits h fs := by
  induction fs generalizing t h with
  | nil => simp [zip, CtxFits]
  | cons f fs ih =>
      rw [zip, List.length_cons, show h + (fs.length + 1) = h + 1 + fs.length by omega, ih, CtxFits,
        fits_plug, and_assoc]

/-! ## Allocation -/

/-- An unused region with a block at its start, split `n` times for it. -/
def carve : Nat → Blocks
  | 0 => .used
  | n + 1 => .split (carve n) .unused

/-- The first unused region that is at least `k` high gets a block of this height at its
start. -/
def alloc (k : Nat) : Nat → Nat → Blocks → Option (Nat × Blocks)
  | h, base, .unused => some (base, carve (h - k))
  | _, _, .used => none
  | 0, _, .split _ _ => none
  | h + 1, base, .split l r =>
      if h + 1 ≤ k then none
      else
        match alloc k h base l with
        | some (o, l') => some (o, .split l' r)
        | none => (alloc k h (base + 2 ^ h) r).map fun p => (p.1, .split l p.2)

/-- The whole region is given only when nothing of it is in use. -/
theorem alloc_whole {h base : Nat} {t : Blocks} : alloc h h base t = none ↔ t ≠ .unused := by
  cases t with
  | unused => simp [alloc]
  | used => simp [alloc]
  | split l r => cases h <;> simp [alloc]

private theorem fits_carve (n h : Nat) (hn : n ≤ h) : (carve n).Fits h := by
  induction n generalizing h with
  | zero => cases h <;> trivial
  | succ n ih =>
      obtain ⟨h, rfl⟩ := Nat.exists_eq_succ_of_ne_zero (by omega : h ≠ 0)
      refine ⟨ih h (by omega), ?_⟩
      cases h <;> trivial

private theorem live_carve (n k base : Nat) : (carve n).live (k + n) base = [(base, k)] := by
  induction n with
  | zero => simp [carve, live]
  | succ n ih => simp [carve, live, ← Nat.add_assoc, ih]

/-- A full region has no room. -/
theorem alloc_full {t : Blocks} (k : Nat) (hFull : t.full = true) :
    ∀ h base, alloc k h base t = none := by
  induction t with
  | unused => cases hFull
  | used =>
      intro h base
      rw [alloc]
  | split l r ihl ihr =>
      intro h base
      rw [full, Bool.and_eq_true] at hFull
      cases h with
      | zero => rw [alloc]
      | succ h => rw [alloc, ihl hFull.1, ihr hFull.2, Option.map_none, ite_self]

/-- A region with room on the left. -/
theorem alloc_left {k h base o : Nat} {l l' : Blocks} (hk : k ≤ h)
    (hLeft : alloc k h base l = some (o, l')) (r : Blocks) :
    alloc k (h + 1) base (.split l r) = some (o, .split l' r) := by
  rw [alloc, if_neg (by omega), hLeft]

/-- A region without. -/
theorem alloc_right {k h base : Nat} {l : Blocks} (hk : k ≤ h)
    (hLeft : alloc k h base l = none) (r : Blocks) :
    alloc k (h + 1) base (.split l r) =
      (alloc k h (base + 2 ^ h) r).map fun p => (p.1, .split l p.2) := by
  rw [alloc, if_neg (by omega), hLeft]

/-- Allocation adds one block of the wanted height and leaves the others. -/
theorem alloc_spec {k : Nat} (t : Blocks) :
    ∀ {h base o : Nat} {t' : Blocks}, alloc k h base t = some (o, t') → k ≤ h → t.Fits h →
      t'.Fits h ∧ ∃ low high, t.live h base = low ++ high ∧
          t'.live h base = low ++ (o, k) :: high := by
  induction t with
  | unused =>
      intro h base o t' hAlloc hk _
      simp only [alloc, Option.some.injEq, Prod.mk.injEq] at hAlloc
      obtain ⟨rfl, rfl⟩ := hAlloc
      refine ⟨fits_carve _ _ (by omega), [], [], by simp [live], ?_⟩
      have hLive := live_carve (h - k) k base
      rwa [show k + (h - k) = h by omega] at hLive
  | used =>
      intro h base o t' hAlloc
      simp [alloc] at hAlloc
  | split l r ihl ihr =>
      intro h base o t' hAlloc hk hFits
      cases h with
      | zero => cases hFits
      | succ h =>
          obtain ⟨hFitsL, hFitsR⟩ := hFits
          rw [alloc] at hAlloc
          split at hAlloc
          · cases hAlloc
          · next hHigh =>
              split at hAlloc
              · next o' l' hLeft =>
                  simp only [Option.some.injEq, Prod.mk.injEq] at hAlloc
                  obtain ⟨rfl, rfl⟩ := hAlloc
                  obtain ⟨hFits', low, high, hLive, hLive'⟩ := ihl hLeft (by omega) hFitsL
                  refine ⟨⟨hFits', hFitsR⟩, low, high ++ r.live h (base + 2 ^ h), ?_, ?_⟩
                  · rw [live, hLive, List.append_assoc]
                  · rw [live, hLive', List.append_assoc, List.cons_append]
              · next hLeft =>
                  rw [Option.map_eq_some_iff] at hAlloc
                  obtain ⟨⟨o', r'⟩, hRight, hEq⟩ := hAlloc
                  simp only [Prod.mk.injEq] at hEq
                  obtain ⟨rfl, rfl⟩ := hEq
                  obtain ⟨hFits', low, high, hLive, hLive'⟩ := ihr hRight (by omega) hFitsR
                  refine ⟨⟨hFitsL, hFits'⟩, l.live h base ++ low, high, ?_, ?_⟩
                  · rw [live, hLive, List.append_assoc]
                  · rw [live, hLive', List.append_assoc]

/-! ## Release -/

/-- Two unused halves become one unused region. -/
def Frame.merge (f : Frame) (t : Blocks) : Blocks :=
  if t = .unused ∧ f.sib = .unused then .unused else f.plug t

/-- The whole tree, merged as far up from the position as possible. -/
def zipMerge : List Frame → Blocks → Blocks
  | [], t => t
  | f :: fs, t => zipMerge fs (f.merge t)

theorem plug_ne_unused (f : Frame) (t : Blocks) : f.plug t ≠ .unused := by
  rw [Frame.plug]
  split <;> exact Blocks.noConfusion

theorem zipMerge_of_ne (fs : List Frame) {t : Blocks} (h : t ≠ .unused) :
    zipMerge fs t = zip fs t := by
  induction fs generalizing t with
  | nil => rfl
  | cons f fs ih =>
      rw [zipMerge, zip, Frame.merge, if_neg fun hBoth => h hBoth.1]
      exact ih (plug_ne_unused f t)

/-- Merging changes neither the blocks nor what fits. -/
theorem merge_live (f : Frame) (t : Blocks) (h base : Nat) :
    (f.merge t).live (h + 1) base = (f.plug t).live (h + 1) base := by
  rw [Frame.merge]
  split
  · next hBoth =>
      rw [Frame.plug, hBoth.1, hBoth.2]
      cases f.right <;> simp [live]
  · rfl

private theorem fits_merge (f : Frame) {t : Blocks} {h : Nat} (hFits : (f.plug t).Fits (h + 1)) :
    (f.merge t).Fits (h + 1) := by
  rw [Frame.merge]
  split
  · trivial
  · exact hFits

private theorem live_zip_congr {fs : List Frame} {t t' : Blocks} {h : Nat}
    (hEq : t.live h (start h fs) = t'.live h (start h fs)) :
    (zip fs t).live (h + fs.length) 0 = (zip fs t').live (h + fs.length) 0 := by
  rw [live_zip, live_zip, hEq]

theorem live_zipMerge (fs : List Frame) (t : Blocks) (h : Nat) :
    (zipMerge fs t).live (h + fs.length) 0 = (zip fs t).live (h + fs.length) 0 := by
  induction fs generalizing t h with
  | nil => rfl
  | cons f fs ih =>
      rw [zipMerge, zip, List.length_cons, show h + (fs.length + 1) = h + 1 + fs.length by omega,
        ih]
      exact live_zip_congr (merge_live f t h _)

theorem fits_zipMerge (fs : List Frame) {t : Blocks} {h : Nat}
    (hFits : (zip fs t).Fits (h + fs.length)) : (zipMerge fs t).Fits (h + fs.length) := by
  induction fs generalizing t h with
  | nil => exact hFits
  | cons f fs ih =>
      rw [zip, List.length_cons, show h + (fs.length + 1) = h + 1 + fs.length by omega] at hFits
      rw [zipMerge, List.length_cons, show h + (fs.length + 1) = h + 1 + fs.length by omega]
      apply ih
      rw [fits_zip] at hFits ⊢
      exact ⟨fits_merge f hFits.1, hFits.2⟩

/-! ## Covered regions -/

/-- A unit of a block. -/
def Covered (blocks : List (Nat × Nat)) (x : Nat) : Prop :=
  ∃ b ∈ blocks, b.1 ≤ x ∧ x < b.1 + 2 ^ b.2

/-- A region is full when its blocks cover it. -/
theorem full_iff (t : Blocks) :
    ∀ {h base : Nat}, t.Fits h → 2 ^ h ∣ base →
      (t.full = true ↔ ∀ x, base ≤ x → x < base + 2 ^ h → Covered (t.live h base) x) := by
  induction t with
  | unused =>
      intro h base _ _
      have hPos := Nat.two_pow_pos h
      refine iff_of_false (by simp [full]) ?_
      intro hAll
      obtain ⟨b, hb, -⟩ := hAll base (Nat.le_refl base) (by omega)
      simp [live] at hb
  | used =>
      intro h base _ _
      refine iff_of_true rfl ?_
      intro x hLow hHigh
      exact ⟨(base, h), by simp [live], hLow, hHigh⟩
  | split l r ihl ihr =>
      intro h base hFits hBase
      cases h with
      | zero => cases hFits
      | succ h =>
          have hHalf : 2 ^ h ∣ base := (Nat.pow_dvd_pow 2 (Nat.le_succ h)).trans hBase
          have hMiddle : 2 ^ h ∣ base + 2 ^ h := Nat.dvd_add hHalf (Nat.dvd_refl _)
          rw [full, Bool.and_eq_true, ihl hFits.1 hHalf, ihr hFits.2 hMiddle, live, Nat.pow_succ]
          constructor
          · rintro ⟨hLeft, hRight⟩ x hLow hHigh
            by_cases hx : x < base + 2 ^ h
            · obtain ⟨b, hb, hIn⟩ := hLeft x hLow hx
              exact ⟨b, List.mem_append_left _ hb, hIn⟩
            · obtain ⟨b, hb, hIn⟩ := hRight x (by omega) (by omega)
              exact ⟨b, List.mem_append_right _ hb, hIn⟩
          · intro hAll
            refine ⟨fun x hLow hHigh => ?_, fun x hLow hHigh => ?_⟩
            · obtain ⟨b, hb, hIn⟩ := hAll x hLow (by omega)
              rcases List.mem_append.mp hb with hb | hb
              · exact ⟨b, hb, hIn⟩
              · have hBounds := live_spec r hb hMiddle
                omega
            · obtain ⟨b, hb, hIn⟩ := hAll x (by omega) (by omega)
              rcases List.mem_append.mp hb with hb | hb
              · have hBounds := live_spec l hb hHalf
                omega
              · exact ⟨b, hb, hIn⟩

/-! ## Reduced trees -/

/-- No region is split into two unused halves. -/
def Blocks.Reduced : Blocks → Prop
  | unused => True
  | used => True
  | split l r => (l ≠ unused ∨ r ≠ unused) ∧ l.Reduced ∧ r.Reduced

/-- What is split somewhere has a block somewhere. -/
theorem Blocks.Reduced.live_ne_nil {t : Blocks} (hReduced : t.Reduced) :
    ∀ {h base : Nat}, t.Fits h → t ≠ .unused → t.live h base ≠ [] := by
  induction t with
  | unused =>
      intro h base _ hNe
      exact absurd rfl hNe
  | used =>
      intro h base _ _
      simp [live]
  | split l r ihl ihr =>
      intro h base hFits _
      obtain ⟨hSome, hLeft, hRight⟩ := hReduced
      cases h with
      | zero => cases hFits
      | succ h =>
          rw [live]
          rcases hSome with hNe | hNe
          · have hLive := @ihl hLeft h base hFits.1 hNe
            exact fun hNil => hLive (List.append_eq_nil_iff.mp hNil).1
          · have hLive := @ihr hRight h (base + 2 ^ h) hFits.2 hNe
            exact fun hNil => hLive (List.append_eq_nil_iff.mp hNil).2

private theorem carve_ne_unused (n : Nat) : carve n ≠ .unused := by
  cases n <;> exact Blocks.noConfusion

private theorem reduced_carve (n : Nat) : (carve n).Reduced := by
  induction n with
  | zero => trivial
  | succ n ih => exact ⟨Or.inl (carve_ne_unused n), ih, trivial⟩

/-- Allocation splits only on the way to the block. -/
theorem reduced_alloc {k : Nat} {t : Blocks} (hReduced : t.Reduced) :
    ∀ {h base o : Nat} {t' : Blocks}, alloc k h base t = some (o, t') →
      t'.Reduced ∧ t' ≠ .unused := by
  induction t with
  | unused =>
      intro h base o t' hAlloc
      simp only [alloc, Option.some.injEq, Prod.mk.injEq] at hAlloc
      rw [← hAlloc.2]
      exact ⟨reduced_carve _, carve_ne_unused _⟩
  | used =>
      intro h base o t' hAlloc
      simp [alloc] at hAlloc
  | split l r ihl ihr =>
      intro h base o t' hAlloc
      obtain ⟨-, hLeft, hRight⟩ := hReduced
      cases h with
      | zero => simp [alloc] at hAlloc
      | succ h =>
          rw [alloc] at hAlloc
          split at hAlloc
          · cases hAlloc
          · split at hAlloc
            · next o' l' hAllocL =>
                simp only [Option.some.injEq, Prod.mk.injEq] at hAlloc
                rw [← hAlloc.2]
                obtain ⟨hReduced', hNe⟩ := ihl hLeft hAllocL
                exact ⟨⟨Or.inl hNe, hReduced', hRight⟩, Blocks.noConfusion⟩
            · next hAllocL =>
                rw [Option.map_eq_some_iff] at hAlloc
                obtain ⟨⟨o', r'⟩, hAllocR, hEq⟩ := hAlloc
                simp only [Prod.mk.injEq] at hEq
                rw [← hEq.2]
                obtain ⟨hReduced', hNe⟩ := ihr hRight hAllocR
                exact ⟨⟨Or.inr hNe, hLeft, hReduced'⟩, Blocks.noConfusion⟩

private theorem reduced_plug (f : Frame) (t : Blocks) :
    (f.plug t).Reduced ↔ (t ≠ .unused ∨ f.sib ≠ .unused) ∧ t.Reduced ∧ f.sib.Reduced := by
  rw [Frame.plug]
  cases f.right
  · exact Iff.rfl
  · exact and_congr or_comm and_comm

/-- The parts of a reduced tree are reduced. -/
theorem reduced_of_zip {fs : List Frame} {t : Blocks} (hReduced : (zip fs t).Reduced) :
    t.Reduced ∧ ∀ f ∈ fs, f.sib.Reduced := by
  induction fs generalizing t with
  | nil => exact ⟨hReduced, fun f hf => by cases hf⟩
  | cons f fs ih =>
      obtain ⟨hPlug, hAbove⟩ := ih hReduced
      obtain ⟨-, hHere, hSib⟩ := (reduced_plug f t).mp hPlug
      refine ⟨hHere, ?_⟩
      intro g hg
      rcases List.mem_cons.mp hg with rfl | hg
      · exact hSib
      · exact hAbove g hg

/-- Merging all the way up leaves no two unused halves. -/
theorem reduced_zipMerge {fs : List Frame} {t : Blocks} (hReduced : t.Reduced)
    (hSibs : ∀ f ∈ fs, f.sib.Reduced) : (zipMerge fs t).Reduced := by
  induction fs generalizing t with
  | nil => exact hReduced
  | cons f fs ih =>
      refine ih ?_ fun g hg => hSibs g (List.mem_cons_of_mem f hg)
      rw [Frame.merge]
      split
      · trivial
      · next hSome =>
          rw [reduced_plug]
          exact ⟨by tauto, hReduced, hSibs f List.mem_cons_self⟩

/-! ## The lowest place -/

/-- An aligned place of height `k` in a region at `base` that no block reaches into. -/
def Room (blocks : List (Nat × Nat)) (k h base o : Nat) : Prop :=
  2 ^ k ∣ o ∧ base ≤ o ∧ o + 2 ^ k ≤ base + 2 ^ h ∧
    ∀ b ∈ blocks, b.1 + 2 ^ b.2 ≤ o ∨ o + 2 ^ k ≤ b.1

theorem add_le_of_dvd {d a b : Nat} (ha : d ∣ a) (hb : d ∣ b) (hLess : a < b) : a + d ≤ b := by
  obtain ⟨x, rfl⟩ := ha
  obtain ⟨y, rfl⟩ := hb
  have hxy : x < y := Nat.lt_of_mul_lt_mul_left hLess
  calc
    d * x + d = d * (x + 1) := by ring
    _ ≤ d * y := Nat.mul_le_mul_left d hxy

/-- A place that is not larger than a half is in one of the halves. -/
theorem room_split {k h base o : Nat} {l r : Blocks} (hk : k ≤ h) (hBase : 2 ^ (h + 1) ∣ base) :
    Room ((Blocks.split l r).live (h + 1) base) k (h + 1) base o ↔
      Room (l.live h base) k h base o ∨
        Room (r.live h (base + 2 ^ h)) k h (base + 2 ^ h) o := by
  have hHalf : 2 ^ h ∣ base := (Nat.pow_dvd_pow 2 (Nat.le_succ h)).trans hBase
  have hMiddle : 2 ^ h ∣ base + 2 ^ h := Nat.dvd_add hHalf (Nat.dvd_refl _)
  rw [live, Room, Room, Room, Nat.pow_succ]
  constructor
  · rintro ⟨hAlign, hLow, hHigh, hFree⟩
    by_cases hLess : o < base + 2 ^ h
    · refine Or.inl ⟨hAlign, hLow, ?_, fun b hb => hFree b (List.mem_append_left _ hb)⟩
      exact add_le_of_dvd hAlign ((Nat.pow_dvd_pow 2 hk).trans hMiddle) hLess
    · refine Or.inr ⟨hAlign, by omega, by omega, ?_⟩
      exact fun b hb => hFree b (List.mem_append_right _ hb)
  · rintro (⟨hAlign, hLow, hHigh, hFree⟩ | ⟨hAlign, hLow, hHigh, hFree⟩)
    · refine ⟨hAlign, hLow, by omega, ?_⟩
      intro b hb
      rcases List.mem_append.mp hb with hb | hb
      · exact hFree b hb
      · have hBounds := live_spec r hb hMiddle
        omega
    · refine ⟨hAlign, by omega, by omega, ?_⟩
      intro b hb
      rcases List.mem_append.mp hb with hb | hb
      · have hBounds := live_spec l hb hHalf
        omega
      · exact hFree b hb

/-- A used region has no room. -/
theorem not_room_used {k h base o : Nat} : ¬ Room (Blocks.used.live h base) k h base o := by
  rintro ⟨-, hLow, hHigh, hFree⟩
  have hPos := Nat.two_pow_pos k
  have hApart := hFree (base, h) (by simp [live])
  dsimp only at hApart
  omega

/-- A region with a block has no room for one of its own size. -/
theorem not_room_whole {t : Blocks} {h base o : Nat} (hNe : t.live h base ≠ [])
    (hBase : 2 ^ h ∣ base) : ¬ Room (t.live h base) h h base o := by
  rintro ⟨-, hLow, hHigh, hFree⟩
  obtain ⟨b, hb⟩ := List.exists_mem_of_ne_nil _ hNe
  have hBounds := live_spec t hb hBase
  have hPos := Nat.two_pow_pos b.2
  have hApart := hFree b hb
  omega

/-- Allocation fails only when there is no room. -/
theorem alloc_none {k : Nat} {t : Blocks} (hReduced : t.Reduced) :
    ∀ {h base : Nat}, k ≤ h → t.Fits h → 2 ^ h ∣ base → alloc k h base t = none →
      ∀ o, ¬ Room (t.live h base) k h base o := by
  induction t with
  | unused =>
      intro h base _ _ _ hAlloc
      simp [alloc] at hAlloc
  | used =>
      intro h base _ _ _ _ o
      exact not_room_used
  | split l r ihl ihr =>
      intro h base hk hFits hBase hAlloc o
      cases h with
      | zero => cases hFits
      | succ h =>
          by_cases hWhole : h + 1 ≤ k
          · obtain rfl : k = h + 1 := by omega
            exact not_room_whole (hReduced.live_ne_nil hFits Blocks.noConfusion) hBase
          · have hHalf : 2 ^ h ∣ base := (Nat.pow_dvd_pow 2 (Nat.le_succ h)).trans hBase
            have hMiddle : 2 ^ h ∣ base + 2 ^ h := Nat.dvd_add hHalf (Nat.dvd_refl _)
            obtain ⟨-, hLeft, hRight⟩ := hReduced
            rw [room_split (by omega) hBase]
            cases hAllocL : alloc k h base l with
            | some p => simp [alloc_left (by omega) hAllocL r] at hAlloc
            | none =>
                rw [alloc_right (by omega) hAllocL, Option.map_eq_none_iff] at hAlloc
                rintro (hRoom | hRoom)
                · exact ihl hLeft (by omega) hFits.1 hHalf hAllocL o hRoom
                · exact ihr hRight (by omega) hFits.2 hMiddle hAlloc o hRoom

/-- Allocation takes the lowest place there is. -/
theorem alloc_least {k : Nat} {t : Blocks} (hReduced : t.Reduced) :
    ∀ {h base o : Nat} {t' : Blocks}, k ≤ h → t.Fits h → 2 ^ h ∣ base →
      alloc k h base t = some (o, t') → IsLeast {o | Room (t.live h base) k h base o} o := by
  induction t with
  | unused =>
      intro h base o t' hk _ hBase hAlloc
      simp only [alloc, Option.some.injEq, Prod.mk.injEq] at hAlloc
      obtain ⟨rfl, -⟩ := hAlloc
      have hPow : 2 ^ k ≤ 2 ^ h := Nat.pow_le_pow_right (by decide) hk
      refine ⟨⟨(Nat.pow_dvd_pow 2 hk).trans hBase, Nat.le_refl _, by omega, ?_⟩, ?_⟩
      · intro b hb
        simp [live] at hb
      · intro o hRoom
        exact hRoom.2.1
  | used =>
      intro h base o t' _ _ _ hAlloc
      simp [alloc] at hAlloc
  | split l r ihl ihr =>
      intro h base o t' hk hFits hBase hAlloc
      cases h with
      | zero => cases hFits
      | succ h =>
          by_cases hWhole : h + 1 ≤ k
          · rw [alloc, if_pos hWhole] at hAlloc
            cases hAlloc
          · have hHalf : 2 ^ h ∣ base := (Nat.pow_dvd_pow 2 (Nat.le_succ h)).trans hBase
            have hMiddle : 2 ^ h ∣ base + 2 ^ h := Nat.dvd_add hHalf (Nat.dvd_refl _)
            obtain ⟨-, hLeft, hRight⟩ := hReduced
            have hSplit : ∀ o, Room ((Blocks.split l r).live (h + 1) base) k (h + 1) base o ↔
                Room (l.live h base) k h base o ∨
                  Room (r.live h (base + 2 ^ h)) k h (base + 2 ^ h) o :=
              fun o => room_split (by omega) hBase
            cases hAllocL : alloc k h base l with
            | some p =>
                rw [alloc_left (by omega) hAllocL r] at hAlloc
                simp only [Option.some.injEq, Prod.mk.injEq] at hAlloc
                obtain ⟨rfl, -⟩ := hAlloc
                obtain ⟨hRoom, hLow⟩ := ihl hLeft (by omega) hFits.1 hHalf hAllocL
                refine ⟨(hSplit _).mpr (Or.inl hRoom), ?_⟩
                intro o' hRoom'
                rcases (hSplit o').mp hRoom' with hL | hR
                · exact hLow hL
                · have hEnd := Nat.le_of_add_right_le hRoom.2.2.1
                  exact hEnd.trans hR.2.1
            | none =>
                rw [alloc_right (by omega) hAllocL, Option.map_eq_some_iff] at hAlloc
                obtain ⟨⟨o', r'⟩, hAllocR, hEq⟩ := hAlloc
                simp only [Prod.mk.injEq] at hEq
                obtain ⟨rfl, -⟩ := hEq
                obtain ⟨hRoom, hLow⟩ := ihr hRight (by omega) hFits.2 hMiddle hAllocR
                refine ⟨(hSplit _).mpr (Or.inr hRoom), ?_⟩
                intro o₁ hRoom₁
                rcases (hSplit o₁).mp hRoom₁ with hL | hR
                · exact absurd hL (alloc_none hLeft (by omega) hFits.1 hHalf hAllocL o₁)
                · exact hLow hR

end Gbase.Lib.BuddyTree
