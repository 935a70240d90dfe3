import Mathlib.Algebra.Ring.Int.Defs
import Mathlib.Algebra.GroupWithZero.Divisibility
import Mathlib.Algebra.Ring.Divisibility.Basic
import Mathlib.Data.List.Chain
import Mathlib.Data.Nat.Cast.Basic
import Mathlib.Data.List.Basic
import Mathlib.Algebra.Order.Group.Int

/-!
# Blocks in a row

An allocator that keeps its bookkeeping inside the memory it gives out cuts a region into
blocks that follow one another: a header of `hd` bytes, then the payload.  Here a region is
the list of its blocks, each with the size of its payload and, when it is given out, the size
that was asked for.

## Main results

* `placed_append`, `firstFree_append`, `lastFree_append`: a region is read part by part.
* `placed_sorted`: two blocks of a region do not overlap.
* `Granted.mem_owned`: a block that is given out adds an owner.
* `Coalesced.mem_owned`: a block that is given back and joined with its free neighbours removes
  one.
-/

namespace Gbase.Lib.BlockList

/-- The payload of a block and, unless it is free, the size its owner asked for. -/
structure Block where
  size : Int
  owner : Option Nat
  deriving DecidableEq

section

variable (hd : Int)

/-- How many bytes the blocks take. -/
def span : List Block → Int
  | [] => 0
  | b :: bs => hd + b.size + span bs

/-- How many bytes the free blocks take. -/
def room : List Block → Int
  | [] => 0
  | b :: bs => (if b.owner = none then hd + b.size else 0) + room bs

/-- The blocks with the addresses of their headers. -/
def placed : Int → List Block → List (Int × Block)
  | _, [] => []
  | s, b :: bs => (s, b) :: placed (s + (hd + b.size)) bs

/-- The used blocks: their addresses and what their owners asked for. -/
def owned (s : Int) (bs : List Block) : List (Int × Nat) :=
  match bs with
  | [] => []
  | ⟨n, none⟩ :: bs => owned (s + (hd + n)) bs
  | ⟨n, some r⟩ :: bs => (s, r) :: owned (s + (hd + n)) bs

/-- The first free block, or `q` when there is none. -/
def firstFree (s : Int) (bs : List Block) (q : Int) : Int :=
  match bs with
  | [] => q
  | b :: bs => if b.owner = none then s else firstFree (s + (hd + b.size)) bs q

/-- The last free block, or `p` when there is none. -/
def lastFree (p s : Int) (bs : List Block) : Int :=
  match bs with
  | [] => p
  | b :: bs => lastFree (if b.owner = none then s else p) (s + (hd + b.size)) bs

end

/-- The sizes are multiples of `align`. -/
def Sized (align : Int) (bs : List Block) : Prop :=
  ∀ b, b ∈ bs → 0 ≤ b.size ∧ align ∣ b.size

/-- Every owner has as much as it asked for. -/
def Fits (bs : List Block) : Prop := ∀ b, b ∈ bs → ∀ r, b.owner = some r → (r : Int) ≤ b.size

/-- The block before the rest is not free. -/
def UsedLast (bs : List Block) : Prop := ∀ b, b ∈ bs.getLast? → b.owner ≠ none

/-- The block behind the rest is not free. -/
def UsedHead (bs : List Block) : Prop := ∀ b, b ∈ bs.head? → b.owner ≠ none

/-- No two free blocks are neighbours. -/
def Apart (bs : List Block) : Prop :=
  bs.IsChain fun a b => ¬ (a.owner = none ∧ b.owner = none)

/-- A free block of size `n` between `xs` and `ys`, or its front, is given to an owner. -/
inductive Granted (hd : Int) (r : Nat) (xs : List Block) (n : Int) (ys : List Block) :
    List Block → Prop
  | whole : Granted hd r xs n ys (xs ++ ⟨n, some r⟩ :: ys)
  | front (k : Int) : Granted hd r xs n ys (xs ++ ⟨k, some r⟩ :: ⟨n - k - hd, none⟩ :: ys)

/-- A block of size `n` between `xs` and `ys` is given back and joined with its free
neighbours. -/
inductive Coalesced (hd : Int) : List Block → Int → List Block → List Block → Prop
  | alone {xs ys : List Block} {n : Int} (hLast : UsedLast xs) (hHead : UsedHead ys) :
      Coalesced hd xs n ys (xs ++ ⟨n, none⟩ :: ys)
  | right {xs ys : List Block} {n c : Int} (hLast : UsedLast xs) :
      Coalesced hd xs n (⟨c, none⟩ :: ys) (xs ++ ⟨n + (c + hd), none⟩ :: ys)
  | left {xs ys : List Block} {a n : Int} (hHead : UsedHead ys) :
      Coalesced hd (xs ++ [⟨a, none⟩]) n ys (xs ++ ⟨a + (hd + n), none⟩ :: ys)
  | both {xs ys : List Block} {a n c : Int} :
      Coalesced hd (xs ++ [⟨a, none⟩]) n (⟨c, none⟩ :: ys)
        (xs ++ ⟨a + (hd + (n + (c + hd))), none⟩ :: ys)

section

variable {hd align s p q : Int} {xs ys bs : List Block} {b : Block}

@[simp] theorem span_nil : span hd [] = 0 := rfl

@[simp] theorem span_cons : span hd (b :: bs) = hd + b.size + span hd bs := rfl

theorem span_mk (n : Int) (owner : Option Nat) :
    span hd (⟨n, owner⟩ :: bs) = hd + n + span hd bs := rfl

@[simp] theorem span_append : span hd (xs ++ ys) = span hd xs + span hd ys := by
  induction xs with
  | nil => simp
  | cons x xs ih =>
      rw [List.cons_append, span_cons, span_cons, ih]
      omega

@[simp] theorem room_nil : room hd [] = 0 := rfl

@[simp] theorem room_free (n : Int) : room hd (⟨n, none⟩ :: bs) = hd + n + room hd bs := rfl

@[simp] theorem room_used (n : Int) (r : Nat) : room hd (⟨n, some r⟩ :: bs) = room hd bs := by
  simp [room]

@[simp] theorem room_append : room hd (xs ++ ys) = room hd xs + room hd ys := by
  induction xs with
  | nil => simp
  | cons x xs ih =>
      rw [List.cons_append, room, room, ih]
      omega

@[simp] theorem placed_nil : placed hd s [] = [] := rfl

@[simp] theorem placed_cons :
    placed hd s (b :: bs) = (s, b) :: placed hd (s + (hd + b.size)) bs := rfl

theorem placed_append :
    placed hd s (xs ++ ys) = placed hd s xs ++ placed hd (s + span hd xs) ys := by
  induction xs generalizing s with
  | nil => simp
  | cons x xs ih => simp [ih, add_assoc]

@[simp] theorem firstFree_nil : firstFree hd s [] q = q := rfl

@[simp] theorem firstFree_free (n : Int) : firstFree hd s (⟨n, none⟩ :: bs) q = s := rfl

@[simp] theorem firstFree_used (n : Int) (r : Nat) :
    firstFree hd s (⟨n, some r⟩ :: bs) q = firstFree hd (s + (hd + n)) bs q := by
  simp [firstFree]

theorem firstFree_append :
    firstFree hd s (xs ++ ys) q = firstFree hd s xs (firstFree hd (s + span hd xs) ys q) := by
  induction xs generalizing s with
  | nil => simp
  | cons x xs ih =>
      rw [List.cons_append, firstFree, firstFree, ih, span_cons, add_assoc s]

@[simp] theorem lastFree_nil : lastFree hd p s [] = p := rfl

@[simp] theorem lastFree_free (n : Int) :
    lastFree hd p s (⟨n, none⟩ :: bs) = lastFree hd s (s + (hd + n)) bs := by
  simp [lastFree]

@[simp] theorem lastFree_used (n : Int) (r : Nat) :
    lastFree hd p s (⟨n, some r⟩ :: bs) = lastFree hd p (s + (hd + n)) bs := by
  simp [lastFree]

theorem lastFree_append :
    lastFree hd p s (xs ++ ys) = lastFree hd (lastFree hd p s xs) (s + span hd xs) ys := by
  induction xs generalizing p s with
  | nil => simp
  | cons x xs ih =>
      rw [List.cons_append, lastFree, lastFree, ih, span_cons, add_assoc s]

/-! ## Sizes and places -/

theorem sized_nil : Sized align [] := by
  intro b hb
  cases hb

@[simp] theorem sized_cons :
    Sized align (b :: bs) ↔ (0 ≤ b.size ∧ align ∣ b.size) ∧ Sized align bs := by
  simp [Sized]

theorem sized_mk (n : Int) (owner : Option Nat) :
    Sized align (⟨n, owner⟩ :: bs) ↔ (0 ≤ n ∧ align ∣ n) ∧ Sized align bs := sized_cons

@[simp] theorem sized_append : Sized align (xs ++ ys) ↔ Sized align xs ∧ Sized align ys := by
  simp only [Sized, List.mem_append]
  constructor
  · intro h
    exact ⟨fun b hb => h b (Or.inl hb), fun b hb => h b (Or.inr hb)⟩
  · intro h b hb
    exact hb.elim (h.1 b) (h.2 b)

@[simp] theorem fits_append : Fits (xs ++ ys) ↔ Fits xs ∧ Fits ys := by
  simp only [Fits, List.mem_append]
  constructor
  · intro h
    exact ⟨fun b hb => h b (Or.inl hb), fun b hb => h b (Or.inr hb)⟩
  · intro h b hb
    exact hb.elim (h.1 b) (h.2 b)

theorem fits_nil : Fits [] := by
  intro b hb
  cases hb

@[simp] theorem fits_free (n : Int) : Fits (⟨n, none⟩ :: bs) ↔ Fits bs := by
  simp [Fits]

@[simp] theorem fits_used (n : Int) (r : Nat) :
    Fits (⟨n, some r⟩ :: bs) ↔ (r : Int) ≤ n ∧ Fits bs := by
  simp [Fits]

theorem span_nonneg (hHd : 0 ≤ hd) (hSized : Sized align bs) : 0 ≤ span hd bs := by
  induction bs with
  | nil => exact le_refl 0
  | cons b bs ih =>
      rw [sized_cons] at hSized
      have hRest := ih hSized.2
      have hSize := hSized.1.1
      rw [span_cons]
      omega

theorem span_dvd (hHd : align ∣ hd) (hSized : Sized align bs) : align ∣ span hd bs := by
  induction bs with
  | nil => exact dvd_zero align
  | cons b bs ih =>
      rw [sized_cons] at hSized
      exact dvd_add (dvd_add hHd hSized.1.2) (ih hSized.2)

/-- Each block takes at least its header. -/
theorem length_le_span (hSized : Sized align bs) : hd * bs.length ≤ span hd bs := by
  induction bs with
  | nil => simp
  | cons b bs ih =>
      rw [sized_cons] at hSized
      have hRest := ih hSized.2
      have hSize := hSized.1.1
      rw [span_cons, List.length_cons, Int.natCast_succ, mul_add, mul_one]
      omega

theorem room_nonneg (hHd : 0 ≤ hd) (hSized : Sized align bs) : 0 ≤ room hd bs := by
  induction bs with
  | nil => exact le_refl 0
  | cons b bs ih =>
      rw [sized_cons] at hSized
      have hRest := ih hSized.2
      have hSize := hSized.1.1
      rw [room]
      split <;> omega

theorem size_le_room (hHd : 0 ≤ hd) (hSized : Sized align bs) (hb : b ∈ bs)
    (hFree : b.owner = none) : hd + b.size ≤ room hd bs := by
  induction bs with
  | nil => cases hb
  | cons c cs ih =>
      rw [sized_cons] at hSized
      have hRest := room_nonneg hHd hSized.2
      have hSize := hSized.1.1
      rw [room]
      cases hb with
      | head =>
          rw [if_pos hFree]
          omega
      | tail _ hb =>
          have hTail := ih hSized.2 hb
          split <;> omega

theorem room_le_span (hHd : 0 ≤ hd) (hSized : Sized align bs) : room hd bs ≤ span hd bs := by
  induction bs with
  | nil => exact le_refl 0
  | cons b bs ih =>
      rw [sized_cons] at hSized
      have hRest := ih hSized.2
      have hSize := hSized.1.1
      rw [room, span_cons]
      split <;> omega

/-- A region whose free blocks take all of it has no used block. -/
theorem owner_of_room_eq (hHd : 0 < hd) (hSized : Sized align bs) (hRoom : room hd bs = span hd bs)
    (hb : b ∈ bs) : b.owner = none := by
  induction bs with
  | nil => cases hb
  | cons c cs ih =>
      rw [sized_cons] at hSized
      have hRest := room_le_span hHd.le hSized.2
      have hSize := hSized.1.1
      rw [room, span_cons] at hRoom
      have hOwner : c.owner = none := by
        by_contra hNot
        rw [if_neg hNot] at hRoom
        omega
      rw [if_pos hOwner] at hRoom
      cases hb with
      | head => exact hOwner
      | tail _ hb => exact ih hSized.2 (by omega) hb

/-- A free block leaves less room for the others. -/
theorem room_all_free (hFree : ∀ b, b ∈ bs → b.owner = none) : room hd bs = span hd bs := by
  induction bs with
  | nil => rfl
  | cons c cs ih =>
      rw [room, span_cons, if_pos (hFree c (List.mem_cons_self)),
        ih fun b hb => hFree b (List.mem_cons_of_mem c hb)]

/-- A block that is found lies between the blocks before it and those behind it. -/
theorem exists_of_placed {t : Int} (h : (t, b) ∈ placed hd s bs) :
    ∃ xs ys, bs = xs ++ b :: ys ∧ t = s + span hd xs := by
  induction bs generalizing s with
  | nil => cases h
  | cons c cs ih =>
      rw [placed_cons, List.mem_cons, Prod.mk.injEq] at h
      cases h with
      | inl h =>
          obtain ⟨rfl, rfl⟩ := h
          exact ⟨[], cs, rfl, by simp⟩
      | inr h =>
          obtain ⟨xs, ys, rfl, rfl⟩ := ih h
          exact ⟨c :: xs, ys, rfl, by rw [span_cons]; omega⟩

private theorem mem_placed_append :
    (s + span hd xs, b) ∈ placed hd s (xs ++ b :: ys) := by
  rw [placed_append]
  exact List.mem_append_right _ (List.mem_cons_self)

/-- The blocks of a region follow one another. -/
theorem placed_sorted (hHd : 0 ≤ hd) (hSized : Sized align bs) :
    (placed hd s bs).Pairwise fun x y => x.1 + (hd + x.2.size) ≤ y.1 := by
  induction bs generalizing s with
  | nil => exact List.Pairwise.nil
  | cons b bs ih =>
      rw [sized_cons] at hSized
      rw [placed_cons, List.pairwise_cons]
      refine ⟨?_, ih hSized.2⟩
      intro y hy
      obtain ⟨xs, ys, rfl, hStart⟩ := exists_of_placed hy
      rw [sized_append] at hSized
      have hSpan := span_nonneg hHd hSized.2.1
      show s + (hd + b.size) ≤ y.1
      omega

/-- Two blocks of a region are the same or do not overlap. -/
theorem placed_disjoint {x y : Int × Block} (hHd : 0 ≤ hd) (hSized : Sized align bs)
    (hx : x ∈ placed hd s bs) (hy : y ∈ placed hd s bs) :
    x = y ∨ x.1 + (hd + x.2.size) ≤ y.1 ∨ y.1 + (hd + y.2.size) ≤ x.1 := by
  by_cases hNe : x = y
  · exact Or.inl hNe
  · right
    have hSorted : (placed hd s bs).Pairwise fun a b =>
        a.1 + (hd + a.2.size) ≤ b.1 ∨ b.1 + (hd + b.2.size) ≤ a.1 :=
      (placed_sorted hHd hSized).imp Or.inl
    have hSymm : Std.Symm fun a b : Int × Block =>
        a.1 + (hd + a.2.size) ≤ b.1 ∨ b.1 + (hd + b.2.size) ≤ a.1 := ⟨fun _ _ => Or.symm⟩
    exact hSorted.forall hx hy hNe

/-! ## Owners -/

@[simp] theorem owned_nil : owned hd s [] = [] := rfl

@[simp] theorem owned_free (n : Int) :
    owned hd s (⟨n, none⟩ :: bs) = owned hd (s + (hd + n)) bs := rfl

@[simp] theorem owned_used (n : Int) (r : Nat) :
    owned hd s (⟨n, some r⟩ :: bs) = (s, r) :: owned hd (s + (hd + n)) bs := rfl

theorem owned_append :
    owned hd s (xs ++ ys) = owned hd s xs ++ owned hd (s + span hd xs) ys := by
  induction xs generalizing s with
  | nil => simp
  | cons x xs ih =>
      obtain ⟨n, owner⟩ := x
      cases owner with
      | none => simp [ih, add_assoc]
      | some r => simp [ih, add_assoc]

/-- An owner has a block at the address. -/
theorem exists_of_owned {t : Int} {r : Nat} (h : (t, r) ∈ owned hd s bs) :
    ∃ xs n ys, bs = xs ++ ⟨n, some r⟩ :: ys ∧ t = s + span hd xs := by
  induction bs generalizing s with
  | nil => cases h
  | cons c cs ih =>
      obtain ⟨n, owner⟩ := c
      have hRest : (t, r) ∈ owned hd (s + (hd + n)) cs →
          ∃ xs k ys, ⟨n, owner⟩ :: cs = xs ++ ⟨k, some r⟩ :: ys ∧ t = s + span hd xs := by
        intro hIn
        obtain ⟨xs, k, ys, rfl, rfl⟩ := ih hIn
        refine ⟨⟨n, owner⟩ :: xs, k, ys, rfl, ?_⟩
        show s + (hd + n) + span hd xs = s + (hd + n + span hd xs)
        omega
      cases owner with
      | none => exact hRest h
      | some r' =>
          rw [owned_used, List.mem_cons, Prod.mk.injEq] at h
          cases h with
          | inl h =>
              obtain ⟨rfl, rfl⟩ := h
              exact ⟨[], n, cs, rfl, by simp⟩
          | inr h => exact hRest h

theorem mem_placed_of_owned {t : Int} {r : Nat} (h : (t, r) ∈ owned hd s bs) :
    ∃ n, (t, ⟨n, some r⟩) ∈ placed hd s bs := by
  obtain ⟨xs, n, ys, rfl, rfl⟩ := exists_of_owned h
  exact ⟨n, mem_placed_append⟩

theorem owned_of_mem_placed {t n : Int} {r : Nat} (h : (t, ⟨n, some r⟩) ∈ placed hd s bs) :
    (t, r) ∈ owned hd s bs := by
  obtain ⟨xs, ys, rfl, rfl⟩ := exists_of_placed h
  rw [owned_append, owned_used]
  exact List.mem_append_right _ List.mem_cons_self

/-- No two owners have the same block. -/
theorem owned_sorted (hHd : 0 < hd) (hSized : Sized align bs) :
    (owned hd s bs).Pairwise fun x y => x.1 < y.1 := by
  induction bs generalizing s with
  | nil => exact List.Pairwise.nil
  | cons b bs ih =>
      obtain ⟨n, owner⟩ := b
      rw [sized_mk] at hSized
      cases owner with
      | none => exact ih hSized.2
      | some r =>
          rw [owned_used, List.pairwise_cons]
          refine ⟨?_, ih hSized.2⟩
          rintro ⟨t, r'⟩ hIn
          obtain ⟨xs, k, ys, rfl, rfl⟩ := exists_of_owned hIn
          rw [sized_append] at hSized
          have hXs := span_nonneg hHd.le hSized.2.1
          have hn := hSized.1.1
          show s < s + (hd + n) + span hd xs
          omega

/-- A region without owners is free. -/
theorem room_eq_of_owned_nil (h : owned hd s bs = []) : room hd bs = span hd bs := by
  apply room_all_free
  intro b hb
  obtain ⟨xs, ys, rfl⟩ := List.append_of_mem hb
  obtain ⟨n, owner⟩ := b
  cases owner with
  | none => rfl
  | some r =>
      rw [owned_append, owned_used] at h
      simp at h

/-- A free region has no owners. -/
theorem owned_nil_of_room_eq (hHd : 0 < hd) (hSized : Sized align bs)
    (h : room hd bs = span hd bs) : owned hd s bs = [] := by
  rw [List.eq_nil_iff_forall_not_mem]
  rintro ⟨t, r⟩ hIn
  obtain ⟨xs, n, ys, rfl, -⟩ := exists_of_owned hIn
  have hOwner := owner_of_room_eq hHd hSized h (b := ⟨n, some r⟩) (by simp)
  cases hOwner

/-! ## The first and the last free block -/

/-- The first free block is behind used ones only. -/
theorem firstFree_cases (hd s : Int) (bs : List Block) :
    ((∀ b, b ∈ bs → b.owner ≠ none) ∧ ∀ q, firstFree hd s bs q = q) ∨
      ∃ xs n ys, bs = xs ++ ⟨n, none⟩ :: ys ∧ (∀ b, b ∈ xs → b.owner ≠ none) ∧
        ∀ q, firstFree hd s bs q = s + span hd xs := by
  induction bs generalizing s with
  | nil => exact Or.inl ⟨fun b hb => (by cases hb), fun q => rfl⟩
  | cons b bs ih =>
      obtain ⟨n, owner⟩ := b
      cases owner with
      | none => exact Or.inr ⟨[], n, bs, rfl, fun b hb => (by cases hb), fun q => by simp⟩
      | some r =>
          have hUsed : (⟨n, some r⟩ : Block).owner ≠ none := Option.some_ne_none r
          simp only [firstFree_used]
          cases ih (s + (hd + n)) with
          | inl h =>
              left
              exact ⟨List.forall_mem_cons.mpr ⟨hUsed, h.1⟩, h.2⟩
          | inr h =>
              obtain ⟨xs, k, ys, rfl, hXs, hFirst⟩ := h
              right
              refine ⟨⟨n, some r⟩ :: xs, k, ys, rfl, List.forall_mem_cons.mpr ⟨hUsed, hXs⟩, ?_⟩
              intro q
              rw [hFirst, span_cons, add_assoc]

/-- The last free block is before used ones only. -/
theorem lastFree_cases (hd s : Int) (bs : List Block) :
    ((∀ b, b ∈ bs → b.owner ≠ none) ∧ ∀ p, lastFree hd p s bs = p) ∨
      ∃ xs n ys, bs = xs ++ ⟨n, none⟩ :: ys ∧ (∀ b, b ∈ ys → b.owner ≠ none) ∧
        ∀ p, lastFree hd p s bs = s + span hd xs := by
  induction bs generalizing s with
  | nil => exact Or.inl ⟨fun b hb => (by cases hb), fun p => rfl⟩
  | cons b bs ih =>
      obtain ⟨n, owner⟩ := b
      cases ih (s + (hd + n)) with
      | inl h =>
          cases owner with
          | none => exact Or.inr ⟨[], n, bs, rfl, h.1, fun p => by rw [lastFree_free, h.2]; simp⟩
          | some r =>
              left
              exact ⟨List.forall_mem_cons.mpr ⟨Option.some_ne_none r, h.1⟩,
                fun p => (lastFree_used n r).trans (h.2 p)⟩
      | inr h =>
          obtain ⟨xs, k, ys, rfl, hYs, hLast⟩ := h
          right
          refine ⟨⟨n, owner⟩ :: xs, k, ys, rfl, hYs, ?_⟩
          intro p
          rw [lastFree, hLast, span_cons, add_assoc]

theorem firstFree_of_used (h : ∀ b, b ∈ bs → b.owner ≠ none) : firstFree hd s bs q = q := by
  cases firstFree_cases hd s bs with
  | inl hNone => exact hNone.2 q
  | inr hSome =>
      obtain ⟨us, n, vs, rfl, -, -⟩ := hSome
      exact absurd rfl (h ⟨n, none⟩ (by simp))

theorem lastFree_of_used (h : ∀ b, b ∈ bs → b.owner ≠ none) : lastFree hd p s bs = p := by
  cases lastFree_cases hd s bs with
  | inl hNone => exact hNone.2 p
  | inr hSome =>
      obtain ⟨us, n, vs, rfl, -, -⟩ := hSome
      exact absurd rfl (h ⟨n, none⟩ (by simp))

/-! ## Free neighbours -/

theorem apart_nil : Apart [] := List.IsChain.nil

/-- The neighbours of a free block are used. -/
theorem apart_around :
    Apart (xs ++ b :: ys) ↔
      Apart xs ∧ Apart ys ∧ (b.owner = none → UsedLast xs ∧ UsedHead ys) := by
  simp only [Apart, UsedLast, UsedHead, List.isChain_append, List.isChain_cons, List.head?_cons,
    Option.mem_some_iff, forall_eq']
  constructor
  · rintro ⟨hLeft, ⟨hNext, hRight⟩, hPrev⟩
    exact ⟨hLeft, hRight, fun hb => ⟨fun x hx hFree => hPrev x hx ⟨hFree, hb⟩,
      fun y hy hFree => hNext y hy ⟨hb, hFree⟩⟩⟩
  · rintro ⟨hLeft, hRight, hUsed⟩
    exact ⟨hLeft, ⟨fun y hy h => (hUsed h.1).2 y hy h.2, hRight⟩,
      fun x hx h => (hUsed h.2).1 x hx h.1⟩

theorem usedLast_nil : UsedLast [] := by
  intro b hb
  cases hb

theorem usedHead_nil : UsedHead [] := by
  intro b hb
  cases hb

theorem usedLast_append (h : ∀ b, b ∈ ys → b.owner ≠ none) (hNe : ys ≠ []) :
    UsedLast (xs ++ ys) := by
  intro b hb
  rw [List.getLast?_append_of_ne_nil xs hNe] at hb
  exact h b (List.mem_of_getLast? hb)

theorem usedHead_cons (n : Int) (r : Nat) : UsedHead (⟨n, some r⟩ :: ys) := by
  intro b hb
  rw [List.head?_cons, Option.mem_some_iff] at hb
  subst hb
  exact Option.some_ne_none r

/-! ## A block that is given out -/

/-- There is one more owner. -/
theorem Granted.owned_eq {n : Int} {r : Nat} {zs : List Block} (h : Granted hd r xs n ys zs) :
    owned hd s zs =
      owned hd s xs ++ (s + span hd xs, r) :: owned hd (s + (span hd xs + (hd + n))) ys := by
  cases h with
  | whole => rw [owned_append, owned_used, add_assoc]
  | front k =>
      rw [owned_append, owned_used, owned_free]
      congr 3
      omega

theorem Granted.mem_owned {n : Int} {r : Nat} {zs : List Block} (h : Granted hd r xs n ys zs)
    {x : Int × Nat} :
    x ∈ owned hd s zs ↔
      x = (s + span hd xs, r) ∨ x ∈ owned hd s (xs ++ ⟨n, none⟩ :: ys) := by
  rw [h.owned_eq, owned_append, owned_free, List.mem_append, List.mem_cons, List.mem_append,
    add_assoc]
  tauto

/-- The block had no owner before. -/
theorem Granted.not_owned {n : Int} {r r' : Nat} {zs : List Block} (h : Granted hd r xs n ys zs)
    (hHd : 0 < hd) (hSized : Sized align zs) :
    (s + span hd xs, r') ∉ owned hd s (xs ++ ⟨n, none⟩ :: ys) := by
  intro hIn
  have hSorted := owned_sorted (s := s) hHd hSized
  rw [h.owned_eq, List.pairwise_append, List.pairwise_cons] at hSorted
  rw [owned_append, owned_free, List.mem_append, add_assoc] at hIn
  cases hIn with
  | inl hBefore => exact absurd (hSorted.2.2 _ hBefore _ List.mem_cons_self) (lt_irrefl _)
  | inr hBehind => exact absurd (hSorted.2.1.1 _ hBehind) (lt_irrefl _)

/-! ## A released block -/

section

variable {n : Int} {zs : List Block}

/-- The other owners keep their blocks. -/
theorem Coalesced.owned_eq (h : Coalesced hd xs n ys zs) :
    owned hd s zs = owned hd s xs ++ owned hd (s + (span hd xs + (hd + n))) ys := by
  cases h <;>
    simp only [owned_append, owned_free, owned_nil, span_append, span_cons, span_nil,
      List.append_nil] <;>
    congr 2 <;> omega

/-- The block adds its room. -/
theorem Coalesced.room_eq {r : Nat} (h : Coalesced hd xs n ys zs) :
    room hd zs = room hd (xs ++ ⟨n, some r⟩ :: ys) + (hd + n) := by
  cases h <;> simp only [room_append, room_free, room_used, room_nil] <;> omega

theorem Coalesced.mem_owned {r : Nat} (h : Coalesced hd xs n ys zs) (hHd : 0 < hd)
    (hSized : Sized align (xs ++ ⟨n, some r⟩ :: ys)) {x : Int × Nat} :
    x ∈ owned hd s zs ↔
      x ∈ owned hd s (xs ++ ⟨n, some r⟩ :: ys) ∧ x.1 ≠ s + span hd xs := by
  have hSorted := owned_sorted (s := s) hHd hSized
  rw [owned_append, owned_used, add_assoc] at hSorted ⊢
  rw [List.pairwise_append, List.pairwise_cons] at hSorted
  rw [h.owned_eq, List.mem_append, List.mem_append, List.mem_cons]
  constructor
  · rintro (hBefore | hBehind)
    · have hLt := hSorted.2.2 x hBefore _ List.mem_cons_self
      exact ⟨Or.inl hBefore, hLt.ne⟩
    · have hLt := hSorted.2.1.1 x hBehind
      exact ⟨Or.inr (Or.inr hBehind), hLt.ne'⟩
  · rintro ⟨hBefore | hHere | hBehind, hNe⟩
    · exact Or.inl hBefore
    · exact absurd (congrArg Prod.fst hHere) hNe
    · exact Or.inr hBehind

end

end

end Gbase.Lib.BlockList
