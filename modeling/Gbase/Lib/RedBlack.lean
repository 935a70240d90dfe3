import Mathlib.Algebra.Group.Int.Defs
import Mathlib.Algebra.Group.Nat.Defs
import Mathlib.Data.Nat.Log

/-!
# Red-black trees and their contexts

Coloured binary trees with the red-black balance, and the two ways in which it is repaired.
A position in a tree is the subtree there together with its context, the list of frames
from the position up to the root.  The repairs look at the frames nearest to the position
only, so each is a statement about a context and a subtree; `branch s` writes a node with the
child on side `s` first, which makes the mirror images of a case one case.

## Main results

* `Fits.zip`, `exists_fits`: a tree is balanced exactly when every subtree fits its place.
* `InsertInv.recolor`, `.inner`, `.outer`: the cases of the repair after an insertion.
* `DeleteInv.redSibling`, `.recolor`, `.inner`, `.outer`: the cases after a deletion.
* `Balanced.height_le`: a balanced tree of `n` nodes has height at most `2 * log2 (n + 1)`.
-/

namespace Gbase.Lib.RedBlack

universe u

inductive Color where
  | black
  | red
  deriving DecidableEq

inductive Side where
  | left
  | right
  deriving DecidableEq

/-- The other side. -/
def Side.flip : Side → Side
  | .left => .right
  | .right => .left

@[simp] theorem Side.flip_flip (s : Side) : s.flip.flip = s := by
  cases s <;> rfl

theorem Side.flip_ne (s : Side) : s.flip ≠ s := by
  cases s <;> decide

/-- Two sides are the same or opposite. -/
theorem Side.eq_or_flip (r s : Side) : r = s ∨ r = s.flip := by
  cases r <;> cases s <;> decide

inductive ColorTree (β : Type u) where
  | nil
  | node (color : Color) (left : ColorTree β) (x : β) (right : ColorTree β)

/-- One step of a context: the node above the position, on which side of it the position
is, and its other subtree. -/
structure Frame (β : Type u) where
  side : Side
  color : Color
  x : β
  sib : ColorTree β

variable {β : Type u}

namespace ColorTree

/-- A node with the subtree on side `s` given first. -/
def branch : Side → Color → ColorTree β → β → ColorTree β → ColorTree β
  | .left, c, near, x, far => .node c near x far
  | .right, c, near, x, far => .node c far x near

theorem branch_flip (s : Side) (c : Color) (near : ColorTree β) (x : β) (far : ColorTree β) :
    branch s.flip c near x far = branch s c far x near := by
  cases s <;> rfl

theorem exists_branch (s : Side) (c : Color) (l : ColorTree β) (x : β) (r : ColorTree β) :
    ∃ near far, node c l x r = branch s c near x far := by
  cases s
  · exact ⟨l, r, rfl⟩
  · exact ⟨r, l, rfl⟩

/-- The colour of the root; nothing is black. -/
def rootColor : ColorTree β → Color
  | nil => .black
  | node c _ _ _ => c

/-- The tree with its root made black. -/
def blacken : ColorTree β → ColorTree β
  | nil => nil
  | node _ l x r => node .black l x r

/-- In-order contents. -/
def toList : ColorTree β → List β
  | nil => []
  | node _ l x r => l.toList ++ x :: r.toList

def size : ColorTree β → Nat
  | nil => 0
  | node _ l _ r => l.size + r.size + 1

def height : ColorTree β → Nat
  | nil => 0
  | node _ l _ r => max l.height r.height + 1

@[simp] theorem rootColor_branch (s : Side) (c : Color) (near : ColorTree β) (x : β)
    (far : ColorTree β) :
    (branch s c near x far).rootColor = c := by
  cases s <;> rfl

@[simp] theorem blacken_branch (s : Side) (c : Color) (near : ColorTree β) (x : β)
    (far : ColorTree β) :
    (branch s c near x far).blacken = branch s .black near x far := by
  cases s <;> rfl

@[simp] theorem toList_blacken (t : ColorTree β) : t.blacken.toList = t.toList := by
  cases t <;> rfl

theorem toList_length (t : ColorTree β) : t.toList.length = t.size := by
  induction t with
  | nil => rfl
  | node c l x r ihl ihr =>
      simp only [toList, size, List.length_append, List.length_cons, ihl, ihr]
      omega

theorem height_le_size (t : ColorTree β) : t.height ≤ t.size := by
  induction t with
  | nil => exact Nat.le_refl 0
  | node c l x r ihl ihr =>
      simp only [height, size]
      omega

theorem exists_red_branch (s : Side) {t : ColorTree β} (h : t.rootColor = .red) :
    ∃ near x far, t = branch s .red near x far := by
  cases t with
  | nil => cases h
  | node c l x r =>
      obtain rfl : c = .red := h
      obtain ⟨near, far, hEq⟩ := exists_branch s .red l x r
      exact ⟨near, x, far, hEq⟩

/-- Rotating does not change the contents. -/
theorem toList_rotate (s : Side) (cx cy dx dy : Color) (a : ColorTree β) (x : β)
    (b : ColorTree β) (y : β)
    (c : ColorTree β) :
    (branch s dy (branch s dx a x b) y c).toList =
        (branch s cx a x (branch s cy b y c)).toList := by
  cases s <;> simp [branch, toList]

/-- The contents depend on the contents of the two subtrees, and not on the colour. -/
theorem toList_branch_congr {s : Side} {c d : Color} {near near' : ColorTree β} {x : β}
    {far far' : ColorTree β} (hNear : near.toList = near'.toList)
    (hFar : far.toList = far'.toList) :
    (branch s c near x far).toList = (branch s d near' x far').toList := by
  cases s <;> simp [branch, toList, hNear, hFar]

end ColorTree

open ColorTree

/-! ## Contexts -/

/-- The tree around one frame. -/
def Frame.plug (f : Frame β) (t : ColorTree β) : ColorTree β :=
  ColorTree.branch f.side f.color t f.x f.sib

/-- The whole tree that has `t` at the position. -/
def zip : List (Frame β) → ColorTree β → ColorTree β
  | [], t => t
  | f :: fs, t => zip fs (f.plug t)

/-- What is before the position in the whole tree. -/
def before : List (Frame β) → List β
  | [] => []
  | f :: fs => before fs ++ match f.side with
      | .left => []
      | .right => f.sib.toList ++ [f.x]

/-- What is after the position in the whole tree. -/
def after : List (Frame β) → List β
  | [] => []
  | f :: fs => (match f.side with
      | .left => f.x :: f.sib.toList
      | .right => []) ++ after fs

theorem toList_zip (fs : List (Frame β)) (t : ColorTree β) :
    (zip fs t).toList = before fs ++ t.toList ++ after fs := by
  induction fs generalizing t with
  | nil => simp [zip, before, after]
  | cons f fs ih =>
      rw [zip, ih, before, after, Frame.plug]
      cases f.side <;> simp [branch, toList]

theorem toList_zip_congr {fs : List (Frame β)} {t t' : ColorTree β} (h : t.toList = t'.toList) :
    (zip fs t).toList = (zip fs t').toList := by
  rw [toList_zip, toList_zip, h]

theorem zip_append (fs gs : List (Frame β)) (t : ColorTree β) :
    zip (fs ++ gs) t = zip gs (zip fs t) := by
  induction fs generalizing t with
  | nil => rfl
  | cons f fs ih => exact ih (f.plug t)

theorem before_append (fs gs : List (Frame β)) :
    before (fs ++ gs) = before gs ++ before fs := by
  induction fs with
  | nil => simp [before]
  | cons f fs ih =>
      rw [List.cons_append, before, ih, before, List.append_assoc]

theorem after_append (fs gs : List (Frame β)) : after (fs ++ gs) = after fs ++ after gs := by
  induction fs with
  | nil => rfl
  | cons f fs ih =>
      rw [List.cons_append, after, ih, after, List.append_assoc]

/-- Every value of a tree is at some position. -/
theorem exists_zip_of_mem {t : ColorTree β} {x : β} (h : x ∈ t.toList) :
    ∃ fs c l r, zip fs (.node c l x r) = t := by
  induction t with
  | nil => cases h
  | node c l y r ihl ihr =>
      simp only [toList, List.mem_append, List.mem_cons] at h
      rcases h with hLeft | rfl | hRight
      · obtain ⟨fs, c', l', r', rfl⟩ := ihl hLeft
        refine ⟨fs ++ [⟨.left, c, y, r⟩], c', l', r', ?_⟩
        rw [zip_append]
        rfl
      · exact ⟨[], c, l, r, rfl⟩
      · obtain ⟨fs, c', l', r', rfl⟩ := ihr hRight
        refine ⟨fs ++ [⟨.right, c, y, l⟩], c', l', r', ?_⟩
        rw [zip_append]
        rfl

/-- A context is no longer than the whole tree has nodes. -/
theorem length_add_size_le (fs : List (Frame β)) (t : ColorTree β) :
    fs.length + t.size ≤ (zip fs t).size := by
  induction fs generalizing t with
  | nil => simp [zip]
  | cons f fs ih =>
      have hRec := ih (f.plug t)
      have hPlug : t.size + 1 ≤ (f.plug t).size := by
        unfold Frame.plug
        cases f.side <;> simp only [branch, size] <;> omega
      rw [zip, List.length_cons]
      omega

/-! ## Balance -/

/-- No red node has a red child, and every path down to nothing meets `n` black nodes. -/
inductive Balanced : ColorTree β → Color → Nat → Prop where
  | nil : Balanced .nil .black 0
  | red {l r : ColorTree β} {x : β} {n : Nat} :
      Balanced l .black n → Balanced r .black n → Balanced (.node .red l x r) .red n
  | black {l r : ColorTree β} {x : β} {c d : Color} {n : Nat} :
      Balanced l c n → Balanced r d n → Balanced (.node .black l x r) .black (n + 1)

theorem Balanced.rootColor {t : ColorTree β} {c : Color} {n : Nat} (h : Balanced t c n) :
    t.rootColor = c := by
  cases h <;> rfl

theorem balanced_branch_red {s : Side} {near far : ColorTree β} {x : β} {c : Color} {n : Nat} :
    Balanced (branch s .red near x far) c n ↔
      c = .red ∧ Balanced near .black n ∧ Balanced far .black n := by
  constructor
  · intro h
    cases s with
    | left =>
        cases h with
        | red hNear hFar => exact ⟨rfl, hNear, hFar⟩
    | right =>
        cases h with
        | red hFar hNear => exact ⟨rfl, hNear, hFar⟩
  · rintro ⟨rfl, hNear, hFar⟩
    cases s with
    | left => exact .red hNear hFar
    | right => exact .red hFar hNear

theorem balanced_branch_black {s : Side} {near far : ColorTree β} {x : β} {c : Color} {n : Nat} :
    Balanced (branch s .black near x far) c n ↔
      c = .black ∧ ∃ k d e, n = k + 1 ∧ Balanced near d k ∧ Balanced far e k := by
  constructor
  · intro h
    cases s with
    | left =>
        cases h with
        | black hNear hFar => exact ⟨rfl, _, _, _, rfl, hNear, hFar⟩
    | right =>
        cases h with
        | black hFar hNear => exact ⟨rfl, _, _, _, rfl, hNear, hFar⟩
  · rintro ⟨rfl, k, d, e, rfl, hNear, hFar⟩
    cases s with
    | left => exact .black hNear hFar
    | right => exact .black hFar hNear

/-- A root may be made black. -/
theorem Balanced.blacken {t : ColorTree β} {c : Color} {n : Nat} (h : Balanced t c n) :
    ∃ m, Balanced t.blacken .black m ∧ (c = .red → m = n + 1) := by
  cases h with
  | nil => exact ⟨0, .nil, fun hc => by cases hc⟩
  | red hl hr => exact ⟨_, .black hl hr, fun _ => rfl⟩
  | black hl hr => exact ⟨_, .black hl hr, fun hc => by cases hc⟩

theorem Balanced.blacken_eq {t : ColorTree β} {n : Nat} (h : Balanced t .black n) :
    t.blacken = t := by
  cases h <;> rfl

/-- A place that takes any tree of root colour `c` and black height `n`: the whole tree is
balanced then, with a black root. -/
inductive Fits : List (Frame β) → Color → Nat → Prop where
  | root {n : Nat} : Fits [] .black n
  | black {f : Frame β} {fs : List (Frame β)} {c d : Color} {n : Nat} :
      f.color = .black → Balanced f.sib d n → Fits fs .black (n + 1) → Fits (f :: fs) c n
  | red {f : Frame β} {fs : List (Frame β)} {n : Nat} :
      f.color = .red → Balanced f.sib .black n → Fits fs .red n → Fits (f :: fs) .black n

/-- Black fits wherever red does. -/
theorem Fits.toBlack {fs : List (Frame β)} {c : Color} {n : Nat} (h : Fits fs c n) :
    Fits fs .black n := by
  cases h with
  | root => exact .root
  | black hc hSib hUp => exact .black hc hSib hUp
  | red hc hSib hUp => exact .red hc hSib hUp

theorem Fits.zip {fs : List (Frame β)} {c : Color} {n : Nat} (h : Fits fs c n) :
    ∀ {t : ColorTree β}, Balanced t c n → ∃ m, Balanced (zip fs t) .black m := by
  induction h with
  | root =>
      intro t ht
      exact ⟨_, ht⟩
  | black hc hSib _ ih =>
      intro t ht
      apply ih
      rw [Frame.plug, hc, balanced_branch_black]
      exact ⟨rfl, _, _, _, rfl, ht, hSib⟩
  | red hc hSib _ ih =>
      intro t ht
      apply ih
      rw [Frame.plug, hc, balanced_branch_red]
      exact ⟨rfl, ht, hSib⟩

/-- In a balanced tree, every subtree is balanced and fits its place. -/
theorem exists_fits {m : Nat} (fs : List (Frame β)) :
    ∀ {t : ColorTree β}, Balanced (RedBlack.zip fs t) .black m →
      ∃ c n, Balanced t c n ∧ Fits fs c n := by
  induction fs with
  | nil =>
      intro t h
      exact ⟨_, _, h, .root⟩
  | cons f fs ih =>
      intro t h
      obtain ⟨c, n, hPlug, hFits⟩ := ih h
      rw [Frame.plug] at hPlug
      cases hc : f.color with
      | black =>
          rw [hc, balanced_branch_black] at hPlug
          obtain ⟨rfl, k, d, e, rfl, hNear, hSib⟩ := hPlug
          exact ⟨d, k, hNear, .black hc hSib hFits⟩
      | red =>
          rw [hc, balanced_branch_red] at hPlug
          obtain ⟨rfl, hNear, hSib⟩ := hPlug
          exact ⟨_, n, hNear, .red hc hSib hFits⟩

/-! ## Height -/

/-- A tree of black height `n` has at least `2 ^ n - 1` nodes. -/
theorem Balanced.pow_le {t : ColorTree β} {c : Color} {n : Nat} (h : Balanced t c n) :
    2 ^ n ≤ t.size + 1 := by
  induction h with
  | nil => exact Nat.le_refl 1
  | red _ _ ihl ihr =>
      simp only [size]
      omega
  | black _ _ ihl ihr =>
      simp only [size, Nat.pow_succ]
      omega

/-- Red nodes at most double the height. -/
theorem Balanced.height_le_double {t : ColorTree β} {c : Color} {n : Nat} (h : Balanced t c n) :
    t.height ≤ 2 * n + if c = .red then 1 else 0 := by
  induction h with
  | nil => exact Nat.le_refl 0
  | red _ _ ihl ihr =>
      simp only [height, reduceCtorEq, if_false, if_true] at ihl ihr ⊢
      omega
  | black _ _ ihl ihr =>
      simp only [height, reduceCtorEq, if_false] at ihl ihr ⊢
      split at ihl <;> split at ihr <;> omega

/-- A balanced tree with a black root is low. -/
theorem Balanced.height_le {t : ColorTree β} {n : Nat} (h : Balanced t .black n) :
    t.height ≤ 2 * Nat.log 2 (t.size + 1) := by
  have hHeight := h.height_le_double
  have hLog : n ≤ Nat.log 2 (t.size + 1) :=
    Nat.le_log_of_pow_le (by omega) h.pow_le
  simp only [reduceCtorEq, if_false] at hHeight
  omega

/-! ## The repair after an insertion -/

/-- The subtree is fine but for its red root, which may be below a red node. -/
def InsertInv (fs : List (Frame β)) (t : ColorTree β) : Prop :=
  ∃ n, Balanced t .red n ∧ Fits fs .black n

/-- A red node has a black node above it. -/
theorem Fits.grand {f : Frame β} {fs : List (Frame β)} {c : Color} {n : Nat}
    (hColor : f.color = .red) (h : Fits (f :: fs) c n) :
    ∃ g gs, fs = g :: gs ∧ g.color = .black := by
  cases h with
  | black hc => simp [hColor] at hc
  | red _ _ hUp =>
      cases hUp with
      | black hc => exact ⟨_, _, rfl, hc⟩

section Insert

variable {f g : Frame β} {gs : List (Frame β)} {t : ColorTree β}

/-- Without a red parent there is nothing to repair. -/
theorem InsertInv.done {fs : List (Frame β)}
    (hBlack : ∀ f ∈ fs.head?, f.color = .black) (h : InsertInv fs t) :
    ∃ m, Balanced (zip fs t).blacken .black m := by
  obtain ⟨n, hBal, hFits⟩ := h
  cases hFits with
  | root =>
      obtain ⟨m, hm, -⟩ := hBal.blacken
      exact ⟨m, hm⟩
  | black hc hSib hUp =>
      obtain ⟨m, hm⟩ := (Fits.black hc hSib hUp).zip hBal
      exact ⟨m, by rwa [hm.blacken_eq]⟩
  | red hc => simp [hBlack _ rfl] at hc

/-- A red uncle: the two generations above the position change colour. -/
theorem InsertInv.recolor (hf : f.color = .red) (hUncle : g.sib.rootColor = .red)
    (h : InsertInv (f :: g :: gs) t) :
    InsertInv gs (branch g.side .red (branch f.side .black t f.x f.sib) g.x g.sib.blacken) := by
  obtain ⟨n, hBal, hFits⟩ := h
  cases hFits with
  | black hc => simp [hf] at hc
  | red _ hSib hUp =>
      cases hUp with
      | black hg hUnc hTop =>
          obtain rfl := hUnc.rootColor.symm.trans hUncle
          obtain ⟨m, hm, hEq⟩ := hUnc.blacken
          obtain rfl := hEq rfl
          refine ⟨n + 1, ?_, hTop⟩
          rw [balanced_branch_red, balanced_branch_black]
          exact ⟨rfl, ⟨rfl, n, _, _, rfl, hBal, hSib⟩, hm⟩

/-- A black uncle, and the position on the inner side of its parent: the parent is rotated
to the outer side. -/
theorem InsertInv.inner {s : Side} {near far : ColorTree β} {z : β} (hf : f.color = .red)
    (h : InsertInv (f :: g :: gs) (branch s .red near z far)) :
    InsertInv (⟨s, .red, z, far⟩ :: g :: gs) (branch s .red f.sib f.x near) := by
  obtain ⟨n, hBal, hFits⟩ := h
  rw [balanced_branch_red] at hBal
  cases hFits with
  | black hc => simp [hf] at hc
  | red _ hSib hUp =>
      refine ⟨n, ?_, .red rfl hBal.2.2 hUp⟩
      rw [balanced_branch_red]
      exact ⟨rfl, hSib, hBal.2.1⟩

/-- A black uncle, and the position on the outer side: the grandparent is rotated away, and
the parent takes its place. -/
theorem InsertInv.outer (hf : f.color = .red) (hUncle : g.sib.rootColor = .black)
    (h : InsertInv (f :: g :: gs) t) :
    InsertInv (⟨g.side, .black, f.x, branch g.side .red f.sib g.x g.sib⟩ :: gs) t := by
  obtain ⟨n, hBal, hFits⟩ := h
  cases hFits with
  | black hc => simp [hf] at hc
  | red _ hSib hUp =>
      cases hUp with
      | black hg hUnc hTop =>
          obtain rfl := hUnc.rootColor.symm.trans hUncle
          exact ⟨n, hBal, .black rfl (balanced_branch_red.mpr ⟨rfl, hSib, hUnc⟩) hTop⟩

end Insert

/-! ## The repair after a deletion -/

/-- The subtree is one black node short of what its place takes, or has a red root that
makes up for it once it is black. -/
def DeleteInv (fs : List (Frame β)) (t : ColorTree β) : Prop :=
  ∃ n, Fits fs .black (n + 1) ∧
    (Balanced t .black n ∨ (t.rootColor = .red ∧ Balanced t.blacken .black (n + 1)))

section Delete

variable {f : Frame β} {fs : List (Frame β)} {t : ColorTree β}

/-- At the root, or with a red subtree, making it black is all that is missing. -/
theorem DeleteInv.done (hEnd : fs = [] ∨ t.rootColor = .red) (h : DeleteInv fs t) :
    ∃ m, Balanced (zip fs t.blacken) .black m := by
  obtain ⟨n, hFits, hBal | ⟨-, hBal⟩⟩ := h
  · rcases hEnd with rfl | hRed
    · exact ⟨n, by rwa [hBal.blacken_eq]⟩
    · rw [hBal.rootColor] at hRed
      cases hRed
  · exact hFits.zip hBal

/-- A subtree that is short has a sibling. -/
theorem DeleteInv.sibling (h : DeleteInv (f :: fs) t) :
    f.sib ≠ .nil := by
  obtain ⟨n, hFits, -⟩ := h
  intro hNil
  cases hFits with
  | black _ hSib =>
      rw [hNil] at hSib
      cases hSib
  | red _ hSib =>
      rw [hNil] at hSib
      cases hSib

theorem DeleteInv.balanced (hBlack : t.rootColor = .black) (h : DeleteInv fs t) :
    ∃ n, Fits fs .black (n + 1) ∧ Balanced t .black n := by
  obtain ⟨n, hFits, hBal | ⟨hRed, -⟩⟩ := h
  · exact ⟨n, hFits, hBal⟩
  · rw [hBlack] at hRed
    cases hRed

variable {s : Side} {near far : ColorTree β} {w : β}

/-- A red sibling is rotated up, which gives the position a black one. -/
theorem DeleteInv.redSibling (hBlack : t.rootColor = .black)
    (hSib : f.sib = branch s .red near w far)
    (h : DeleteInv (f :: fs) t) :
    near.rootColor = .black ∧
      DeleteInv (⟨f.side, .red, f.x, near⟩ :: ⟨f.side, .black, w, far⟩ :: fs) t := by
  obtain ⟨n, hFits, hBal⟩ := h.balanced hBlack
  cases hFits with
  | black hc hSibBal hUp =>
      rw [hSib, balanced_branch_red] at hSibBal
      obtain ⟨-, hNear, hFar⟩ := hSibBal
      exact ⟨hNear.rootColor, n, .red rfl hNear (.black rfl hFar hUp), Or.inl hBal⟩
  | red hc hSibBal =>
      rw [hSib, balanced_branch_red] at hSibBal
      cases hSibBal.1

/-- A black sibling without red children becomes red, and the shortage moves up. -/
theorem DeleteInv.recolor (hBlack : t.rootColor = .black)
    (hSib : f.sib = branch s .black near w far) (hNear : near.rootColor = .black)
    (hFar : far.rootColor = .black) (h : DeleteInv (f :: fs) t) :
    DeleteInv fs (branch f.side f.color t f.x (branch s .red near w far)) := by
  obtain ⟨n, hFits, hBal⟩ := h.balanced hBlack
  have hRed : ∀ {c : Color}, Balanced f.sib c (n + 1) →
      Balanced (branch s .red near w far) .red n := by
    intro c hSibBal
    rw [hSib, balanced_branch_black] at hSibBal
    obtain ⟨-, k, d, e, hk, hN, hF⟩ := hSibBal
    obtain rfl : n = k := Nat.succ.inj hk
    obtain rfl := hN.rootColor.symm.trans hNear
    obtain rfl := hF.rootColor.symm.trans hFar
    exact balanced_branch_red.mpr ⟨rfl, hN, hF⟩
  cases hFits with
  | black hc hSibBal hUp =>
      refine ⟨n + 1, hUp, Or.inl ?_⟩
      rw [hc, balanced_branch_black]
      exact ⟨rfl, n, _, _, rfl, hBal, hRed hSibBal⟩
  | red hc hSibBal hUp =>
      refine ⟨n, hUp.toBlack, Or.inr ?_⟩
      rw [hc, rootColor_branch, blacken_branch, balanced_branch_black]
      exact ⟨rfl, rfl, n, _, _, rfl, hBal, hRed hSibBal⟩

/-- A sibling with its red child on the inner side: that child is rotated up. -/
theorem DeleteInv.inner {near' far' : ColorTree β} {v : β} (hBlack : t.rootColor = .black)
    (hSib : f.sib = branch s .black (branch s .red near' v far') w far)
    (hFar : far.rootColor = .black) (h : DeleteInv (f :: fs) t) :
    DeleteInv (⟨f.side, f.color, f.x, branch s .black near' v (branch s .red far' w far)⟩ :: fs)
      t := by
  obtain ⟨n, hFits, hBal⟩ := h.balanced hBlack
  have hNew : ∀ {c : Color}, Balanced f.sib c (n + 1) → c = .black ∧
      Balanced (branch s .black near' v (branch s .red far' w far)) .black (n + 1) := by
    intro c hSibBal
    rw [hSib, balanced_branch_black] at hSibBal
    obtain ⟨hc, k, d, e, hk, hN, hF⟩ := hSibBal
    obtain rfl : n = k := Nat.succ.inj hk
    rw [balanced_branch_red] at hN
    obtain rfl := hF.rootColor.symm.trans hFar
    exact ⟨hc, balanced_branch_black.mpr ⟨rfl, n, _, _, rfl, hN.2.1,
      balanced_branch_red.mpr ⟨rfl, hN.2.2, hF⟩⟩⟩
  cases hFits with
  | black hc hSibBal hUp => exact ⟨n, .black hc (hNew hSibBal).2 hUp, Or.inl hBal⟩
  | red hc hSibBal hUp => exact ⟨n, .red hc (hNew hSibBal).2 hUp, Or.inl hBal⟩

/-- A sibling with a red child on the outer side is rotated up, and the shortage is gone. -/
theorem DeleteInv.outer (hBlack : t.rootColor = .black) (hSib : f.sib = branch s .black near w far)
    (hFar : far.rootColor = .red) (h : DeleteInv (f :: fs) t) :
    ∃ m, Balanced (zip fs (branch f.side f.color (branch f.side .black t f.x near) w far.blacken))
      .black m := by
  obtain ⟨n, hFits, hBal⟩ := h.balanced hBlack
  have hParts : ∀ {c : Color}, Balanced f.sib c (n + 1) →
      Balanced (branch f.side .black t f.x near) .black (n + 1) ∧
        Balanced far.blacken .black (n + 1) := by
    intro c hSibBal
    rw [hSib, balanced_branch_black] at hSibBal
    obtain ⟨-, k, d, e, hk, hN, hF⟩ := hSibBal
    obtain rfl : n = k := Nat.succ.inj hk
    obtain rfl := hF.rootColor.symm.trans hFar
    obtain ⟨m, hm, hEq⟩ := hF.blacken
    rw [hEq rfl] at hm
    exact ⟨balanced_branch_black.mpr ⟨rfl, n, _, _, rfl, hBal, hN⟩, hm⟩
  cases hFits with
  | black hc hSibBal hUp =>
      apply hUp.zip
      rw [hc, balanced_branch_black]
      exact ⟨rfl, _, _, _, rfl, (hParts hSibBal).1, (hParts hSibBal).2⟩
  | red hc hSibBal hUp =>
      apply hUp.zip
      rw [hc, balanced_branch_red]
      exact ⟨rfl, (hParts hSibBal).1, (hParts hSibBal).2⟩

end Delete

theorem Balanced.replace {c d : Color} {l r : ColorTree β} {x : β} {n : Nat}
    (h : Balanced (.node c l x r) d n) (y : β) : Balanced (.node c l y r) d n := by
  cases h with
  | red hl hr => exact .red hl hr
  | black hl hr => exact .black hl hr

theorem Balanced.nil_of_zero {t : ColorTree β} (h : Balanced t .black 0) : t = .nil := by
  cases h
  rfl

/-- In a balanced tree an only child is a red leaf below a black node. -/
theorem Balanced.only_child {s : Side} {c d : Color} {x : β} {t : ColorTree β} {n : Nat}
    (h : Balanced (branch s c .nil x t) d n) (hT : t ≠ .nil) :
    c = .black ∧ ∃ y, t = .node .red .nil y .nil := by
  cases c with
  | red =>
      rw [balanced_branch_red] at h
      obtain ⟨-, hNil, hBal⟩ := h
      cases hNil
      exact absurd hBal.nil_of_zero hT
  | black =>
      rw [balanced_branch_black] at h
      obtain ⟨-, k, d, e, -, hNil, hBal⟩ := h
      cases hNil
      cases hBal with
      | nil => exact absurd rfl hT
      | red hl hr =>
          rw [hl.nil_of_zero, hr.nil_of_zero]
          exact ⟨rfl, _, rfl⟩

/-- Taking out a node with at most one child is balanced for a red node, and leaves the
place one black node short for a black one. -/
theorem removal {fs : List (Frame β)} {s : Side} {c : Color} {x : β} {t : ColorTree β} {m : Nat}
    (h : Balanced (zip fs (branch s c .nil x t)) .black m) :
    (c = .red → ∃ m, Balanced (zip fs t) .black m) ∧ (c = .black → DeleteInv fs t) := by
  obtain ⟨d, n, hBal, hFits⟩ := exists_fits fs h
  constructor
  · rintro rfl
    rw [balanced_branch_red] at hBal
    obtain ⟨rfl, hNil, hT⟩ := hBal
    exact hFits.toBlack.zip hT
  · rintro rfl
    rw [balanced_branch_black] at hBal
    obtain ⟨rfl, k, e, e', rfl, hNil, hT⟩ := hBal
    refine ⟨k, hFits, ?_⟩
    cases hT with
    | nil => exact Or.inl .nil
    | red hl hr => exact Or.inr ⟨rfl, .black hl hr⟩
    | black => cases hNil

end Gbase.Lib.RedBlack
