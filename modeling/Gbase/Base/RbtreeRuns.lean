import Gbase.Base.RbtreeDelete
import Gbase.Lib.Dictionary
import Gbase.Lib.Run

/-!
# Runs of the red-black tree

What a caller sees of `base/rbtree.c` over a whole run of calls from an empty tree.  The
invariants of the tree are stated on the nodes in memory, without the abstract tree that the
proofs go through.

Legality is what the callers promise.  A reader who only wants to know what is proved can begin
here, for nothing in the statements refers to frames or shapes.

## Main results

* `rbtree_run_red_black`: after every call the tree is a red-black tree, and no call is
  undefined or fails to return.
* `rbtree_refines_finite_set`: every call does what a finite ordered set does.
-/

namespace Gbase.Base.Rbtree

open Gbase.Lib.Comparator
open Gbase.Lib.Dictionary
open Gbase.Lib.RedBlack
open Gbase.Lib.RedBlack.ColorTree
open Gbase.Lib.Run
open Gbase.Lib.Store

variable {α : Type}

/-! ## Calls -/

/-- A call; an insertion comes with what `MALLOC` would return. -/
inductive RbtreeOp (α : Type) where
  | insert (node : Option Nat) (data : Option α)
  | delete (data : Option α)
  | find (data : Option α)
  | loop

/-- What a call returns, or the data the function of `rbtree_loop` is called with. -/
inductive RbtreeResult (α : Type) where
  | status (r : Int)
  | data (p : Option α)
  | visited (l : List α)

/-- One call. -/
def rbtreeStep (cmp : α → α → Int) (fuel : Nat) :
    Step (RbtreeT α) (RbtreeOp α) (RbtreeResult α)
  | tree, .insert p data =>
      (rbtreeInsert cmp fuel tree p data).map fun r => (.status r.1, r.2)
  | tree, .delete data => (rbtreeDelete cmp fuel tree data).map fun r => (.data r.1, r.2)
  | tree, .find data => (rbtreeFind cmp fuel tree data).map fun r => (.data r, tree)
  | tree, .loop => (rbtreeLoop fuel tree).map fun l => (.visited l, tree)

/-- Allocations succeed, with memory that is not in use. -/
def Allocates (tree : RbtreeT α) : RbtreeOp α → Prop
  | .insert none _ => False
  | .insert (some a) _ => (tree.mem a).isNone
  | _ => True

instance (tree : RbtreeT α) (op : RbtreeOp α) : Decidable (Allocates tree op) := by
  unfold Allocates
  split <;> infer_instance

/-! ## The invariants in memory -/

/-- A way down from `p` to `NULL` with this many black nodes, and this many nodes. -/
inductive Path (mem : Nat → Option (NodeT α)) : Option Nat → Nat → Nat → Prop where
  | nil : Path mem none 0 0
  | down {a : Nat} {n : NodeT α} {blacks nodes : Nat} (side : Side) (hNode : mem a = some n)
      (hPath : Path mem (n.child side) blacks nodes) :
      Path mem (some a) (blacks + if n.color = .black then 1 else 0) (nodes + 1)

/-- The data of the nodes below `p`, in order. -/
inductive InOrder (mem : Nat → Option (NodeT α)) : Option Nat → List α → Prop where
  | nil : InOrder mem none []
  | node {a : Nat} {n : NodeT α} {low high : List α} (hNode : mem a = some n)
      (hLow : InOrder mem n.left low) (hHigh : InOrder mem n.right high) :
      InOrder mem (some a) (low ++ n.data :: high)

/-- The elements of the tree. -/
def RbtreeT.stored (tree : RbtreeT α) : Set α := {e | ∃ a n, tree.mem a = some n ∧ n.data = e}

/-- The invariants of a red-black tree, for every node in memory. -/
structure RedBlack (cmp : α → α → Int) (tree : RbtreeT α) : Prop where
  root_parent : ∀ a, tree.root = some a → ∃ n, tree.mem a = some n ∧ n.parent = none
  child_parent : ∀ a n side b, tree.mem a = some n → n.child side = some b →
    ∃ m, tree.mem b = some m ∧ m.parent = some a
  parent_child : ∀ b m, tree.mem b = some m →
    (m.parent = none ∧ tree.root = some b) ∨
      ∃ a n side, m.parent = some a ∧ tree.mem a = some n ∧ n.child side = some b
  increasing : ∃ l, InOrder tree.mem tree.root l ∧ Sorted cmp l ∧ (∀ e, e ∈ l ↔ e ∈ tree.stored) ∧
    ∀ blacks nodes, Path tree.mem tree.root blacks nodes → nodes ≤ 2 * Nat.log 2 (l.length + 1)
  root_black : ∀ a n, tree.root = some a → tree.mem a = some n → n.color = .black
  red_child : ∀ a n side b m, tree.mem a = some n → n.color = .red → n.child side = some b →
    tree.mem b = some m → m.color = .black
  black_height : ∀ p blacks nodes blacks' nodes', Path tree.mem p blacks nodes →
    Path tree.mem p blacks' nodes' → blacks = blacks'

section Invariants

variable {cmp : α → α → Int} {tree : RbtreeT α} {t : ColorTree (Nat × α)}
  {rest : Multiset (Nat × NodeT α)}

/-- The cells of a tree are those of its values. -/
theorem mem_of_cells {parent : Option Nat} {a : Nat} {n : NodeT α} (t : ColorTree (Nat × α))
    (h : (a, n) ∈ cells parent t) : ∃ x ∈ t.toList, x.1 = a := by
  induction t generalizing parent with
  | nil => cases h
  | node c l x r ihl ihr =>
      simp only [cells, Multiset.mem_add, Multiset.mem_singleton] at h
      simp only [toList, List.mem_append, List.mem_cons]
      rcases h with hHere | hLeft | hRight
      · exact ⟨x, Or.inr (Or.inl rfl), (congrArg Prod.fst hHere).symm⟩
      · obtain ⟨y, hy, ha⟩ := ihl hLeft
        exact ⟨y, Or.inl hy, ha⟩
      · obtain ⟨y, hy, ha⟩ := ihr hRight
        exact ⟨y, Or.inr (Or.inr hy), ha⟩

/-- Every node in memory is at a position of the tree. -/
theorem Holding.position (h : Holding cmp tree t 0) {a : Nat} {n : NodeT α}
    (hNode : tree.mem a = some n) :
    ∃ fs c l x r, zip fs (.node c l x r) = t ∧ x.1 = a ∧ Repr tree fs (.node c l x r) 0 ∧
      n = { parent := ctxParent fs, left := ptr l, right := ptr r, data := x.2, color := c } := by
  have hIn := (h.repr.holds.cells a n).mp hNode
  rw [ctxCells, ctxParent, zero_add, add_zero] at hIn
  obtain ⟨x, hx, rfl⟩ := mem_of_cells t hIn
  obtain ⟨fs, c, l, r, hZip⟩ := exists_zip_of_mem hx
  have hAt : Repr tree fs (.node c l x r) 0 := by
    have hTop := h.repr
    rw [← hZip] at hTop
    have hUp := repr_zip.mp hTop
    rwa [List.append_nil] at hUp
  refine ⟨fs, c, l, x, r, hZip, rfl, hAt, ?_⟩
  have hFields : tree.mem x.1 = _ := hAt.fields
  exact Option.some.inj (hNode.symm.trans hFields)

/-- Every way down a balanced tree meets the same number of black nodes. -/
theorem path_spec (t : ColorTree (Nat × α)) :
    ∀ {fs : List (Frame (Nat × α))} {c : Color} {m blacks nodes : Nat}, Repr tree fs t rest →
      Balanced t c m → Path tree.mem (ptr t) blacks nodes → blacks = m ∧ nodes ≤ t.height := by
  induction t with
  | nil =>
      intro fs c m blacks nodes _ hBal hPath
      cases hBal
      cases hPath
      exact ⟨rfl, Nat.le_refl 0⟩
  | node d l x r ihl ihr =>
      intro fs c m blacks nodes h hBal hPath
      have hFields : tree.mem x.1 = _ := h.fields
      have hLeft := (@repr_plug _ tree ⟨.left, d, x, r⟩ fs l rest).mp h
      have hRight := (@repr_plug _ tree ⟨.right, d, x, l⟩ fs r rest).mp h
      rw [ptr_node] at hPath
      cases hPath with
      | @down _ n blacks nodes side hNode hPath =>
          obtain rfl := Option.some.inj (hFields.symm.trans hNode)
          have hBelow : ∀ {c' : Color} {k : Nat}, Balanced l c' k → ∀ {c'' : Color},
              Balanced r c'' k → blacks = k ∧ nodes ≤ max l.height r.height := by
            intro c' k hl c'' hr
            cases side with
            | left =>
                obtain ⟨hBlacks, hNodes⟩ := ihl hLeft hl hPath
                exact ⟨hBlacks, by omega⟩
            | right =>
                obtain ⟨hBlacks, hNodes⟩ := ihr hRight hr hPath
                exact ⟨hBlacks, by omega⟩
          simp only [height]
          cases hBal with
          | red hl hr =>
              obtain ⟨rfl, hNodes⟩ := hBelow hl hr
              exact ⟨by simp, by omega⟩
          | black hl hr =>
              obtain ⟨rfl, hNodes⟩ := hBelow hl hr
              exact ⟨by simp, by omega⟩

theorem inOrder_spec (t : ColorTree (Nat × α)) :
    ∀ {fs : List (Frame (Nat × α))}, Repr tree fs t rest →
      InOrder tree.mem (ptr t) (elems t) := by
  induction t with
  | nil =>
      intro fs _
      exact .nil
  | node d l x r ihl ihr =>
      intro fs h
      have hFields : tree.mem x.1 = _ := h.fields
      have hLeft := ihl ((@repr_plug _ tree ⟨.left, d, x, r⟩ fs l rest).mp h)
      have hRight := ihr ((@repr_plug _ tree ⟨.right, d, x, l⟩ fs r rest).mp h)
      have hNode := InOrder.node hFields hLeft hRight
      simpa [elems, toList] using hNode

/-- The elements of the tree in memory are those of the abstract tree. -/
theorem Holding.stored (h : Holding cmp tree t 0) {e : α} : e ∈ tree.stored ↔ e ∈ elems t := by
  constructor
  · rintro ⟨a, n, hNode, rfl⟩
    obtain ⟨fs, c, l, x, r, rfl, -, -, rfl⟩ := h.position hNode
    rw [elems, toList_zip]
    simp [toList]
  · intro he
    obtain ⟨x, hx, rfl⟩ := List.mem_map.mp he
    obtain ⟨fs, c, l, r, hZip⟩ := exists_zip_of_mem hx
    have hTop := h.repr
    rw [← hZip] at hTop
    have hAt := (repr_zip.mp hTop).fields
    exact ⟨x.1, _, hAt, rfl⟩

/-- The root of a balanced tree is black, and its red nodes have black children. -/
theorem Holding.redBlack (h : Holding cmp tree t 0) : RedBlack cmp tree where
  root_parent := by
    intro a hRoot
    have hPtr : ptr t = some a := h.repr.root.symm.trans hRoot
    cases t with
    | nil => cases hPtr
    | node c l x r =>
        cases hPtr
        exact ⟨_, h.repr.fields, rfl⟩
  child_parent := by
    intro a n side b hNode hChild
    obtain ⟨fs, c, l, x, r, -, rfl, hAt, rfl⟩ := h.position hNode
    have hDown : ∃ f t, Repr tree (f :: fs) t 0 ∧ f.x = x ∧ ptr t = some b := by
      cases side with
      | left => exact ⟨⟨.left, c, x, r⟩, l, repr_plug.mp hAt, rfl, hChild⟩
      | right => exact ⟨⟨.right, c, x, l⟩, r, repr_plug.mp hAt, rfl, hChild⟩
    obtain ⟨f, u, hBelow, rfl, hPtr⟩ := hDown
    cases u with
    | nil => cases hPtr
    | node c' l' y r' =>
        cases hPtr
        exact ⟨_, hBelow.fields, rfl⟩
  parent_child := by
    intro b m hNode
    obtain ⟨fs, c, l, x, r, -, rfl, hAt, rfl⟩ := h.position hNode
    cases fs with
    | nil => exact Or.inl ⟨rfl, hAt.root⟩
    | cons f fs =>
        refine Or.inr ⟨f.x.1, _, f.side, rfl, hAt.parent, ?_⟩
        rw [record_child]
        rfl
  increasing := by
    obtain ⟨m, hBal⟩ := h.balanced
    refine ⟨elems t, ?_, h.sorted, fun e => h.stored.symm, ?_⟩
    · rw [h.repr.root]
      exact inOrder_spec t h.repr
    · intro blacks nodes hPath
      rw [h.repr.root] at hPath
      have hNodes := (path_spec t h.repr hBal hPath).2
      have hHeight := hBal.height_le
      rw [elems, List.length_map, toList_length]
      omega
  root_black := by
    intro a n hRoot hNode
    obtain ⟨m, hBal⟩ := h.balanced
    have hPtr : ptr t = some a := h.repr.root.symm.trans hRoot
    cases t with
    | nil => cases hPtr
    | node c l x r =>
        cases hPtr
        obtain rfl := Option.some.inj (h.repr.fields.symm.trans hNode)
        exact hBal.rootColor
  red_child := by
    intro a n side b m hNode hRed hChild hNode'
    obtain ⟨fs, c, l, x, r, hZip, rfl, hAt, rfl⟩ := h.position hNode
    obtain ⟨k, hBal⟩ := h.balanced
    rw [← hZip] at hBal
    obtain ⟨d, j, hHere, -⟩ := exists_fits fs hBal
    obtain rfl : c = .red := hRed
    have hDown : ∃ f t, Repr tree (f :: fs) t 0 ∧ Balanced t .black j ∧ ptr t = some b := by
      cases hHere with
      | red hl hr =>
          cases side with
          | left => exact ⟨⟨.left, .red, x, r⟩, l, repr_plug.mp hAt, hl, hChild⟩
          | right => exact ⟨⟨.right, .red, x, l⟩, r, repr_plug.mp hAt, hr, hChild⟩
    obtain ⟨f, u, hBelow, hBlack, hPtr⟩ := hDown
    cases u with
    | nil => cases hPtr
    | node c' l' y r' =>
        cases hPtr
        obtain rfl := Option.some.inj (hBelow.fields.symm.trans hNode')
        exact hBlack.rootColor
  black_height := by
    intro p blacks nodes blacks' nodes' hPath hPath'
    cases p with
    | none =>
        cases hPath
        cases hPath'
        rfl
    | some a =>
        obtain ⟨n, hNode⟩ : ∃ n, tree.mem a = some n := by
          cases hPath with
          | down side hNode => exact ⟨_, hNode⟩
        obtain ⟨fs, c, l, x, r, hZip, rfl, hAt, rfl⟩ := h.position hNode
        obtain ⟨k, hBal⟩ := h.balanced
        rw [← hZip] at hBal
        obtain ⟨d, j, hHere, -⟩ := exists_fits fs hBal
        rw [(path_spec _ hAt hHere hPath).1, (path_spec _ hAt hHere hPath').1]

end Invariants

/-! ## One call -/

/-- `rbtree_loop` meets the elements in strictly increasing order, each once. -/
def Traverses (cmp : α → α → Int) (S : Set α) (l : List α) : Prop := Visits S l ∧ Sorted cmp l

/-- What a call does to a finite set ordered by `cmp`: a call that fails, or only looks,
leaves the whole tree as it is. -/
def SetStep (cmp : α → α → Int) (tree : RbtreeT α) :
    RbtreeOp α → RbtreeResult α → RbtreeT α → Prop
  | .insert _ none, r, tree' => r = .status (-1) ∧ tree' = tree
  | .insert _ (some d), r, tree' =>
      ∃ ok, r = .status (if ok then 0 else -1) ∧
        Inserts (fun e k => cmp k e = 0) tree.stored d ok tree'.stored ∧
        (ok = false → tree' = tree)
  | .delete none, r, tree' => r = .data none ∧ tree' = tree
  | .delete (some k), r, tree' =>
      ∃ p, r = .data p ∧ Removes (fun e k => cmp k e = 0) tree.stored k p tree'.stored ∧
        (p = none → tree' = tree)
  | .find none, r, tree' => r = .data none ∧ tree' = tree
  | .find (some k), r, tree' =>
      ∃ p, r = .data p ∧ Finds (fun e k => cmp k e = 0) tree.stored k p ∧ tree' = tree
  | .loop, r, tree' => ∃ l, r = .visited l ∧ Traverses cmp tree.stored l ∧ tree' = tree

section Calls

variable {cmp : α → α → Int} {tree : RbtreeT α} {t : ColorTree (Nat × α)} {fuel : Nat}

/-- An element that compares equal to `d` is the only one. -/
theorem Sorted.others (hCmp : TotalPreorder cmp) {low high : List α} {d e x : α}
    (h : Sorted cmp (low ++ e :: high)) (hEq : cmp d e = 0) (hx : x ∈ low ++ high) :
    cmp d x ≠ 0 := by
  unfold Sorted at h
  rw [List.pairwise_append, List.pairwise_cons] at h
  rcases List.mem_append.mp hx with hLow | hHigh
  · have hLess := hCmp.lt_of_lt_of_le (h.2.2 x hLow e List.mem_cons_self)
      (by have hSwap := hCmp.eq_swap.mp hEq; omega : cmp e d ≤ 0)
    have hMore := (hCmp.swap d x).mpr hLess
    omega
  · have hMore := hCmp.lt_of_le_of_lt (by omega : cmp d e ≤ 0) (h.2.1.1 x hHigh)
    omega

theorem elems_length (t : ColorTree (Nat × α)) : (elems t).length = t.size := by
  rw [elems, List.length_map, toList_length]

/-- The element of the set that a search finds. -/
theorem Holding.finds (hCmp : TotalPreorder cmp) (h : Holding cmp tree t 0) {d e : α}
    (he : e ∈ elems t) (hEq : cmp d e = 0) :
    Finds (fun e k => cmp k e = 0) tree.stored d (some e) := by
  apply finds_some (h.stored.mpr he) hEq
  intro x hx hxEq
  obtain ⟨low, high, hSplit⟩ := List.append_of_mem he
  have hSorted := h.sorted
  rw [hSplit] at hSorted
  rw [h.stored, hSplit] at hx
  rcases List.mem_append.mp hx with hLow | hHigh
  · exact absurd hxEq (hSorted.others hCmp hEq (List.mem_append_left _ hLow))
  · rcases List.mem_cons.mp hHigh with rfl | hHigh
    · rfl
    · exact absurd hxEq (hSorted.others hCmp hEq (List.mem_append_right _ hHigh))

/-- One call on a tree with fewer nodes than `fuel`: it returns, does what the set does, and
adds at most one node. -/
theorem rbtreeStep_spec (hCmp : TotalPreorder cmp) (h : Holding cmp tree t 0)
    (hFuel : t.size < fuel) {op : RbtreeOp α} (hAlloc : Allocates tree op) :
    ∃ r tree' t', rbtreeStep cmp fuel tree op = some (r, tree') ∧ SetStep cmp tree op r tree' ∧
      Holding cmp tree' t' 0 ∧ t'.size ≤ t.size + 1 := by
  cases op with
  | insert p data =>
      cases p with
      | none => exact absurd hAlloc id
      | some a =>
          cases data with
          | none => exact ⟨_, tree, t, rfl, ⟨rfl, rfl⟩, h, by omega⟩
          | some d =>
              have hNew : tree.mem a = none := by simpa [Allocates] using hAlloc
              rcases rbtreeInsert_spec hCmp h hFuel hNew d with
                ⟨hRun, e, he, hEq⟩ | ⟨tree', t', low, high, hRun, h', hElems, hElems', hLow, hHigh⟩
              · refine ⟨_, tree, t, by simp only [rbtreeStep, hRun]; rfl, ?_, h, by omega⟩
                exact ⟨false, rfl, ⟨by simpa using ⟨e, h.stored.mpr he, hEq⟩, rfl⟩, fun _ => rfl⟩
              · refine ⟨_, tree', t', by simp only [rbtreeStep, hRun]; rfl, ?_, h', ?_⟩
                · refine ⟨true, rfl, ⟨?_, ?_⟩, by simp⟩
                  · refine iff_of_true rfl ?_
                    rintro ⟨e, he, hEq⟩
                    rw [h.stored, hElems, List.mem_append] at he
                    rcases he with he | he
                    · have hLess := hLow e he
                      have hMore := (hCmp.swap d e).mpr hLess
                      omega
                    · have hMore := hHigh e he
                      omega
                  · ext e
                    rw [h'.stored, hElems', if_pos rfl, Set.mem_insert_iff, h.stored, hElems]
                    simp only [List.mem_append, List.mem_cons]
                    tauto
                · rw [← elems_length, ← elems_length, hElems, hElems']
                  simp only [List.length_append, List.length_cons]
                  omega
  | delete data =>
      cases data with
      | none => exact ⟨_, tree, t, rfl, ⟨rfl, rfl⟩, h, by omega⟩
      | some d =>
          rcases rbtreeDelete_spec hCmp h hFuel d with
            ⟨hRun, hNone⟩ | ⟨tree', t', low, e, high, hRun, h', hElems, hElems', hEq⟩
          · refine ⟨_, tree, t, by simp only [rbtreeStep, hRun]; rfl, ?_, h, by omega⟩
            exact ⟨none, rfl, removes_none fun e he => hNone e (h.stored.mp he), fun _ => rfl⟩
          · have hMem : e ∈ elems t := by
              rw [hElems]
              simp
            have hSorted := h.sorted
            rw [hElems] at hSorted
            refine ⟨_, tree', t', by simp only [rbtreeStep, hRun]; rfl, ?_, h', ?_⟩
            · refine ⟨some e, rfl, ⟨h.finds hCmp hMem hEq, ?_⟩, by simp⟩
              ext x
              rw [Set.mem_ofPred_eq, h'.stored, h.stored, hElems, hElems']
              constructor
              · intro hx
                refine ⟨?_, hSorted.others hCmp hEq hx⟩
                simp only [List.mem_append, List.mem_cons] at hx ⊢
                tauto
              · rintro ⟨hx, hNe⟩
                simp only [List.mem_append, List.mem_cons] at hx ⊢
                rcases hx with hx | rfl | hx
                · exact Or.inl hx
                · exact absurd hEq hNe
                · exact Or.inr hx
            · rw [← elems_length, ← elems_length, hElems, hElems']
              simp only [List.length_append, List.length_cons]
              omega
  | find data =>
      cases data with
      | none => exact ⟨_, tree, t, rfl, ⟨rfl, rfl⟩, h, by omega⟩
      | some d =>
          rcases rbtreeFind_spec hCmp h hFuel d with ⟨hRun, hNone⟩ | ⟨e, he, hRun, hEq⟩
          · refine ⟨_, tree, t, by simp only [rbtreeStep, hRun]; rfl, ?_, h, by omega⟩
            exact ⟨none, rfl, finds_none fun e he => hNone e (h.stored.mp he), rfl⟩
          · refine ⟨_, tree, t, by simp only [rbtreeStep, hRun]; rfl, ?_, h, by omega⟩
            exact ⟨some e, rfl, h.finds hCmp he hEq, rfl⟩
  | loop =>
      have hRun := rbtreeLoop_spec h.repr hFuel
      refine ⟨_, tree, t, by simp only [rbtreeStep, hRun]; rfl, ?_, h, by omega⟩
      refine ⟨elems t, rfl, ⟨⟨?_, fun e => h.stored.symm⟩, h.sorted⟩, rfl⟩
      refine h.sorted.imp ?_
      rintro a b hLess rfl
      have hSelf := hCmp.refl a
      omega

end Calls

/-! ## Whole runs -/

/-- The tree after `k` calls. -/
def AfterCalls (cmp : α → α → Int) (k : Nat) (tree : RbtreeT α) : Prop :=
  ∃ t, Holding cmp tree t 0 ∧ t.size ≤ k

theorem afterCalls_create (cmp : α → α → Int) : AfterCalls cmp 0 (rbtreeCreate : RbtreeT α) := by
  refine ⟨.nil, ⟨⟨rfl, ?_⟩, List.Pairwise.nil, 0, .nil⟩, Nat.le_refl 0⟩
  have hEmpty : Holds (rbtreeCreate : RbtreeT α).mem 0 := holds_empty
  simpa [ctxCells] using hEmpty

theorem afterCalls_step {cmp : α → α → Int} (hCmp : TotalPreorder cmp) {fuel k : Nat}
    {tree tree' : RbtreeT α} {op : RbtreeOp α} {r : RbtreeResult α} (hFuel : k < fuel)
    (h : AfterCalls cmp k tree) (hAlloc : Allocates tree op)
    (hStep : rbtreeStep cmp fuel tree op = some (r, tree')) :
    AfterCalls cmp (k + 1) tree' ∧ SetStep cmp tree op r tree' := by
  obtain ⟨t, hTree, hSize⟩ := h
  obtain ⟨r₁, tree₁, t₁, hRun, hSet, h₁, hSize₁⟩ :=
    rbtreeStep_spec hCmp hTree (by omega : t.size < fuel) hAlloc
  rw [hRun] at hStep
  cases hStep
  exact ⟨⟨t₁, h₁, by omega⟩, hSet⟩

/-- From an empty tree, every call returns and leaves a red-black tree.  The fuel bounds the turns
of each loop, and as many turns as there were calls are enough. -/
theorem rbtree_run_red_black {cmp : α → α → Int} (hCmp : TotalPreorder cmp) {fuel : Nat}
    {ops : List (RbtreeOp α)} (hFuel : ops.length ≤ fuel)
    (hAlloc : Along (rbtreeStep cmp fuel) Allocates rbtreeCreate ops) :
    Along (rbtreeStep cmp fuel) (Does (rbtreeStep cmp fuel) fun _ _ _ tree' => RedBlack cmp tree')
      rbtreeCreate ops := by
  refine along_of_counted_inv (AfterCalls cmp) ?_ ?_ (by omega : 0 + ops.length ≤ fuel)
    (afterCalls_create cmp) hAlloc
  · intro k tree op hk h hLegal
    obtain ⟨t, hTree, hSize⟩ := h
    obtain ⟨r, tree', t', hRun, -, h', -⟩ :=
      rbtreeStep_spec hCmp hTree (by omega : t.size < fuel) hLegal
    exact ⟨r, tree', hRun, h'.redBlack⟩
  · intro k tree op r tree' hk h hLegal hStep
    exact (afterCalls_step hCmp hk h hLegal hStep).1

/-- From an empty tree, every call returns and does what a finite ordered set does, where elements
that compare equal are one.  The elements of the set are those of the nodes in memory. -/
theorem rbtree_refines_finite_set {cmp : α → α → Int} (hCmp : TotalPreorder cmp) {fuel : Nat}
    {ops : List (RbtreeOp α)} (hFuel : ops.length ≤ fuel)
    (hAlloc : Along (rbtreeStep cmp fuel) Allocates rbtreeCreate ops) :
    (rbtreeCreate : RbtreeT α).stored = ∅ ∧
      Along (rbtreeStep cmp fuel) (Does (rbtreeStep cmp fuel) (SetStep cmp)) rbtreeCreate ops := by
  constructor
  · ext e
    rw [Set.mem_empty_iff_false, iff_false]
    rintro ⟨a, n, hNode, -⟩
    cases hNode
  · refine along_of_counted_inv (AfterCalls cmp) ?_ ?_ (by omega : 0 + ops.length ≤ fuel)
      (afterCalls_create cmp) hAlloc
    · intro k tree op hk h hLegal
      obtain ⟨t, hTree, hSize⟩ := h
      obtain ⟨r, tree', t', hRun, hSet, -, -⟩ :=
        rbtreeStep_spec hCmp hTree (by omega : t.size < fuel) hLegal
      exact ⟨r, tree', hRun, hSet⟩
    · intro k tree op r tree' hk h hLegal hStep
      exact (afterCalls_step hCmp hk h hLegal hStep).1

/-- Three insertions that rotate, and the deletion of a root with two children. -/
theorem rbtree_run_red_black_two_children :
    Along (rbtreeStep natCmp 5)
      (Does (rbtreeStep natCmp 5) fun _ _ _ tree' => RedBlack natCmp tree') rbtreeCreate
      [.insert (some 0) (some 1), .insert (some 1) (some 2), .insert (some 2) (some 3),
        .delete (some 2), .insert (some 2) (some 5)] :=
  rbtree_run_red_black natCmp_totalPreorder (by decide) (by decide)

theorem rbtree_refines_finite_set_two_children :
    (rbtreeCreate : RbtreeT Nat).stored = ∅ ∧
      Along (rbtreeStep natCmp 6) (Does (rbtreeStep natCmp 6) (SetStep natCmp)) rbtreeCreate
        [.insert (some 0) (some 1), .insert (some 1) (some 2), .insert (some 2) (some 3),
          .delete (some 2), .find (some 2), .loop] :=
  rbtree_refines_finite_set natCmp_totalPreorder (by decide) (by decide)

end Gbase.Base.Rbtree
