import Gbase.Lib.Circular
import Gbase.Lib.HashRing
import Mathlib.Logic.Function.Basic

/-!
# Consistent hashing (`base/conhash.c`, `base/list.h`)

Nodes in memory, in a circular list by their hash values.  A pointer is `Option Nat` with `none`
for `NULL`; reading or writing through `NULL`, or where no list head or node is, is undefined.  The
link is the first field of a node, so that `list_entry` changes no address.  Loops take `fuel`, and
are undefined when they need more turns.

The three loops over the list are one definition with the test that ends them as a parameter.  The
address `MALLOC` returns is an argument; the handle itself is not `NULL`.

## Main results

* `listAdd_spec`, `listDel_spec`: what becomes of a circle.
* `conhashAdd_taken`, `conhashAdd_spec`, `conhashErase_spec`, `conhashNode_spec`: each call on a
  ring.
-/

namespace Gbase.Base.Conhash

open Gbase.Lib.Circular
open Gbase.Lib.HashRing

/-! ## The list -/

/-- `list_head_t` -/
structure ListHead where
  next : Option Nat
  prev : Option Nat

/-- The list heads in memory. -/
abbrev Links := Nat → Option ListHead

/-- `a->next = b` -/
def setNext (m : Links) (a b : Option Nat) : Option Links := do
  let a ← a
  let l ← m a
  return Function.update m a (some { l with next := b })

/-- `a->prev = b` -/
def setPrev (m : Links) (a b : Option Nat) : Option Links := do
  let a ← a
  let l ← m a
  return Function.update m a (some { l with prev := b })

/-- `__list_add` -/
def listAddBetween (m : Links) (n prev next : Option Nat) : Option Links := do
  let m ← setPrev m next n
  let m ← setNext m n next
  let m ← setPrev m n prev
  setNext m prev n

/-- `list_add` -/
def listAdd (m : Links) (new head : Option Nat) : Option Links := do
  let a ← head
  let l ← m a
  listAddBetween m new head l.next

/-- `__list_del` -/
def listDelBetween (m : Links) (prev next : Option Nat) : Option Links := do
  let m ← setPrev m next prev
  setNext m prev next

/-- `list_del` -/
def listDel (m : Links) (entry : Option Nat) : Option Links := do
  let a ← entry
  let l ← m a
  let m ← listDelBetween m l.prev l.next
  let m ← setNext m entry none
  setPrev m entry none

/-! ## The nodes -/

/-- `conhash_node_t`, next to its link. -/
structure ConhashNodeT (α : Type) where
  data : α
  hashValue : UInt32

/-- `conhash_t`, with the address of `node_list` and the memory. -/
structure ConhashT (α κ : Type) where
  nodeList : Nat
  keyHash : κ → UInt32
  nodeHash : α → UInt32
  links : Links
  nodes : Nat → Option (ConhashNodeT α)

variable {α κ : Type}

/-- `conhash_create` -/
def conhashCreate (nodeList : Nat) (keyHash : κ → UInt32) (nodeHash : α → UInt32) :
    ConhashT α κ where
  nodeList := nodeList
  keyHash := keyHash
  nodeHash := nodeHash
  links := Function.update (fun _ => none) nodeList (some ⟨some nodeList, some nodeList⟩)
  nodes := fun _ => none

/-- `MALLOC` answered `a`, and the node is filled in. -/
def ConhashT.alloc (ch : ConhashT α κ) (a : Nat) (node : α) : ConhashT α κ :=
  { ch with
    links := Function.update ch.links a (some ⟨some a, some a⟩)
    nodes := Function.update ch.nodes a (some ⟨node, ch.nodeHash node⟩) }

/-- `FREE` -/
def ConhashT.free (ch : ConhashT α κ) (a : Nat) : ConhashT α κ :=
  { ch with
    links := Function.update ch.links a none
    nodes := Function.update ch.nodes a none }

/-- `list_for_each_entry` from `pos` on, up to a node whose hash value passes the test. -/
def search (ch : ConhashT α κ) (stop : UInt32 → Bool) : Nat → Option Nat → Option (Option Nat)
  | 0, _ => none
  | fuel + 1, pos => do
      let a ← pos
      if a = ch.nodeList then return none
      else
        let n ← ch.nodes a
        if stop n.hashValue then return some a
        else
          let l ← ch.links a
          search ch stop fuel l.next

/-- `conhash_add` -/
def conhashAdd (fuel : Nat) (ch : ConhashT α κ) (node : Option α) (new : Nat) :
    Option (Int × ConhashT α κ) :=
  match node with
  | none => some (-1, ch)
  | some node => do
      let hashValue := ch.nodeHash node
      let ch := ch.alloc new node
      let l ← ch.links ch.nodeList
      match ← search ch (fun h => h == hashValue || decide (h > hashValue)) fuel l.next with
      | some a =>
          let n ← ch.nodes a
          if n.hashValue = hashValue then return (-1, ch.free new)
          else
            let l ← ch.links a
            let links ← listAdd ch.links (some new) l.prev
            return (0, { ch with links := links })
      | none =>
          let links ← listAdd ch.links (some new) l.prev
          return (0, { ch with links := links })

/-- `conhash_erase` -/
def conhashErase (fuel : Nat) (ch : ConhashT α κ) (node : Option α) : Option (ConhashT α κ) :=
  match node with
  | none => some ch
  | some node => do
      let val := ch.nodeHash node
      let l ← ch.links ch.nodeList
      match ← search ch (fun h => h == val) fuel l.next with
      | some a =>
          let links ← listDel ch.links (some a)
          return ConhashT.free { ch with links := links } a
      | none => return ch

/-- `conhash_node` -/
def conhashNode (fuel : Nat) (ch : ConhashT α κ) (key : Option κ) : Option (Option α) :=
  match key with
  | none => some none
  | some key => do
      let l ← ch.links ch.nodeList
      if l.next = some ch.nodeList then return none
      else
        let val := ch.keyHash key
        match ← search ch (fun h => decide (h ≥ val)) fuel l.next with
        | some a =>
            let n ← ch.nodes a
            return some n.data
        | none =>
            let a ← l.next
            let n ← ch.nodes a
            return some n.data

/-! ## What a change of a list does -/

/-- `a->next`, where there is a list head. -/
def nextOf (m : Links) (a : Nat) : Option Nat := (m a).bind ListHead.next

/-- `a->prev`, where there is a list head. -/
def prevOf (m : Links) (a : Nat) : Option Nat := (m a).bind ListHead.prev

section

variable {m : Links} {a b : Nat} {xs ys : List Nat} {head : Nat}

theorem setNext_spec (b : Option Nat) (h : (m a).isSome) :
    ∃ m', setNext m (some a) b = some m' ∧ nextOf m' = Function.update (nextOf m) a b ∧
      prevOf m' = prevOf m ∧ ∀ c, (m' c).isSome = (m c).isSome := by
  obtain ⟨l, hl⟩ := Option.isSome_iff_exists.mp h
  refine ⟨Function.update m a (some { l with next := b }), ?_, ?_, ?_, ?_⟩
  · simp [setNext, hl]
  · funext c
    by_cases hc : c = a
    · simp [nextOf, hc]
    · simp [nextOf, hc]
  · funext c
    by_cases hc : c = a
    · simp [prevOf, hc, hl]
    · simp [prevOf, hc]
  · intro c
    by_cases hc : c = a
    · simp [hc, hl]
    · simp [hc]

theorem setPrev_spec (b : Option Nat) (h : (m a).isSome) :
    ∃ m', setPrev m (some a) b = some m' ∧ nextOf m' = nextOf m ∧
      prevOf m' = Function.update (prevOf m) a b ∧ ∀ c, (m' c).isSome = (m c).isSome := by
  obtain ⟨l, hl⟩ := Option.isSome_iff_exists.mp h
  refine ⟨Function.update m a (some { l with prev := b }), ?_, ?_, ?_, ?_⟩
  · simp [setPrev, hl]
  · funext c
    by_cases hc : c = a
    · simp [nextOf, hc, hl]
    · simp [nextOf, hc]
  · funext c
    by_cases hc : c = a
    · simp [prevOf, hc]
    · simp [prevOf, hc]
  · intro c
    by_cases hc : c = a
    · simp [hc, hl]
    · simp [hc]

theorem isSome_of_next (h : nextOf m a = some b) : (m a).isSome := by
  cases hl : m a with
  | none => simp [nextOf, hl] at h
  | some l => rfl

/-- The list head as its two links. -/
theorem link_eq {p q : Option Nat} (hSome : (m a).isSome) (hNext : nextOf m a = q)
    (hPrev : prevOf m a = p) : m a = some ⟨q, p⟩ := by
  obtain ⟨⟨next, prev⟩, hl⟩ := Option.isSome_iff_exists.mp hSome
  simp only [nextOf, prevOf, hl, Option.bind_some] at hNext hPrev
  rw [hl, hNext, hPrev]

/-- There is a list head at each cell of a circle. -/
theorem Circle.isSome (h : Circle (nextOf m) (prevOf m) head xs) (ha : a ∈ head :: xs) :
    (m a).isSome := by
  rw [← map_fst_edges head xs head] at ha
  obtain ⟨e, he, rfl⟩ := List.mem_map.mp ha
  exact isSome_of_next (h.linked e he).1

/-- A list head that points to itself is linked in. -/
theorem listAdd_spec (h : Circle (nextOf m) (prevOf m) head (xs ++ ys))
    (hNew : a ∉ head :: (xs ++ ys)) (hSome : (m a).isSome) :
    ∃ m', listAdd m (some a) (some (lastOf head xs)) = some m' ∧
      Circle (nextOf m') (prevOf m') head (xs ++ a :: ys) := by
  obtain ⟨hGo, hReturn⟩ := h.edge
  have hLast := lastOf_mem_ring head xs ys
  have hFirst := firstOf_mem_ring head xs ys
  have hLastNe : lastOf head xs ≠ a := fun hEq => hNew (hEq ▸ hLast)
  have hFirstNe : firstOf ys head ≠ a := fun hEq => hNew (hEq ▸ hFirst)
  obtain ⟨m₁, h₁, hNext₁, hPrev₁, hSome₁⟩ := setPrev_spec (some a) (Circle.isSome h hFirst)
  obtain ⟨m₂, h₂, hNext₂, hPrev₂, hSome₂⟩ :=
    setNext_spec (m := m₁) (some (firstOf ys head)) ((hSome₁ a).trans hSome)
  obtain ⟨m₃, h₃, hNext₃, hPrev₃, hSome₃⟩ :=
    setPrev_spec (m := m₂) (some (lastOf head xs)) ((hSome₂ a).trans ((hSome₁ a).trans hSome))
  obtain ⟨m₄, h₄, hNext₄, hPrev₄, -⟩ :=
    setNext_spec (m := m₃) (a := lastOf head xs) (some a) (by
      rw [hSome₃, hSome₂, hSome₁]
      exact Circle.isSome h hLast)
  have hHere := link_eq (Circle.isSome h hLast) hGo rfl
  refine ⟨m₄, ?_, ?_⟩
  · simp only [listAdd, hHere, Option.bind_eq_bind, Option.bind_some, listAddBetween, h₁, h₂, h₃,
      h₄]
  · rw [hNext₄, hPrev₄, hNext₃, hPrev₃, hNext₂, hPrev₂, hNext₁, hPrev₁]
    apply h.insert hNew
    · exact Function.update_self _ _ _
    · rw [Function.update_of_ne hLastNe.symm, Function.update_self]
    · intro b hb hba
      rw [Function.update_of_ne hb, Function.update_of_ne hba]
    · exact Function.update_self _ _ _
    · rw [Function.update_of_ne hFirstNe, Function.update_self]
    · intro b hb hba
      rw [Function.update_of_ne hba, Function.update_of_ne hb]

/-- A cell is taken out. -/
theorem listDel_spec (h : Circle (nextOf m) (prevOf m) head (xs ++ a :: ys)) :
    ∃ m', listDel m (some a) = some m' ∧ Circle (nextOf m') (prevOf m') head (xs ++ ys) ∧
      ∀ c, (m' c).isSome = (m c).isSome := by
  have hNodup := h.nodup
  rw [← List.cons_append, List.nodup_middle, List.nodup_cons] at hNodup
  have hOut := hNodup.1
  rw [List.cons_append] at hOut
  have hLast := lastOf_mem_ring head xs ys
  have hFirst := firstOf_mem_ring head xs ys
  have hAll : ∀ b, b ∈ head :: (xs ++ ys) → b ∈ head :: (xs ++ a :: ys) := by
    intro b hb
    rw [← List.cons_append, List.mem_append] at hb ⊢
    exact hb.imp_right (List.mem_cons_of_mem a)
  have hLastNe : lastOf head xs ≠ a := fun hEq => hOut (hEq ▸ hLast)
  have hFirstNe : firstOf ys head ≠ a := fun hEq => hOut (hEq ▸ hFirst)
  have hBack : prevOf m a = some (lastOf head xs) := h.edge.2
  have hGo : nextOf m a = some (firstOf ys head) := by
    have hCut := h
    rw [List.append_cons] at hCut
    have hNext := hCut.edge.1
    rwa [lastOf_append] at hNext
  have hHere := link_eq (isSome_of_next hGo) hGo hBack
  obtain ⟨m₁, h₁, hNext₁, hPrev₁, hSome₁⟩ :=
    setPrev_spec (some (lastOf head xs)) (Circle.isSome h (hAll _ hFirst))
  obtain ⟨m₂, h₂, hNext₂, hPrev₂, hSome₂⟩ :=
    setNext_spec (m := m₁) (some (firstOf ys head))
      ((hSome₁ _).trans (Circle.isSome h (hAll _ hLast)))
  obtain ⟨m₃, h₃, hNext₃, hPrev₃, hSome₃⟩ :=
    setNext_spec (m := m₂) (a := a) none (by rw [hSome₂, hSome₁]; exact isSome_of_next hGo)
  obtain ⟨m₄, h₄, hNext₄, hPrev₄, hSome₄⟩ :=
    setPrev_spec (m := m₃) (a := a) none (by rw [hSome₃, hSome₂, hSome₁]; exact isSome_of_next hGo)
  refine ⟨m₄, ?_, ?_, fun c => by rw [hSome₄, hSome₃, hSome₂, hSome₁]⟩
  · simp only [listDel, hHere, Option.bind_eq_bind, Option.bind_some, listDelBetween, h₁, h₂, h₃,
      h₄]
  · rw [hNext₄, hPrev₄, hNext₃, hPrev₃, hNext₂, hPrev₂, hNext₁, hPrev₁]
    apply h.erase
    · rw [Function.update_of_ne hLastNe, Function.update_self]
    · intro b hb hba
      rw [Function.update_of_ne hba, Function.update_of_ne hb]
    · rw [Function.update_of_ne hFirstNe, Function.update_self]
    · intro b hb hba
      rw [Function.update_of_ne hba, Function.update_of_ne hb]

end

/-! ## Rings -/

/-- Where a node is on the ring: its hash value, as a number. -/
def ConhashT.place (ch : ConhashT α κ) (x : α) : Nat := (ch.nodeHash x).toNat

/-- The nodes on the ring, with their addresses: they are linked around `node_list` by their hash
values, which are strictly increasing. -/
structure OnRing (ch : ConhashT α κ) (xs : List (Nat × α)) : Prop where
  circle : Circle (nextOf ch.links) (prevOf ch.links) ch.nodeList (xs.map Prod.fst)
  nodes : ∀ c, c ∈ xs → ch.nodes c.1 = some ⟨c.2, ch.nodeHash c.2⟩
  increasing : xs.Pairwise fun c d => ch.place c.2 < ch.place d.2

/-- The nodes without their addresses. -/
def nodesOf (xs : List (Nat × α)) : Set α := { x | x ∈ xs.map Prod.snd }

/-- There is nothing at the address. -/
def ConhashT.Unused (ch : ConhashT α κ) (a : Nat) : Prop := ch.links a = none ∧ ch.nodes a = none

section

variable {ch : ConhashT α κ} {xs front back : List (Nat × α)} {fuel new : Nat} {x : α}

theorem onRing_create (nodeList : Nat) (keyHash : κ → UInt32) (nodeHash : α → UInt32) :
    OnRing (conhashCreate nodeList keyHash nodeHash) [] := by
  refine ⟨Circle.single ?_ ?_, fun c hc => absurd hc List.not_mem_nil, List.Pairwise.nil⟩
  · simp [conhashCreate, nextOf]
  · simp [conhashCreate, prevOf]

theorem OnRing.unused_notMem (h : OnRing ch xs) (hNew : ch.Unused new) :
    new ∉ ch.nodeList :: xs.map Prod.fst := by
  intro hIn
  have hSome := Circle.isSome h.circle hIn
  rw [hNew.1] at hSome
  cases hSome

/-- A ring does not see what happens elsewhere in memory. -/
theorem OnRing.congr (h : OnRing ch xs) {links : Links} {nodes : Nat → Option (ConhashNodeT α)}
    (hLinks : ∀ a, a ∈ ch.nodeList :: xs.map Prod.fst → links a = ch.links a)
    (hNodes : ∀ c, c ∈ xs → nodes c.1 = ch.nodes c.1) :
    OnRing { ch with links := links, nodes := nodes } xs := by
  refine ⟨⟨h.circle.nodup, ?_⟩, fun c hc => (hNodes c hc).trans (h.nodes c hc), h.increasing⟩
  intro e he
  have hFst : e.1 ∈ ch.nodeList :: xs.map Prod.fst := by
    rw [← map_fst_edges ch.nodeList (xs.map Prod.fst) ch.nodeList]
    exact List.mem_map_of_mem he
  have hSnd : e.2 ∈ xs.map Prod.fst ++ [ch.nodeList] := by
    rw [← map_snd_edges ch.nodeList (xs.map Prod.fst) ch.nodeList]
    exact List.mem_map_of_mem he
  rw [List.mem_append, List.mem_singleton, or_comm, ← List.mem_cons] at hSnd
  show nextOf links e.1 = some e.2 ∧ prevOf links e.2 = some e.1
  rw [nextOf, prevOf, hLinks _ hFst, hLinks _ hSnd]
  exact h.circle.linked e he

/-- A new node is on no ring yet. -/
theorem OnRing.alloc (h : OnRing ch xs) (hNew : ch.Unused new) (x : α) :
    OnRing (ch.alloc new x) xs := by
  have hNot := h.unused_notMem hNew
  apply h.congr
  · intro a ha
    exact Function.update_of_ne (by rintro rfl; exact hNot ha) _ _
  · intro c hc
    have hMem : c.1 ∈ ch.nodeList :: xs.map Prod.fst :=
      List.mem_cons_of_mem _ (List.mem_map_of_mem hc)
    exact Function.update_of_ne (by rintro rfl; exact hNot hMem) _ _

/-- What is not on the ring can be given back. -/
theorem OnRing.free {a : Nat} (h : OnRing ch xs) (hOut : a ∉ ch.nodeList :: xs.map Prod.fst) :
    OnRing (ch.free a) xs := by
  apply h.congr
  · intro b hb
    exact Function.update_of_ne (by rintro rfl; exact hOut hb) _ _
  · intro c hc
    have hMem : c.1 ∈ ch.nodeList :: xs.map Prod.fst :=
      List.mem_cons_of_mem _ (List.mem_map_of_mem hc)
    exact Function.update_of_ne (by rintro rfl; exact hOut hMem) _ _

/-- Taking a new node back changes nothing. -/
theorem free_alloc (hNew : ch.Unused new) (x : α) : (ch.alloc new x).free new = ch := by
  have hLinks := hNew.1
  have hNodes := hNew.2
  cases ch
  simp only [ConhashT.alloc, ConhashT.free, Function.update_idem] at *
  rw [← hLinks, ← hNodes, Function.update_eq_self, Function.update_eq_self]

/-- The loop ends at the first node behind where it starts whose hash value passes the test. -/
theorem search_eq (h : OnRing ch (front ++ back)) (stop : UInt32 → Bool)
    (hFuel : back.length < fuel) :
    search ch stop fuel (some (firstOf (back.map Prod.fst) ch.nodeList)) =
      some ((back.find? fun c => stop (ch.nodeHash c.2)).map Prod.fst) := by
  induction fuel generalizing front back with
  | zero => omega
  | succ fuel ih =>
      cases back with
      | nil => simp [search, firstOf]
      | cons c back =>
          have hHere := h.nodes c (by simp)
          have hOther : c.1 ≠ ch.nodeList := by
            have hNodup := h.circle.nodup
            rw [List.nodup_cons] at hNodup
            exact fun hEq => hNodup.1 (hEq ▸ by simp)
          have hCut : OnRing ch ((front ++ [c]) ++ back) := by
            rwa [List.append_assoc]
          have hNext : nextOf ch.links c.1 = some (firstOf (back.map Prod.fst) ch.nodeList) := by
            have hCircle := hCut.circle
            rw [List.map_append] at hCircle
            have hEdge := hCircle.edge.1
            rwa [List.map_append, lastOf_append] at hEdge
          obtain ⟨l, hl⟩ := Option.isSome_iff_exists.mp (isSome_of_next hNext)
          rw [nextOf, hl, Option.bind_some] at hNext
          have hRest := ih hCut (by rw [List.length_cons] at hFuel; omega)
          change search ch stop (fuel + 1) (some c.1) = _
          simp only [search, Option.bind_eq_bind, Option.bind_some, if_neg hOther, hHere, hl, hNext,
            hRest, List.find?_cons]
          cases stop (ch.nodeHash c.2) <;> rfl

/-- An increasing list is cut at a value. -/
theorem exists_cut {γ : Type} {f : γ → Nat} {ds : List γ} (h : ds.Pairwise fun c d => f c < f d)
    (val : Nat) :
    ∃ front back, ds = front ++ back ∧ (∀ c ∈ front, f c < val) ∧ (∀ c ∈ back, val ≤ f c) ∧
      (ds.find? fun c => decide (val ≤ f c)) = back.head? := by
  induction h with
  | nil => exact ⟨[], [], rfl, by simp, by simp, rfl⟩
  | @cons c ds hLess _ ih =>
      by_cases hUp : val ≤ f c
      · refine ⟨[], c :: ds, rfl, by simp, ?_, ?_⟩
        · exact List.forall_mem_cons.mpr ⟨hUp, fun d hd => hUp.trans (hLess d hd).le⟩
        · rw [List.find?_cons_of_pos (by simpa using hUp)]
          rfl
      · obtain ⟨front, back, rfl, hFront, hBack, hFind⟩ := ih
        refine ⟨c :: front, back, rfl, ?_, hBack, ?_⟩
        · exact List.forall_mem_cons.mpr ⟨not_le.mp hUp, hFront⟩
        · rw [List.find?_cons_of_neg (by simpa using hUp)]
          exact hFind

/-- The test of `conhash_add`. -/
theorem add_test (h hashValue : UInt32) :
    (h == hashValue || decide (h > hashValue)) = decide (hashValue.toNat ≤ h.toNat) := by
  rw [Bool.eq_iff_iff, Bool.or_eq_true, beq_iff_eq, decide_eq_true_iff, decide_eq_true_iff,
    gt_iff_lt, UInt32.lt_iff_toNat_lt, ← UInt32.toNat_inj]
  omega

/-- What the list starts with. -/
theorem OnRing.first (h : OnRing ch xs) :
    ∃ l, ch.links ch.nodeList = some l ∧
      l.next = some (firstOf (xs.map Prod.fst) ch.nodeList) ∧
      l.prev = some (lastOf ch.nodeList (xs.map Prod.fst)) := by
  have hStart := @Circle.edge _ _ _ _ [] (xs.map Prod.fst) h.circle
  have hEnd := @Circle.edge _ _ _ _ (xs.map Prod.fst) [] (by rw [List.append_nil]; exact h.circle)
  exact ⟨_, link_eq (isSome_of_next hStart.1) hStart.1 hEnd.2, rfl, rfl⟩

/-- What points to the cell behind a part of the ring, or to `node_list`. -/
theorem OnRing.prev_eq (h : OnRing ch (front ++ back)) :
    prevOf ch.links (firstOf (back.map Prod.fst) ch.nodeList) =
      some (lastOf ch.nodeList (front.map Prod.fst)) := by
  have hCircle := h.circle
  rw [List.map_append] at hCircle
  exact hCircle.edge.2

/-- A node is put between the nodes of smaller and those of greater hash values. -/
theorem OnRing.put (h : OnRing ch (front ++ back)) (hNew : ch.Unused new) (x : α)
    (hFront : ∀ c ∈ front, ch.place c.2 < ch.place x)
    (hBack : ∀ c ∈ back, ch.place x < ch.place c.2) :
    ∃ links, listAdd (ch.alloc new x).links (some new)
        (prevOf (ch.alloc new x).links (firstOf (back.map Prod.fst) ch.nodeList)) = some links ∧
      OnRing { ch.alloc new x with links := links } (front ++ (new, x) :: back) := by
  have hAlloc := h.alloc hNew x
  have hNot := h.unused_notMem hNew
  have hCircle := hAlloc.circle
  rw [List.map_append] at hCircle hNot
  obtain ⟨links, hAdd, hDone⟩ := listAdd_spec hCircle hNot (by simp [ConhashT.alloc])
  refine ⟨links, ?_, ?_, ?_, ?_⟩
  · have hPrev := hAlloc.prev_eq
    change prevOf _ (firstOf _ ch.nodeList) = _ at hPrev
    rw [hPrev]
    exact hAdd
  · rw [List.map_append, List.map_cons]
    exact hDone
  · intro c hc
    rw [List.mem_append, List.mem_cons] at hc
    rcases hc with hLeft | rfl | hRight
    · exact hAlloc.nodes c (List.mem_append_left back hLeft)
    · exact Function.update_self _ _ _
    · exact hAlloc.nodes c (List.mem_append_right front hRight)
  · have hOld := h.increasing
    rw [List.pairwise_append] at hOld ⊢
    refine ⟨hOld.1, List.pairwise_cons.mpr ⟨hBack, hOld.2.1⟩, ?_⟩
    intro c hc d hd
    rcases List.mem_cons.mp hd with rfl | hIn
    · exact hFront c hc
    · exact hOld.2.2 c hc d hIn

/-- Where the loop of `conhash_add` ends. -/
theorem search_add (h : OnRing ch (front ++ back)) (hFuel : (front ++ back).length < fuel) (x : α)
    (hFind : ((front ++ back).find? fun c => decide (ch.place x ≤ ch.place c.2)) = back.head?) :
    search ch (fun h => h == ch.nodeHash x || decide (h > ch.nodeHash x)) fuel
      (some (firstOf ((front ++ back).map Prod.fst) ch.nodeList)) =
        some (back.head?.map Prod.fst) := by
  have hSearch := @search_eq _ _ ch [] (front ++ back) fuel h
    (fun h => h == ch.nodeHash x || decide (h > ch.nodeHash x)) hFuel
  simp only [add_test] at hSearch ⊢
  rw [hSearch]
  exact congrArg some (congrArg _ hFind)

/-- `conhash_add` on a ring: nothing changes where a node has the same hash value, else the node is
on the ring. -/
theorem conhashAdd_spec (h : OnRing ch xs) (hNew : ch.Unused new) (hFuel : xs.length < fuel)
    (x : α) :
    ((∃ c ∈ xs, ch.nodeHash c.2 = ch.nodeHash x) ∧
        conhashAdd fuel ch (some x) new = some (-1, ch)) ∨
      ((∀ c ∈ xs, ch.nodeHash c.2 ≠ ch.nodeHash x) ∧
        ∃ links front back, xs = front ++ back ∧
          conhashAdd fuel ch (some x) new = some (0, { ch.alloc new x with links := links }) ∧
          OnRing { ch.alloc new x with links := links } (front ++ (new, x) :: back)) := by
  have hAlloc := h.alloc hNew x
  obtain ⟨l, hl, hFirst, hLast⟩ := hAlloc.first
  obtain ⟨front, back, rfl, hFront, hBack, hFind⟩ := exists_cut h.increasing (ch.place x)
  have hSearch := search_add hAlloc hFuel x hFind
  rw [← hFirst] at hSearch
  change search (ch.alloc new x) (fun h => h == ch.nodeHash x || decide (h > ch.nodeHash x)) fuel
    l.next = _ at hSearch
  have hFrontNe : ∀ c ∈ front, ch.nodeHash c.2 ≠ ch.nodeHash x := fun c hc hEq =>
    (hFront c hc).ne (congrArg UInt32.toNat hEq)
  cases back with
  | nil =>
      obtain ⟨links, hAdd, hDone⟩ := h.put hNew x hFront (by simp)
      refine Or.inr ⟨by simpa using hFrontNe, links, front, [], rfl, ?_, hDone⟩
      change listAdd _ _ (prevOf (ch.alloc new x).links (ch.alloc new x).nodeList) = _ at hAdd
      rw [prevOf, hl, Option.bind_some] at hAdd
      simp only [conhashAdd, Option.bind_eq_bind, Option.bind_some, hl, hSearch, hAdd,
        List.head?_nil, Option.map_none]
      rfl
  | cons d back =>
      have hNode := hAlloc.nodes d (by simp)
      change (ch.alloc new x).nodes d.1 = some ⟨d.2, ch.nodeHash d.2⟩ at hNode
      by_cases hSame : ch.nodeHash d.2 = ch.nodeHash x
      · refine Or.inl ⟨⟨d, by simp, hSame⟩, ?_⟩
        simp only [conhashAdd, Option.bind_eq_bind, Option.bind_some, hl, hSearch, hNode,
          List.head?_cons, Option.map_some, if_pos hSame, free_alloc hNew]
        rfl
      · have hUp : ch.place x < ch.place d.2 := by
          apply lt_of_le_of_ne (hBack d List.mem_cons_self)
          exact fun hEq => hSame (UInt32.toNat_inj.mp hEq.symm)
        have hIncreasing := h.increasing
        rw [List.pairwise_append, List.pairwise_cons] at hIncreasing
        have hBackUp : ∀ c ∈ d :: back, ch.place x < ch.place c.2 :=
          List.forall_mem_cons.mpr ⟨hUp, fun c hc => hUp.trans (hIncreasing.2.1.1 c hc)⟩
        have hNone : ∀ c ∈ front ++ d :: back, ch.nodeHash c.2 ≠ ch.nodeHash x := by
          intro c hc
          rcases List.mem_append.mp hc with hLeft | hRight
          · exact hFrontNe c hLeft
          · exact fun hEq => (hBackUp c hRight).ne' (congrArg UInt32.toNat hEq)
        obtain ⟨links, hAdd, hDone⟩ := h.put hNew x hFront hBackUp
        refine Or.inr ⟨hNone, links, front, d :: back, rfl, ?_, hDone⟩
        have hPrev := hAlloc.prev_eq
        change prevOf (ch.alloc new x).links d.1 = _ at hPrev
        change listAdd _ _ (prevOf (ch.alloc new x).links d.1) = _ at hAdd
        cases hd : (ch.alloc new x).links d.1 with
        | none =>
            rw [prevOf, hd] at hPrev
            cases hPrev
        | some k =>
            rw [prevOf, hd, Option.bind_some] at hAdd
            simp only [conhashAdd, Option.bind_eq_bind, Option.bind_some, hl, hSearch, hNode,
              List.head?_cons, Option.map_some, if_neg hSame, hd, hAdd]
            rfl

/-- `conhash_erase` on a ring: the node of the same hash value leaves it, if there is one. -/
theorem conhashErase_spec (h : OnRing ch xs) (hFuel : xs.length < fuel) (x : α) :
    ((∀ c ∈ xs, ch.nodeHash c.2 ≠ ch.nodeHash x) ∧ conhashErase fuel ch (some x) = some ch) ∨
      ∃ front c back ch', xs = front ++ c :: back ∧ ch.nodeHash c.2 = ch.nodeHash x ∧
        conhashErase fuel ch (some x) = some ch' ∧ OnRing ch' (front ++ back) ∧
        ch'.keyHash = ch.keyHash ∧ ch'.nodeHash = ch.nodeHash := by
  obtain ⟨l, hl, hFirst, hLast⟩ := h.first
  have hSearch := @search_eq _ _ ch [] xs fuel h (fun h => h == ch.nodeHash x) hFuel
  rw [← hFirst] at hSearch
  cases hFind : xs.find? fun c => ch.nodeHash c.2 == ch.nodeHash x with
  | none =>
      refine Or.inl ⟨?_, ?_⟩
      · intro c hc hEq
        have hNot := List.find?_eq_none.mp hFind c hc
        exact hNot (beq_iff_eq.mpr hEq)
      · simp only [conhashErase, Option.bind_eq_bind, Option.bind_some, hl, hSearch, hFind,
          Option.map_none]
        rfl
  | some c =>
      obtain ⟨hTest, front, back, rfl, -⟩ := List.find?_eq_some_iff_append.mp hFind
      have hCircle := h.circle
      rw [List.map_append, List.map_cons] at hCircle
      obtain ⟨links, hDel, hDone, -⟩ := listDel_spec hCircle
      refine Or.inr ⟨front, c, back, ConhashT.free { ch with links := links } c.1, rfl,
        beq_iff_eq.mp hTest, ?_, ?_, rfl, rfl⟩
      · simp only [conhashErase, Option.bind_eq_bind, Option.bind_some, hl, hSearch, hFind,
          Option.map_some, hDel]
        rfl
      · have hSub : (front ++ back).Sublist (front ++ c :: back) :=
          List.Sublist.append_left (List.sublist_cons_self c back) front
        have hRest : OnRing { ch with links := links } (front ++ back) :=
          ⟨by rw [List.map_append]; exact hDone, fun d hd => h.nodes d (hSub.mem hd),
            h.increasing.sublist hSub⟩
        apply hRest.free
        have hNodup := h.circle.nodup
        rw [List.map_append, List.map_cons, ← List.cons_append, List.nodup_middle,
          List.nodup_cons] at hNodup
        rw [List.map_append, ← List.cons_append]
        exact hNodup.1

/-- Where an increasing list of nodes is cut at a point, the first node behind it owns it, or the
first one of all. -/
theorem owner_of_cut {place : α → Nat} {c : Nat × α} {val : Nat}
    (h : (front ++ back).Pairwise fun c d => place c.2 < place d.2)
    (hFront : ∀ c ∈ front, place c.2 < val) (hBack : ∀ c ∈ back, val ≤ place c.2)
    (hFirst : c ∈ back.head? ∨ back = [] ∧ c ∈ front.head?) :
    Owner place (nodesOf (front ++ back)) val c.2 := by
  have hNodes : ∀ y ∈ nodesOf (front ++ back), ∃ d ∈ front ++ back, d.2 = y := fun y hy =>
    List.mem_map.mp hy
  rcases hFirst with hHead | ⟨rfl, hHead⟩
  · obtain ⟨rest, rfl⟩ := List.head?_eq_some_iff.mp hHead
    rw [List.pairwise_append, List.pairwise_cons] at h
    refine ⟨List.mem_map_of_mem (by simp), Or.inl ⟨hBack c List.mem_cons_self, ?_⟩⟩
    intro y hy hUp
    obtain ⟨d, hd, rfl⟩ := hNodes y hy
    rcases List.mem_append.mp hd with hLeft | hRight
    · exact absurd hUp (not_le.mpr (hFront d hLeft))
    · rcases List.mem_cons.mp hRight with rfl | hIn
      · exact le_refl _
      · exact (h.2.1.1 d hIn).le
  · obtain ⟨rest, rfl⟩ := List.head?_eq_some_iff.mp hHead
    rw [List.append_nil] at h hNodes ⊢
    rw [List.pairwise_cons] at h
    refine ⟨List.mem_map_of_mem List.mem_cons_self, Or.inr ⟨?_, ?_⟩⟩
    · intro y hy
      obtain ⟨d, hd, rfl⟩ := hNodes y hy
      exact hFront d hd
    · intro y hy
      obtain ⟨d, hd, rfl⟩ := hNodes y hy
      rcases List.mem_cons.mp hd with rfl | hIn
      · exact le_refl _
      · exact (h.1 d hIn).le

/-- `conhash_node` on a ring gives the owner of the place of the key. -/
theorem conhashNode_spec (h : OnRing ch xs) (hFuel : xs.length < fuel) (key : κ) :
    (xs = [] ∧ conhashNode fuel ch (some key) = some none) ∨
      ∃ x, conhashNode fuel ch (some key) = some (some x) ∧
        Owner ch.place (nodesOf xs) (ch.keyHash key).toNat x := by
  obtain ⟨l, hl, hFirst, hLast⟩ := h.first
  obtain ⟨front, back, rfl, hFront, hBack, hFind⟩ :=
    exists_cut h.increasing (ch.keyHash key).toNat
  have hSearch := @search_eq _ _ ch [] (front ++ back) fuel h
    (fun h => decide (h ≥ ch.keyHash key)) hFuel
  rw [← hFirst] at hSearch
  change search ch _ fuel l.next = some ((List.find? (fun c => decide
    ((ch.keyHash key).toNat ≤ ch.place c.2)) (front ++ back)).map Prod.fst) at hSearch
  rw [hFind] at hSearch
  have hNotHead : ∀ c, c ∈ front ++ back → c.1 ≠ ch.nodeList := by
    intro c hc hEq
    have hNodup := h.circle.nodup
    rw [List.nodup_cons] at hNodup
    exact hNodup.1 (hEq ▸ List.mem_map_of_mem hc)
  cases back with
  | cons d back =>
      have hOther : ¬ l.next = some ch.nodeList := by
        rw [hFirst, Option.some.injEq]
        cases front with
        | nil => exact hNotHead d (by simp)
        | cons c front => exact hNotHead c (by simp)
      refine Or.inr ⟨d.2, ?_, owner_of_cut h.increasing hFront hBack (Or.inl rfl)⟩
      have hNode := h.nodes d (by simp)
      simp only [conhashNode, Option.bind_eq_bind, Option.bind_some, hl, if_neg hOther, hSearch,
        List.head?_cons, Option.map_some, hNode]
      rfl
  | nil =>
      cases front with
      | nil =>
          refine Or.inl ⟨rfl, ?_⟩
          have hSelf : l.next = some ch.nodeList := hFirst
          simp only [conhashNode, Option.bind_eq_bind, Option.bind_some, hl, if_pos hSelf]
          rfl
      | cons c front =>
          have hNext : l.next = some c.1 := hFirst
          have hOther : ¬ l.next = some ch.nodeList := by
            rw [hNext, Option.some.injEq]
            exact hNotHead c (by simp)
          refine Or.inr ⟨c.2, ?_, owner_of_cut h.increasing hFront hBack (Or.inr ⟨rfl, rfl⟩)⟩
          have hNode := h.nodes c (by simp)
          simp only [conhashNode, Option.bind_eq_bind, Option.bind_some, hl, if_neg hOther, hSearch,
            List.head?_nil, Option.map_none]
          simp only [hNext, Option.bind_some, hNode]
          rfl

end

end Gbase.Base.Conhash
