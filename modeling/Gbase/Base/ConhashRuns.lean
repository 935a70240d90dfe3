import Gbase.Base.Conhash
import Gbase.Lib.Run

/-!
# Histories of a consistent hash (`base/conhash.c`)

Whatever nodes came and went, the ring is in order, and a key is mapped to the owner of its place
among the nodes that are there.

The step function of a history takes the nodes as they are in memory, linked into a circle; the
statements speak of the set of hash values on the ring and of the owner of a place, as the library
of rings has them.  The invariant connects both, and what a lookup gives is read off the set, so
that the order of the calls cannot matter.

## Main results

* `conhash_lookup`: what every call of a history does; lookups depend on the nodes on the ring only.
* `conhash_disruption`: which keys are mapped elsewhere when a node comes or goes.
-/

namespace Gbase.Base.Conhash

open Gbase.Lib.Circular
open Gbase.Lib.HashRing
open Gbase.Lib.Run

variable {α κ : Type}

/-- The calls, with the address that `MALLOC` returns. -/
inductive Op (α κ : Type) where
  | add (node : Option α) (new : Nat)
  | erase (node : Option α)
  | node (key : Option κ)

/-- What they return. -/
inductive Out (α : Type) where
  | res (res : Int)
  | done
  | data (data : Option α)

def conhashStep (fuel : Nat) : Step (ConhashT α κ) (Op α κ) (Out α)
  | ch, .add node new => (conhashAdd fuel ch node new).map fun (res, ch) => (.res res, ch)
  | ch, .erase node => (conhashErase fuel ch node).map fun ch => (.done, ch)
  | ch, .node key => (conhashNode fuel ch key).map fun data => (.data data, ch)

/-- `MALLOC` returns an address where nothing is. -/
def Legal (ch : ConhashT α κ) : Op α κ → Prop
  | .add _ new => ch.Unused new
  | _ => True

/-- What a call does, for the nodes on the ring. -/
def Meets (fuel : Nat) (ch : ConhashT α κ) (op : Op α κ) : Prop :=
  ∃ xs, OnRing ch xs ∧
    match op with
    | .add none new => conhashAdd fuel ch none new = some (-1, ch)
    | .add (some x) new =>
        ∃ res ch' xs', conhashAdd fuel ch (some x) new = some (res, ch') ∧ OnRing ch' xs' ∧
          (res = -1 ↔ ∃ y ∈ nodesOf xs, ch.nodeHash y = ch.nodeHash x) ∧ (res = -1 → ch' = ch) ∧
          (res ≠ -1 → res = 0 ∧ nodesOf xs' = insert x (nodesOf xs))
    | .erase none => conhashErase fuel ch none = some ch
    | .erase (some x) =>
        ∃ ch' xs', conhashErase fuel ch (some x) = some ch' ∧ OnRing ch' xs' ∧
          nodesOf xs' = nodesOf xs \ { y | ch.nodeHash y = ch.nodeHash x }
    | .node none => conhashNode fuel ch none = some none
    | .node (some key) =>
        (xs = [] ∧ conhashNode fuel ch (some key) = some none) ∨
          ∃ x, conhashNode fuel ch (some key) = some (some x) ∧
            Owner ch.place (nodesOf xs) (ch.keyHash key).toNat x

section

variable {ch ch' : ConhashT α κ} {xs ys front back : List (Nat × α)} {fuel new : Nat} {x : α}

/-- The ring of a state is one. -/
theorem OnRing.unique (hx : OnRing ch xs) (hy : OnRing ch ys) : xs = ys := by
  have hFst := hx.circle.unique hy.circle
  have hNodes : ∀ c d, c ∈ xs → d ∈ ys → c.1 = d.1 → c = d := by
    intro c d hc hd hEq
    have hSame := hx.nodes c hc
    rw [hEq, hy.nodes d hd, Option.some.injEq, ConhashNodeT.mk.injEq] at hSame
    exact Prod.ext hEq hSame.1.symm
  have hLen : xs.length = ys.length := by
    rw [← List.length_map (f := Prod.fst), hFst, List.length_map]
  apply List.ext_getElem hLen
  intro i hi hj
  apply hNodes _ _ (List.getElem_mem hi) (List.getElem_mem hj)
  have hAt : (xs.map Prod.fst)[i]? = (ys.map Prod.fst)[i]? := by rw [hFst]
  rw [List.getElem?_map, List.getElem?_map, List.getElem?_eq_getElem hi,
    List.getElem?_eq_getElem hj, Option.map_some, Option.map_some, Option.some.injEq] at hAt
  exact hAt

/-- No two nodes of a ring are at the same place. -/
theorem OnRing.injOn (h : OnRing ch xs) : Set.InjOn ch.place (nodesOf xs) := by
  intro x hx y hy hEq
  obtain ⟨c, hc, rfl⟩ := List.mem_map.mp hx
  obtain ⟨d, hd, rfl⟩ := List.mem_map.mp hy
  have hNodup : (xs.map fun c => ch.place c.2).Nodup :=
    List.pairwise_map.mpr (h.increasing.imp fun hLt => hLt.ne)
  rw [List.inj_on_of_nodup_map hNodup hc hd hEq]

theorem nodesOf_cons_middle (front back : List (Nat × α)) (a : Nat) (x : α) :
    nodesOf (front ++ (a, x) :: back) = insert x (nodesOf (front ++ back)) := by
  ext y
  simp [nodesOf, or_left_comm]

/-- Erasing a node from the ring takes away those of its hash value, which is one. -/
theorem nodesOf_erased {c : Nat × α} (h : OnRing ch (front ++ c :: back)) :
    nodesOf (front ++ back) =
      nodesOf (front ++ c :: back) \ { y | ch.nodeHash y = ch.nodeHash c.2 } := by
  have hInj := h.injOn
  have hIncreasing := h.increasing
  rw [List.pairwise_append, List.pairwise_cons] at hIncreasing
  have hApart : ∀ d, d ∈ front ++ back → ch.nodeHash d.2 ≠ ch.nodeHash c.2 := by
    intro d hd hEq
    have hPlace : ch.place d.2 = ch.place c.2 := congrArg UInt32.toNat hEq
    rcases List.mem_append.mp hd with hLeft | hRight
    · exact (hIncreasing.2.2 d hLeft c List.mem_cons_self).ne hPlace
    · exact (hIncreasing.2.1.1 d hRight).ne' hPlace
  rw [nodesOf_cons_middle front back c.1 c.2]
  ext y
  constructor
  · intro hy
    obtain ⟨d, hd, rfl⟩ := List.mem_map.mp hy
    exact ⟨Set.mem_insert_of_mem _ hy, hApart d hd⟩
  · rintro ⟨hIn, hNe⟩
    rcases hIn with rfl | hIn
    · exact absurd rfl hNe
    · exact hIn

/-- How a history goes on: the ring is in order and no longer than the history. -/
structure Inv (keyHash : κ → UInt32) (nodeHash : α → UInt32) (k : Nat) (ch : ConhashT α κ) :
    Prop where
  keyHash_eq : ch.keyHash = keyHash
  nodeHash_eq : ch.nodeHash = nodeHash
  ring : ∃ xs, OnRing ch xs ∧ xs.length ≤ k

variable {keyHash : κ → UInt32} {nodeHash : α → UInt32} {k : Nat} {op : Op α κ}

theorem inv_meets (h : Inv keyHash nodeHash k ch) (hFuel : k < fuel) (hLegal : Legal ch op) :
    Meets fuel ch op := by
  obtain ⟨xs, hRing, hLen⟩ := h.ring
  have hEnough : xs.length < fuel := by omega
  refine ⟨xs, hRing, ?_⟩
  cases op with
  | add node new =>
      cases node with
      | none => rfl
      | some x =>
          rcases conhashAdd_spec hRing hLegal hEnough x with
            ⟨⟨c, hc, hSame⟩, hAdd⟩ | ⟨hNone, links, front, back, rfl, hAdd, hDone⟩
          · exact ⟨-1, ch, xs, hAdd, hRing, iff_of_true rfl ⟨c.2, List.mem_map_of_mem hc, hSame⟩,
              fun _ => rfl, fun hNe => absurd rfl hNe⟩
          · refine ⟨0, _, _, hAdd, hDone, iff_of_false (by decide) ?_,
              fun h => absurd h (by decide),
              fun _ => ⟨rfl, nodesOf_cons_middle front back new x⟩⟩
            rintro ⟨y, hy, hSame⟩
            obtain ⟨c, hc, rfl⟩ := List.mem_map.mp hy
            exact hNone c hc hSame
  | erase node =>
      cases node with
      | none => rfl
      | some x =>
          rcases conhashErase_spec hRing hEnough x with
            ⟨hNone, hErase⟩ | ⟨front, c, back, ch', rfl, hSame, hErase, hDone, -, -⟩
          · refine ⟨ch, xs, hErase, hRing, ?_⟩
            ext y
            refine ⟨fun hy => ⟨hy, fun hEq => ?_⟩, fun hy => hy.1⟩
            obtain ⟨c, hc, rfl⟩ := List.mem_map.mp hy
            exact hNone c hc hEq
          · refine ⟨ch', front ++ back, hErase, hDone, ?_⟩
            rw [nodesOf_erased hRing, hSame]
  | node key =>
      cases key with
      | none => rfl
      | some key => exact conhashNode_spec hRing hEnough key

theorem inv_step {out : Out α} (h : Inv keyHash nodeHash k ch) (hFuel : k < fuel)
    (hLegal : Legal ch op) (hStep : conhashStep fuel ch op = some (out, ch')) :
    Inv keyHash nodeHash (k + 1) ch' := by
  obtain ⟨xs, hRing, hLen⟩ := h.ring
  have hEnough : xs.length < fuel := by omega
  have hSame : Inv keyHash nodeHash (k + 1) ch :=
    ⟨h.keyHash_eq, h.nodeHash_eq, xs, hRing, by omega⟩
  cases op with
  | add node new =>
      cases node with
      | none =>
          cases hStep
          exact hSame
      | some x =>
          rcases conhashAdd_spec hRing hLegal hEnough x with
            ⟨-, hAdd⟩ | ⟨-, links, front, back, rfl, hAdd, hDone⟩
          · rw [conhashStep, hAdd] at hStep
            cases hStep
            exact hSame
          · rw [conhashStep, hAdd] at hStep
            cases hStep
            refine ⟨h.keyHash_eq, h.nodeHash_eq, _, hDone, ?_⟩
            rw [List.length_append, List.length_cons, ← Nat.add_assoc, ← List.length_append]
            omega
  | erase node =>
      cases node with
      | none =>
          cases hStep
          exact hSame
      | some x =>
          rcases conhashErase_spec hRing hEnough x with
            ⟨-, hErase⟩ | ⟨front, c, back, ch₁, rfl, -, hErase, hDone, hKeys, hNodes⟩
          · rw [conhashStep, hErase] at hStep
            cases hStep
            exact hSame
          · rw [conhashStep, hErase] at hStep
            cases hStep
            refine ⟨hKeys.trans h.keyHash_eq, hNodes.trans h.nodeHash_eq, _, hDone, ?_⟩
            rw [List.length_append, List.length_cons] at hLen
            rw [List.length_append]
            omega
  | node key =>
      cases hData : conhashNode fuel ch key with
      | none =>
          rw [conhashStep, hData] at hStep
          cases hStep
      | some data =>
          rw [conhashStep, hData] at hStep
          cases hStep
          exact hSame

theorem inv_create (keyHash : κ → UInt32) (nodeHash : α → UInt32) (nodeList : Nat) :
    Inv keyHash nodeHash 0 (conhashCreate nodeList keyHash nodeHash) :=
  ⟨rfl, rfl, [], onRing_create nodeList keyHash nodeHash, Nat.le_refl 0⟩

theorem inv_run {ops : List (Op α κ)} {results : List (Out α)} (h : Inv keyHash nodeHash k ch)
    (hFuel : k + ops.length ≤ fuel) (hLegal : Along (conhashStep fuel) Legal ch ops)
    (hRun : run (conhashStep fuel) ch ops = some (results, ch')) :
    Inv keyHash nodeHash (k + ops.length) ch' := by
  induction ops generalizing k ch results with
  | nil =>
      cases hRun
      exact h
  | cons op ops ih =>
      rw [List.length_cons] at hFuel
      obtain ⟨out, ch₁, results', hStep, hRest, -⟩ := run_cons_split hRun
      have hDone := ih (inv_step h (by omega) hLegal.head hStep) (by omega)
        (hLegal.tail hStep) hRest
      rw [List.length_cons, Nat.add_comm ops.length, ← Nat.add_assoc]
      exact hDone

end

/-- A state that some history of legal calls leads to; the loops have fuel for one node more than
it can have. -/
def Reached (keyHash : κ → UInt32) (nodeHash : α → UInt32) (fuel : Nat) (ch : ConhashT α κ) :
    Prop :=
  ∃ nodeList ops results, ops.length + 1 < fuel ∧
    Along (conhashStep fuel) Legal (conhashCreate nodeList keyHash nodeHash) ops ∧
    run (conhashStep fuel) (conhashCreate nodeList keyHash nodeHash) ops = some (results, ch)

section

variable {keyHash : κ → UInt32} {nodeHash : α → UInt32} {ch ch₁ ch₂ : ConhashT α κ}
  {xs ys : List (Nat × α)} {fuel : Nat}

theorem Reached.inv (h : Reached keyHash nodeHash fuel ch) :
    ch.keyHash = keyHash ∧ ch.nodeHash = nodeHash ∧
      ∃ xs, OnRing ch xs ∧ xs.length + 1 < fuel := by
  obtain ⟨nodeList, ops, results, hFuel, hLegal, hRun⟩ := h
  obtain ⟨hKeys, hNodes, xs, hRing, hLen⟩ :=
    inv_run (inv_create keyHash nodeHash nodeList) (by omega) hLegal hRun
  exact ⟨hKeys, hNodes, xs, hRing, by omega⟩

/-- Lookups on the same nodes are the same. -/
theorem lookup_eq (hPlace : ch₁.place = ch₂.place) (hKeys : ch₁.keyHash = ch₂.keyHash)
    (h₁ : OnRing ch₁ xs) (h₂ : OnRing ch₂ ys) (hLen₁ : xs.length < fuel) (hLen₂ : ys.length < fuel)
    (hSame : nodesOf xs = nodesOf ys) (key : Option κ) :
    conhashNode fuel ch₁ key = conhashNode fuel ch₂ key := by
  have hNil : ∀ {xs ys : List (Nat × α)}, nodesOf xs = nodesOf ys → xs = [] → ys = [] := by
    rintro xs ys hEq rfl
    cases ys with
    | nil => rfl
    | cons c ys =>
        have hIn : c.2 ∈ nodesOf (c :: ys) := List.mem_map_of_mem List.mem_cons_self
        rw [← hEq] at hIn
        exact absurd hIn List.not_mem_nil
  cases key with
  | none => rfl
  | some key =>
      rcases conhashNode_spec h₁ hLen₁ key with ⟨rfl, hNode₁⟩ | ⟨x, hNode₁, hOwner₁⟩
      · rcases conhashNode_spec h₂ hLen₂ key with ⟨-, hNode₂⟩ | ⟨y, -, hOwner₂⟩
        · rw [hNode₁, hNode₂]
        · rw [hNil hSame rfl] at hOwner₂
          exact absurd hOwner₂.1 List.not_mem_nil
      · rcases conhashNode_spec h₂ hLen₂ key with ⟨rfl, -⟩ | ⟨y, hNode₂, hOwner₂⟩
        · rw [hNil hSame.symm rfl] at hOwner₁
          exact absurd hOwner₁.1 List.not_mem_nil
        · rw [hPlace, hKeys, hSame] at hOwner₁
          rw [hNode₁, hNode₂, hOwner₁.unique h₂.injOn hOwner₂]

/-- In every history the ring is in order, a node is refused if and only if one of its hash value is
on the ring, and a key is mapped to the owner of its place; so two histories that leave the same
nodes on the ring map all keys to the same nodes. -/
theorem conhash_lookup (keyHash : κ → UInt32) (nodeHash : α → UInt32) (fuel : Nat) :
    (∀ nodeList ops, ops.length < fuel →
      Along (conhashStep fuel) Legal (conhashCreate nodeList keyHash nodeHash) ops →
      Along (conhashStep fuel) (Meets fuel) (conhashCreate nodeList keyHash nodeHash) ops) ∧
      ∀ ch₁ ch₂ xs ys, Reached keyHash nodeHash fuel ch₁ → Reached keyHash nodeHash fuel ch₂ →
        OnRing ch₁ xs → OnRing ch₂ ys → nodesOf xs = nodesOf ys →
        ∀ key, conhashNode fuel ch₁ key = conhashNode fuel ch₂ key := by
  constructor
  · intro nodeList ops hFuel hLegal
    exact along_of_counted_inv (Inv keyHash nodeHash)
      (fun k ch op hk hInv hOk => inv_meets hInv hk hOk)
      (fun k ch op out ch' hk hInv hOk hStep => inv_step hInv hk hOk hStep)
      (by omega : 0 + ops.length ≤ fuel) (inv_create keyHash nodeHash nodeList) hLegal
  · intro ch₁ ch₂ xs ys hReached₁ hReached₂ hRing₁ hRing₂ hSame key
    obtain ⟨hKeys₁, hNodes₁, xs₁, hXs, hLen₁⟩ := hReached₁.inv
    obtain ⟨hKeys₂, hNodes₂, ys₁, hYs, hLen₂⟩ := hReached₂.inv
    rw [hXs.unique hRing₁] at hLen₁
    rw [hYs.unique hRing₂] at hLen₂
    have hPlace : ch₁.place = ch₂.place := by
      funext x
      rw [ConhashT.place, ConhashT.place, hNodes₁, hNodes₂]
    exact lookup_eq hPlace (hKeys₁.trans hKeys₂.symm) hRing₁ hRing₂ (by omega) (by omega) hSame key

/-- A ring without nodes; the nodes are numbers, and only two hash values are taken. -/
def noNode : ConhashT Nat Nat :=
  conhashCreate 100 UInt32.ofNat fun x => UInt32.ofNat (x % 2)

/-- The ring of one node. -/
def ringOf (x : Nat) : ConhashT Nat Nat :=
  ((conhashAdd 9 noNode (some x) 101).map Prod.snd).getD noNode

theorem add_one (x : Nat) :
    conhashStep 9 noNode (.add (some x) 101) = some (.res 0, ringOf x) := rfl

theorem ringOf_ring (x : Nat) : OnRing (ringOf x) [(101, x)] := by
  have hRing : OnRing noNode [] := onRing_create 100 UInt32.ofNat fun x => UInt32.ofNat (x % 2)
  have hNew : noNode.Unused 101 := ⟨rfl, rfl⟩
  rcases conhashAdd_spec hRing hNew (by decide : [].length < 9) x with
    ⟨⟨c, hc, -⟩, -⟩ | ⟨-, links, front, back, hNil, hAdd, hDone⟩
  · cases hc
  · obtain ⟨rfl, rfl⟩ := List.append_eq_nil_iff.mp hNil.symm
    have hOne : ringOf x = { noNode.alloc 101 x with links := links } := by
      rw [ringOf, hAdd]
      rfl
    rw [hOne]
    exact hDone

/-- A node of the other hash value is added. -/
theorem add_other {x y : Nat} (hNe : UInt32.ofNat (x % 2) ≠ UInt32.ofNat (y % 2)) :
    ∃ ch xs, conhashStep 9 (ringOf x) (.add (some y) 102) = some (.res 0, ch) ∧ OnRing ch xs ∧
      nodesOf xs = {y, x} := by
  have hNew : (ringOf x).Unused 102 := ⟨rfl, rfl⟩
  rcases conhashAdd_spec (ringOf_ring x) hNew (by simp : [(101, x)].length < 9) y with
    ⟨⟨c, hc, hSame⟩, -⟩ | ⟨-, links, front, back, hSplit, hAdd, hDone⟩
  · rw [List.mem_singleton.mp hc] at hSame
    exact absurd hSame hNe
  · refine ⟨_, _, by rw [conhashStep, hAdd]; rfl, hDone, ?_⟩
    rw [nodesOf_cons_middle, ← hSplit]
    ext z
    simp [nodesOf]

theorem add_legal (x y : Nat) (ops : List (Op Nat Nat))
    (hOps : ∀ ch, Along (conhashStep 9) Legal ch ops) :
    Along (conhashStep 9) Legal noNode (.add (some x) 101 :: .add (some y) 102 :: ops) :=
  (along_cons (add_one x)).mpr ⟨⟨rfl, rfl⟩, ⟨rfl, rfl⟩, fun _ ch _ => hOps ch⟩

/-- Two nodes, added in one order and in the other. -/
theorem conhash_lookup_two :
    Along (conhashStep 9) (Meets 9) noNode
        [.add (some 7) 101, .add (some 8) 102, .node (some 1), .erase (some 7)] ∧
      ∃ ch₁ ch₂ results₁ results₂,
        run (conhashStep 9) noNode [.add (some 7) 101, .add (some 8) 102] =
          some (results₁, ch₁) ∧
        run (conhashStep 9) noNode [.add (some 8) 101, .add (some 7) 102] =
          some (results₂, ch₂) ∧
        ∀ key : Option Nat, conhashNode 9 ch₁ key = conhashNode 9 ch₂ key := by
  obtain ⟨ch₁, xs, hAdd₁, hRing₁, hNodes₁⟩ := @add_other 7 8 (by decide)
  obtain ⟨ch₂, ys, hAdd₂, hRing₂, hNodes₂⟩ := @add_other 8 7 (by decide)
  have hRun₁ := run_cons (add_one 7) (run_cons hAdd₁ (run_nil ch₁))
  have hRun₂ := run_cons (add_one 8) (run_cons hAdd₂ (run_nil ch₂))
  have hLegal₁ := add_legal 7 8 [] fun _ => trivial
  have hLegal₂ := add_legal 8 7 [] fun _ => trivial
  obtain ⟨hMeets, hSame⟩ := conhash_lookup UInt32.ofNat (fun x => UInt32.ofNat (x % 2)) 9
  refine ⟨hMeets 100 _ (by decide) (add_legal 7 8 _ fun _ => ⟨trivial, fun _ _ _ =>
    ⟨trivial, fun _ _ _ => trivial⟩⟩), ch₁, ch₂, _, _, hRun₁, hRun₂, ?_⟩
  exact hSame ch₁ ch₂ xs ys ⟨100, _, _, by decide, hLegal₁, hRun₁⟩
    ⟨100, _, _, by decide, hLegal₂, hRun₂⟩ hRing₁ hRing₂ (by rw [hNodes₁, hNodes₂, Set.pair_comm])

/-- A lookup is defined. -/
theorem OnRing.lookup (h : OnRing ch xs) (hLen : xs.length < fuel) (key : κ) :
    ∃ r, conhashNode fuel ch (some key) = some r := by
  rcases conhashNode_spec h hLen key with ⟨-, hNode⟩ | ⟨x, hNode, -⟩
  · exact ⟨none, hNode⟩
  · exact ⟨some x, hNode⟩

/-- With a node more on the ring, a key is mapped to it or to where it was. -/
theorem lookup_insert {x : α} {key : κ} {r r' : Option α} (h : OnRing ch₁ xs) (h' : OnRing ch₂ ys)
    (hLen : xs.length < fuel) (hLen' : ys.length < fuel) (hPlace : ch₂.place = ch₁.place)
    (hKeys : ch₂.keyHash = ch₁.keyHash) (hMore : nodesOf ys = insert x (nodesOf xs))
    (hr : conhashNode fuel ch₁ (some key) = some r)
    (hr' : conhashNode fuel ch₂ (some key) = some r') : r' = some x ∨ r' = r := by
  rcases conhashNode_spec h' hLen' key with ⟨rfl, -⟩ | ⟨z, hNode', hOwner'⟩
  · have hIn : x ∈ nodesOf ([] : List (Nat × α)) := by
      rw [hMore]
      exact Set.mem_insert x _
    exact absurd hIn List.not_mem_nil
  · rw [hr', Option.some.injEq] at hNode'
    rw [hMore, hPlace, hKeys] at hOwner'
    rcases hOwner'.of_insert with rfl | hOld
    · exact Or.inl hNode'
    · rcases conhashNode_spec h hLen key with ⟨rfl, -⟩ | ⟨y, hNode, hOwner⟩
      · exact absurd hOld.1 List.not_mem_nil
      · rw [hr, Option.some.injEq] at hNode
        rw [hNode', hNode, hOld.unique h.injOn hOwner]
        exact Or.inr rfl

/-- With a node less on the ring, a key that was mapped elsewhere is mapped there still. -/
theorem lookup_erase {x : α} {key : κ} (h : OnRing ch₁ xs) (h' : OnRing ch₂ ys)
    (hLen : xs.length < fuel) (hLen' : ys.length < fuel) (hPlace : ch₂.place = ch₁.place)
    (hKeys : ch₂.keyHash = ch₁.keyHash) (hLess : nodesOf ys = nodesOf xs \ {x}) (hSome : ys ≠ [])
    (hOther : conhashNode fuel ch₁ (some key) ≠ some (some x)) :
    conhashNode fuel ch₂ (some key) = conhashNode fuel ch₁ (some key) := by
  rcases conhashNode_spec h' hLen' key with ⟨rfl, -⟩ | ⟨z, hNode', hOwner'⟩
  · exact absurd rfl hSome
  · rw [hLess, hPlace, hKeys] at hOwner'
    rcases conhashNode_spec h hLen key with ⟨rfl, -⟩ | ⟨y, hNode, hOwner⟩
    · exact absurd hOwner'.1.1 List.not_mem_nil
    · have hNe : y ≠ x := fun hEq => hOther (hEq ▸ hNode)
      have hInj : Set.InjOn ch₁.place (nodesOf xs \ {x}) := h.injOn.mono Set.sdiff_subset
      rw [hNode', hNode, hOwner'.unique hInj (hOwner.erase hNe)]

/-- A node that comes draws keys to itself only. -/
theorem conhashAdd_disruption (hRing : OnRing ch xs) (hLen : xs.length + 1 < fuel) {x : α}
    {new : Nat} (hNew : ch.Unused new) {ch' : ConhashT α κ}
    (hAdd : conhashAdd fuel ch (some x) new = some (0, ch')) (key : κ) :
    ∃ r r', conhashNode fuel ch (some key) = some r ∧
      conhashNode fuel ch' (some key) = some r' ∧ (r' = some x ∨ r' = r) := by
  have hEnough : xs.length < fuel := by omega
  rcases conhashAdd_spec hRing hNew hEnough x with
    ⟨-, hRefused⟩ | ⟨-, links, front, back, rfl, hAdded, hDone⟩
  · rw [hRefused] at hAdd
    cases hAdd
  · rw [hAdded] at hAdd
    cases hAdd
    have hLen' : (front ++ (new, x) :: back).length < fuel := by
      rw [List.length_append] at hLen
      rw [List.length_append, List.length_cons]
      omega
    obtain ⟨r, hr⟩ := hRing.lookup hEnough key
    obtain ⟨r', hr'⟩ := hDone.lookup hLen' key
    exact ⟨r, r', hr, hr', lookup_insert hRing hDone hEnough hLen' rfl rfl
      (nodesOf_cons_middle front back new x) hr hr'⟩

/-- A node that goes moves its own keys only. -/
theorem conhashErase_disruption (hRing : OnRing ch xs) (hEnough : xs.length < fuel) {x : α}
    (hx : x ∈ nodesOf xs) :
    ∃ ch' ys, conhashErase fuel ch (some x) = some ch' ∧ OnRing ch' ys ∧
      nodesOf ys = nodesOf xs \ {x} ∧
      (ys ≠ [] → ∀ key, conhashNode fuel ch (some key) ≠ some (some x) →
        conhashNode fuel ch' (some key) = conhashNode fuel ch (some key)) := by
  obtain ⟨c, hc, rfl⟩ := List.mem_map.mp hx
  rcases conhashErase_spec hRing hEnough c.2 with
    ⟨hNone, -⟩ | ⟨front, d, back, ch', rfl, hSame, hErase, hDone, hKeys, hNodes⟩
  · exact absurd rfl (hNone c hc)
  · have hEq : d.2 = c.2 :=
      hRing.injOn (List.mem_map_of_mem (by simp)) hx (congrArg UInt32.toNat hSame)
    have hLess : nodesOf (front ++ back) = nodesOf (front ++ d :: back) \ {c.2} := by
      rw [nodesOf_erased hRing, ← hEq]
      ext y
      refine and_congr_right fun hy => not_congr ⟨fun hPlace => ?_, fun hIs => ?_⟩
      · exact hRing.injOn hy (List.mem_map_of_mem (by simp)) (congrArg UInt32.toNat hPlace)
      · exact congrArg ch.nodeHash hIs
    have hPlace : ch'.place = ch.place := by
      funext y
      rw [ConhashT.place, ConhashT.place, hNodes]
    have hLen' : (front ++ back).length < fuel := by
      rw [List.length_append, List.length_cons] at hEnough
      rw [List.length_append]
      omega
    refine ⟨ch', front ++ back, hErase, hDone, hLess, fun hSome key hOther => ?_⟩
    exact lookup_erase hRing hDone hEnough hLen' hPlace hKeys hLess hSome hOther

/-- A node that comes draws keys to itself only, and a node that goes moves its own keys only; this
holds on every ring that a history leads to. -/
theorem conhash_disruption (keyHash : κ → UInt32) (nodeHash : α → UInt32) (fuel : Nat)
    (ch : ConhashT α κ) (xs : List (Nat × α)) (hReached : Reached keyHash nodeHash fuel ch)
    (hRing : OnRing ch xs) :
    (∀ x new ch', ch.Unused new → conhashAdd fuel ch (some x) new = some (0, ch') → ∀ key,
      ∃ r r', conhashNode fuel ch (some key) = some r ∧
        conhashNode fuel ch' (some key) = some r' ∧ (r' = some x ∨ r' = r)) ∧
      ∀ x ∈ nodesOf xs, ∃ ch' ys, conhashErase fuel ch (some x) = some ch' ∧ OnRing ch' ys ∧
        nodesOf ys = nodesOf xs \ {x} ∧
        (ys ≠ [] → ∀ key, conhashNode fuel ch (some key) ≠ some (some x) →
          conhashNode fuel ch' (some key) = conhashNode fuel ch (some key)) := by
  obtain ⟨-, -, xs₁, hXs, hLen⟩ := hReached.inv
  rw [hXs.unique hRing] at hLen
  constructor
  · intro x new ch' hNew hAdd key
    exact conhashAdd_disruption hRing hLen hNew hAdd key
  · intro x hx
    exact conhashErase_disruption hRing (Nat.lt_of_succ_lt hLen) hx

end

/-- A ring of the node 7, which is its own hash value. -/
def oneNode : ConhashT Nat Nat :=
  ((conhashAdd 9 (conhashCreate 100 UInt32.ofNat UInt32.ofNat) (some 7) 101).map Prod.snd).getD
    (conhashCreate 100 UInt32.ofNat UInt32.ofNat)

theorem oneNode_reached : Reached UInt32.ofNat UInt32.ofNat 9 oneNode :=
  ⟨100, [.add (some 7) 101], [.res 0], by decide, ⟨⟨rfl, rfl⟩, fun _ _ _ => trivial⟩, rfl⟩

/-- The node 3 comes to the ring: a key is mapped to it, or to 7 as before. -/
theorem conhash_disruption_two :
    ∃ ch', conhashAdd 9 oneNode (some 3) 102 = some (0, ch') ∧ ∀ key, ∃ r r',
      conhashNode 9 oneNode (some key) = some r ∧ conhashNode 9 ch' (some key) = some r' ∧
        (r' = some 3 ∨ r' = r) := by
  obtain ⟨-, -, xs, hRing, -⟩ := oneNode_reached.inv
  have hAdd : conhashAdd 9 oneNode (some 3) 102 =
      some (0, ((conhashAdd 9 oneNode (some 3) 102).map Prod.snd).getD oneNode) := rfl
  exact ⟨_, hAdd, (conhash_disruption UInt32.ofNat UInt32.ofNat 9 oneNode xs oneNode_reached
    hRing).1 3 102 _ ⟨rfl, rfl⟩ hAdd⟩

end Gbase.Base.Conhash
