import Gbase.Base.Slist

/-!
# Runs of the single list

The memory of a list holds one segment of cells and nothing else, so what a client sees is the
sequence of the data in it.  Every call does on the list what it does on that sequence.  The
counter follows, except that `slist_clean` does not touch it.

## Main results

* `slistStep_spec`: one call, against the sequence.
* `slist_refines_iff`: a run refines the sequence with its size if and only if it cleans empty
  lists only.
-/

namespace Gbase.Base.Slist

open Gbase.Lib.Run
open Gbase.Lib.Segment
open Gbase.Lib.Store

variable {α : Type}

/-! ## The sequence behind a list -/

/-- The memory holds the nodes of the list, and nothing else. -/
structure Repr (sl : SlistT α) (cs : List (Nat × α)) : Prop where
  holds : Holds sl.mem (cells NodeT.mk cs none)
  node : sl.node = start cs none

/-- The list holds these data, the first in front. -/
def Contents (sl : SlistT α) (l : List α) : Prop := ∃ cs, Repr sl cs ∧ cs.map Prod.snd = l

private theorem slistCreate_repr : Repr (slistCreate : SlistT α) [] := ⟨holds_empty, rfl⟩

section Loops

variable {mem : Nat → Option (NodeT α)} {sl : SlistT α} {cs : List (Nat × α)} {c : Nat × α}
  {fuel : Nat} {prev q : Option Nat} {rest : Multiset (Nat × NodeT α)}

/-- `link` behind a segment. -/
theorem link_spec (hHolds : Holds sl.mem (cells NodeT.mk cs prev + rest))
    (hNode : sl.node = start cs prev) (q : Option Nat) :
    ∃ mem', sl.link (lastOr none cs) q = some { sl with node := start cs q, mem := mem' } ∧
      Holds mem' (cells NodeT.mk cs q + rest) := by
  cases List.eq_nil_or_concat cs with
  | inl hNil =>
      subst hNil
      exact ⟨sl.mem, rfl, hHolds⟩
  | inr hConcat =>
      obtain ⟨bs, c, hConcat⟩ := hConcat
      rw [List.concat_eq_append] at hConcat
      rw [hConcat] at hHolds hNode ⊢
      obtain ⟨hRead, hWrite⟩ := relink hHolds q
      refine ⟨_, ?_, hWrite⟩
      rw [start_append] at hNode
      rw [lastOr_append_singleton, SlistT.link, hRead, start_append]
      simp [hNode]

theorem lastLoop_spec (hRead : ∀ x ∈ cells NodeT.mk (cs ++ [c]) none, mem x.1 = some x.2)
    (hFuel : cs.length < fuel) {n : Nat} (hStart : start (cs ++ [c]) none = some n) :
    lastLoop mem fuel prev n = some (lastOr prev cs, c.1) := by
  induction cs generalizing fuel prev n with
  | nil =>
      obtain ⟨fuel, rfl⟩ : ∃ k, fuel = k + 1 := ⟨fuel - 1, by omega⟩
      obtain rfl : c.1 = n := Option.some.inj hStart
      have hHere := hRead (c.1, ⟨none, c.2⟩) (by simp [cells])
      simp [lastLoop, hHere]
  | cons b bs ih =>
      obtain ⟨fuel, rfl⟩ : ∃ k, fuel = k + 1 := ⟨fuel - 1, by omega⟩
      rw [List.cons_append] at hRead hStart
      obtain rfl : b.1 = n := Option.some.inj hStart
      rw [cells_cons] at hRead
      have hHere := hRead _ (Multiset.mem_add.mpr (Or.inl (Multiset.mem_singleton_self _)))
      obtain ⟨next, hNext⟩ : ∃ next, start (bs ++ [c]) none = some next := by
        cases bs <;> exact ⟨_, rfl⟩
      have hLess : bs.length < fuel := Nat.lt_of_succ_lt_succ hFuel
      have hRest : lastLoop mem fuel (some b.1) next = some (lastOr (some b.1) bs, c.1) :=
        ih (fun x hx => hRead x (Multiset.mem_add.mpr (Or.inr hx))) hLess hNext
      simp only at hHere
      simp [lastLoop, hHere, hNext, hRest]

theorem dataLoop_spec [DecidableEq α] {before after : List (Nat × α)} {data : α}
    (hRead : ∀ x ∈ cells NodeT.mk (before ++ after) none, mem x.1 = some x.2)
    (hBefore : ∀ c ∈ before, c.2 ≠ data) (hAfter : ∀ c ∈ after.head?, c.2 = data)
    (hFuel : before.length < fuel) :
    dataLoop mem data fuel prev (start (before ++ after) none) =
      some (lastOr prev before, start after none) := by
  induction before generalizing fuel prev with
  | nil =>
      obtain ⟨fuel, rfl⟩ : ∃ k, fuel = k + 1 := ⟨fuel - 1, by omega⟩
      cases after with
      | nil => rfl
      | cons c after =>
          have hHere := hRead (c.1, ⟨start after none, c.2⟩) (by simp [cells])
          have hData : c.2 = data := hAfter c rfl
          simp only at hHere
          simp [dataLoop, hHere, hData]
  | cons b before ih =>
      obtain ⟨fuel, rfl⟩ : ∃ k, fuel = k + 1 := ⟨fuel - 1, by omega⟩
      rw [List.cons_append, cells_cons] at hRead
      have hHere := hRead _ (Multiset.mem_add.mpr (Or.inl (Multiset.mem_singleton_self _)))
      have hLess : before.length < fuel := Nat.lt_of_succ_lt_succ hFuel
      have hRest : dataLoop mem data fuel (some b.1) (start (before ++ after) none) =
          some (lastOr (some b.1) before, start after none) :=
        ih (fun x hx => hRead x (Multiset.mem_add.mpr (Or.inr hx)))
          (fun c hc => hBefore c (List.mem_cons_of_mem b hc)) hLess
      have hData : b.2 ≠ data := hBefore b List.mem_cons_self
      simp only at hHere
      simp [dataLoop, hHere, hData, hRest]

theorem cleanLoop_spec (hHolds : Holds sl.mem (cells NodeT.mk cs none + rest))
    (hFuel : cs.length < fuel) :
    ∃ mem', cleanLoop fuel sl (start cs none) = some { sl with mem := mem' } ∧
      Holds mem' rest := by
  induction cs generalizing fuel sl with
  | nil =>
      obtain ⟨fuel, rfl⟩ : ∃ k, fuel = k + 1 := ⟨fuel - 1, by omega⟩
      rw [cells_nil, Multiset.zero_add] at hHolds
      exact ⟨sl.mem, rfl, hHolds⟩
  | cons c cs ih =>
      obtain ⟨fuel, rfl⟩ : ∃ k, fuel = k + 1 := ⟨fuel - 1, by omega⟩
      rw [cells_cons, Multiset.add_assoc] at hHolds
      have hHere := hHolds.read (Multiset.mem_add.mpr (Or.inl (Multiset.mem_singleton_self _)))
      have hLess : cs.length < fuel := Nat.lt_of_succ_lt_succ hFuel
      have hFreed : Holds ({ sl with mem := Function.update sl.mem c.1 none } : SlistT α).mem
          (cells NodeT.mk cs none + rest) := hHolds.free
      obtain ⟨mem', hRest, hEnd⟩ := ih hFreed hLess
      refine ⟨mem', ?_, hEnd⟩
      simp [cleanLoop, SlistT.free, hHere, hRest]

end Loops

/-! ## The calls -/

section Calls

variable {sl : SlistT α} {cs : List (Nat × α)} {fuel : Nat}

/-- Every node of the list can be read. -/
theorem Repr.read (hRepr : Repr sl cs) :
    ∀ x ∈ cells NodeT.mk cs none, sl.mem x.1 = some x.2 :=
  fun _ hx => hRepr.holds.read hx

theorem slistPushFront_spec (hRepr : Repr sl cs) {a : Nat} (hNew : sl.mem a = none) (d : α) :
    ∃ sl', slistPushFront sl (some a) (some d) = (0, sl') ∧ Repr sl' ((a, d) :: cs) ∧
      sl'.size = sl.size + 1 := by
  refine ⟨_, rfl, ⟨?_, rfl⟩, rfl⟩
  rw [cells_cons, ← hRepr.node]
  exact hRepr.holds.alloc hNew ⟨sl.node, d⟩

theorem slistPushBack_spec (hRepr : Repr sl cs) (hFuel : cs.length < fuel) {a : Nat}
    (hNew : sl.mem a = none) (d : α) :
    ∃ sl', slistPushBack fuel sl (some a) (some d) = some (0, sl') ∧
      Repr sl' (cs ++ [(a, d)]) ∧ sl'.size = sl.size + 1 := by
  let sl₁ : SlistT α := { sl.alloc a ⟨none, d⟩ with size := sl.size + 1 }
  have hHolds : Holds sl₁.mem (cells NodeT.mk cs none + {(a, ⟨none, d⟩)}) := by
    rw [Multiset.add_comm]
    exact hRepr.holds.alloc hNew ⟨none, d⟩
  obtain ⟨mem', hLink, hHolds'⟩ := link_spec hHolds hRepr.node (some a)
  refine ⟨{ sl₁ with node := start cs (some a), mem := mem' }, ?_, ⟨?_, ?_⟩, rfl⟩
  · cases List.eq_nil_or_concat cs with
    | inl hNil =>
        subst hNil
        have hNode : sl.node = none := hRepr.node
        have hMem : sl₁.mem = mem' := congrArg SlistT.mem (Option.some.inj hLink)
        rw [← hMem]
        simp only [slistPushBack, SlistT.alloc, hNode]
        rfl
    | inr hConcat =>
        obtain ⟨bs, c, rfl⟩ := hConcat
        rw [List.concat_eq_append] at *
        obtain ⟨n, hStart⟩ : ∃ n, start (bs ++ [c]) none = some n := by
          cases bs <;> exact ⟨_, rfl⟩
        have hLast : lastLoop sl₁.mem fuel none n = some (lastOr none bs, c.1) := by
          apply lastLoop_spec _ (by simp at hFuel; omega) hStart
          intro x hx
          exact hHolds.read (Multiset.mem_add.mpr (Or.inl hx))
        have hNode : sl.node = some n := hRepr.node.trans hStart
        rw [lastOr_append_singleton] at hLink
        simp only [sl₁, SlistT.alloc, hNode] at hLink hLast
        simp [slistPushBack, SlistT.alloc, hNode, hLast, hLink, sl₁]
  · change Holds mem' _
    rw [cells_append]
    exact hHolds'
  · change start cs (some a) = _
    rw [start_append]
    rfl

private theorem slistPopFront_nil (hRepr : Repr sl []) : slistPopFront sl = some (none, sl) := by
  have hNode : sl.node = none := hRepr.node
  rw [slistPopFront, hNode]

private theorem slistPopFront_cons {c : Nat × α} (hRepr : Repr sl (c :: cs)) :
    ∃ sl', slistPopFront sl = some (some c.2, sl') ∧ Repr sl' cs ∧ sl'.size = sl.size - 1 := by
  have hNode : sl.node = some c.1 := hRepr.node
  have hHere := hRepr.read (c.1, ⟨start cs none, c.2⟩) (by simp [cells_cons])
  have hHolds := hRepr.holds
  rw [cells_cons] at hHolds
  refine ⟨{ sl with size := sl.size - 1, node := start cs none,
                    mem := Function.update sl.mem c.1 none }, ?_, ⟨hHolds.free, rfl⟩, rfl⟩
  simp only at hHere
  simp [slistPopFront, hNode, SlistT.free, hHere]

/-- The node `a` is unlinked behind a segment and given back. -/
theorem unlink_spec {a : Nat} {d : α} {after : List (Nat × α)}
    (hRepr : Repr sl (cs ++ (a, d) :: after)) :
    ∃ mem₁ mem₂, sl.mem a = some ⟨start after none, d⟩ ∧
      sl.link (lastOr none cs) (start after none) =
        some { sl with node := start cs (start after none), mem := mem₁ } ∧
      mem₁ a = some ⟨start after none, d⟩ ∧ mem₂ = Function.update mem₁ a none ∧
      Holds mem₂ (cells NodeT.mk (cs ++ after) none) := by
  have hHolds := hRepr.holds
  rw [cells_append, start_cons, cells_cons] at hHolds
  have hNode := hRepr.node
  rw [start_append, start_cons] at hNode
  obtain ⟨mem₁, hLink, hHolds₁⟩ := link_spec hHolds hNode (start after none)
  have hHere : sl.mem a = some ⟨start after none, d⟩ := by
    apply hHolds.read
    exact Multiset.mem_add.mpr (Or.inr (Multiset.mem_add.mpr
      (Or.inl (Multiset.mem_singleton_self _))))
  have hFront : cells NodeT.mk cs (start after none) +
      ({(a, ⟨start after none, d⟩)} + cells NodeT.mk after none) =
      {(a, ⟨start after none, d⟩)} + cells NodeT.mk (cs ++ after) none := by
    rw [cells_append, ← Multiset.add_assoc, ← Multiset.add_assoc,
      Multiset.add_comm (cells NodeT.mk cs _)]
  simp only at hHolds₁
  rw [hFront] at hHolds₁
  refine ⟨mem₁, _, hHere, hLink, ?_, rfl, hHolds₁.free⟩
  exact hHolds₁.read (Multiset.mem_add.mpr (Or.inl (Multiset.mem_singleton_self _)))

private theorem slistPopBack_nil (hRepr : Repr sl []) : slistPopBack fuel sl = some (none, sl) := by
  have hNode : sl.node = none := hRepr.node
  rw [slistPopBack, hNode]

private theorem slistPopBack_concat {c : Nat × α} (hRepr : Repr sl (cs ++ [c]))
    (hFuel : cs.length < fuel) :
    ∃ sl', slistPopBack fuel sl = some (some c.2, sl') ∧ Repr sl' cs ∧
      sl'.size = sl.size - 1 := by
  obtain ⟨n, hStart⟩ : ∃ n, start (cs ++ [c]) none = some n := by
    cases cs <;> exact ⟨_, rfl⟩
  have hNode : sl.node = some n := hRepr.node.trans hStart
  have hLast : lastLoop sl.mem fuel none n = some (lastOr none cs, c.1) :=
    lastLoop_spec hRepr.read hFuel hStart
  obtain ⟨mem₁, mem₂, -, hLink, hHere, hFree, hHolds⟩ := unlink_spec hRepr
  rw [start_nil] at hLink hHere
  refine ⟨{ sl with size := sl.size - 1, node := start cs none, mem := mem₂ }, ?_, ⟨?_, rfl⟩, rfl⟩
  · simp [slistPopBack, hNode, hLast, hLink, hHere, SlistT.free, hFree]
  · rw [List.append_nil] at hHolds
    exact hHolds

/-- A list is cut in front of the first node with `data`. -/
theorem cut_at [DecidableEq α] (data : α) (cs : List (Nat × α)) :
    ∃ before after, cs = before ++ after ∧ (∀ c ∈ before, c.2 ≠ data) ∧
      ∀ c ∈ after.head?, c.2 = data := by
  refine ⟨cs.takeWhile fun c => c.2 ≠ data, cs.dropWhile fun c => c.2 ≠ data,
    List.takeWhile_append_dropWhile.symm, ?_, ?_⟩
  · intro c hc
    simpa using List.all_eq_true.mp List.all_takeWhile c hc
  · intro c hc
    have hHead := List.head?_dropWhile_not (fun c : Nat × α => decide (c.2 ≠ data)) cs
    rw [Option.mem_def] at hc
    rw [hc] at hHead
    simpa using hHead

/-- Going through a list for the first node with `data`. -/
theorem search_spec [DecidableEq α] (hRepr : Repr sl cs) (hFuel : cs.length < fuel) (d : α) :
    ∃ before after, cs = before ++ after ∧ d ∉ before.map Prod.snd ∧
      (∀ c ∈ after.head?, c.2 = d) ∧
      dataLoop sl.mem d fuel none sl.node = some (lastOr none before, start after none) := by
  obtain ⟨before, after, rfl, hBefore, hAfter⟩ := cut_at d cs
  refine ⟨before, after, rfl, ?_, hAfter, ?_⟩
  · intro hIn
    obtain ⟨c, hc, hEq⟩ := List.mem_map.mp hIn
    exact hBefore c hc hEq
  · rw [hRepr.node]
    apply dataLoop_spec hRepr.read hBefore hAfter
    rw [List.length_append] at hFuel
    omega

theorem slistRemove_spec [DecidableEq α] (hRepr : Repr sl cs) (hFuel : cs.length < fuel)
    (d : α) :
    ∃ sl' cs', slistRemove fuel sl (some d) = some (0, sl') ∧ Repr sl' cs' ∧
      cs'.map Prod.snd = (cs.map Prod.snd).erase d ∧
      sl'.size - cs'.length = sl.size - cs.length := by
  obtain ⟨before, after, rfl, hNotIn, hAfter, hLoop⟩ := search_spec hRepr hFuel d
  cases after with
  | nil =>
      refine ⟨sl, before ++ [], by simp [slistRemove, hLoop], hRepr, ?_, rfl⟩
      rw [List.append_nil, List.erase_of_not_mem hNotIn]
  | cons c after =>
      obtain ⟨mem₁, mem₂, hHere, hLink, hHere₁, hFree, hHolds⟩ := unlink_spec hRepr
      refine ⟨{ sl with size := sl.size - 1, node := start before (start after none),
                        mem := mem₂ }, before ++ after, ?_, ⟨hHolds, ?_⟩, ?_, ?_⟩
      · simp [slistRemove, hLoop, hHere, hLink, hHere₁, SlistT.free, hFree]
      · exact start_append.symm
      · have hData : c.2 = d := hAfter c rfl
        rw [List.map_append, List.map_append, List.map_cons, List.erase_append_right _ hNotIn,
          hData, List.erase_cons_head]
      · simp only [List.length_append, List.length_cons]
        omega

theorem slistFind_spec [DecidableEq α] (hRepr : Repr sl cs) (hFuel : cs.length < fuel) (d : α) :
    slistFind fuel sl (some d) = some (if d ∈ cs.map Prod.snd then 0 else -1) := by
  obtain ⟨before, after, rfl, hNotIn, hAfter, hLoop⟩ := search_spec hRepr hFuel d
  have hFound : (start after none).isSome ↔ d ∈ (before ++ after).map Prod.snd := by
    rw [List.map_append, List.mem_append]
    cases after with
    | nil =>
        refine iff_of_false (by simp) ?_
        rintro (hIn | hIn)
        · exact hNotIn hIn
        · cases hIn
    | cons c after =>
        have hData : c.2 = d := hAfter c rfl
        exact iff_of_true rfl (Or.inr (by simp [hData]))
  simp only [slistFind, hLoop, Option.bind_eq_bind, Option.bind_some, hFound]
  rfl

theorem slistClean_spec (hRepr : Repr sl cs) (hFuel : cs.length < fuel) :
    ∃ sl', slistClean fuel sl = some (0, sl') ∧ Repr sl' [] ∧ sl'.size = sl.size := by
  have hHolds := hRepr.holds
  rw [← Multiset.add_zero (cells _ _ _)] at hHolds
  obtain ⟨mem', hLoop, hEmpty⟩ := cleanLoop_spec hHolds hFuel
  rw [← hRepr.node] at hLoop
  exact ⟨{ sl with node := none, mem := mem' }, by simp [slistClean, hLoop], ⟨hEmpty, rfl⟩, rfl⟩

end Calls

/-! ## Runs -/

/-- The calls of a client; `ptr` is what `MALLOC` returns. -/
inductive SlistOp (α : Type) where
  | pushFront (ptr : Option Nat) (data : Option α)
  | pushBack (ptr : Option Nat) (data : Option α)
  | popFront
  | popBack
  | remove (data : Option α)
  | find (data : Option α)
  | clean
  | size

inductive SlistResult (α : Type) where
  | status (code : Int)
  | data (ptr : Option α)
deriving DecidableEq

variable [DecidableEq α]

def slistStep (fuel : Nat) : Step (SlistT α) (SlistOp α) (SlistResult α)
  | sl, .pushFront ptr data => some (.status (slistPushFront sl ptr data).1,
      (slistPushFront sl ptr data).2)
  | sl, .pushBack ptr data => (slistPushBack fuel sl ptr data).map fun r => (.status r.1, r.2)
  | sl, .popFront => (slistPopFront sl).map fun r => (.data r.1, r.2)
  | sl, .popBack => (slistPopBack fuel sl).map fun r => (.data r.1, r.2)
  | sl, .remove data => (slistRemove fuel sl data).map fun r => (.status r.1, r.2)
  | sl, .find data => (slistFind fuel sl data).map fun r => (.status r, sl)
  | sl, .clean => (slistClean fuel sl).map fun r => (.status r.1, r.2)
  | sl, .size => some (.status (slistSize sl), sl)

/-- The calls on a plain sequence. -/
def seqStep (l : List α) : SlistOp α → SlistResult α × List α
  | .pushFront (some _) (some d) => (.status 0, d :: l)
  | .pushBack (some _) (some d) => (.status 0, l ++ [d])
  | .pushFront _ _ | .pushBack _ _ => (.status (-1), l)
  | .popFront => (.data l.head?, l.tail)
  | .popBack => (.data l.getLast?, l.dropLast)
  | .remove none => (.status (-1), l)
  | .remove (some d) => (.status 0, l.erase d)
  | .find none => (.status (-1), l)
  | .find (some d) => (.status (if d ∈ l then 0 else -1), l)
  | .clean => (.status 0, [])
  | .size => (.status l.length, l)

/-- `MALLOC` returns memory that is not in use. -/
def Legal (sl : SlistT α) : SlistOp α → Prop
  | .pushFront (some a) _ => sl.mem a = none
  | .pushBack (some a) _ => sl.mem a = none
  | _ => True

/-- One call does what it does on the sequence, and the size is the length. -/
def Refines (fuel : Nat) : SlistT α → SlistOp α → Prop :=
  Does (slistStep fuel) fun sl op r sl' =>
    ∃ l l', Contents sl l ∧ Contents sl' l' ∧ (r, l') = seqStep l op ∧ slistSize sl' = l'.length

/-- `slist_clean` finds an empty list. -/
def CleansEmpty (sl : SlistT α) : SlistOp α → Prop
  | .clean => sl.node = none
  | _ => True

/-- One call on a list with fewer nodes than `fuel`: it does what it does on the sequence, and
the counter follows, except in `slist_clean`. -/
theorem slistStep_spec {sl : SlistT α} {cs : List (Nat × α)} {fuel : Nat} (hRepr : Repr sl cs)
    (hSize : sl.size = cs.length) (hFuel : cs.length < fuel) {op : SlistOp α}
    (hLegal : Legal sl op) :
    ∃ r sl' cs', slistStep fuel sl op = some (r, sl') ∧ Repr sl' cs' ∧
      (r, cs'.map Prod.snd) = seqStep (cs.map Prod.snd) op ∧ cs'.length ≤ cs.length + 1 ∧
      (CleansEmpty sl op ∧ sl'.size = cs'.length ∨
        op = .clean ∧ cs' = [] ∧ sl'.size = sl.size) := by
  cases op with
  | pushFront ptr data =>
      cases ptr with
      | none =>
          refine ⟨.status (-1), sl, cs, ?_, hRepr, rfl, by omega, Or.inl ⟨trivial, hSize⟩⟩
          cases data <;> rfl
      | some a =>
          cases data with
          | none => exact ⟨.status (-1), sl, cs, rfl, hRepr, rfl, by omega, Or.inl ⟨trivial, hSize⟩⟩
          | some d =>
              obtain ⟨sl', hRun, hRepr', hSize'⟩ := slistPushFront_spec hRepr hLegal d
              refine ⟨.status 0, sl', (a, d) :: cs, by rw [slistStep, hRun], hRepr', rfl,
                Nat.le_refl _, Or.inl ⟨trivial, ?_⟩⟩
              rw [hSize', hSize, List.length_cons]
              rfl
  | pushBack ptr data =>
      cases ptr with
      | none =>
          refine ⟨.status (-1), sl, cs, ?_, hRepr, rfl, by omega, Or.inl ⟨trivial, hSize⟩⟩
          cases data <;> rfl
      | some a =>
          cases data with
          | none => exact ⟨.status (-1), sl, cs, rfl, hRepr, rfl, by omega, Or.inl ⟨trivial, hSize⟩⟩
          | some d =>
              obtain ⟨sl', hRun, hRepr', hSize'⟩ := slistPushBack_spec hRepr hFuel hLegal d
              refine ⟨.status 0, sl', cs ++ [(a, d)], by rw [slistStep, hRun]; rfl, hRepr', ?_,
                by simp, Or.inl ⟨trivial, ?_⟩⟩
              · rw [List.map_append]
                rfl
              · rw [hSize', hSize, List.length_append]
                rfl
  | popFront =>
      cases cs with
      | nil =>
          exact ⟨.data none, sl, [], by rw [slistStep, slistPopFront_nil hRepr]; rfl, hRepr, rfl,
            by omega, Or.inl ⟨trivial, hSize⟩⟩
      | cons c cs =>
          obtain ⟨sl', hRun, hRepr', hSize'⟩ := slistPopFront_cons hRepr
          refine ⟨.data (some c.2), sl', cs, by rw [slistStep, hRun]; rfl, hRepr', rfl,
            by rw [List.length_cons]; omega, Or.inl ⟨trivial, ?_⟩⟩
          rw [List.length_cons] at hSize
          omega
  | popBack =>
      cases List.eq_nil_or_concat cs with
      | inl hNil =>
          subst hNil
          exact ⟨.data none, sl, [], by rw [slistStep, slistPopBack_nil hRepr]; rfl, hRepr, rfl,
            by omega, Or.inl ⟨trivial, hSize⟩⟩
      | inr hConcat =>
          obtain ⟨bs, c, hConcat⟩ := hConcat
          rw [List.concat_eq_append] at hConcat
          subst hConcat
          rw [List.length_append, List.length_singleton] at hSize hFuel
          obtain ⟨sl', hRun, hRepr', hSize'⟩ := slistPopBack_concat hRepr (by omega : _ < fuel)
          refine ⟨.data (some c.2), sl', bs, by rw [slistStep, hRun]; rfl, hRepr', ?_,
            by rw [List.length_append]; omega, Or.inl ⟨trivial, by omega⟩⟩
          simp [seqStep]
  | remove data =>
      cases data with
      | none => exact ⟨.status (-1), sl, cs, rfl, hRepr, rfl, by omega, Or.inl ⟨trivial, hSize⟩⟩
      | some d =>
          obtain ⟨sl', cs', hRun, hRepr', hErase, hSize'⟩ := slistRemove_spec hRepr hFuel d
          refine ⟨.status 0, sl', cs', by rw [slistStep, hRun]; rfl, hRepr', ?_, ?_,
            Or.inl ⟨trivial, by omega⟩⟩
          · rw [hErase]
            rfl
          · have hLe := List.length_erase_le (a := d) (l := cs.map Prod.snd)
            rw [← hErase, List.length_map, List.length_map] at hLe
            omega
  | find data =>
      cases data with
      | none => exact ⟨.status (-1), sl, cs, rfl, hRepr, rfl, by omega, Or.inl ⟨trivial, hSize⟩⟩
      | some d =>
          exact ⟨_, sl, cs, by rw [slistStep, slistFind_spec hRepr hFuel d]; rfl, hRepr, rfl,
            by omega, Or.inl ⟨trivial, hSize⟩⟩
  | clean =>
      obtain ⟨sl', hRun, hRepr', hSize'⟩ := slistClean_spec hRepr hFuel
      exact ⟨.status 0, sl', [], by rw [slistStep, hRun]; rfl, hRepr', rfl, by simp,
        Or.inr ⟨rfl, rfl, hSize'⟩⟩
  | size =>
      refine ⟨_, sl, cs, rfl, hRepr, ?_, by omega, Or.inl ⟨trivial, hSize⟩⟩
      simp [seqStep, slistSize, hSize]

/-- What holds after `k` calls that all refine those on the sequence. -/
def AfterCalls (k : Nat) (sl : SlistT α) : Prop :=
  ∃ cs, Repr sl cs ∧ sl.size = cs.length ∧ cs.length ≤ k

private theorem slistStep_refines_iff {k fuel : Nat} (hFuel : k < fuel) {sl : SlistT α}
    (hInv : AfterCalls k sl) {op : SlistOp α} (hLegal : Legal sl op) :
    Refines fuel sl op ↔ CleansEmpty sl op := by
  obtain ⟨cs, hRepr, hSize, hLe⟩ := hInv
  obtain ⟨r, sl', cs', hRun, hRepr', hSeq, -, hCount⟩ :=
    slistStep_spec hRepr hSize (Nat.lt_of_le_of_lt hLe hFuel) hLegal
  have hDone : sl'.size = cs'.length → Refines fuel sl op := by
    intro hEq
    refine ⟨r, sl', hRun, _, _, ⟨cs, hRepr, rfl⟩, ⟨cs', hRepr', rfl⟩, hSeq, ?_⟩
    rw [slistSize, hEq, List.length_map]
  rcases hCount with ⟨hCleans, hEq⟩ | ⟨rfl, rfl, hEq⟩
  · exact iff_of_true (hDone hEq) hCleans
  · constructor
    · rintro ⟨r₁, sl₁, hRun₁, l, l', -, -, hSeq₁, hSize₁⟩
      rw [hRun] at hRun₁
      cases hRun₁
      obtain ⟨-, rfl⟩ := Prod.mk.inj hSeq₁
      have hZero : cs.length = 0 := by
        rw [slistSize, hEq, hSize, List.length_nil] at hSize₁
        omega
      rw [CleansEmpty, hRepr.node, List.eq_nil_of_length_eq_zero hZero]
      rfl
    · intro hNode
      apply hDone
      rw [hEq, hSize]
      cases cs with
      | nil => rfl
      | cons c cs =>
          rw [CleansEmpty, hRepr.node] at hNode
          cases hNode

theorem afterCalls_step {k fuel : Nat} (hFuel : k < fuel) {sl sl' : SlistT α}
    (hInv : AfterCalls k sl) {op : SlistOp α} (hLegal : Legal sl op)
    (hCleans : CleansEmpty sl op) {r : SlistResult α}
    (hStep : slistStep fuel sl op = some (r, sl')) : AfterCalls (k + 1) sl' := by
  obtain ⟨cs, hRepr, hSize, hLe⟩ := hInv
  obtain ⟨r₁, sl₁, cs', hRun, hRepr', -, hLength, hCount⟩ :=
    slistStep_spec hRepr hSize (Nat.lt_of_le_of_lt hLe hFuel) hLegal
  rw [hStep] at hRun
  cases hRun
  refine ⟨cs', hRepr', ?_, by omega⟩
  rcases hCount with ⟨-, hEq⟩ | ⟨rfl, rfl, hEq⟩
  · exact hEq
  · rw [hEq, hSize]
    cases cs with
    | nil => rfl
    | cons c cs =>
        rw [CleansEmpty, hRepr.node] at hCleans
        cases hCleans

/-- A run on a fresh list does at every call what it does on the sequence, with the right size,
if and only if it cleans empty lists only. -/
theorem slist_refines_iff (ops : List (SlistOp α)) {fuel : Nat} (hFuel : ops.length < fuel)
    (hLegal : Along (slistStep fuel) Legal slistCreate ops) :
    Along (slistStep fuel) (Refines fuel) slistCreate ops ↔
      Along (slistStep fuel) CleansEmpty slistCreate ops := by
  have hFresh : AfterCalls 0 (slistCreate : SlistT α) := ⟨[], slistCreate_repr, rfl, Nat.le_refl 0⟩
  have hBound : 0 + ops.length ≤ ops.length := Nat.le_of_eq (Nat.zero_add ops.length)
  refine along_iff_of_counted_inv AfterCalls ?_ ?_ hBound hFresh hLegal
  · intro k sl op hk hInv hLegal
    exact slistStep_refines_iff (by omega) hInv hLegal
  · intro k sl op r sl' hk hInv hLegal hRefines hStep
    have hCleans := (slistStep_refines_iff (by omega : k < fuel) hInv hLegal).mp hRefines
    exact afterCalls_step (by omega) hInv hLegal hCleans hStep

instance (sl : SlistT α) : (op : SlistOp α) → Decidable (CleansEmpty sl op)
  | .clean => inferInstanceAs (Decidable (sl.node = none))
  | .pushFront _ _ | .pushBack _ _ | .popFront | .popBack | .remove _ | .find _ | .size =>
      isTrue trivial

instance (sl : SlistT α) : (op : SlistOp α) → Decidable (Legal sl op)
  | .pushFront (some a) _ => decidable_of_iff ((sl.mem a).isNone) (by simp [Legal])
  | .pushBack (some a) _ => decidable_of_iff ((sl.mem a).isNone) (by simp [Legal])
  | .pushFront none _ | .pushBack none _ | .popFront | .popBack | .remove _ | .find _ | .clean
  | .size => isTrue trivial

/-- A run that uses the address of a popped node again. -/
theorem slist_refines_seven :
    Along (slistStep 8) (Refines 8) slistCreate
      [.pushFront (some 0) (some 'a'), .pushBack (some 1) (some 'b'), .popFront,
        .pushBack (some 0) (some 'b'), .remove (some 'b'), .popBack, .clean] :=
  (slist_refines_iff _ (by decide) (by decide)).mpr (by decide)

/-- One node is pushed, the list is cleaned, and its size is still 1. -/
theorem slist_clean_keeps_size :
    ((run (slistStep 3) slistCreate [.pushBack (some 0) (some 'a'), .clean]).map fun r =>
        (r.2.node, slistSize r.2)) = some (none, 1) ∧
      Along (slistStep 3) Legal slistCreate [.pushBack (some 0) (some 'a'), .clean] ∧
      ¬ Along (slistStep 3) (Refines 3) slistCreate
        [.pushBack (some 0) (some 'a'), .clean] := by
  refine ⟨by decide, by decide, ?_⟩
  intro hAlong
  obtain ⟨_, _, l, l', -, -, hSeq, hSize⟩ := last_of_along hAlong rfl
  obtain ⟨-, rfl⟩ := Prod.mk.inj hSeq
  cases hSize

end Gbase.Base.Slist
