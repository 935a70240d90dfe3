import Gbase.Base.SkiplistRank
import Gbase.Lib.Run

/-!
# Runs of the skiplist

What a caller sees of `base/skiplist.c` over a whole run of calls, for all random levels.  The
invariant is stated on the nodes in memory, without the towers that the proofs go through.

The random levels are an arbitrary sequence: nothing that is proved depends on how they are drawn,
only how long a search takes does.  That the loops come to an end is part of the statements.

## Main results

* `skiplist_run_spans`: after every call the levels are linked as they should be, and the spans
  are differences of ranks.
* `skiplist_refines_sorted_list`: every call does what a sorted list does.
-/

namespace Gbase.Base.Skiplist

open Gbase.Lib.Comparator
open Gbase.Lib.Lanes
open Gbase.Lib.Linked
open Gbase.Lib.Run
open Gbase.Lib.Store

variable {α β : Type}

/-! ## Calls -/

/-- A call; an insertion comes with what `MALLOC` and `rand` would return, and a search with what
its argument points to. -/
inductive SkiplistOp (α β : Type) where
  | insert (node : Option Nat) (rand : Nat) (data : Option α)
  | erase (data : Option α)
  | find (data : Option α)
  | findByRank (rank : Int)
  | forward (rank : Int) (f : Option (α → β → Int × β)) (arg : β)
  | backward (rank : Int) (f : Option (α → β → Int × β)) (arg : β)
  | listByRank (rank : Int) (scope : Option Int) (list : Bool)
  | size

/-- What a call returns, and what it writes for the caller. -/
inductive SkiplistResult (α β : Type) where
  | status (r : Int)
  | data (p : Option α)
  | found (p : Option (Option α × Int))
  | filtered (p : Option α) (arg : β)
  | listed (r : Int) (scope : Option Int) (list : List (Option α))
deriving DecidableEq

/-- One call. -/
def skiplistStep (cmp : α → α → Int) (fuel : Nat) :
    Step (SkiplistT α) (SkiplistOp α β) (SkiplistResult α β)
  | sl, .insert node rand data =>
      (skiplistInsert cmp fuel sl node rand data).map fun r => (.status r.1, r.2)
  | sl, .erase data => (skiplistErase cmp fuel sl data).map fun r => (.data r.1, r.2)
  | sl, .find data => (skiplistFind cmp fuel sl data).map fun r => (.found r.1, r.2)
  | sl, .findByRank rank => (skiplistFindByRank fuel sl rank).map fun r => (.data r, sl)
  | sl, .forward rank f arg =>
      (skiplistFindFromRankForward fuel sl rank f arg).map fun r => (.filtered r.1 r.2, sl)
  | sl, .backward rank f arg =>
      (skiplistFindFromRankBackward fuel sl rank f arg).map fun r => (.filtered r.1 r.2, sl)
  | sl, .listByRank rank scope list =>
      (skiplistFindListByRank fuel sl rank scope list).map fun r => (.listed r.1 r.2.1 r.2.2, sl)
  | sl, .size => (skiplistSize fuel sl).map fun r => (.status r, sl)

/-- An insertion gets memory that is not in use, and a random level. -/
def Supplied (sl : SkiplistT α) : SkiplistOp α β → Prop
  | .insert node rand (some _) =>
      (∃ a, node = some a ∧ sl.mem a = none) ∧ (skiplistRandLevel sl.random rand).isSome
  | _ => True

instance Supplied.decidable (sl : SkiplistT α) (op : SkiplistOp α β) :
    Decidable (Supplied sl op) :=
  match op with
  | .insert none _ (some _) => isFalse fun h => by
      obtain ⟨⟨a, hNode, -⟩, -⟩ := h
      cases hNode
  | .insert (some a) rand (some _) =>
      decidable_of_iff ((sl.mem a).isNone ∧ (skiplistRandLevel sl.random rand).isSome) (by
        simp [Supplied])
  | .insert _ _ none => isTrue trivial
  | .erase _ => isTrue trivial
  | .find _ => isTrue trivial
  | .findByRank _ => isTrue trivial
  | .forward _ _ _ => isTrue trivial
  | .backward _ _ _ => isTrue trivial
  | .listByRank _ _ _ => isTrue trivial
  | .size => isTrue trivial

/-! ## The invariant in memory -/

/-- Behind `p` the nodes of the list are linked on a level, in both directions. -/
def LinkedOn (sl : SkiplistT α) (i : Nat) : Nat → List Nat → Prop
  | p, [] => (sl.link p i).map LinkT.next = some none
  | p, a :: as => (sl.link p i).map LinkT.next = some (some a) ∧
      (sl.link a i).map LinkT.prev = some (some p) ∧ LinkedOn sl i a as

/-- The level of a node. -/
def SkiplistT.levelOf (sl : SkiplistT α) (a : Nat) : Nat :=
  match sl.mem a with
  | none => 0
  | some n => n.level

/-- The rank of a node in the list of the lowest level; the head has rank 0. -/
def SkiplistT.rankOf (sl : SkiplistT α) (nodes : List Nat) (a : Nat) : Nat :=
  if a = sl.head then 0 else nodes.idxOf a + 1

/-- The lowest level has these nodes, with this data. -/
def Lists (sl : SkiplistT α) (nodes : List Nat) (l : List α) : Prop :=
  LinkedOn sl 0 sl.head nodes ∧ nodes.map (fun a => (sl.mem a).bind NodeT.data) = l.map some

/-- The lowest level is sorted; every level links its nodes in the same order; and spans are
differences of ranks. -/
def SpansRight (cmp : α → α → Int) (sl : SkiplistT α) : Prop :=
  ∃ nodes l, Lists sl nodes l ∧ Sorted cmp l ∧
    ∀ i, i < maxSkiplistLevel →
      LinkedOn sl i sl.head (nodes.filter fun a => i ≤ sl.levelOf a) ∧
      ∀ before a behind, (nodes.filter fun a => i ≤ sl.levelOf a) = before ++ a :: behind →
        (sl.link a i).map LinkT.span = some ((sl.rankOf nodes a : Int) -
          sl.rankOf nodes (before.getLast?.getD sl.head))

section

variable {cmp : α → α → Int} {sl : SkiplistT α} {ts : List (Tower α)}

/-- The chain of a level, read from the memory. -/
theorem Lane.linkedOn {i p : Nat} {cs : List (Nat × Int)} (hLane : Lane sl i p cs)
    (hi : i < maxSkiplistLevel)
    (hUse : ∀ b, b ∈ p :: cs.map Prod.fst → (sl.record b).isSome) :
    LinkedOn sl i p (cs.map Prod.fst) := by
  induction cs generalizing p with
  | nil =>
      have hNext : (sl.links i p).next = none := hLane
      rw [List.map_nil, LinkedOn, link_eq (hUse p List.mem_cons_self) hi, Option.map_some, hNext]
  | cons c cs ih =>
      obtain ⟨hNext, hBack, -, hRest⟩ := hLane
      replace hNext : (sl.links i p).next = some c.1 := hNext
      replace hBack : (sl.links i c.1).prev = some p := hBack
      have hUse' : ∀ b, b ∈ c.1 :: cs.map Prod.fst → (sl.record b).isSome := fun b hb =>
        hUse b (List.mem_cons_of_mem p hb)
      refine ⟨?_, ?_, ih hRest hUse'⟩
      · rw [link_eq (hUse p List.mem_cons_self) hi, Option.map_some, hNext]
      · rw [link_eq (hUse' c.1 List.mem_cons_self) hi, Option.map_some, hBack]

theorem Recorded.levelOf (h : Recorded sl ts) {t : Tower α} (ht : t ∈ ts) :
    sl.levelOf t.addr = t.level := by
  obtain ⟨n, hNode, hLevel, -⟩ := h.node ht
  rw [SkiplistT.levelOf, hNode]
  exact hLevel

/-- The nodes of a level, by their towers. -/
theorem Recorded.filter (h : Recorded sl ts) (i : Nat) :
    ((ts.map Tower.addr).filter fun a => i ≤ sl.levelOf a) = (cells i 0 ts).map Prod.fst := by
  rw [cells_addrs, List.filter_map]
  congr 1
  apply List.filter_congr
  intro t ht
  rw [Function.comp_apply, h.levelOf ht]

/-- The rank of a tower. -/
theorem Recorded.rankOf {t : Tower α} {before behind : List (Tower α)}
    (h : Recorded sl (before ++ t :: behind)) :
    sl.rankOf ((before ++ t :: behind).map Tower.addr) t.addr = before.length + 1 := by
  have hNodup := h.nodup
  rw [List.map_append, List.map_cons, ← List.cons_append, List.perm_middle.nodup_iff,
    List.nodup_cons, List.cons_append, List.mem_cons, List.mem_append, not_or, not_or] at hNodup
  obtain ⟨⟨hHead, hBefore, -⟩, -⟩ := hNodup
  rw [SkiplistT.rankOf, if_neg hHead, List.map_append, List.map_cons,
    List.idxOf_append_of_notMem hBefore, List.idxOf_cons_self, List.length_map]

/-- The rank of where a level goes on. -/
theorem Recorded.rankOf_last {i : Nat} {before behind : List (Tower α)}
    (h : Recorded sl (before ++ behind)) (hEnds : Ends Tower.level i before) :
    sl.rankOf ((before ++ behind).map Tower.addr)
      (((cells i 0 before).map Prod.fst).getLast?.getD sl.head) = before.length := by
  rcases hEnds with rfl | ⟨us, t, rfl, ht⟩
  · rw [cells_nil, List.map_nil, List.getLast?_nil, Option.getD_none, SkiplistT.rankOf, if_pos rfl]
    rfl
  · have hLast : ((cells i 0 (us ++ [t])).map Prod.fst).getLast? = some t.addr := by
      rw [cells_at ht, List.map_append, List.map_cons, cells_nil, List.map_nil,
        List.getLast?_append, List.getLast?_singleton, Option.some_or]
    rw [← List.append_cons] at h
    rw [hLast, Option.getD_some, ← List.append_cons, h.rankOf, List.length_append,
      List.length_singleton]

theorem Repr.lists (h : Repr sl ts) : Lists sl (ts.map Tower.addr) (elems ts) := by
  constructor
  · have hZero : 0 < maxSkiplistLevel := by decide
    have hLinked := Lane.linkedOn (h.lanes 0 hZero) hZero h.recorded.use_cells
    have hAll : (cells 0 0 ts).map Prod.fst = ts.map Tower.addr := by
      rw [cells_addrs]
      congr 1
      rw [List.filter_eq_self]
      intro t _
      exact decide_eq_true (Nat.zero_le _)
    rwa [hAll] at hLinked
  · rw [elems, List.map_map, List.map_map]
    apply List.map_congr_left
    intro t ht
    obtain ⟨n, hNode, -, hData⟩ := h.recorded.node ht
    rw [Function.comp_apply, Function.comp_apply, hNode, Option.bind_some, hData]

theorem Repr.spansRight (h : Repr sl ts) (hSorted : Sorted cmp (elems ts)) : SpansRight cmp sl := by
  refine ⟨ts.map Tower.addr, elems ts, h.lists, hSorted, fun i hi => ⟨?_, ?_⟩⟩
  · rw [h.recorded.filter]
    exact Lane.linkedOn (h.lanes i hi) hi h.recorded.use_cells
  · intro before a behind hEq
    rw [h.recorded.filter] at hEq
    obtain ⟨cs, ds, hCells, rfl, hRest⟩ := List.map_eq_append_iff.mp hEq
    obtain ⟨c, ds', rfl, rfl, rfl⟩ := List.map_eq_cons_iff.mp hRest
    -- the list is cut where the level is
    rw [cells] at hCells
    obtain ⟨xs, ys, hLane, rfl, hRest'⟩ := List.map_eq_append_iff.mp hCells
    obtain ⟨⟨t, v⟩, ys', rfl, rfl, -⟩ := List.map_eq_cons_iff.mp hRest'
    obtain ⟨us, vs, ws, rfl, rfl, hEnds, rfl, ht⟩ := lane_split hLane
    have hSplit : us ++ vs ++ t :: ws = us ++ (vs ++ t :: ws) := List.append_assoc ..
    have hUse := h.recorded.isSome
      (by simp : t.addr ∈ sl.head :: (us ++ vs ++ t :: ws).map Tower.addr)
    have hSpan : (sl.links i t.addr).span = ((vs.length + 1 : Nat) : Int) := by
      have hChain := h.lanes i hi
      rw [cells, hLane, List.map_append, List.map_cons] at hChain
      exact hChain.behind.2.2.1
    have hHere := h.recorded.rankOf
    have hRecorded := h.recorded
    rw [hSplit] at hRecorded
    have hPrev := hRecorded.rankOf_last hEnds
    rw [← hSplit, cells] at hPrev
    rw [link_eq hUse hi, Option.map_some, hSpan, hHere, hPrev, List.length_append]
    congr 1
    omega

/-- The lowest level is a list of its own. -/
theorem LinkedOn.unique {i p : Nat} {as bs : List Nat} (h : LinkedOn sl i p as)
    (h' : LinkedOn sl i p bs) : as = bs := by
  induction as generalizing p bs with
  | nil =>
      cases bs with
      | nil => rfl
      | cons b bs =>
          rw [LinkedOn] at h
          rw [LinkedOn, h] at h'
          cases h'.1
  | cons a as ih =>
      cases bs with
      | nil =>
          rw [LinkedOn] at h'
          rw [LinkedOn, h'] at h
          cases h.1
      | cons b bs =>
          obtain ⟨hNext, -, hRest⟩ := h
          obtain ⟨hNext', -, hRest'⟩ := h'
          rw [hNext, Option.some_inj, Option.some_inj] at hNext'
          subst hNext'
          rw [ih hRest hRest']

/-- The list of a skiplist is determined. -/
theorem Lists.unique {nodes nodes' : List Nat} {l l' : List α} (h : Lists sl nodes l)
    (h' : Lists sl nodes' l') : l = l' := by
  have hNodes := h.1.unique h'.1
  subst hNodes
  have hEq := h.2.symm.trans h'.2
  exact List.map_injective_iff.mpr (Option.some_injective α) hEq

end

/-! ## The sorted list -/

/-- An element is put behind all that are not larger. -/
def insertAfter (cmp : α → α → Int) (d : α) (l : List α) : List α :=
  l.takeWhile (fun e => cmp e d ≤ 0) ++ d :: l.dropWhile fun e => cmp e d ≤ 0

/-- What a search gives, if there is a filter and the rank is that of an element. -/
def searched (l : List α) (rank : Int) (f : Option (α → β → Int × β)) (way : List α) (arg : β) :
    Option α × β :=
  match f with
  | none => (none, arg)
  | some f => if InRange l rank then firstAccepted f way arg else (none, arg)

/-- What a call does to a sorted list with ranks.  An erasure takes out what a search in the same
state of the skiplist finds, at the rank it gives. -/
def ListStep (cmp : α → α → Int) (fuel : Nat) (sl : SkiplistT α) (l : List α) :
    SkiplistOp α β → SkiplistResult α β → List α → Prop
  | .insert _ _ none, r, l' => r = .status (-1) ∧ l' = l
  | .insert _ _ (some d), r, l' => r = .status 0 ∧ l' = insertAfter cmp d l
  | .erase data, r, l' => ∃ p, skiplistFind cmp fuel sl data = some (p, sl) ∧
      match p with
      | none => r = .data none ∧ l' = l
      | some (d, rank) => r = .data d ∧ d = l[(rank - 1).toNat]? ∧ InRange l rank ∧
          l' = l.eraseIdx (rank - 1).toNat
  | .find none, r, l' => r = .found none ∧ l' = l
  | .find (some k), r, l' => l' = l ∧
      ((r = .found none ∧ ∀ e, e ∈ l → cmp e k ≠ 0) ∨
        ∃ d rank, r = .found (some (some d, rank)) ∧ InRange l rank ∧
          l[(rank - 1).toNat]? = some d ∧ cmp d k = 0)
  | .findByRank rank, r, l' => l' = l ∧
      r = .data (if InRange l rank then l[(rank - 1).toNat]? else none)
  | .forward rank f arg, r, l' => l' = l ∧
      r = .filtered (searched l rank f (l.drop (rank - 1).toNat) arg).1
        (searched l rank f (l.drop (rank - 1).toNat) arg).2
  | .backward rank f arg, r, l' => l' = l ∧
      r = .filtered (searched l rank f (l.take rank.toNat).reverse arg).1
        (searched l rank f (l.take rank.toNat).reverse arg).2
  | .listByRank rank scope list, r, l' => l' = l ∧
      match scope, list with
      | some n, true =>
          if InRange l rank then
            r = .listed 0 (some (if n ≤ 0 then n else min n (l.length - rank + 1)))
              (((l.drop (rank - 1).toNat).take n.toNat).map some)
          else r = .listed (-1) (some n) []
      | _, _ => r = .listed (-1) scope []
  | .size, r, l' => l' = l ∧ r = .status l.length

section

variable {cmp : α → α → Int} {sl : SkiplistT α} {ts : List (Tower α)} {fuel : Nat} {d : α}

theorem insertAfter_eq {front back : List α} (hFront : ∀ e, e ∈ front → cmp e d ≤ 0)
    (hBack : ∀ e, e ∈ back → ¬ cmp e d ≤ 0) :
    insertAfter cmp d (front ++ back) = front ++ d :: back := by
  have hPos : ∀ e, e ∈ front → decide (cmp e d ≤ 0) = true := fun e he =>
    decide_eq_true (hFront e he)
  rw [insertAfter, List.takeWhile_append_of_pos hPos, List.dropWhile_append_of_pos hPos]
  cases back with
  | nil => simp
  | cons e back =>
      have hNot := decide_eq_false (hBack e List.mem_cons_self)
      rw [List.takeWhile_cons, List.dropWhile_cons, hNot]
      simp

/-- An insertion keeps the order. -/
theorem sorted_insert (hCmp : TotalPreorder cmp) {front back : List α}
    (hSorted : Sorted cmp (front ++ back)) (hFront : ∀ e, e ∈ front → cmp e d ≤ 0)
    (hBack : ∀ e, e ∈ back → ¬ cmp e d ≤ 0) : Sorted cmp (front ++ d :: back) := by
  rw [Sorted, List.pairwise_append] at hSorted
  rw [Sorted, List.pairwise_append, List.pairwise_cons]
  have hLarger : ∀ e, e ∈ back → cmp d e ≤ 0 := fun e he =>
    le_of_lt (hCmp.le_of_lt_swap (hBack e he))
  refine ⟨hSorted.1, ⟨hLarger, hSorted.2.1⟩, ?_⟩
  intro a ha b hb
  rcases List.mem_cons.mp hb with rfl | hb
  · exact hFront a ha
  · exact hSorted.2.2 a ha b hb

/-- `skiplist_insert` of an element. -/
theorem skiplistStep_insert (hCmp : TotalPreorder cmp) (h : Repr sl ts)
    (hSorted : Sorted cmp (elems ts)) (hFuel : ts.length < fuel) {node : Option Nat} {rand : Nat}
    {d : α} (hSupplied : Supplied sl (.insert node rand (some d) : SkiplistOp α β)) :
    ∃ r sl' ts',
      skiplistStep cmp fuel sl (.insert node rand (some d) : SkiplistOp α β) = some (r, sl') ∧
      Repr sl' ts' ∧ Sorted cmp (elems ts') ∧ ts'.length ≤ ts.length + 1 ∧
      ListStep cmp fuel sl (elems ts) (.insert node rand (some d) : SkiplistOp α β) r
        (elems ts') := by
  obtain ⟨⟨a, rfl, hFresh⟩, hLevel⟩ := hSupplied
  obtain ⟨level, hLevel⟩ := Option.isSome_iff_exists.mp hLevel
  obtain ⟨low, same, high, hEq, hLow, hSame, hHigh⟩ := sorted_split hCmp hSorted d
  rw [← List.append_assoc] at hEq
  have hFront : ∀ x, x ∈ low ++ same → cmp x.data d ≤ 0 := by
    intro x hx
    rcases List.mem_append.mp hx with hx | hx
    · exact le_of_lt (hLow x hx)
    · exact le_of_eq (hSame x hx)
  have hBack : ∀ x, x ∈ high → ¬ cmp x.data d ≤ 0 := fun x hx => by
    have hMore := hHigh x hx
    omega
  generalize low ++ same = front at hEq hFront
  subst hEq
  have hEnough : front.length < fuel := by
    rw [List.length_append] at hFuel
    omega
  obtain ⟨sl', hRun, h', -⟩ := skiplistInsert_spec h hFresh hLevel hFront hBack hEnough
  have hFront' : ∀ e, e ∈ elems front → cmp e d ≤ 0 := by
    intro e he
    obtain ⟨x, hx, rfl⟩ := List.mem_map.mp he
    exact hFront x hx
  have hBack' : ∀ e, e ∈ elems high → ¬ cmp e d ≤ 0 := by
    intro e he
    obtain ⟨x, hx, rfl⟩ := List.mem_map.mp he
    exact hBack x hx
  rw [elems_append] at hSorted
  have hNew : elems (front ++ { addr := a, level := level, data := d } :: high) =
      elems front ++ d :: elems high := elems_append
  refine ⟨.status 0, sl', _, by simp only [skiplistStep, hRun]; rfl, h', ?_, ?_, rfl, ?_⟩
  · rw [hNew]
    exact sorted_insert hCmp hSorted hFront' hBack'
  · rw [List.length_append, List.length_append, List.length_cons]
    omega
  · rw [hNew, elems_append]
    exact (insertAfter_eq hFront' hBack').symm

/-- `skiplist_erase` of an element. -/
theorem skiplistStep_erase (hCmp : TotalPreorder cmp) (h : Repr sl ts)
    (hSorted : Sorted cmp (elems ts)) (hFuel : ts.length < fuel) (k : α) :
    ∃ r sl' ts',
      skiplistStep cmp fuel sl (.erase (some k) : SkiplistOp α β) = some (r, sl') ∧
      Repr sl' ts' ∧ Sorted cmp (elems ts') ∧ ts'.length ≤ ts.length + 1 ∧
      ListStep cmp fuel sl (elems ts) (.erase (some k) : SkiplistOp α β) r (elems ts') := by
  rcases skiplistFindErase_spec hCmp h hSorted hFuel k with
    ⟨hFind, hErase, -⟩ | ⟨front, t, back, sl', rfl, -, hFind, hErase, h', -⟩
  · exact ⟨.data none, sl, ts, by simp only [skiplistStep, hErase]; rfl, h, hSorted,
      Nat.le_succ _, none, hFind, rfl, rfl⟩
  · have hSub : (elems (front ++ back)).Sublist (elems (front ++ t :: back)) :=
      ((List.sublist_cons_self t back).append_left front).map Tower.data
    have hIndex : ((front.length : Int) + 1 - 1).toNat = (elems front).length := by
      rw [length_elems]
      omega
    have hElems : elems (front ++ t :: back) = elems front ++ t.data :: elems back :=
      elems_append
    refine ⟨.data (some t.data), sl', front ++ back,
      by simp only [skiplistStep, hErase]; rfl, h', List.Pairwise.sublist hSub hSorted, ?_,
      some (some t.data, (front.length : Int) + 1), hFind, rfl, ?_, ?_, ?_⟩
    · rw [List.length_append, List.length_append, List.length_cons]
      omega
    · rw [hIndex, hElems, List.getElem?_append_right (Nat.le_refl _), Nat.sub_self]
      rfl
    · rw [InRange, length_elems, List.length_append, List.length_cons]
      omega
    · rw [hIndex, hElems, List.eraseIdx_append_of_length_le (Nat.le_refl _), Nat.sub_self,
        List.eraseIdx_cons_zero, elems_append]

/-- A call on a skiplist with fewer nodes than `fuel`: it returns, does what the sorted list does,
and adds at most one node. -/
theorem skiplistStep_spec (hCmp : TotalPreorder cmp) (h : Repr sl ts)
    (hSorted : Sorted cmp (elems ts)) (hFuel : ts.length < fuel) {op : SkiplistOp α β}
    (hSupplied : Supplied sl op) :
    ∃ r sl' ts', skiplistStep cmp fuel sl op = some (r, sl') ∧ Repr sl' ts' ∧
      Sorted cmp (elems ts') ∧ ts'.length ≤ ts.length + 1 ∧
      ListStep cmp fuel sl (elems ts) op r (elems ts') := by
  cases op with
  | insert node rand data =>
      cases data with
      | none => exact ⟨_, sl, ts, rfl, h, hSorted, Nat.le_succ _, rfl, rfl⟩
      | some d => exact skiplistStep_insert hCmp h hSorted hFuel hSupplied
  | erase data =>
      cases data with
      | none => exact ⟨_, sl, ts, rfl, h, hSorted, Nat.le_succ _, none, rfl, rfl, rfl⟩
      | some k => exact skiplistStep_erase hCmp h hSorted hFuel k
  | find data =>
      cases data with
      | none => exact ⟨_, sl, ts, rfl, h, hSorted, Nat.le_succ _, rfl, rfl⟩
      | some k =>
          rcases skiplistFindErase_spec hCmp h hSorted hFuel k with
            ⟨hFind, -, hNone⟩ | ⟨front, t, back, -, rfl, hEq, hFind, -, -, -⟩
          · refine ⟨.found none, sl, ts, by simp only [skiplistStep, hFind]; rfl, h, hSorted,
              Nat.le_succ _, rfl, Or.inl ⟨rfl, ?_⟩⟩
            intro e he
            obtain ⟨x, hx, rfl⟩ := List.mem_map.mp he
            exact hNone x hx
          · have hIndex : ((front.length : Int) + 1 - 1).toNat = (elems front).length := by
              rw [elems, List.length_map]
              omega
            refine ⟨_, sl, _, by simp only [skiplistStep, hFind]; rfl, h, hSorted, Nat.le_succ _,
              rfl, Or.inr ⟨t.data, (front.length : Int) + 1, rfl, ?_, ?_, hEq⟩⟩
            · rw [InRange, length_elems, List.length_append, List.length_cons]
              omega
            · rw [hIndex, elems_append, List.getElem?_append_right (Nat.le_refl _), Nat.sub_self]
              rfl
  | findByRank rank =>
      refine ⟨_, sl, ts, ?_, h, hSorted, Nat.le_succ _, rfl, rfl⟩
      simp only [skiplistStep, skiplistFindByRank_spec h hFuel]
      rfl
  | forward rank f arg =>
      refine ⟨_, sl, ts, ?_, h, hSorted, Nat.le_succ _, rfl, rfl⟩
      simp only [skiplistStep, skiplistFindFromRankForward_spec h hFuel]
      rfl
  | backward rank f arg =>
      refine ⟨_, sl, ts, ?_, h, hSorted, Nat.le_succ _, rfl, rfl⟩
      simp only [skiplistStep, skiplistFindFromRankBackward_spec h hFuel]
      rfl
  | listByRank rank scope list =>
      cases scope with
      | none => exact ⟨_, sl, ts, rfl, h, hSorted, Nat.le_succ _, rfl, rfl⟩
      | some n =>
          cases list with
          | false => exact ⟨_, sl, ts, rfl, h, hSorted, Nat.le_succ _, rfl, rfl⟩
          | true =>
              have hRun := skiplistFindListByRank_spec h hFuel rank n
              by_cases hRange : InRange (elems ts) rank
              · rw [if_pos hRange] at hRun
                refine ⟨_, sl, ts, by simp only [skiplistStep, hRun]; rfl, h, hSorted,
                  Nat.le_succ _, rfl, ?_⟩
                simp only [if_pos hRange]
              · rw [if_neg hRange] at hRun
                refine ⟨_, sl, ts, by simp only [skiplistStep, hRun]; rfl, h, hSorted,
                  Nat.le_succ _, rfl, ?_⟩
                simp only [if_neg hRange]
  | size =>
      refine ⟨.status ts.length, sl, ts, ?_, h, hSorted, Nat.le_succ _, rfl, ?_⟩
      · simp only [skiplistStep, skiplistSize_spec h hFuel]
        rfl
      · rw [length_elems]

end

/-! ## Whole runs -/

/-- The skiplist after `k` calls. -/
def AfterCalls (cmp : α → α → Int) (k : Nat) (sl : SkiplistT α) : Prop :=
  ∃ ts, Repr sl ts ∧ Sorted cmp (elems ts) ∧ ts.length ≤ k

/-- An empty skiplist has its head only. -/
theorem skiplistCreate_spec {head : Nat} {levelCoff : Int} {sl : SkiplistT α}
    (hCreate : skiplistCreate head levelCoff = some sl) : Repr sl [] := by
  rw [skiplistCreate] at hCreate
  split at hCreate
  · cases hCreate
    refine ⟨?_, fun t ht => ?_, fun i hi => ?_⟩
    · have hHolds := (@holds_empty Nat (Nat × Option α)).alloc (a := head) rfl (0, none)
      rw [add_zero] at hHolds
      show Holds (SkiplistT.record _) ({(head, 0, none)} : Multiset (Nat × Nat × Option α))
      convert hHolds using 1
      funext a
      by_cases ha : a = head
      · subst ha
        simp [SkiplistT.record]
      · simp [SkiplistT.record, ha]
    · cases ht
    · show (SkiplistT.links _ i head).next = none
      simp [SkiplistT.links, emptyLink]
  · cases hCreate

theorem afterCalls_create (cmp : α → α → Int) {head : Nat} {levelCoff : Int} {sl : SkiplistT α}
    (hCreate : skiplistCreate head levelCoff = some sl) : AfterCalls cmp 0 sl :=
  ⟨[], skiplistCreate_spec hCreate, List.Pairwise.nil, Nat.le_refl 0⟩

theorem afterCalls_step {cmp : α → α → Int} (hCmp : TotalPreorder cmp) {fuel k : Nat}
    {sl sl' : SkiplistT α} {op : SkiplistOp α β} {r : SkiplistResult α β} (hFuel : k < fuel)
    (h : AfterCalls cmp k sl) (hSupplied : Supplied sl op)
    (hStep : skiplistStep cmp fuel sl op = some (r, sl')) : AfterCalls cmp (k + 1) sl' := by
  obtain ⟨ts, hRepr, hSorted, hLength⟩ := h
  obtain ⟨r₁, sl₁, ts₁, hRun, hRepr₁, hSorted₁, hLength₁, -⟩ :=
    skiplistStep_spec hCmp hRepr hSorted (by omega : ts.length < fuel) hSupplied
  rw [hRun] at hStep
  cases hStep
  exact ⟨ts₁, hRepr₁, hSorted₁, by omega⟩

/-- From an empty skiplist, every call returns, and leaves all levels linked and all spans right: a
span is the difference of the ranks of two nodes that follow one another on a level. -/
theorem skiplist_run_spans {cmp : α → α → Int} (hCmp : TotalPreorder cmp) {fuel head : Nat}
    {levelCoff : Int} {sl : SkiplistT α} (hCreate : skiplistCreate head levelCoff = some sl)
    {ops : List (SkiplistOp α β)} (hFuel : ops.length ≤ fuel)
    (hSupplied : Along (skiplistStep cmp fuel) Supplied sl ops) :
    SpansRight cmp sl ∧
      Along (skiplistStep cmp fuel)
          (Does (skiplistStep cmp fuel) fun _ _ _ sl' => SpansRight cmp sl')
        sl ops := by
  constructor
  · obtain ⟨ts, hRepr, hSorted, -⟩ := afterCalls_create cmp hCreate
    exact hRepr.spansRight hSorted
  · refine along_of_counted_inv (AfterCalls cmp) ?_ ?_ (by omega : 0 + ops.length ≤ fuel)
      (afterCalls_create cmp hCreate) hSupplied
    · intro k sl op hk h hLegal
      obtain ⟨ts, hRepr, hSorted, hLength⟩ := h
      obtain ⟨r, sl', ts', hRun, hRepr', hSorted', -, -⟩ :=
        skiplistStep_spec hCmp hRepr hSorted (by omega : ts.length < fuel) hLegal
      exact ⟨r, sl', hRun, hRepr'.spansRight hSorted'⟩
    · intro k sl op r sl' hk h hLegal hStep
      exact afterCalls_step hCmp hk h hLegal hStep

/-- From an empty skiplist, every call returns and does what a sorted list does; a new element goes
behind those that compare equal.  The list is read off the links of the lowest level. -/
theorem skiplist_refines_sorted_list {cmp : α → α → Int} (hCmp : TotalPreorder cmp)
    {fuel head : Nat} {levelCoff : Int} {sl : SkiplistT α}
    (hCreate : skiplistCreate head levelCoff = some sl) {ops : List (SkiplistOp α β)}
    (hFuel : ops.length ≤ fuel) (hSupplied : Along (skiplistStep cmp fuel) Supplied sl ops) :
    (∃ nodes, Lists sl nodes []) ∧
      Along (skiplistStep cmp fuel) (Does (skiplistStep cmp fuel) fun sl op r sl' =>
        ∃ nodes l nodes' l', Lists sl nodes l ∧ Lists sl' nodes' l' ∧ Sorted cmp l ∧
          ListStep cmp fuel sl l op r l') sl ops := by
  constructor
  · obtain ⟨ts, hRepr, -, hLength⟩ := afterCalls_create cmp hCreate
    have hNone : ts = [] := List.eq_nil_of_length_eq_zero (by omega)
    subst hNone
    exact ⟨_, hRepr.lists⟩
  · refine along_of_counted_inv (AfterCalls cmp) ?_ ?_ (by omega : 0 + ops.length ≤ fuel)
      (afterCalls_create cmp hCreate) hSupplied
    · intro k sl op hk h hLegal
      obtain ⟨ts, hRepr, hSorted, hLength⟩ := h
      obtain ⟨r, sl', ts', hRun, hRepr', -, -, hDoes⟩ :=
        skiplistStep_spec hCmp hRepr hSorted (by omega : ts.length < fuel) hLegal
      exact ⟨r, sl', hRun, _, _, _, _, hRepr.lists, hRepr'.lists, hSorted, hDoes⟩
    · intro k sl op r sl' hk h hLegal hStep
      exact afterCalls_step hCmp hk h hLegal hStep

/-- Three insertions on different levels, two of them equal, and an erasure. -/
def someCalls : List (SkiplistOp Nat Unit) :=
  [.insert (some 1) 0 (some 5), .insert (some 2) 20 (some 5), .insert (some 3) 5 (some 2),
    .find (some 5), .erase (some 5), .size]

theorem skiplist_run_spans_three :
    Along (skiplistStep natCmp 6)
      (Does (skiplistStep natCmp 6) fun _ _ _ sl' => SpansRight natCmp sl')
      ((skiplistCreate 0 4).get (by decide)) someCalls :=
  (skiplist_run_spans natCmp_totalPreorder (Option.some_get _).symm (by decide)
    (by decide +kernel)).2

theorem skiplist_refines_sorted_list_three :
    Along (skiplistStep natCmp 6) (Does (skiplistStep natCmp 6) fun sl op r sl' =>
      ∃ nodes l nodes' l', Lists sl nodes l ∧ Lists sl' nodes' l' ∧ Sorted natCmp l ∧
        ListStep natCmp 6 sl l op r l') ((skiplistCreate 0 4).get (by decide)) someCalls :=
  (skiplist_refines_sorted_list natCmp_totalPreorder (Option.some_get _).symm (by decide)
    (by decide +kernel)).2

/-- Behind the last rank nothing is listed, but the scope stays as it was, and a search backwards
finds nothing, although there is an element before. -/
theorem skiplist_out_of_range :
    (run (skiplistStep natCmp 6) ((skiplistCreate 0 4).get (by decide))
        [.insert (some 1) 0 (some 5), .listByRank 2 (some 3) true,
          .backward 2 (some fun _ (arg : Unit) => (0, arg)) (), .size]).map Prod.fst =
      some [.status 0, .listed (-1) (some 3) [], .filtered none (), .status 1] := by
  decide +kernel

end Gbase.Base.Skiplist
