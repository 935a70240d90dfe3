import Gbase.Base.SkiplistOps

/-!
# Ranks in a skiplist

The calls that only look.  Ranks start from 1.

A search by rank adds up spans from the highest level down, and is right because the spans are
differences of ranks; the loops over the lowest level count in steps of one.  Ranks outside the list
are answered with `NULL`, and the statements include them.

## Main results

* `skiplistFindNodeByRank_spec`: the node at a rank.
* `skiplistFindFromRankForward_spec`, `skiplistFindFromRankBackward_spec`: the searches with a
  filter.
* `skiplistFindListByRank_spec`, `skiplistSize_spec`
-/

namespace Gbase.Base.Skiplist

open Gbase.Lib.Lanes
open Gbase.Lib.Linked

variable {α β : Type}

/-- What `_skiplist_find_node_by_rank` does, by the rank. -/
def rankVerdict (rank : Int) (_ : α) (span : Int) : Turn :=
  if span = rank then .found else if span < rank then .pass else .stop

/-- The first element that a filter accepts, and what the filter leaves in its argument. -/
def firstAccepted (f : α → β → Int × β) : List α → β → Option α × β
  | [], arg => (none, arg)
  | d :: l, arg => if (f d arg).1 = 0 then (some d, (f d arg).2) else firstAccepted f l (f d arg).2

/-- The rank is that of an element. -/
def InRange (l : List α) (rank : Int) : Prop := 1 ≤ rank ∧ rank ≤ l.length

instance InRange.decidable (l : List α) (rank : Int) : Decidable (InRange l rank) :=
  inferInstanceAs (Decidable (_ ∧ _))

section

variable {sl : SkiplistT α} {ts before behind : List (Tower α)} {fuel : Nat} {rank : Int}

theorem rankTurn_eq (rank : Int) (n : NodeT α) (d : α) (s : Int) (_ : n.data = some d) :
    rankTurn rank n s = some (rankVerdict rank d s) := by
  rw [rankTurn, rankVerdict]
  split
  · rfl
  · split <;> rfl

/-- The node at a rank. -/
theorem skiplistFindNodeByRank_at {t : Tower α} (h : Repr sl (before ++ t :: behind))
    (hFuel : before.length < fuel) :
    skiplistFindNodeByRank fuel sl ((before.length : Int) + 1) = some (some t.addr) := by
  have hOut := @descend_spec _ sl (rankTurn ((before.length : Int) + 1))
    (rankVerdict ((before.length : Int) + 1)) before (t :: behind) fuel maxSkiplistLevel
    (fun _ => none) [] (by rwa [List.nil_append]) (le_refl _) (fun _ _ => Or.inl rfl)
    (fun hZero => by cases hZero) (rankTurn_eq _)
    (by
      rintro us x vs rfl
      rw [List.length_append, List.length_cons, List.length_nil, rankVerdict,
        if_neg (by omega), if_pos (by omega)])
    (by
      intro us x vs _ hPass
      rw [rankVerdict] at hPass
      split at hPass
      · cases hPass
      · rw [if_neg (by rw [List.length_nil]; omega)] at hPass
        cases hPass)
    hFuel
  simp only [List.length_nil, Int.natCast_zero, Int.zero_add, lastAddr_nil] at hOut
  have hFirst : ∀ us x vs, t :: behind = us ++ x :: vs → us = [] → x = t := by
    rintro us x vs hEq rfl
    cases hEq
    rfl
  rw [skiplistFindNodeByRank, if_neg (by omega)]
  rcases hOut with ⟨node, i, r, change, -, hMeets, -, -, hRun⟩ | ⟨hAll, -⟩
  · obtain ⟨us, x, vs, hEq, -, -, hFound, rfl, rfl⟩ := hMeets
    have hNone : us = [] := by
      apply List.eq_nil_of_length_eq_zero
      rw [rankVerdict] at hFound
      split at hFound
      · omega
      · split at hFound <;> cases hFound
    rw [hRun, hFirst us x vs hEq hNone]
    rfl
  · obtain ⟨next, ⟨hLow, -⟩ | ⟨us, x, vs, hEq, hLow, -, hStop, -⟩⟩ := hAll 0 (by decide)
    · exact absurd (low_zero hLow) (List.cons_ne_nil t behind)
    · have hNone := low_zero hLow
      subst hNone
      rw [rankVerdict, List.length_nil, if_pos (by omega)] at hStop
      cases hStop

/-- There is no node at a rank behind the last one, or before the first one. -/
theorem skiplistFindNodeByRank_none (h : Repr sl ts) (hFuel : ts.length < fuel)
    (hRank : ¬ InRange ts rank) : skiplistFindNodeByRank fuel sl rank = some none := by
  rw [skiplistFindNodeByRank]
  by_cases hLow : rank ≤ 0
  · rw [if_pos hLow]
  · have hHigh : (ts.length : Int) < rank := by
      rw [InRange] at hRank
      omega
    have hOut := @descend_spec _ sl (rankTurn rank) (rankVerdict rank) ts [] fuel maxSkiplistLevel
      (fun _ => none) [] (by rwa [List.nil_append, List.append_nil]) (le_refl _)
      (fun _ _ => Or.inl rfl) (fun hZero => by cases hZero) (rankTurn_eq _)
      (by
        rintro us x vs rfl
        rw [List.length_append, List.length_cons] at hHigh
        rw [List.length_nil, rankVerdict, if_neg (by omega), if_pos (by omega)])
      (by
        intro us x vs hEq
        simp at hEq)
      hFuel
    simp only [List.length_nil, Int.natCast_zero, Int.zero_add, lastAddr_nil] at hOut
    rw [if_neg hLow]
    rcases hOut with ⟨node, i, r, change, -, hMeets, -, -, -⟩ | ⟨-, hRun⟩
    · obtain ⟨us, x, vs, hEq, -⟩ := hMeets
      simp at hEq
    · rw [hRun]
      rfl

/-- The node at a rank, or none. -/
theorem skiplistFindNodeByRank_spec (h : Repr sl ts) (hFuel : ts.length < fuel) (rank : Int) :
    (InRange ts rank ∧ ∃ before t behind, ts = before ++ t :: behind ∧
        rank = (before.length : Int) + 1 ∧
        skiplistFindNodeByRank fuel sl rank = some (some t.addr)) ∨
      ¬ InRange ts rank ∧ skiplistFindNodeByRank fuel sl rank = some none := by
  by_cases hRank : InRange ts rank
  · left
    have hIndex : (rank - 1).toNat < ts.length := by
      obtain ⟨hOne, hLength⟩ := hRank
      omega
    have hSplit : ts = ts.take (rank - 1).toNat ++
        ts[(rank - 1).toNat] :: ts.drop ((rank - 1).toNat + 1) := by
      rw [List.cons_getElem_drop_succ, List.take_append_drop]
    have hLength : (ts.take (rank - 1).toNat).length = (rank - 1).toNat := by
      rw [List.length_take]
      omega
    have hEq : rank = ((ts.take (rank - 1).toNat).length : Int) + 1 := by
      rw [hLength]
      have hOne := hRank.1
      omega
    refine ⟨hRank, _, _, _, hSplit, hEq, ?_⟩
    have hFound := @skiplistFindNodeByRank_at _ sl (ts.take (rank - 1).toNat)
      (ts.drop ((rank - 1).toNat + 1)) fuel ts[(rank - 1).toNat] (by rwa [← hSplit])
      (by rw [hLength]; omega)
    rwa [← hEq] at hFound
  · exact Or.inr ⟨hRank, skiplistFindNodeByRank_none h hFuel hRank⟩

/-- What the loops over the lowest level read at a node. -/
theorem Repr.read {t : Tower α} (h : Repr sl (before ++ t :: behind)) :
    t.addr ≠ sl.head ∧ ∃ n l, sl.mem t.addr = some n ∧ n.data = some t.data ∧
      sl.link t.addr 0 = some l ∧ l.next = behind.head?.map Tower.addr ∧
      l.prev = some (lastAddr sl.head before) := by
  have hRecorded := h.recorded
  have hNodup := hRecorded.nodup
  rw [List.map_append, List.map_cons, List.nodup_cons, List.mem_append, List.mem_cons] at hNodup
  obtain ⟨n, hNode, -, hData⟩ := hRecorded.node (by simp : t ∈ before ++ t :: behind)
  have hZero : 0 < maxSkiplistLevel := by decide
  have hUse := hRecorded.isSome
      (by simp : t.addr ∈ sl.head :: (before ++ t :: behind).map Tower.addr)
  have hLane := h.behind hZero (ends_zero before)
  rw [cells, lane_cons_of_le (Nat.zero_le _)] at hLane
  obtain ⟨-, hBack, -, hRest⟩ := hLane
  have hNext := hRest.next_eq
  refine ⟨fun hEq => hNodup.1 (Or.inr (Or.inl hEq.symm)), n, _, hNode, hData, link_eq hUse hZero,
    ?_, hBack⟩
  cases behind with
  | nil => exact hNext
  | cons u us =>
      rw [lane_cons_of_le (Nat.zero_le _)] at hNext
      exact hNext

/-! ## Loops over the lowest level -/

theorem filterLoop_forward {f : α → β → Int × β} {arg : β} (h : Repr sl (before ++ behind))
    (hFuel : behind.length < fuel) :
    filterLoop f LinkT.next sl fuel (behind.head?.map Tower.addr) arg =
      some (firstAccepted f (behind.map Tower.data) arg) := by
  induction fuel generalizing before behind arg with
  | zero => omega
  | succ fuel ih =>
      cases behind with
      | nil => rfl
      | cons t behind =>
          obtain ⟨hHead, n, l, hNode, hData, hLink, hNext, -⟩ := h.read
          rw [List.head?_cons, Option.map_some, filterLoop, if_neg hHead, List.map_cons,
            firstAccepted]
          simp only [hNode, hData, hLink, Option.bind_eq_bind, Option.bind_some]
          by_cases hRet : (f t.data arg).1 = 0
          · rw [if_pos hRet, if_pos hRet]
            rfl
          · rw [if_neg hRet, if_neg hRet, hNext]
            rw [List.length_cons] at hFuel
            exact @ih (before ++ [t]) behind _ (by rwa [List.append_assoc]) (by omega)

private theorem filterLoop_backward {f : α → β → Int × β} {arg : β} (h : Repr sl (before ++ behind))
    (hFuel : before.length < fuel) :
    filterLoop f LinkT.prev sl fuel (some (lastAddr sl.head before)) arg =
      some (firstAccepted f (before.reverse.map Tower.data) arg) := by
  induction fuel generalizing before behind arg with
  | zero => omega
  | succ fuel ih =>
      rcases List.eq_nil_or_concat before with rfl | ⟨init, t, rfl⟩
      · rw [lastAddr, filterLoop, if_pos rfl]
        rfl
      · rw [List.concat_eq_append] at h hFuel ⊢
        rw [List.append_assoc] at h
        obtain ⟨hHead, n, l, hNode, hData, hLink, -, hPrev⟩ := h.read
        rw [lastAddr_append, lastAddr, lastAddr, filterLoop, if_neg hHead, List.reverse_append,
          List.reverse_cons, List.reverse_nil, List.nil_append, List.singleton_append,
          List.map_cons, firstAccepted]
        simp only [hNode, hData, hLink, Option.bind_eq_bind, Option.bind_some]
        by_cases hRet : (f t.data arg).1 = 0
        · rw [if_pos hRet, if_pos hRet]
          rfl
        · rw [if_neg hRet, if_neg hRet, hPrev]
          rw [List.length_append, List.length_cons] at hFuel
          exact ih h (by omega)

theorem listLoop_spec {left i : Nat} {scope : Int} (h : Repr sl (before ++ behind)) :
    listLoop sl left i (behind.head?.map Tower.addr) scope =
      some ((behind.take left).map fun t => some t.data,
        if behind.take left = [] then scope else (i : Int) + (behind.take left).length) := by
  induction left generalizing before behind i scope with
  | zero => rfl
  | succ left ih =>
      cases behind with
      | nil => rfl
      | cons t behind =>
          obtain ⟨-, n, l, hNode, hData, hLink, hNext, -⟩ := h.read
          have hRest := @ih (before ++ [t]) behind (i + 1) ((i : Int) + 1)
              (by rwa [List.append_assoc])
          rw [List.head?_cons, Option.map_some, listLoop]
          simp only [hNode, hData, hLink, hNext, hRest, Option.bind_eq_bind, Option.bind_some,
            List.take_succ_cons, List.map_cons, reduceCtorEq, if_false, List.length_cons]
          refine congrArg some (Prod.ext rfl ?_)
          by_cases hNone : behind.take left = []
          · rw [if_pos hNone, hNone]
            rfl
          · show (if behind.take left = [] then _ else _) = _
            rw [if_neg hNone]
            omega

/-! ## Calls -/

/-- The elements of the towers. -/
def elems (ts : List (Tower α)) : List α := ts.map Tower.data

theorem elems_append {us : List (Tower α)} : elems (ts ++ us) = elems ts ++ elems us :=
  List.map_append

theorem length_elems : (elems ts).length = ts.length := List.length_map _

theorem skiplistFindByRank_spec (h : Repr sl ts) (hFuel : ts.length < fuel) (rank : Int) :
    skiplistFindByRank fuel sl rank =
      some (if InRange (elems ts) rank then (elems ts)[(rank - 1).toNat]? else none) := by
  have hSame : InRange (elems ts) rank ↔ InRange ts rank := by
    rw [InRange, InRange, elems, List.length_map]
  rw [skiplistFindByRank, if_congr hSame rfl rfl]
  rcases skiplistFindNodeByRank_spec h hFuel rank with
    ⟨hRange, before, t, behind, rfl, hRank, hRun⟩ | ⟨hRange, hRun⟩
  · obtain ⟨-, n, l, hNode, hData, -⟩ := h.read
    rw [if_neg (by omega), if_pos hRange, hRun]
    simp only [Option.bind_eq_bind, Option.bind_some, hNode, hData]
    rw [elems, hRank, Int.add_sub_cancel, Int.toNat_natCast, List.getElem?_map,
      List.getElem?_append_right (Nat.le_refl _), Nat.sub_self]
    rfl
  · rw [if_neg hRange, hRun]
    split <;> rfl

theorem skiplistFindFromRankForward_spec (h : Repr sl ts) (hFuel : ts.length < fuel) (rank : Int)
    (f : Option (α → β → Int × β)) (arg : β) :
    skiplistFindFromRankForward fuel sl rank f arg =
      some (match f with
        | none => (none, arg)
        | some f =>
            if InRange (elems ts) rank then
              firstAccepted f ((elems ts).drop (rank - 1).toNat) arg
            else (none, arg)) := by
  have hSame : InRange (elems ts) rank ↔ InRange ts rank := by
    rw [InRange, InRange, elems, List.length_map]
  rw [skiplistFindFromRankForward, findFromRank]
  rcases skiplistFindNodeByRank_spec h hFuel rank with
    ⟨hRange, before, t, behind, rfl, hRank, hRun⟩ | ⟨hRange, hRun⟩
  · rw [if_neg (by omega), hRun]
    cases f with
    | none => rfl
    | some f =>
        have hLoop := @filterLoop_forward _ _ sl before (t :: behind) fuel f arg h
          (by rw [List.length_append] at hFuel; omega)
        have hDrop : (elems (before ++ t :: behind)).drop (rank - 1).toNat =
            (t :: behind).map Tower.data := by
          rw [hRank, Int.add_sub_cancel, Int.toNat_natCast, elems, List.map_append,
            List.drop_left' (List.length_map _)]
        simp only [if_pos (hSame.mpr hRange), hDrop]
        exact hLoop
  · have hFalse := fun hIn => hRange (hSame.mp hIn)
    cases f with
    | none =>
        rw [hRun]
        split <;> rfl
    | some f =>
        simp only [if_neg hFalse, hRun]
        split
        · rfl
        · cases fuel with
          | zero => omega
          | succ fuel => rfl

theorem skiplistFindFromRankBackward_spec (h : Repr sl ts) (hFuel : ts.length < fuel) (rank : Int)
    (f : Option (α → β → Int × β)) (arg : β) :
    skiplistFindFromRankBackward fuel sl rank f arg =
      some (match f with
        | none => (none, arg)
        | some f =>
            if InRange (elems ts) rank then
              firstAccepted f ((elems ts).take rank.toNat).reverse arg
            else (none, arg)) := by
  have hSame : InRange (elems ts) rank ↔ InRange ts rank := by
    rw [InRange, InRange, elems, List.length_map]
  rw [skiplistFindFromRankBackward, findFromRank]
  rcases skiplistFindNodeByRank_spec h hFuel rank with
    ⟨hRange, before, t, behind, rfl, hRank, hRun⟩ | ⟨hRange, hRun⟩
  · rw [if_neg (by omega), hRun]
    cases f with
    | none => rfl
    | some f =>
        rw [List.append_cons] at h hFuel
        have hLoop := @filterLoop_backward _ _ sl (before ++ [t]) behind fuel f arg h
          (by
            simp only [List.length_append, List.length_cons, List.length_nil] at hFuel ⊢
            omega)
        have hTake : ((elems (before ++ t :: behind)).take rank.toNat).reverse =
            (before ++ [t]).reverse.map Tower.data := by
          rw [List.append_cons, elems, List.map_append, List.take_left' (by
            rw [List.length_map, List.length_append, List.length_cons, List.length_nil, hRank]
            omega), List.map_reverse]
        rw [lastAddr_append] at hLoop
        simp only [if_pos (hSame.mpr hRange), hTake]
        exact hLoop
  · have hFalse := fun hIn => hRange (hSame.mp hIn)
    cases f with
    | none =>
        rw [hRun]
        split <;> rfl
    | some f =>
        simp only [if_neg hFalse, hRun]
        split
        · rfl
        · cases fuel with
          | zero => omega
          | succ fuel => rfl

/-- What is listed from a rank on. -/
theorem skiplistFindListByRank_spec (h : Repr sl ts) (hFuel : ts.length < fuel) (rank scope : Int) :
    skiplistFindListByRank fuel sl rank (some scope) true =
      some (if InRange (elems ts) rank then
        (0, some (if scope ≤ 0 then scope
            else min scope ((elems ts).length - rank + 1)),
          (((elems ts).drop (rank - 1).toNat).take scope.toNat).map some)
        else (-1, some scope, [])) := by
  have hSame : InRange (elems ts) rank ↔ InRange ts rank := by
    rw [InRange, InRange, elems, List.length_map]
  rw [skiplistFindListByRank]
  simp only [Bool.true_eq_false, false_or]
  rcases skiplistFindNodeByRank_spec h hFuel rank with
    ⟨hRange, before, t, behind, rfl, hRank, hRun⟩ | ⟨hRange, hRun⟩
  · have hLoop := @listLoop_spec _ sl before (t :: behind) scope.toNat 0 scope h
    have hDrop : (elems (before ++ t :: behind)).drop (rank - 1).toNat =
        (t :: behind).map Tower.data := by
      rw [hRank, Int.add_sub_cancel, Int.toNat_natCast, elems, List.map_append,
        List.drop_left' (List.length_map _)]
    have hScope : (if (t :: behind).take scope.toNat = [] then scope
        else ((0 : Nat) : Int) + ((t :: behind).take scope.toNat).length) =
        if scope ≤ 0 then scope
        else min scope (((elems (before ++ t :: behind)).length : Int) - rank + 1) := by
      rw [elems, List.length_map, List.length_append, hRank]
      by_cases hNone : scope ≤ 0
      · rw [if_pos hNone, Int.toNat_of_nonpos hNone, List.take_zero, if_pos rfl]
      · have hSome : (t :: behind).take scope.toNat ≠ [] := by
          apply List.ne_nil_of_length_pos
          rw [List.length_take, List.length_cons]
          omega
        rw [if_neg hNone, if_neg hSome, List.length_take]
        omega
    rw [List.head?_cons, Option.map_some] at hLoop
    rw [if_neg (by omega), hRun, if_pos (hSame.mpr hRange), hDrop, ← hScope]
    simp only [Option.bind_eq_bind, Option.bind_some, hLoop, ← List.map_take, List.map_map]
    rfl
  · have hFalse := fun hIn => hRange (hSame.mp hIn)
    rw [if_neg hFalse, hRun]
    split <;> rfl

theorem skiplistSize_spec (h : Repr sl ts) (hFuel : ts.length < fuel) :
    skiplistSize fuel sl = some (ts.length : Int) := by
  have hOut := @descend_spec _ sl (fun _ _ => some .pass) (fun _ _ => .pass) ts [] fuel
    maxSkiplistLevel (fun _ => none) [] (by rwa [List.nil_append, List.append_nil]) (le_refl _)
    (fun _ _ => Or.inl rfl) (fun hZero => by cases hZero) (fun _ _ _ _ => rfl)
    (fun _ _ _ _ => rfl)
    (by
      intro us x vs hEq
      simp at hEq)
    hFuel
  simp only [List.length_nil, Int.natCast_zero, Int.zero_add, lastAddr_nil] at hOut
  rcases hOut with ⟨node, i, r, change, -, hMeets, -, -, -⟩ | ⟨-, hRun⟩
  · obtain ⟨us, x, vs, hEq, -⟩ := hMeets
    simp at hEq
  · rw [skiplistSize, hRun]
    rfl

end

end Gbase.Base.Skiplist
