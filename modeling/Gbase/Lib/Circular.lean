import Mathlib.Data.List.Nodup

/-!
# Circular lists

Cells are linked in both directions around a head that carries no value.  Going around, every cell
is the source of one edge and the target of one, so a change of some links is seen edge by edge.

## Main results

* `Circle.insert`, `Circle.erase`: a cell is linked in, and taken out.
* `Circle.splice`: the cells of one circle are put into another one.
* `Circle.edge`, `mem_edges_iff`: two cells next to each other, and the edges by their places.
-/

namespace Gbase.Lib.Circular

universe u

variable {ι : Type u}

/-- The edges from `p` along some cells to `q`. -/
def edges : ι → List ι → ι → List (ι × ι)
  | p, [], q => [(p, q)]
  | p, x :: xs, q => (p, x) :: edges x xs q

/-- The last of `p` and the cells behind it. -/
def lastOf : ι → List ι → ι
  | p, [] => p
  | _, x :: xs => lastOf x xs

/-- The first of some cells, or `q` behind them. -/
def firstOf : List ι → ι → ι
  | [], q => q
  | y :: _, _ => y

/-- The cells are linked in both directions around the head. -/
structure Circle (next prev : ι → Option ι) (head : ι) (xs : List ι) : Prop where
  nodup : (head :: xs).Nodup
  linked : ∀ e, e ∈ edges head xs head → next e.1 = some e.2 ∧ prev e.2 = some e.1

section

variable {next prev next' prev' : ι → Option ι} {head p q a : ι} {xs ys : List ι}

theorem map_fst_edges (p : ι) (xs : List ι) (q : ι) :
    (edges p xs q).map Prod.fst = p :: xs := by
  induction xs generalizing p with
  | nil => rfl
  | cons x xs ih => rw [edges, List.map_cons, ih]

theorem map_snd_edges (p : ι) (xs : List ι) (q : ι) :
    (edges p xs q).map Prod.snd = xs ++ [q] := by
  induction xs generalizing p with
  | nil => rfl
  | cons x xs ih => rw [edges, List.map_cons, ih, List.cons_append]

/-- The edges around the ring, by their places. -/
theorem mem_edges_iff (p : ι) (xs : List ι) (e : ι × ι) : e ∈ edges p xs p ↔
    ∃ i, (p :: xs)[i]? = some e.1 ∧ (p :: xs)[(i + 1) % (p :: xs).length]? = some e.2 := by
  have hZip : edges p xs p = (p :: xs).zip (xs ++ [p]) :=
    List.zip_of_prod (map_fst_edges p xs p) (map_snd_edges p xs p)
  have hBehind : ∀ i, i < (p :: xs).length →
      (xs ++ [p])[i]? = (p :: xs)[(i + 1) % (p :: xs).length]? := by
    intro i hi
    rw [List.length_cons] at hi ⊢
    by_cases hLast : i = xs.length
    · rw [hLast, List.getElem?_concat_length, Nat.mod_self, List.getElem?_cons_zero]
    · rw [Nat.mod_eq_of_lt (by omega), List.getElem?_cons_succ,
        List.getElem?_append_left (by omega)]
  rw [hZip, List.mem_iff_getElem?]
  refine exists_congr fun i => ?_
  rw [List.getElem?_zip_eq_some]
  refine and_congr_right fun hAt => ?_
  rw [hBehind i (List.getElem?_eq_some_iff.mp hAt).1]

theorem lastOf_mem (p : ι) (xs : List ι) : lastOf p xs ∈ p :: xs := by
  induction xs generalizing p with
  | nil => exact List.mem_cons_self
  | cons x xs ih => exact List.mem_cons_of_mem p (ih x)

@[simp] theorem lastOf_append (p : ι) (xs ys : List ι) :
    lastOf p (xs ++ ys) = lastOf (lastOf p xs) ys := by
  induction xs generalizing p with
  | nil => rfl
  | cons x xs ih => exact ih x

/-- The edges up to some cell and those from it on. -/
theorem edges_append (p : ι) (xs ys : List ι) (q : ι) :
    edges p (xs ++ a :: ys) q = edges p xs a ++ edges a ys q := by
  induction xs generalizing p with
  | nil => rfl
  | cons x xs ih => rw [List.cons_append, edges, ih, edges, List.cons_append]

/-- Only the last edge depends on where the edges go. -/
theorem edges_target (p : ι) (xs : List ι) :
    ∃ before, ∀ q, edges p xs q = before ++ [(lastOf p xs, q)] := by
  induction xs generalizing p with
  | nil => exact ⟨[], fun q => rfl⟩
  | cons x xs ih =>
      obtain ⟨before, hBefore⟩ := ih x
      exact ⟨(p, x) :: before, fun q => congrArg ((p, x) :: ·) (hBefore q)⟩

theorem firstOf_mem (xs : List ι) (q : ι) : firstOf xs q ∈ xs ++ [q] := by
  cases xs with
  | nil => exact List.mem_singleton_self q
  | cons x xs => exact List.mem_cons_self

/-- The cells around a place of the ring. -/
theorem lastOf_mem_ring (p : ι) (xs ys : List ι) : lastOf p xs ∈ p :: (xs ++ ys) :=
  List.mem_append_left ys (lastOf_mem p xs)

theorem firstOf_mem_ring (p : ι) (xs ys : List ι) : firstOf ys p ∈ p :: (xs ++ ys) := by
  have hMem := firstOf_mem ys p
  rw [List.mem_append, List.mem_singleton] at hMem
  rw [List.mem_cons, List.mem_append]
  exact hMem.elim (fun hIn => Or.inr (Or.inr hIn)) Or.inl

/-- The edge at some place, and what becomes of it when a cell is put there. -/
theorem edges_split (p : ι) (xs ys : List ι) (q : ι) :
    ∃ before behind,
      edges p (xs ++ ys) q = before ++ (lastOf p xs, firstOf ys q) :: behind ∧
      ∀ a, edges p (xs ++ a :: ys) q =
        before ++ (lastOf p xs, a) :: (a, firstOf ys q) :: behind := by
  induction xs generalizing p with
  | nil =>
      cases ys with
      | nil => exact ⟨[], [], rfl, fun a => rfl⟩
      | cons y ys => exact ⟨[], edges y ys q, rfl, fun a => rfl⟩
  | cons x xs ih =>
      obtain ⟨before, behind, hSplit, hPut⟩ := ih x
      refine ⟨(p, x) :: before, behind, ?_, ?_⟩
      · rw [List.cons_append, edges, hSplit]
        rfl
      · intro a
        rw [List.cons_append, edges, hPut]
        rfl

/-- Of values that are no two the same, the one at some place is at no other. -/
theorem map_ne {κ : Type u} {f : ι × ι → κ} {before behind : List (ι × ι)} {x e : ι × ι}
    (h : ((before ++ x :: behind).map f).Nodup) (he : e ∈ before ++ behind) : f e ≠ f x := by
  rw [List.map_append, List.map_cons, List.nodup_middle, List.nodup_cons, ← List.map_append] at h
  exact fun hEq => h.1 (hEq ▸ List.mem_map_of_mem he)

/-- Links that change at one edge only, and at a cell outside, leave the other edges as they are. -/
theorem linked_others {before behind : List (ι × ι)} {c d : ι}
    (hSplit : edges head xs head = before ++ (c, d) :: behind) (hNodup : (head :: xs).Nodup)
    (hNew : a ∉ head :: xs)
    (hLinked : ∀ e, e ∈ before ++ behind → next e.1 = some e.2 ∧ prev e.2 = some e.1)
    (hNext : ∀ b, b ≠ c → b ≠ a → next' b = next b)
    (hPrev : ∀ b, b ≠ d → b ≠ a → prev' b = prev b) :
    ∀ e, e ∈ before ++ behind → next' e.1 = some e.2 ∧ prev' e.2 = some e.1 := by
  intro e he
  have hSources := map_fst_edges head xs head
  have hTargets := map_snd_edges head xs head
  rw [hSplit] at hSources hTargets
  have hAll : e ∈ before ++ (c, d) :: behind := by
    rw [List.mem_append, List.mem_cons]
    exact (List.mem_append.mp he).imp_right Or.inr
  have hFrom : e.1 ≠ c := map_ne (by rw [hSources]; exact hNodup) he
  have hTo : e.2 ≠ d :=
    map_ne (by rw [hTargets, List.nodup_append_comm]; exact hNodup) he
  have hFst : e.1 ∈ head :: xs := by
    rw [← hSources]
    exact List.mem_map_of_mem hAll
  have hSnd : e.2 ∈ xs ++ [head] := by
    rw [← hTargets]
    exact List.mem_map_of_mem hAll
  rw [List.mem_append, List.mem_singleton, or_comm, ← List.mem_cons] at hSnd
  obtain ⟨hGo, hReturn⟩ := hLinked e he
  exact ⟨(hNext _ hFrom fun hEq => hNew (hEq ▸ hFst)).trans hGo,
    (hPrev _ hTo fun hEq => hNew (hEq ▸ hSnd)).trans hReturn⟩

/-- A head that points to itself. -/
theorem Circle.single (hNext : next head = some head) (hPrev : prev head = some head) :
    Circle next prev head [] := by
  refine ⟨List.nodup_singleton head, ?_⟩
  intro e he
  rw [edges, List.mem_singleton] at he
  subst he
  exact ⟨hNext, hPrev⟩

theorem Circle.edge (h : Circle next prev head (xs ++ ys)) :
    next (lastOf head xs) = some (firstOf ys head) ∧
      prev (firstOf ys head) = some (lastOf head xs) := by
  obtain ⟨before, behind, hSplit, -⟩ := edges_split head xs ys head
  exact h.linked (lastOf head xs, firstOf ys head) (by rw [hSplit]; simp)

/-- Following the links up to `q`, one meets the same cells. -/
theorem eq_of_edges (hx : ∀ e, e ∈ edges p xs q → next e.1 = some e.2)
    (hy : ∀ e, e ∈ edges p ys q → next e.1 = some e.2) (hqx : q ∉ xs) (hqy : q ∉ ys) : xs = ys := by
  induction xs generalizing p ys with
  | nil =>
      cases ys with
      | nil => rfl
      | cons y ys =>
          have hEnd := hx (p, q) (List.mem_singleton_self _)
          rw [hy (p, y) List.mem_cons_self, Option.some.injEq] at hEnd
          change y = q at hEnd
          exact absurd (hEnd ▸ List.mem_cons_self) hqy
  | cons x xs ih =>
      have hHead := hx (p, x) List.mem_cons_self
      cases ys with
      | nil =>
          rw [hy (p, q) (List.mem_singleton_self _), Option.some.injEq] at hHead
          change q = x at hHead
          exact absurd (hHead ▸ List.mem_cons_self) hqx
      | cons y ys =>
          rw [hy (p, y) List.mem_cons_self, Option.some.injEq] at hHead
          change y = x at hHead
          subst hHead
          rw [ih (fun e he => hx e (List.mem_cons_of_mem _ he))
            (fun e he => hy e (List.mem_cons_of_mem _ he))
            (fun hIn => hqx (List.mem_cons_of_mem _ hIn))
            (fun hIn => hqy (List.mem_cons_of_mem _ hIn))]

/-- The links tell the cells. -/
theorem Circle.unique (hx : Circle next prev head xs) (hy : Circle next prev head ys) :
    xs = ys :=
  eq_of_edges (fun e he => (hx.linked e he).1) (fun e he => (hy.linked e he).1)
    (List.nodup_cons.mp hx.nodup).1 (List.nodup_cons.mp hy.nodup).1

/-- A cell is linked in. -/
theorem Circle.insert (h : Circle next prev head (xs ++ ys)) (hNew : a ∉ head :: (xs ++ ys))
    (hBefore : next' (lastOf head xs) = some a) (hAfter : next' a = some (firstOf ys head))
    (hNext : ∀ b, b ≠ lastOf head xs → b ≠ a → next' b = next b)
    (hBack : prev' a = some (lastOf head xs)) (hHead : prev' (firstOf ys head) = some a)
    (hPrev : ∀ b, b ≠ firstOf ys head → b ≠ a → prev' b = prev b) :
    Circle next' prev' head (xs ++ a :: ys) := by
  obtain ⟨before, behind, hSplit, hPut⟩ := edges_split head xs ys head
  have hOld : ∀ e, e ∈ before ++ behind → next e.1 = some e.2 ∧ prev e.2 = some e.1 := by
    intro e he
    apply h.linked e
    rw [hSplit, List.mem_append, List.mem_cons]
    exact (List.mem_append.mp he).imp_right Or.inr
  have hOther := linked_others hSplit h.nodup hNew hOld hNext hPrev
  refine ⟨?_, ?_⟩
  · rw [← List.cons_append, List.nodup_middle, List.nodup_cons]
    exact ⟨hNew, h.nodup⟩
  · intro e he
    rw [hPut, List.mem_append, List.mem_cons, List.mem_cons] at he
    rcases he with hLeft | rfl | rfl | hRight
    · exact hOther e (List.mem_append_left behind hLeft)
    · exact ⟨hBefore, hBack⟩
    · exact ⟨hAfter, hHead⟩
    · exact hOther e (List.mem_append_right before hRight)

/-- A cell is taken out. -/
theorem Circle.erase (h : Circle next prev head (xs ++ a :: ys))
    (hBefore : next' (lastOf head xs) = some (firstOf ys head))
    (hNext : ∀ b, b ≠ lastOf head xs → b ≠ a → next' b = next b)
    (hHead : prev' (firstOf ys head) = some (lastOf head xs))
    (hPrev : ∀ b, b ≠ firstOf ys head → b ≠ a → prev' b = prev b) :
    Circle next' prev' head (xs ++ ys) := by
  obtain ⟨before, behind, hSplit, hPut⟩ := edges_split head xs ys head
  have hNodup := h.nodup
  rw [← List.cons_append, List.nodup_middle, List.nodup_cons, List.cons_append] at hNodup
  obtain ⟨hOut, hRest⟩ := hNodup
  have hOld : ∀ e, e ∈ before ++ behind → next e.1 = some e.2 ∧ prev e.2 = some e.1 := by
    intro e he
    apply h.linked e
    rw [hPut, List.mem_append, List.mem_cons, List.mem_cons]
    exact (List.mem_append.mp he).imp_right fun h => Or.inr (Or.inr h)
  have hOther := linked_others hSplit hRest hOut hOld hNext hPrev
  refine ⟨hRest, ?_⟩
  intro e he
  rw [hSplit, List.mem_append, List.mem_cons] at he
  rcases he with hLeft | rfl | hRight
  · exact hOther e (List.mem_append_left behind hLeft)
  · exact ⟨hBefore, hHead⟩
  · exact hOther e (List.mem_append_right before hRight)

/-- The first edge, and the others whatever is put in front of them. -/
theorem edges_front (p : ι) (xs : List ι) (q : ι) : ∃ rest,
    edges p xs q = (p, firstOf xs q) :: rest ∧
      ∀ p' ys, edges p' (ys ++ xs) q = edges p' ys (firstOf xs q) ++ rest := by
  cases xs with
  | nil =>
      refine ⟨[], rfl, ?_⟩
      intro p' ys
      rw [List.append_nil, List.append_nil]
      rfl
  | cons x xs => exact ⟨edges x xs q, rfl, fun p' ys => edges_append p' ys xs q⟩

/-- The cells of another circle are put in front. -/
theorem Circle.splice {list y : ι} (h : Circle next prev head xs)
    (hList : Circle next prev list (y :: ys)) (hApart : ∀ b, b ∈ y :: ys → b ∉ head :: xs)
    (hGo : next' head = some y) (hEnd : next' (lastOf y ys) = some (firstOf xs head))
    (hNext : ∀ b, b ≠ head → b ≠ lastOf y ys → next' b = next b)
    (hBack : prev' y = some head) (hBehind : prev' (firstOf xs head) = some (lastOf y ys))
    (hPrev : ∀ b, b ≠ y → b ≠ firstOf xs head → prev' b = prev b) :
    Circle next' prev' head (y :: ys ++ xs) := by
  obtain ⟨rest, hFront, hPut⟩ := edges_front head xs head
  obtain ⟨before, hBefore⟩ := edges_target y ys
  have hOwn : edges list (y :: ys) list = (list, y) :: before ++ [(lastOf y ys, list)] := by
    rw [edges, hBefore]
    rfl
  have hOwnFst := map_fst_edges list (y :: ys) list
  have hOwnSnd := map_snd_edges list (y :: ys) list
  have hFst := map_fst_edges head xs head
  have hSnd := map_snd_edges head xs head
  have hLast : lastOf y ys ∈ y :: ys := lastOf_mem y ys
  have hFirst : firstOf xs head ∈ head :: xs := by
    have hIn := firstOf_mem xs head
    rwa [List.mem_append, List.mem_singleton, or_comm, ← List.mem_cons] at hIn
  have hOwnNodup : (y :: ys ++ [list]).Nodup := by
    rw [List.nodup_append_comm]
    exact hList.nodup
  have hNodup : (xs ++ [head]).Nodup := by
    rw [List.nodup_append_comm]
    exact h.nodup
  refine ⟨?_, ?_⟩
  · rw [← List.nodup_middle]
    refine List.Nodup.append (List.nodup_cons.mp hList.nodup).2 h.nodup ?_
    exact fun b hb hb' => hApart b hb hb'
  · intro e he
    rw [List.cons_append, edges, hPut, hBefore] at he
    simp only [List.mem_cons, List.mem_append, List.append_assoc, List.not_mem_nil, or_false] at he
    rcases he with rfl | hIn | rfl | hIn
    · exact ⟨hGo, hBack⟩
    · -- an edge within the cells that are put in front
      have hMem : e ∈ edges list (y :: ys) list := by
        rw [hOwn, List.mem_append]
        exact Or.inl (List.mem_cons_of_mem _ hIn)
      have hFrom : e.1 ∈ list :: y :: ys := hOwnFst ▸ List.mem_map_of_mem hMem
      have hTo : e.2 ∈ y :: ys ++ [list] := hOwnSnd ▸ List.mem_map_of_mem hMem
      rw [hOwn] at hOwnFst hOwnSnd
      have hFstNodup : (((list, y) :: before ++ [(lastOf y ys, list)]).map Prod.fst).Nodup :=
        hOwnFst.symm ▸ hList.nodup
      have hSndNodup : (((list, y) :: before ++ [(lastOf y ys, list)]).map Prod.snd).Nodup :=
        hOwnSnd.symm ▸ hOwnNodup
      have hBehindFirst : e ∈ before ++ [(lastOf y ys, list)] := List.mem_append_left _ hIn
      have hBeforeLast : e ∈ (list, y) :: before ++ [] := by
        rw [List.append_nil]
        exact List.mem_cons_of_mem _ hIn
      have hFstNodup' :
          (([] ++ (list, y) :: (before ++ [(lastOf y ys, list)])).map Prod.fst).Nodup := hFstNodup
      have hSndNodup' :
          (([] ++ (list, y) :: (before ++ [(lastOf y ys, list)])).map Prod.snd).Nodup := hSndNodup
      have hFromList : e.1 ≠ list := map_ne hFstNodup' hBehindFirst
      have hFromLast : e.1 ≠ lastOf y ys := map_ne hFstNodup hBeforeLast
      have hToFirst : e.2 ≠ y := map_ne hSndNodup' hBehindFirst
      have hToList : e.2 ≠ list := map_ne hSndNodup hBeforeLast
      have hFromIn : e.1 ∈ y :: ys := (List.mem_cons.mp hFrom).resolve_left hFromList
      have hToIn : e.2 ∈ y :: ys := by
        rw [List.mem_append, List.mem_singleton] at hTo
        exact hTo.resolve_right hToList
      have hFromHead : e.1 ≠ head := fun hEq => hApart _ hFromIn (hEq ▸ List.mem_cons_self)
      have hToFront : e.2 ≠ firstOf xs head := fun hEq => hApart _ hToIn (hEq ▸ hFirst)
      rw [hNext e.1 hFromHead hFromLast, hPrev e.2 hToFirst hToFront]
      exact hList.linked e hMem
    · exact ⟨hEnd, hBehind⟩
    · -- an edge within the cells that were there
      have hMem : e ∈ edges head xs head := by
        rw [hFront]
        exact List.mem_cons_of_mem _ hIn
      have hFrom : e.1 ∈ head :: xs := hFst ▸ List.mem_map_of_mem hMem
      have hTo : e.2 ∈ head :: xs := by
        have hBehind : e.2 ∈ xs ++ [head] := hSnd ▸ List.mem_map_of_mem hMem
        rwa [List.mem_append, List.mem_singleton, or_comm, ← List.mem_cons] at hBehind
      rw [hFront] at hFst hSnd
      have hFstNodup : (([] ++ (head, firstOf xs head) :: rest).map Prod.fst).Nodup :=
        hFst.symm ▸ h.nodup
      have hSndNodup : (([] ++ (head, firstOf xs head) :: rest).map Prod.snd).Nodup :=
        hSnd.symm ▸ hNodup
      have hFromHead : e.1 ≠ head := map_ne hFstNodup hIn
      have hToFront : e.2 ≠ firstOf xs head := map_ne hSndNodup hIn
      have hFromLast : e.1 ≠ lastOf y ys := fun hEq => hApart _ hLast (hEq ▸ hFrom)
      have hToFirst : e.2 ≠ y := fun hEq => hApart _ List.mem_cons_self (hEq ▸ hTo)
      rw [hNext e.1 hFromHead hFromLast, hPrev e.2 hToFirst hToFront]
      exact h.linked e hMem

end

end Gbase.Lib.Circular
