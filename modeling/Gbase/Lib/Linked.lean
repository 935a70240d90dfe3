import Mathlib.Data.List.Basic

/-!
# Doubly linked chains

Cells are linked in both directions, and each of them carries a value.  The links are given by
functions of the address.  A chain starts behind a cell that is not part of it, the head of the
list or another cell of it, so every chain can be cut anywhere.

## Main results

* `Chain.insert`, `Chain.erase`: a cell is linked in, and taken out.
* `Chain.setVal`: a new value in a cell.
* `Chain.behind`: where a chain is cut.
-/

namespace Gbase.Lib.Linked

universe u v

variable {ι : Type u} {ν : Type v}

/-- Behind `p` come the cells of the list, with these values, and then nothing. -/
def Chain (next prev : ι → Option ι) (val : ι → ν) : ι → List (ι × ν) → Prop
  | p, [] => next p = none
  | p, (a, v) :: cs => next p = some a ∧ prev a = some p ∧ val a = v ∧ Chain next prev val a cs

/-- The last cell of a chain that starts behind `p`. -/
def last : ι → List (ι × ν) → ι
  | p, [] => p
  | _, (a, _) :: cs => last a cs

section

variable {next prev next' prev' : ι → Option ι} {val val' : ι → ν} {p a b : ι} {v w : ν}
  {cs ds : List (ι × ν)}

@[simp] theorem last_nil : last p ([] : List (ι × ν)) = p := rfl

@[simp] theorem last_cons : last p ((a, v) :: cs) = last a cs := rfl

@[simp] theorem last_append : last p (cs ++ ds) = last (last p cs) ds := by
  induction cs generalizing p with
  | nil => rfl
  | cons c cs ih => exact ih

/-- The last cell is the start or a cell of the chain. -/
theorem last_mem : last p cs ∈ p :: cs.map Prod.fst := by
  induction cs generalizing p with
  | nil => exact List.mem_cons_self
  | cons c cs ih => exact List.mem_cons_of_mem p ih

/-- What the start points to. -/
theorem Chain.next_eq (h : Chain next prev val p cs) : next p = cs.head?.map Prod.fst := by
  cases cs with
  | nil => exact h
  | cons c cs => exact h.1

/-- Where a chain is cut, its second part starts behind the last cell of its first part. -/
theorem Chain.behind (h : Chain next prev val p (cs ++ ds)) :
    Chain next prev val (last p cs) ds := by
  induction cs generalizing p with
  | nil => exact h
  | cons c cs ih => exact ih h.2.2.2

/-- A chain does not see what happens elsewhere. -/
theorem Chain.congr (h : Chain next prev val p cs)
    (hNext : ∀ b, b ∈ p :: cs.map Prod.fst → next' b = next b)
    (hPrev : ∀ b, b ∈ cs.map Prod.fst → prev' b = prev b)
    (hVal : ∀ b, b ∈ cs.map Prod.fst → val' b = val b) : Chain next' prev' val' p cs := by
  induction cs generalizing p with
  | nil => exact (hNext p List.mem_cons_self).trans h
  | cons c cs ih =>
      obtain ⟨hHere, hBack, hValue, hRest⟩ := h
      refine ⟨(hNext p List.mem_cons_self).trans hHere,
        (hPrev c.1 List.mem_cons_self).trans hBack, (hVal c.1 List.mem_cons_self).trans hValue, ?_⟩
      apply ih hRest
      · exact fun b hb => hNext b (List.mem_cons_of_mem p hb)
      · exact fun b hb => hPrev b (List.mem_cons_of_mem c.1 hb)
      · exact fun b hb => hVal b (List.mem_cons_of_mem c.1 hb)

/-- The second part of a chain is exchanged; the first part does not change, except for what its
last cell points to. -/
theorem Chain.replace (h : Chain next prev val p (cs ++ ds)) {ds' : List (ι × ν)}
    (hNodup : (p :: cs.map Prod.fst).Nodup)
    (hNext : ∀ b, b ∈ p :: cs.map Prod.fst → b ≠ last p cs → next' b = next b)
    (hPrev : ∀ b, b ∈ cs.map Prod.fst → prev' b = prev b)
    (hVal : ∀ b, b ∈ cs.map Prod.fst → val' b = val b)
    (hRest : Chain next' prev' val' (last p cs) ds') : Chain next' prev' val' p (cs ++ ds') := by
  induction cs generalizing p with
  | nil => exact hRest
  | cons c cs ih =>
      obtain ⟨hHere, hBack, hValue, hTail⟩ := h
      rw [List.map_cons, List.nodup_cons] at hNodup
      have hFirst : p ≠ last p (c :: cs) := fun hEq => hNodup.1 (hEq ▸ last_mem)
      refine ⟨(hNext p List.mem_cons_self hFirst).trans hHere,
        (hPrev c.1 List.mem_cons_self).trans hBack, (hVal c.1 List.mem_cons_self).trans hValue, ?_⟩
      apply ih hTail hNodup.2
      · exact fun b hb hLast => hNext b (List.mem_cons_of_mem p hb) hLast
      · exact fun b hb => hPrev b (List.mem_cons_of_mem c.1 hb)
      · exact fun b hb => hVal b (List.mem_cons_of_mem c.1 hb)
      · exact hRest

/-- A cell is linked in behind the first part of a chain. -/
theorem Chain.insert (h : Chain next prev val p (cs ++ ds))
    (hNodup : (p :: (cs ++ ds).map Prod.fst).Nodup) (hNew : a ∉ p :: (cs ++ ds).map Prod.fst)
    (hBefore : next' (last p cs) = some a) (hAfter : next' a = next (last p cs))
    (hNext : ∀ b, b ≠ last p cs → b ≠ a → next' b = next b)
    (hBack : prev' a = some (last p cs))
    (hHead : ∀ b, next (last p cs) = some b → prev' b = some a)
    (hPrev : ∀ b, b ≠ a → next (last p cs) ≠ some b → prev' b = prev b)
    (hVal : ∀ b, b ≠ a → val' b = val b) :
    Chain next' prev' val' p (cs ++ (a, val' a) :: ds) := by
  have hRest := h.behind
  rw [List.map_append, ← List.cons_append, List.nodup_append] at hNodup
  rw [List.map_append, ← List.cons_append, List.mem_append, not_or] at hNew
  obtain ⟨hFirst, hSecond, hApart⟩ := hNodup
  have hOther : ∀ b, b ∈ cs.map Prod.fst → next (last p cs) ≠ some b := by
    intro b hb hPoints
    cases ds with
    | nil =>
        rw [hRest.next_eq] at hPoints
        cases hPoints
    | cons d ds =>
        rw [hRest.next_eq] at hPoints
        exact hApart b (List.mem_cons_of_mem p hb) d.1 List.mem_cons_self
          (Option.some.inj hPoints).symm
  apply h.replace hFirst
  · exact fun b hb hLast => hNext b hLast (fun hEq => hNew.1 (hEq ▸ hb))
  · exact fun b hb => hPrev b (fun hEq => hNew.1 (hEq ▸ List.mem_cons_of_mem p hb)) (hOther b hb)
  · exact fun b hb => hVal b (fun hEq => hNew.1 (hEq ▸ List.mem_cons_of_mem p hb))
  · refine ⟨hBefore, hBack, rfl, ?_⟩
    cases ds with
    | nil => exact hAfter.trans hRest
    | cons d ds =>
        obtain ⟨hPoints, -, hValue, hTail⟩ := hRest
        have hLast : last p cs ∉ (d :: ds).map Prod.fst := fun hIn =>
          hApart _ last_mem _ hIn rfl
        rw [List.map_cons, List.nodup_cons] at hSecond
        refine ⟨hAfter.trans hPoints, hHead d.1 hPoints,
          (hVal d.1 fun hEq => hNew.2 (hEq ▸ List.mem_cons_self)).trans hValue, ?_⟩
        apply hTail.congr
        · exact fun b hb => hNext b (fun hEq => hLast (hEq ▸ hb)) (fun hEq => hNew.2 (hEq ▸ hb))
        · intro b hb
          apply hPrev b (fun hEq => hNew.2 (hEq ▸ List.mem_cons_of_mem d.1 hb))
          intro hEq
          rw [hPoints, Option.some_inj] at hEq
          exact hSecond.1 (hEq ▸ hb)
        · exact fun b hb => hVal b (fun hEq => hNew.2 (hEq ▸ List.mem_cons_of_mem d.1 hb))

/-- A cell is taken out of a chain. -/
theorem Chain.erase (h : Chain next prev val p (cs ++ (a, v) :: ds))
    (hNodup : (p :: (cs ++ (a, v) :: ds).map Prod.fst).Nodup)
    (hBefore : next' (last p cs) = next a)
    (hNext : ∀ b, b ≠ last p cs → b ≠ a → next' b = next b)
    (hHead : ∀ b, next a = some b → prev' b = some (last p cs))
    (hPrev : ∀ b, b ≠ a → next a ≠ some b → prev' b = prev b) :
    Chain next' prev' val p (cs ++ ds) := by
  obtain ⟨-, -, -, hRest⟩ := h.behind
  rw [List.map_append, ← List.cons_append, List.nodup_append] at hNodup
  obtain ⟨hFirst, hSecond, hApart⟩ := hNodup
  rw [List.map_cons, List.nodup_cons] at hSecond
  have hOther : ∀ b, b ∈ cs.map Prod.fst → next a ≠ some b := by
    intro b hb hPoints
    cases ds with
    | nil =>
        rw [hRest.next_eq] at hPoints
        cases hPoints
    | cons d ds =>
        rw [hRest.next_eq] at hPoints
        exact hApart b (List.mem_cons_of_mem p hb) d.1
          (List.mem_cons_of_mem a List.mem_cons_self) (Option.some.inj hPoints).symm
  have hNot : ∀ b, b ∈ p :: cs.map Prod.fst → b ≠ a := fun b hb hEq =>
    hApart b hb a List.mem_cons_self hEq
  apply h.replace hFirst
  · exact fun b hb hLast => hNext b hLast (hNot b hb)
  · exact fun b hb => hPrev b (hNot b (List.mem_cons_of_mem p hb)) (hOther b hb)
  · exact fun b hb => rfl
  · cases ds with
    | nil => exact hBefore.trans hRest
    | cons d ds =>
        obtain ⟨hPoints, -, hValue, hTail⟩ := hRest
        have hLast : last p cs ∉ (d :: ds).map Prod.fst := fun hIn =>
          hApart _ last_mem _ (List.mem_cons_of_mem a hIn) rfl
        have hInner := hSecond.2
        rw [List.map_cons, List.nodup_cons] at hInner
        refine ⟨hBefore.trans hPoints, hHead d.1 hPoints, hValue, ?_⟩
        apply hTail.congr
        · exact fun b hb => hNext b (fun hEq => hLast (hEq ▸ hb)) (fun hEq => hSecond.1 (hEq ▸ hb))
        · intro b hb
          apply hPrev b (fun hEq => hSecond.1 (hEq ▸ List.mem_cons_of_mem d.1 hb))
          intro hEq
          rw [hPoints, Option.some_inj] at hEq
          exact hInner.1 (hEq ▸ hb)
        · exact fun b hb => rfl

/-- A new value in a cell. -/
theorem Chain.setVal (h : Chain next prev val p (cs ++ (a, v) :: ds))
    (hNodup : (p :: (cs ++ (a, v) :: ds).map Prod.fst).Nodup) (hHere : val' a = w)
    (hVal : ∀ b, b ≠ a → val' b = val b) : Chain next prev val' p (cs ++ (a, w) :: ds) := by
  obtain ⟨hPoints, hBack, -, hRest⟩ := h.behind
  rw [List.map_append, ← List.cons_append, List.nodup_append] at hNodup
  obtain ⟨hFirst, hSecond, hApart⟩ := hNodup
  rw [List.map_cons, List.nodup_cons] at hSecond
  apply h.replace hFirst
  · exact fun b hb hLast => rfl
  · exact fun b hb => rfl
  · exact fun b hb => hVal b fun hEq =>
      hApart b (List.mem_cons_of_mem p hb) a List.mem_cons_self hEq
  · refine ⟨hPoints, hBack, hHere, ?_⟩
    apply hRest.congr
    · exact fun b hb => rfl
    · exact fun b hb => rfl
    · exact fun b hb => hVal b fun hEq => hSecond.1 (hEq ▸ hb)

end

end Gbase.Lib.Linked
