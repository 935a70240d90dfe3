import Mathlib.Data.List.Basic

/-!
# Express lanes over a list

Every element of a list has a level.  Lane `i` holds the elements of level `i` and above, each
with its distance from the one before it in the lane, so that the distances add up to positions.

## Main results

* `lane_append`: the lane of a list that is cut, by the number of elements since the last one of
  the lane, its `gap`.
* `lane_gap`: a gap in front of a list only changes the first distance.
* `lane_split`: the distance of an element is the difference of two positions.
-/

namespace Gbase.Lib.Lanes

universe u

variable {τ : Type u}

/-- The elements of level `i` and above with their distances, `g` elements behind one of them. -/
def lane (level : τ → Nat) (i : Nat) : Nat → List τ → List (τ × Nat)
  | _, [] => []
  | g, t :: ts => if i ≤ level t then (t, g + 1) :: lane level i 0 ts else lane level i (g + 1) ts

/-- The number of elements since the last one of level `i` or above. -/
def gap (level : τ → Nat) (i : Nat) : Nat → List τ → Nat
  | g, [] => g
  | g, t :: ts => if i ≤ level t then gap level i 0 ts else gap level i (g + 1) ts

/-- All elements are below level `i`. -/
def Low (level : τ → Nat) (i : Nat) (ts : List τ) : Prop := ∀ t, t ∈ ts → level t < i

/-- The last element, if there is one, is of level `i` or above. -/
def Ends (level : τ → Nat) (i : Nat) (ts : List τ) : Prop :=
  ts = [] ∨ ∃ us t, ts = us ++ [t] ∧ i ≤ level t

/-- A gap is added to the first distance. -/
def shift (k : Nat) : List (τ × Nat) → List (τ × Nat)
  | [] => []
  | (t, v) :: cs => (t, v + k) :: cs

section

variable {level : τ → Nat} {i j g k : Nat} {t : τ} {ts us : List τ}

@[simp] theorem lane_nil : lane level i g [] = [] := rfl

@[simp] theorem gap_nil : gap level i g [] = g := rfl

theorem lane_cons_of_le (h : i ≤ level t) :
    lane level i g (t :: ts) = (t, g + 1) :: lane level i 0 ts := if_pos h

theorem lane_cons_of_lt (h : level t < i) :
    lane level i g (t :: ts) = lane level i (g + 1) ts := if_neg (by omega)

theorem gap_cons_of_le (h : i ≤ level t) : gap level i g (t :: ts) = gap level i 0 ts := if_pos h

theorem gap_cons_of_lt (h : level t < i) : gap level i g (t :: ts) = gap level i (g + 1) ts :=
  if_neg (by omega)

/-- The lane of a list that is cut. -/
theorem lane_append : lane level i g (ts ++ us) =
    lane level i g ts ++ lane level i (gap level i g ts) us := by
  induction ts generalizing g with
  | nil => rfl
  | cons t ts ih =>
      by_cases h : i ≤ level t
      · rw [List.cons_append, lane_cons_of_le h, lane_cons_of_le h, gap_cons_of_le h, ih,
          List.cons_append]
      · rw [List.cons_append, lane_cons_of_lt (by omega), lane_cons_of_lt (by omega),
          gap_cons_of_lt (by omega), ih]

theorem gap_append : gap level i g (ts ++ us) = gap level i (gap level i g ts) us := by
  induction ts generalizing g with
  | nil => rfl
  | cons t ts ih =>
      by_cases h : i ≤ level t
      · rw [List.cons_append, gap_cons_of_le h, gap_cons_of_le h, ih]
      · rw [List.cons_append, gap_cons_of_lt (by omega), gap_cons_of_lt (by omega), ih]

/-- A gap in front only changes the first distance. -/
theorem lane_gap : lane level i (g + k) ts = shift k (lane level i g ts) := by
  induction ts generalizing g with
  | nil => rfl
  | cons t ts ih =>
      by_cases h : i ≤ level t
      · rw [lane_cons_of_le h, lane_cons_of_le h, shift, Nat.add_right_comm]
      · rw [lane_cons_of_lt (by omega), lane_cons_of_lt (by omega), ← ih, Nat.add_right_comm]

/-- The elements of a lane. -/
theorem lane_map_fst : (lane level i g ts).map Prod.fst = ts.filter fun t => i ≤ level t := by
  induction ts generalizing g with
  | nil => rfl
  | cons t ts ih =>
      by_cases h : i ≤ level t
      · rw [lane_cons_of_le h, List.map_cons, ih, List.filter_cons_of_pos (by simpa using h)]
      · rw [lane_cons_of_lt (by omega), ih, List.filter_cons_of_neg (by simpa using h)]

private theorem low_nil : Low level i [] := by
  intro t ht
  cases ht

theorem Low.lane_eq (h : Low level i ts) : lane level i g ts = [] := by
  induction ts generalizing g with
  | nil => rfl
  | cons t ts ih =>
      rw [lane_cons_of_lt (h t List.mem_cons_self), ih fun u hu => h u (List.mem_cons_of_mem t hu)]

theorem Low.gap_eq (h : Low level i ts) : gap level i g ts = g + ts.length := by
  induction ts generalizing g with
  | nil => rfl
  | cons t ts ih =>
      rw [gap_cons_of_lt (h t List.mem_cons_self), ih fun u hu => h u (List.mem_cons_of_mem t hu),
        List.length_cons]
      omega

theorem Ends.gap_eq (h : Ends level i ts) : gap level i 0 ts = 0 := by
  rcases h with rfl | ⟨us, t, rfl, ht⟩
  · rfl
  · rw [gap_append, gap_cons_of_le ht, gap_nil]

theorem Ends.mono (h : Ends level j ts) (hLe : i ≤ j) : Ends level i ts := by
  rcases h with rfl | ⟨us, t, rfl, ht⟩
  · exact Or.inl rfl
  · exact Or.inr ⟨us, t, rfl, Nat.le_trans hLe ht⟩

theorem Ends.append (hFirst : Ends level i ts) (hSecond : Ends level i us) :
    Ends level i (ts ++ us) := by
  rcases hSecond with rfl | ⟨vs, t, rfl, ht⟩
  · rwa [List.append_nil]
  · exact Or.inr ⟨ts ++ vs, t, (List.append_assoc ..).symm, ht⟩

/-- A list has nothing in the lane, or a first element there. -/
theorem low_or_first (level : τ → Nat) (i : Nat) (ts : List τ) :
    Low level i ts ∨ ∃ us t vs, ts = us ++ t :: vs ∧ Low level i us ∧ i ≤ level t := by
  induction ts with
  | nil => exact Or.inl low_nil
  | cons t ts ih =>
      by_cases h : i ≤ level t
      · exact Or.inr ⟨[], t, ts, rfl, low_nil, h⟩
      · have hHead : ∀ {us}, Low level i us → Low level i (t :: us) := by
          intro us hLow u hu
          rcases List.mem_cons.mp hu with rfl | hu
          · omega
          · exact hLow u hu
        rcases ih with hLow | ⟨us, u, vs, rfl, hLow, hu⟩
        · exact Or.inl (hHead hLow)
        · exact Or.inr ⟨t :: us, u, vs, rfl, hHead hLow, hu⟩

/-- The lane of a list with a first element there. -/
theorem lane_first (hLow : Low level i us) (ht : i ≤ level t) :
    lane level i g (us ++ t :: ts) = (t, g + us.length + 1) :: lane level i 0 ts := by
  rw [lane_append, hLow.lane_eq, hLow.gap_eq, lane_cons_of_le ht, List.nil_append]

/-- The lane of a list around one of its elements there. -/
theorem lane_at (ht : i ≤ level t) : lane level i 0 (us ++ t :: ts) =
    lane level i 0 us ++ (t, gap level i 0 us + 1) :: lane level i 0 ts := by
  rw [lane_append, lane_cons_of_le ht]

/-- Where a lane is cut, the list is cut: the distance is the difference of two positions. -/
theorem lane_split {cs ds : List (τ × Nat)} {v : Nat}
    (h : lane level i 0 ts = cs ++ (t, v) :: ds) :
    ∃ before between behind, ts = before ++ between ++ t :: behind ∧ v = between.length + 1 ∧
      Ends level i before ∧ cs = lane level i 0 before ∧ i ≤ level t := by
  induction cs generalizing ts with
  | nil =>
      rcases low_or_first level i ts with hLow | ⟨us, u, vs, rfl, hLow, hu⟩
      · rw [hLow.lane_eq] at h
        cases h
      · rw [lane_first hLow hu, Nat.zero_add] at h
        cases h
        exact ⟨[], us, vs, rfl, rfl, Or.inl rfl, rfl, hu⟩
  | cons c cs ih =>
      rcases low_or_first level i ts with hLow | ⟨us, u, vs, rfl, hLow, hu⟩
      · rw [hLow.lane_eq] at h
        cases h
      · rw [lane_first hLow hu, Nat.zero_add, List.cons_append, List.cons.injEq] at h
        obtain ⟨rfl, hRest⟩ := h
        obtain ⟨before, between, behind, rfl, hv, hEnds, hcs, ht⟩ := ih hRest
        refine ⟨us ++ u :: before, between, behind, by simp, hv, ?_, ?_, ht⟩
        · have hHere : Ends level i (us ++ [u]) := Or.inr ⟨us, u, rfl, hu⟩
          have hAll := hHere.append hEnds
          rwa [List.append_assoc] at hAll
        · rw [lane_first hLow hu, hcs, Nat.zero_add]

end

end Gbase.Lib.Lanes
