import Mathlib.Data.List.Nodup
import Mathlib.Data.Nat.ModEq

/-!
# Memory that is used as a ring

`size` cells, read and written from a position on around their end.  A copy to or from a stretch
that does not cross the end is the same on the ring as in plain memory (`slice_eq_window`,
`splice_eq_put`), and a stretch that crosses it falls into two that do not.

## Main results

* `window_put_self`: what was written is read back.
* `window_put_before`: what was there before a stretch is not touched by writing it, as long as
  both fit the ring together.
* `ringCells_disjoint`: such stretches have no cell in common.
-/

namespace Gbase.Lib.Ring

universe u

variable {α : Type u}

/-- `count` cells of plain memory. -/
def slice (cells : Nat → α) (start count : Nat) : List α :=
  (List.range count).map fun i => cells (start + i)

/-- Plain memory after a copy to `start`. -/
def splice (cells : Nat → α) (start : Nat) (xs : List α) : Nat → α :=
  fun j => if start ≤ j then xs[j - start]?.getD (cells j) else cells j

section

variable (size : Nat)

/-- `count` cells of the ring. -/
def window (cells : Nat → α) (pos count : Nat) : List α :=
  (List.range count).map fun i => cells ((pos + i) % size)

/-- How far behind `pos` the cell `j` lies on the ring. -/
def distance (pos j : Nat) : Nat := (j + (size - pos % size)) % size

/-- The ring after a copy to `pos`. -/
def put (cells : Nat → α) (pos : Nat) (xs : List α) : Nat → α :=
  fun j => if j < size then xs[distance size pos j]?.getD (cells j) else cells j

/-- Where the cells of a stretch of the ring lie. -/
def ringCells (pos count : Nat) : List Nat := (List.range' pos count).map (· % size)

end

variable {size pos count : Nat} {cells : Nat → α} {xs ys : List α}

@[simp] theorem length_slice (start : Nat) : (slice cells start count).length = count := by
  rw [slice, List.length_map, List.length_range]

@[simp] theorem length_window : (window size cells pos count).length = count := by
  rw [window, List.length_map, List.length_range]

theorem getElem?_slice (start : Nat) {i : Nat} (h : i < count) :
    (slice cells start count)[i]? = some (cells (start + i)) := by
  rw [slice, List.getElem?_map, List.getElem?_range h, Option.map_some]

theorem slice_eq_iff {cells' : Nat → α} (start : Nat) :
    slice cells start count = slice cells' start count ↔
      ∀ i, i < count → cells (start + i) = cells' (start + i) := by
  simp only [slice, List.map_inj_left, List.mem_range]

theorem slice_add (start a b : Nat) :
    slice cells start (a + b) = slice cells start a ++ slice cells (start + a) b := by
  simp only [slice, List.range_add, List.map_append, List.map_map, Function.comp_def, add_assoc]

theorem drop_slice (start a b : Nat) :
    (slice cells start (a + b)).drop a = slice cells (start + a) b := by
  rw [slice_add, List.drop_left' (length_slice start)]

theorem take_slice (start : Nat) {a b : Nat} (h : a ≤ b) :
    (slice cells start b).take a = slice cells start a := by
  rw [← Nat.add_sub_cancel' h, slice_add, List.take_left' (length_slice start)]

@[simp] theorem splice_nil (start : Nat) : splice cells start [] = cells := by
  funext j
  simp [splice]

/-- What was copied is read back. -/
theorem slice_splice_self (start : Nat) : slice (splice cells start xs) start xs.length = xs := by
  apply List.ext_getElem (length_slice start)
  intro i hi hx
  simp only [slice, List.getElem_map, List.getElem_range, splice, if_pos (Nat.le_add_right start i),
    Nat.add_sub_cancel_left, List.getElem?_eq_getElem hx, Option.getD_some]

/-- What lies before a copy is not touched. -/
theorem slice_splice_before {start dest : Nat} (h : start + count ≤ dest) :
    slice (splice cells dest xs) start count = slice cells start count := by
  rw [slice, slice]
  apply List.map_congr_left
  intro i hi
  rw [List.mem_range] at hi
  rw [splice, if_neg (by omega)]

/-- What lies outside of a copy is not touched. -/
theorem splice_outside {start j : Nat} (h : j < start ∨ start + xs.length ≤ j) :
    splice cells start xs j = cells j := by
  rw [splice]
  rcases h with hBefore | hBehind
  · rw [if_neg (by omega)]
  · rw [if_pos (by omega), List.getElem?_eq_none (by omega), Option.getD_none]

theorem splice_inside {start i : Nat} (h : i < xs.length) :
    splice cells start xs (start + i) = xs[i] := by
  rw [splice, if_pos (Nat.le_add_right start i), Nat.add_sub_cancel_left,
    List.getElem?_eq_getElem h, Option.getD_some]

/-- Two copies, one behind the other, are one. -/
theorem splice_append (start : Nat) :
    splice (splice cells start xs) (start + xs.length) ys = splice cells start (xs ++ ys) := by
  funext j
  by_cases hBefore : j < start
  · rw [splice_outside (Or.inl (by omega)), splice_outside (Or.inl hBefore),
      splice_outside (Or.inl hBefore)]
  · obtain ⟨i, rfl⟩ := Nat.exists_eq_add_of_le (Nat.le_of_not_lt hBefore)
    by_cases hFirst : i < xs.length
    · rw [splice_outside (Or.inl (by omega)), splice_inside hFirst,
        splice_inside (by rw [List.length_append]; omega), List.getElem_append_left hFirst]
    · obtain ⟨k, rfl⟩ := Nat.exists_eq_add_of_le (Nat.le_of_not_lt hFirst)
      by_cases hSecond : k < ys.length
      · rw [← Nat.add_assoc, splice_inside hSecond, Nat.add_assoc,
          splice_inside (by rw [List.length_append]; omega),
          List.getElem_append_right (by omega)]
        simp only [Nat.add_sub_cancel_left]
      · rw [splice_outside (Or.inr (by omega)), splice_outside (Or.inr (by omega)),
          splice_outside (Or.inr (by rw [List.length_append]; omega))]

theorem window_add (a b : Nat) :
    window size cells pos (a + b) =
      window size cells pos a ++ window size cells (pos + a) b := by
  simp only [window, List.range_add, List.map_append, List.map_map, Function.comp_def, add_assoc]

theorem window_congr {pos' : Nat} (h : pos % size = pos' % size) :
    window size cells pos count = window size cells pos' count := by
  have hCell : ∀ i, (pos + i) % size = (pos' + i) % size := fun i => Nat.ModEq.add_right i h
  simp only [window, hCell]

theorem put_congr {pos' : Nat} (h : pos % size = pos' % size) :
    put size cells pos xs = put size cells pos' xs := by
  funext j
  simp only [put, distance, h]

@[simp] theorem put_nil : put size cells pos [] = cells := by
  funext j
  simp [put]

/-- The cell at a distance lies at this distance. -/
theorem distance_add {i : Nat} (hi : i < size) : distance size pos ((pos + i) % size) = i := by
  have hMod : pos % size < size := Nat.mod_lt pos (by omega)
  rw [distance, Nat.mod_add_mod, Nat.add_mod]
  have hSum : pos + i + (size - pos % size) = i + size * (pos / size + 1) := by
    have hDiv := Nat.mod_add_div pos size
    rw [mul_add, mul_one]
    omega
  rw [← Nat.add_mod, hSum, Nat.add_mul_mod_self_left, Nat.mod_eq_of_lt hi]

/-- Every cell lies at some distance. -/
theorem add_distance {j : Nat} (hj : j < size) : (pos + distance size pos j) % size = j := by
  have hMod : pos % size < size := Nat.mod_lt pos (by omega)
  have hSum : pos + (j + (size - pos % size)) = j + size * (pos / size + 1) := by
    have hDiv := Nat.mod_add_div pos size
    rw [mul_add, mul_one]
    omega
  rw [distance, Nat.add_mod_mod, hSum, Nat.add_mul_mod_self_left, Nat.mod_eq_of_lt hj]

theorem distance_lt (j : Nat) (hSize : 0 < size) : distance size pos j < size :=
  Nat.mod_lt _ hSize

/-- Without crossing the end, plain memory is read as the ring is. -/
theorem slice_eq_window (h : pos % size + count ≤ size) :
    slice cells (pos % size) count = window size cells pos count := by
  rw [slice, window]
  apply List.map_congr_left
  intro i hi
  rw [List.mem_range] at hi
  rw [← Nat.mod_add_mod, Nat.mod_eq_of_lt (by omega : pos % size + i < size)]

/-- Without crossing the end, plain memory is written as the ring is. -/
theorem splice_eq_put (hSize : 0 < size) (h : pos % size + xs.length ≤ size) :
    splice cells (pos % size) xs = put size cells pos xs := by
  funext j
  have hMod : pos % size < size := Nat.mod_lt pos hSize
  rw [splice, put]
  by_cases hj : j < size
  · rw [if_pos hj]
    by_cases hBehind : pos % size ≤ j
    · have hEq : (pos + (j - pos % size)) % size = j := by
        rw [← Nat.mod_add_mod, Nat.add_sub_cancel' hBehind, Nat.mod_eq_of_lt hj]
      have hDistance := @distance_add size pos (j - pos % size) (by omega)
      rw [hEq] at hDistance
      rw [if_pos hBehind, hDistance]
    · have hDistance : distance size pos j = j + (size - pos % size) :=
        Nat.mod_eq_of_lt (by omega)
      rw [if_neg hBehind, hDistance, List.getElem?_eq_none (by omega), Option.getD_none]
  · rw [if_neg hj]
    split
    · rw [List.getElem?_eq_none (by omega), Option.getD_none]
    · rfl

/-- Two stretches, one behind the other, are one. -/
theorem put_append (hFits : (xs ++ ys).length ≤ size) :
    put size (put size cells pos xs) (pos + xs.length) ys = put size cells pos (xs ++ ys) := by
  rw [List.length_append] at hFits
  funext j
  simp only [put]
  by_cases hj : j < size
  · simp only [if_pos hj]
    have hLess := @distance_lt size pos j (by omega)
    have hAt := @add_distance size pos j hj
    by_cases hFirst : distance size pos j < xs.length
    · -- behind `ys` the ring has not come around to `xs` yet
      have hFar : distance size (pos + xs.length) j =
          size - xs.length + distance size pos j := by
        have hBack := @distance_add size (pos + xs.length) (size - xs.length + distance size pos j)
          (by omega)
        rw [show pos + xs.length + (size - xs.length + distance size pos j) =
          pos + distance size pos j + size from by omega, Nat.add_mod_right, hAt] at hBack
        exact hBack
      rw [List.getElem?_append_left hFirst, hFar, List.getElem?_eq_none (by omega : ys.length ≤ _),
        Option.getD_none]
    · have hNear : distance size (pos + xs.length) j = distance size pos j - xs.length := by
        have hBack := @distance_add size (pos + xs.length) (distance size pos j - xs.length)
          (by omega)
        rw [show pos + xs.length + (distance size pos j - xs.length) =
          pos + distance size pos j from by omega, hAt] at hBack
        exact hBack
      rw [List.getElem?_append_right (by omega), hNear,
        List.getElem?_eq_none (by omega : xs.length ≤ distance size pos j), Option.getD_none]
  · simp only [if_neg hj]

/-- What was written is read back. -/
theorem window_put_self (hFits : xs.length ≤ size) :
    window size (put size cells pos xs) pos xs.length = xs := by
  apply List.ext_getElem length_window
  intro i hi hx
  have hLess : i < size := by omega
  simp only [window, List.getElem_map, List.getElem_range, put,
    if_pos (Nat.mod_lt (pos + i) (by omega : 0 < size)), distance_add hLess,
    List.getElem?_eq_getElem hx, Option.getD_some]

/-- What lies before a stretch is not touched. -/
theorem window_put_before (hFits : count + xs.length ≤ size) :
    window size (put size cells (pos + count) xs) pos count = window size cells pos count := by
  rw [window, window]
  apply List.map_congr_left
  intro i hi
  rw [List.mem_range] at hi
  have hFar : distance size (pos + count) ((pos + i) % size) = size - count + i := by
    have hBack := @distance_add size (pos + count) (size - count + i) (by omega)
    rw [show pos + count + (size - count + i) = pos + i + size from by omega,
      Nat.add_mod_right] at hBack
    exact hBack
  rw [put, if_pos (Nat.mod_lt _ (by omega)), hFar, List.getElem?_eq_none (by omega),
    Option.getD_none]

/-! ## Cells one by one -/

@[simp] theorem length_ringCells : (ringCells size pos count).length = count := by
  rw [ringCells, List.length_map, List.length_range']

theorem mem_ringCells {j : Nat} : j ∈ ringCells size pos count ↔ ∃ i, i < count ∧
    j = (pos + i) % size := by
  simp only [ringCells, List.mem_map, List.mem_range'_1]
  constructor
  · rintro ⟨k, ⟨hLow, hHigh⟩, rfl⟩
    exact ⟨k - pos, by omega, by rw [Nat.add_sub_cancel' hLow]⟩
  · rintro ⟨i, hi, rfl⟩
    exact ⟨pos + i, ⟨by omega, by omega⟩, rfl⟩

theorem getElem_ringCells {i : Nat} (h : i < (ringCells size pos count).length) :
    (ringCells size pos count)[i] = (pos + i) % size := by
  simp [ringCells]

theorem ringCells_add (a b : Nat) :
    ringCells size pos (a + b) = ringCells size pos a ++ ringCells size (pos + a) b := by
  rw [ringCells, ringCells, ringCells, ← List.map_append, List.range'_append_1]

theorem ringCells_congr {pos' : Nat} (h : pos % size = pos' % size) :
    ringCells size pos count = ringCells size pos' count := by
  apply List.ext_getElem (by simp)
  intro i hi hi'
  rw [getElem_ringCells, getElem_ringCells]
  exact Nat.ModEq.add_right i h

/-- Without crossing the end they follow each other in memory. -/
theorem ringCells_eq_range' (h : pos % size + count ≤ size) :
    ringCells size pos count = List.range' (pos % size) count := by
  apply List.ext_getElem (by simp)
  intro i hi hi'
  rw [length_ringCells] at hi
  rw [getElem_ringCells, List.getElem_range', one_mul, ← Nat.mod_add_mod,
    Nat.mod_eq_of_lt (by omega)]

theorem map_ringCells : (ringCells size pos count).map cells = window size cells pos count := by
  apply List.ext_getElem (by simp)
  intro i hi hi'
  simp [getElem_ringCells, window]

/-- A stretch that fits the ring meets no cell twice. -/
theorem ringCells_nodup (h : count ≤ size) : (ringCells size pos count).Nodup := by
  apply List.Nodup.map_on _ List.nodup_range'
  intro a ha b hb hEq
  rw [List.mem_range'_1] at ha hb
  have hFirst := @distance_add size pos (a - pos) (by omega)
  have hSecond := @distance_add size pos (b - pos) (by omega)
  rw [Nat.add_sub_cancel' ha.1] at hFirst
  rw [Nat.add_sub_cancel' hb.1] at hSecond
  have hSame : a - pos = b - pos := by
    rw [← hFirst, ← hSecond, hEq]
  omega

/-- Two stretches, one behind the other, meet no cell twice. -/
theorem ringCells_disjoint {a b : Nat} (h : a + b ≤ size) {j : Nat}
    (hFirst : j ∈ ringCells size pos a) : j ∉ ringCells size (pos + a) b := by
  have hNodup := @ringCells_nodup size pos (a + b) h
  rw [ringCells_add] at hNodup
  exact fun hSecond => List.disjoint_of_nodup_append hNodup hFirst hSecond

/-- Up to two stretches of memory, before the end and behind it, are one of the ring. -/
theorem ringCells_across {n : Nat} (hn : n ≤ count) (hCount : count ≤ size)
    (hTail : pos % size + n ≤ size) (hZero : n < count → (pos + n) % size = 0) :
    List.range' (pos % size) n ++ List.range' 0 (count - n) = ringCells size pos count := by
  rw [← ringCells_eq_range' hTail]
  by_cases hCross : n < count
  · have hRest := @ringCells_eq_range' size (pos + n) (count - n) (by rw [hZero hCross]; omega)
    rw [hZero hCross] at hRest
    rw [← hRest, ← ringCells_add, Nat.add_sub_cancel' hn]
  · have hAll : n = count := by omega
    rw [hAll, Nat.sub_self]
    exact List.append_nil _

end Gbase.Lib.Ring
