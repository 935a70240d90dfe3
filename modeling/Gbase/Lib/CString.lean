import Mathlib.Algebra.Group.Int.Defs
import Mathlib.Algebra.Group.Nat.Defs
import Mathlib.Data.List.TakeWhile

/-!
# Strings in arrays of bytes

A string is what lies in an array from some index up to the first byte of zero.  Reading behind
the end of the array is undefined, which is the outer `Option`.  The functions follow those of the
C library, on an array `mem` and an index into it.

Strings are not a type of their own here, as the programs that use them go by indices, cut strings
in place and read the same bytes as part of a larger array.  What a function needs is said by
hypotheses on the array: that there is a byte of zero at or behind the index, and where the first
one is.
-/

namespace Gbase.Lib.CString

/-- The bytes of a text. -/
def ascii (text : String) : List UInt8 := text.toList.map fun c => UInt8.ofNat c.toNat

/-- The string that starts at an index. -/
def cString (mem : List UInt8) (start : Nat) : Option (List UInt8) :=
  let bytes := (mem.drop start).takeWhile (· ≠ 0)
  if start + bytes.length < mem.length then some bytes else none

/-- `strstr` with a text of one byte: the index where it is, if it is there. -/
def strstr (mem : List UInt8) (start : Nat) (c : UInt8) : Option (Option Nat) := do
  let bytes ← cString mem start
  return (bytes.findIdx? (· = c)).map (start + ·)

/-- `strcasecmp`, as far as it tells whether two strings are equal. -/
def strcaseeq (s t : List UInt8) : Bool :=
  let lower (c : UInt8) : UInt8 := if 0x41 ≤ c ∧ c ≤ 0x5a then c + 0x20 else c
  s.map lower = t.map lower

/-- `strncmp`, as far as it tells whether two strings are equal. -/
def strneq (n : Nat) (s t : List UInt8) : Bool := s.take n = t.take n

/-- The first index from `start` on that does not hold the byte. -/
def skip (mem : List UInt8) (start : Nat) (c : UInt8) : Option Nat :=
  let next := start + ((mem.drop start).takeWhile (· = c)).length
  if next < mem.length then some next else none

/-- `snprintf` of a string into an array. -/
def snprintf (dst : List UInt8) (text : List UInt8) : List UInt8 :=
  let cut := text.take (dst.length - 1)
  cut ++ 0 :: dst.drop (cut.length + 1)

/-- `isspace` -/
def isspace (c : UInt8) : Bool := c = 0x20 ∨ 0x09 ≤ c ∧ c ≤ 0x0d

/-- `isdigit` -/
def isdigit (c : UInt8) : Bool := 0x30 ≤ c ∧ c ≤ 0x39

/-- `atoi`, which cuts what `strtol` gives to an `int`. -/
def atoi (text : List UInt8) : Int :=
  let text := text.dropWhile isspace
  let (sign, text) :=
    match text with
    | 0x2d :: text => (-1, text)
    | 0x2b :: text => (1, text)
    | text => ((1 : Int), text)
  let n : Nat := (text.takeWhile isdigit).foldl (fun n c => n * 10 + (c.toNat - 0x30)) 0
  (max (-2 ^ 63) (min (2 ^ 63 - 1) (sign * (n : Int)))).bmod (2 ^ 32)

/-- `strtok` from some index on: where the next token starts, the array with the token ended, and
from where to go on. -/
def strtok (mem : List UInt8) (start : Nat) (delim : List UInt8) :
    Option (Option (Nat × List UInt8 × Nat)) :=
  let token := start + ((mem.drop start).takeWhile fun c => c ∈ delim).length
  match mem[token]? with
  | none => none
  | some c =>
      if c = 0 then some none
      else
        let stop := token + ((mem.drop token).takeWhile fun c => c ≠ 0 ∧ c ∉ delim).length
        match mem[stop]? with
        | none => none
        | some c =>
            if c = 0 then some (some (token, mem, stop))
            else some (some (token, mem.set stop 0, stop + 1))

/-- Where `strtok` stores a zero. -/
def strtokStores (mem : List UInt8) (start : Nat) (delim : List UInt8) : List Nat :=
  let token := start + ((mem.drop start).takeWhile fun c => c ∈ delim).length
  let stop := token + ((mem.drop token).takeWhile fun c => c ≠ 0 ∧ c ∉ delim).length
  match mem[stop]? with
  | none => []
  | some c => if c = 0 then [] else [stop]

/-! ## Strings behind other bytes -/

section

variable {pre text post line blanks : List UInt8} {c : UInt8} {delim : List UInt8}

theorem takeWhile_stop {p : UInt8 → Bool} {xs ys : List UInt8} (hAll : ∀ x, x ∈ xs → p x = true)
    (hStop : ∀ y, ys.head? = some y → p y = false) : (xs ++ ys).takeWhile p = xs := by
  rw [List.takeWhile_append_of_pos hAll]
  cases ys with
  | nil => simp
  | cons y ys => rw [List.takeWhile_cons_of_neg (by rw [hStop y rfl]; decide), List.append_nil]

/-- A text falls into what is before some byte, the byte and what is behind it. -/
theorem split_first (hIn : c ∈ text) :
    text = text.takeWhile (· ≠ c) ++ c :: (text.dropWhile (· ≠ c)).tail := by
  have hAll := @List.takeWhile_append_dropWhile _ (fun x => decide (x ≠ c)) text
  have hHead := List.head?_dropWhile_not (fun x => decide (x ≠ c)) text
  cases hDrop : text.dropWhile (fun x => decide (x ≠ c)) with
  | nil =>
      rw [List.dropWhile_eq_nil_iff] at hDrop
      exact absurd rfl (of_decide_eq_true (hDrop c hIn))
  | cons first rest =>
      rw [hDrop] at hHead hAll
      have hEq : first = c := by simpa using hHead
      rw [hEq] at hAll
      exact hAll.symm

theorem findIdx_takeWhile (hIn : c ∈ text) :
    text.findIdx? (· = c) = some (text.takeWhile (· ≠ c)).length := by
  induction text with
  | nil => cases hIn
  | cons x xs ih =>
      rw [List.findIdx?_cons]
      by_cases hEq : x = c
      · simp [hEq]
      · have hRest : c ∈ xs := (List.mem_cons.mp hIn).resolve_left (Ne.symm hEq)
        simp [hEq, ih hRest]

theorem findIdx_none {xs : List UInt8} (hNot : c ∉ xs) : xs.findIdx? (· = c) = none := by
  rw [List.findIdx?_eq_none_iff]
  intro x hx
  exact decide_eq_false fun hEq => hNot (hEq ▸ hx)

/-- A string up to its end. -/
theorem cString_eq (hText : ∀ x, x ∈ text → x ≠ 0) :
    cString (pre ++ text ++ 0 :: post) pre.length = some text := by
  have hTake : ((pre ++ text ++ 0 :: post).drop pre.length).takeWhile (· ≠ 0) = text := by
    rw [List.append_assoc, List.drop_left]
    exact takeWhile_stop (fun x hx => decide_eq_true (hText x hx)) (fun y hy => by cases hy; rfl)
  rw [cString, hTake, if_pos]
  simp only [List.length_append, List.length_cons]
  omega

theorem strneq_iff {n : Nat} {s t : List UInt8} (hs : s.length ≤ n) (ht : t.length ≤ n) :
    strneq n s t = true ↔ s = t := by
  rw [strneq, List.take_of_length_le hs, List.take_of_length_le ht, decide_eq_true_iff]

theorem strstr_eq (hText : ∀ x, x ∈ text → x ≠ 0) (c : UInt8) :
    strstr (pre ++ text ++ 0 :: post) pre.length c =
      some ((text.findIdx? (· = c)).map (pre.length + ·)) := by
  rw [strstr, cString_eq hText]
  rfl

/-- Blanks up to another byte. -/
theorem skip_eq {x : UInt8} (hBlanks : ∀ b, b ∈ blanks → b = c) (hOther : x ≠ c) :
    skip (pre ++ blanks ++ x :: post) pre.length c = some (pre.length + blanks.length) := by
  have hTake : ((pre ++ blanks ++ x :: post).drop pre.length).takeWhile (· = c) = blanks := by
    rw [List.append_assoc, List.drop_left]
    exact takeWhile_stop (fun b hb => decide_eq_true (hBlanks b hb))
      (fun y hy => by cases hy; exact decide_eq_false hOther)
  simp only [skip, hTake]
  rw [if_pos]
  simp only [List.length_append, List.length_cons]
  omega

theorem strtok_start {seps : List UInt8} (hSeps : ∀ x, x ∈ seps → x ∈ delim)
    (hStop : ∀ y, post.head? = some y → y ∉ delim) :
    (((pre ++ seps ++ post).drop pre.length).takeWhile fun c => c ∈ delim) = seps := by
  rw [List.append_assoc, List.drop_left]
  exact takeWhile_stop (fun x hx => decide_eq_true (hSeps x hx))
    (fun y hy => decide_eq_false (hStop y hy))

/-- No token is left before the end of the string. -/
theorem strtok_end {seps : List UInt8} (hSeps : ∀ x, x ∈ seps → x ∈ delim) (hZero : 0 ∉ delim) :
    strtok (pre ++ seps ++ 0 :: post) pre.length delim = some none := by
  have hStart := @strtok_start pre (0 :: post) delim seps hSeps
      (fun y hy => by cases hy; exact hZero)
  have hAt : (pre ++ seps ++ 0 :: post)[pre.length + seps.length]? = some 0 := by
    rw [← List.length_append, List.getElem?_append_right le_rfl, Nat.sub_self]
    rfl
  simp only [strtok, hStart, hAt, if_true]

theorem strtokStores_end {seps : List UInt8} (hSeps : ∀ x, x ∈ seps → x ∈ delim)
    (hZero : 0 ∉ delim) : strtokStores (pre ++ seps ++ 0 :: post) pre.length delim = [] := by
  have hStart := @strtok_start pre (0 :: post) delim seps hSeps
      (fun y hy => by cases hy; exact hZero)
  have hDrop : (pre ++ seps ++ 0 :: post).drop (pre.length + seps.length) = 0 :: post := by
    rw [← List.length_append, List.drop_left]
  have hTake : (0 :: post).takeWhile (fun x => decide (x ≠ 0 ∧ x ∉ delim)) = [] :=
    List.takeWhile_cons_of_neg (by simp)
  have hAt : (pre ++ seps ++ 0 :: post)[pre.length + seps.length]? = some 0 := by
    rw [← List.length_append, List.getElem?_append_right le_rfl, Nat.sub_self]
    rfl
  simp only [strtokStores, hStart, hDrop, hTake, List.length_nil, Nat.add_zero, hAt, if_true]

/-- Where a token of bytes that are no delimiters starts and ends. -/
theorem token_scan {seps : List UInt8} (hSeps : ∀ x, x ∈ seps → x ∈ delim) (hLine : line ≠ [])
    (hToken : ∀ x, x ∈ line → x ≠ 0 ∧ x ∉ delim) (hStop : c = 0 ∨ c ∈ delim) :
    (((pre ++ seps ++ line ++ c :: post).drop pre.length).takeWhile fun c => c ∈ delim) = seps ∧
      (pre ++ seps ++ line ++ c :: post)[pre.length + seps.length]? = line.head? ∧
      (((pre ++ seps ++ line ++ c :: post).drop (pre.length + seps.length)).takeWhile
        fun x => x ≠ 0 ∧ x ∉ delim) = line ∧
      (pre ++ seps ++ line ++ c :: post)[pre.length + seps.length + line.length]? = some c := by
  obtain ⟨first, rest, rfl⟩ := List.exists_cons_of_ne_nil hLine
  have hFirst := hToken first List.mem_cons_self
  have hStart := @strtok_start pre (first :: rest ++ c :: post) delim seps hSeps
    (fun y hy => by cases hy; exact hFirst.2)
  rw [← List.append_assoc] at hStart
  refine ⟨hStart, ?_, ?_, ?_⟩
  · rw [← List.length_append, List.append_assoc, List.getElem?_append_right le_rfl, Nat.sub_self]
    rfl
  · rw [← List.length_append, List.append_assoc _ (first :: rest), List.drop_left]
    apply takeWhile_stop
    · intro x hx
      exact decide_eq_true (hToken x hx)
    · intro y hy
      cases hy
      apply decide_eq_false
      rintro ⟨hNot, hOut⟩
      cases hStop with
      | inl hZero => exact hNot hZero
      | inr hIn => exact hOut hIn
  · rw [← List.length_append, ← List.length_append, List.getElem?_append_right le_rfl,
      Nat.sub_self]
    rfl

/-- A token of bytes that are no delimiters. -/
theorem strtok_token {seps : List UInt8} (hSeps : ∀ x, x ∈ seps → x ∈ delim) (hLine : line ≠ [])
    (hToken : ∀ x, x ∈ line → x ≠ 0 ∧ x ∉ delim) (hStop : c = 0 ∨ c ∈ delim) :
    strtok (pre ++ seps ++ line ++ c :: post) pre.length delim =
      some (some (pre.length + seps.length,
        if c = 0 then (pre ++ seps ++ line ++ c :: post, pre.length + seps.length + line.length)
        else (pre ++ seps ++ line ++ 0 :: post, pre.length + seps.length + line.length + 1))) := by
  obtain ⟨hStart, hAt, hTake, hEnd⟩ :=
    @token_scan pre post line c delim seps hSeps hLine hToken hStop
  obtain ⟨first, rest, rfl⟩ := List.exists_cons_of_ne_nil hLine
  have hFirst := hToken first List.mem_cons_self
  rw [List.head?_cons] at hAt
  simp only [strtok, hStart, hAt, if_neg hFirst.1, hTake, hEnd]
  by_cases hZero : c = 0
  · simp only [if_pos hZero]
  · simp only [if_neg hZero]
    rw [← List.length_append, ← List.length_append, List.set_append_right _ _ le_rfl, Nat.sub_self]
    rfl

/-- The zero behind a token is stored if no zero stands there. -/
theorem strtokStores_token {seps : List UInt8} (hSeps : ∀ x, x ∈ seps → x ∈ delim)
    (hLine : line ≠ []) (hToken : ∀ x, x ∈ line → x ≠ 0 ∧ x ∉ delim) (hStop : c = 0 ∨ c ∈ delim) :
    strtokStores (pre ++ seps ++ line ++ c :: post) pre.length delim =
      if c = 0 then [] else [pre.length + seps.length + line.length] := by
  obtain ⟨hStart, -, hTake, hEnd⟩ := @token_scan pre post line c delim seps hSeps hLine hToken hStop
  simp only [strtokStores, hStart, hTake, hEnd]

/-- Without an end, the search runs out of the array. -/
theorem strtok_none {seps : List UInt8} (hSeps : ∀ x, x ∈ seps → x ∈ delim)
    (hToken : ∀ x, x ∈ line → x ≠ 0 ∧ x ∉ delim) :
    strtok (pre ++ seps ++ line) pre.length delim = none := by
  have hStart := @strtok_start pre line delim seps hSeps
    (fun y hy => (hToken y (List.mem_of_mem_head? hy)).2)
  simp only [strtok, hStart]
  cases line with
  | nil =>
      have hAt : (pre ++ seps ++ [])[pre.length + seps.length]? = none := by
        rw [List.append_nil, ← List.length_append]
        exact List.getElem?_eq_none le_rfl
      simp only [hAt]
  | cons first rest =>
      have hFirst := hToken first List.mem_cons_self
      have hAt : (pre ++ seps ++ (first :: rest))[pre.length + seps.length]? = some first := by
        rw [← List.length_append, List.getElem?_append_right le_rfl, Nat.sub_self]
        rfl
      have hTake : ((pre ++ seps ++ (first :: rest)).drop
          (pre.length + seps.length)).takeWhile (fun x => x ≠ 0 ∧ x ∉ delim) = first :: rest := by
        rw [← List.length_append, List.drop_left]
        have hAll := @takeWhile_stop (fun x => decide (x ≠ 0 ∧ x ∉ delim)) (first :: rest) []
          (fun x hx => decide_eq_true (hToken x hx)) (fun y hy => by cases hy)
        rwa [List.append_nil] at hAll
      have hEnd : (pre ++ seps ++ (first :: rest))[pre.length + seps.length +
          (first :: rest).length]? = none := by
        rw [← List.length_append, ← List.length_append]
        exact List.getElem?_eq_none le_rfl
      simp only [hAt, if_neg hFirst.1, hTake, hEnd]

end

/-! ## The tokens of a string -/

/-- What a string holds between delimiters, without what is empty. -/
def tokens (delim text : List UInt8) : List (List UInt8) :=
  (text.splitOnP (· ∈ delim)).filter (· ≠ [])

section

variable {pre text post line seps : List UInt8} {c : UInt8} {delim : List UInt8}

private theorem tokens_cons (hIn : c ∈ delim) (text : List UInt8) :
    tokens delim (c :: text) = tokens delim text := by
  simp [tokens, List.splitOnP_cons_eq_if_modifyHead, hIn]

/-- Delimiters before the first token. -/
theorem tokens_seps (hSeps : ∀ x, x ∈ seps → x ∈ delim) (text : List UInt8) :
    tokens delim (seps ++ text) = tokens delim text := by
  induction seps with
  | nil => rfl
  | cons c seps ih =>
      rw [List.cons_append, tokens_cons (hSeps c List.mem_cons_self)]
      exact ih fun x hx => hSeps x (List.mem_cons_of_mem c hx)

theorem tokens_none (hSeps : ∀ x, x ∈ seps → x ∈ delim) : tokens delim seps = [] := by
  have hNil := tokens_seps hSeps []
  rw [List.append_nil] at hNil
  rw [hNil]
  rfl

theorem tokens_last (hLine : line ≠ []) (hToken : ∀ x, x ∈ line → x ∉ delim) :
    tokens delim line = [line] := by
  have hOne := @List.splitOnP_eq_singleton _ (fun x => decide (x ∈ delim)) line
    fun x hx => decide_eq_false (hToken x hx)
  simp [tokens, hOne, hLine]

theorem tokens_line (hLine : line ≠ []) (hToken : ∀ x, x ∈ line → x ∉ delim) (hIn : c ∈ delim)
    (text : List UInt8) : tokens delim (line ++ c :: text) = line :: tokens delim text := by
  have hFirst := List.splitOnP_append_cons_of_forall_mem
    (fun x hx => decide_eq_false (hToken x hx)) c (decide_eq_true hIn) text
  simp [tokens, hFirst, hLine]

/-- A string is delimiters only, or a token stands behind some. -/
theorem text_cases (delim text : List UInt8) :
    (∀ x, x ∈ text → x ∈ delim) ∨
      ∃ seps line rest, text = seps ++ line ++ rest ∧ (∀ x, x ∈ seps → x ∈ delim) ∧
        line ≠ [] ∧ (∀ x, x ∈ line → x ∉ delim) ∧ ∀ x, rest.head? = some x → x ∈ delim := by
  have hSplit := @List.takeWhile_append_dropWhile _ (fun x => decide (x ∈ delim)) text
  have hHead := List.head?_dropWhile_not (fun x => decide (x ∈ delim)) text
  have hSeps : ∀ x, x ∈ text.takeWhile (fun x => decide (x ∈ delim)) → x ∈ delim :=
    fun x hx => by simpa using List.mem_takeWhile_imp hx
  generalize text.takeWhile (fun x => decide (x ∈ delim)) = seps at hSplit hSeps
  generalize text.dropWhile (fun x => decide (x ∈ delim)) = more at hSplit hHead
  cases more with
  | nil =>
      rw [List.append_nil] at hSplit
      rw [← hSplit]
      exact Or.inl hSeps
  | cons first more =>
      have hFirst : first ∉ delim := by simpa using hHead
      have hRest := List.head?_dropWhile_not (fun x => decide (x ∉ delim)) (first :: more)
      refine Or.inr ⟨seps, (first :: more).takeWhile (fun x => decide (x ∉ delim)),
        (first :: more).dropWhile (fun x => decide (x ∉ delim)), ?_, hSeps, ?_, ?_, ?_⟩
      · rw [List.append_assoc, List.takeWhile_append_dropWhile, hSplit]
      · rw [List.takeWhile_cons_of_pos (by simpa using hFirst)]
        exact List.cons_ne_nil _ _
      · intro x hx
        simpa using List.mem_takeWhile_imp hx
      · intro x hx
        rw [hx] at hRest
        simpa using hRest

/-- One call of `strtok`: it gives the first token of what is left, and goes on behind it. -/
theorem strtok_tokens (hText : ∀ x, x ∈ text → x ≠ 0) (hZero : 0 ∉ delim) :
    (tokens delim text = [] ∧
        ∀ pre post, strtok (pre ++ text ++ 0 :: post) pre.length delim = some none) ∨
      ∃ line rest, tokens delim text = line :: tokens delim rest ∧ rest.length < text.length ∧
        (∀ x, x ∈ line → x ≠ 0) ∧ (∀ x, x ∈ rest → x ≠ 0) ∧
        ∀ pre post, ∃ start pre',
          strtok (pre ++ text ++ 0 :: post) pre.length delim =
            some (some (start, pre' ++ rest ++ 0 :: post, pre'.length)) ∧
          cString (pre' ++ rest ++ 0 :: post) start = some line := by
  cases text_cases delim text with
  | inl hSeps => exact Or.inl ⟨tokens_none hSeps, fun pre post => strtok_end hSeps hZero⟩
  | inr hLine =>
      obtain ⟨seps, line, rest, rfl, hSeps, hLine, hToken, hStop⟩ := hLine
      have hNot : ∀ x, x ∈ line → x ≠ 0 := fun x hx => hText x (by simp [hx])
      have hBoth : ∀ x, x ∈ line → x ≠ 0 ∧ x ∉ delim := fun x hx => ⟨hNot x hx, hToken x hx⟩
      have hPos : 0 < line.length := List.length_pos_iff.mpr hLine
      cases rest with
      | nil =>
          refine Or.inr ⟨line, [], ?_, by simp; omega, hNot, by simp, ?_⟩
          · rw [List.append_nil, tokens_seps hSeps, tokens_last hLine hToken]
            rfl
          · intro pre post
            refine ⟨pre.length + seps.length, pre ++ seps ++ line, ?_, ?_⟩
            · have hTok := @strtok_token pre post line 0 delim seps hSeps hLine hBoth (Or.inl rfl)
              rw [if_pos rfl] at hTok
              simpa [Nat.add_assoc] using hTok
            · rw [← List.length_append, List.append_nil]
              exact cString_eq hNot
      | cons c rest =>
          have hIn : c ∈ delim := hStop c rfl
          have hNe : c ≠ 0 := fun hEq => hZero (hEq ▸ hIn)
          refine Or.inr ⟨line, rest, ?_, by simp; omega, hNot,
            fun x hx => hText x (by simp [hx]), ?_⟩
          · rw [List.append_assoc, tokens_seps hSeps, tokens_line hLine hToken hIn]
          · intro pre post
            refine ⟨pre.length + seps.length, pre ++ seps ++ line ++ [0], ?_, ?_⟩
            · have hTok := @strtok_token pre (rest ++ 0 :: post) line c delim seps hSeps hLine hBoth
                (Or.inr hIn)
              rw [if_neg hNe] at hTok
              simpa [Nat.add_assoc] using hTok
            · rw [← List.length_append, List.append_assoc, List.append_assoc _ [0]]
              exact cString_eq hNot

end

end Gbase.Lib.CString
