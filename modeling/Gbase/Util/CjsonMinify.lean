import Gbase.Util.CjsonRoundTrip

/-!
# Minifying JSON (`util/cjson.c`)

`cJSON_Minify` reads and writes one array: `json` is where it reads, and `into` where it writes.
What lies between them is of no use any more, so that a byte is written over only when it was read.

## Main results

* `Minifies.append`: parts of a text are minified one behind the other.
* `json_minify`: a text with blanks and comments becomes one of the same value without any.
* `json_minify_print`: what is printed with a format becomes what is printed without.
-/

namespace Gbase.Util.Cjson

open Gbase.Lib
open Gbase.Lib.CString
open Gbase.Lib.Json

/-- The array, where it is read, and where it is written. -/
structure Cursor where
  mem : List UInt8
  json : Nat
  into : Nat

namespace Cursor

/-- `*json` -/
def read (s : Cursor) : Option UInt8 := s.mem[s.json]?

/-- `json++` -/
def next (s : Cursor) : Cursor := { s with json := s.json + 1 }

/-- `*into++=*json++` -/
def copy (s : Cursor) : Option Cursor := do
  let c ← s.read
  if s.into < s.mem.length then
    return { mem := s.mem.set s.into c, json := s.json + 1, into := s.into + 1 }
  else none

end Cursor

/-- `while (*json && *json!='\n') json++;` -/
def lineLoop : Nat → Cursor → Option Cursor
  | 0, _ => none
  | fuel + 1, s => do
      let c ← s.read
      if c ≠ 0 ∧ c ≠ 0x0a then lineLoop fuel s.next else return s

/-- `while (*json && !(*json=='*' && json[1]=='/')) json++;` -/
def commentLoop : Nat → Cursor → Option Cursor
  | 0, _ => none
  | fuel + 1, s => do
      let c ← s.read
      if c = 0 then return s
      else if c = 0x2a then
        let d ← s.next.read
        if d = 0x2f then return s else commentLoop fuel s.next
      else commentLoop fuel s.next

/-- The loop over a string. -/
def literalLoop : Nat → Cursor → Option Cursor
  | 0, _ => none
  | fuel + 1, s => do
      let c ← s.read
      if c ≠ 0 ∧ c ≠ 0x22 then
        let s ← if c = 0x5c then s.copy else some s
        let s ← s.copy
        literalLoop fuel s
      else return s

/-- What the loop of `cJSON_Minify` does at a slash; the byte behind it is `d`. -/
def minifySlash (d : UInt8) (s : Cursor) : Option Cursor :=
  if d = 0x2f then lineLoop (s.mem.length + 1) s
  else if d = 0x2a then do
    let s ← commentLoop (s.mem.length + 1) s
    return s.next.next
  else s.copy

/-- One turn of the loop of `cJSON_Minify`, at a byte `c`. -/
def minifyTurn (c : UInt8) (s : Cursor) : Option Cursor :=
  if c = 0x20 then some s.next
  else if c = 0x09 then some s.next
  else if c = 0x0d then some s.next
  else if c = 0x0a then some s.next
  else if c = 0x2f then do
    let d ← s.next.read
    minifySlash d s
  else if c = 0x22 then do
    let s ← s.copy
    let s ← literalLoop (s.mem.length + 1) s
    s.copy
  else s.copy

/-- The loop of `cJSON_Minify`, with so many turns to spend. -/
def minifyLoop : Nat → Cursor → Option Cursor
  | 0, _ => none
  | fuel + 1, s => do
      let c ← s.read
      if c = 0 then return s
      else
        let s ← minifyTurn c s
        minifyLoop fuel s

/-- `cJSON_Minify` -/
def cJSONMinify (json : List UInt8) : Option (List UInt8) := do
  let s ← minifyLoop (json.length + 1) { mem := json, json := 0, into := 0 }
  if s.into < s.mem.length then return s.mem.set s.into 0 else none

/-! ## What is written and what is left to read -/

/-- The array holds what is written, bytes of no use, and what is left to read. -/
structure Holds (s : Cursor) (out rest : List UInt8) : Prop where
  mem : ∃ junk, s.mem = out ++ (junk ++ rest) ∧ s.json = out.length + junk.length
  into : s.into = out.length

section

variable {s : Cursor} {out rest text body : List UInt8} {c : UInt8}

theorem Holds.read (h : Holds s out (c :: rest)) : s.read = some c := by
  obtain ⟨junk, hMem, hJson⟩ := h.mem
  rw [Cursor.read, hMem, hJson, List.getElem?_append_right (by omega), Nat.add_sub_cancel_left,
    List.getElem?_append_right (by omega), Nat.sub_self]
  rfl

theorem Holds.next (h : Holds s out (c :: rest)) : Holds s.next out rest := by
  obtain ⟨junk, hMem, hJson⟩ := h.mem
  refine ⟨⟨junk ++ [c], ?_, ?_⟩, h.into⟩
  · rw [List.append_assoc, List.singleton_append]
    exact hMem
  · rw [List.length_append, List.length_singleton, Cursor.next, hJson]
    rfl

/-- A byte is copied over a byte that was read. -/
theorem Holds.copy (h : Holds s out (c :: rest)) :
    ∃ s', s.copy = some s' ∧ s'.mem.length = s.mem.length ∧ Holds s' (out ++ [c]) rest := by
  obtain ⟨junk, hMem, hJson⟩ := h.mem
  have hLength : s.mem.length = out.length + (junk.length + (rest.length + 1)) := by
    rw [hMem, List.length_append, List.length_append, List.length_cons]
  have hFit : s.into < s.mem.length := by
    rw [h.into, hLength]
    omega
  refine ⟨{ mem := s.mem.set s.into c, json := s.json + 1, into := s.into + 1 }, ?_, ?_, ?_⟩
  · rw [Cursor.copy, h.read]
    simp only [Option.bind_eq_bind, Option.bind_some]
    rw [if_pos hFit]
    rfl
  · rw [List.length_set]
  · refine ⟨⟨(junk ++ [c]).tail, ?_, ?_⟩, ?_⟩
    · show s.mem.set s.into c = _
      rw [hMem, h.into, List.set_append_right _ _ le_rfl, Nat.sub_self, List.append_assoc]
      cases junk with
      | nil => rfl
      | cons j junk => simp
    · show s.json + 1 = _
      rw [List.length_tail, List.length_append, List.length_append, List.length_singleton, hJson]
      simp
      omega
    · show s.into + 1 = _
      rw [List.length_append, List.length_singleton, h.into]

/-- What is left to read is in the array. -/
theorem Holds.length_le (h : Holds s out rest) : rest.length ≤ s.mem.length := by
  obtain ⟨junk, hMem, -⟩ := h.mem
  rw [hMem, List.length_append, List.length_append]
  omega

/-! ## The inner loops -/

/-- A line ends at its newline. -/
theorem lineLoop_spec {fuel : Nat} (hText : ∀ c ∈ text, c ≠ 0 ∧ c ≠ 0x0a)
    (h : Holds s out (text ++ 0x0a :: rest)) (hFuel : text.length < fuel) :
    ∃ s', lineLoop fuel s = some s' ∧ Holds s' out (0x0a :: rest) ∧ s'.mem = s.mem := by
  induction text generalizing s fuel with
  | nil =>
      cases fuel with
      | zero => cases hFuel
      | succ fuel =>
          refine ⟨s, ?_, h, rfl⟩
          rw [List.nil_append] at h
          simp [lineLoop, h.read]
  | cons c text ih =>
      rw [List.length_cons] at hFuel
      cases fuel with
      | zero => omega
      | succ fuel =>
          have hc := hText c (List.mem_cons_self ..)
          rw [List.cons_append] at h
          obtain ⟨s', hLoop, hHolds, hMem⟩ := @ih s.next fuel
            (fun x hx => hText x (List.mem_cons_of_mem c hx)) h.next (by omega)
          refine ⟨s', ?_, hHolds, hMem⟩
          simp [lineLoop, h.read, hc, hLoop]

/-- A comment ends at the first star with a slash behind it. -/
theorem commentLoop_spec {fuel : Nat} (hText : ∀ c ∈ text, c ≠ 0)
    (hOpen : ¬[0x2a, 0x2f] <:+: text ++ [0x2a])
    (h : Holds s out (text ++ 0x2a :: 0x2f :: rest)) (hFuel : text.length < fuel) :
    ∃ s', commentLoop fuel s = some s' ∧ Holds s' out (0x2a :: 0x2f :: rest) ∧ s'.mem = s.mem := by
  induction text generalizing s fuel with
  | nil =>
      cases fuel with
      | zero => cases hFuel
      | succ fuel =>
          refine ⟨s, ?_, h, rfl⟩
          rw [List.nil_append] at h
          simp [commentLoop, h.read, h.next.read]
  | cons c text ih =>
      rw [List.length_cons] at hFuel
      cases fuel with
      | zero => omega
      | succ fuel =>
          have hc := hText c (List.mem_cons_self ..)
          have hRest : ¬[0x2a, 0x2f] <:+: text ++ [0x2a] := fun hIn =>
            hOpen (hIn.trans (List.suffix_cons c _).isInfix)
          rw [List.cons_append] at h
          obtain ⟨s', hLoop, hHolds, hMem⟩ := @ih s.next fuel
            (fun x hx => hText x (List.mem_cons_of_mem c hx)) hRest h.next (by omega)
          refine ⟨s', ?_, hHolds, hMem⟩
          by_cases hStar : c = 0x2a
          · subst hStar
            obtain ⟨d, more, hMore, hd⟩ : ∃ d more, text ++ 0x2a :: 0x2f :: rest = d :: more ∧
                d ≠ 0x2f := by
              cases text with
              | nil => exact ⟨0x2a, _, rfl, by decide⟩
              | cons d text =>
                  refine ⟨d, _, rfl, ?_⟩
                  rintro rfl
                  exact hOpen ⟨[], text ++ [0x2a], rfl⟩
            have hNext := h.next
            rw [hMore] at hNext
            simp [commentLoop, h.read, hNext.read, hd, hLoop]
          · simp [commentLoop, h.read, hc, hStar, hLoop]

/-- One plain byte of a string is copied. -/
theorem literalLoop_plain {fuel : Nat} (hZero : c ≠ 0) (hQuote : c ≠ 0x22) (hSlash : c ≠ 0x5c)
    (h : Holds s out (c :: rest)) :
    ∃ s', Holds s' (out ++ [c]) rest ∧ s'.mem.length = s.mem.length ∧
      literalLoop (fuel + 1) s = literalLoop fuel s' := by
  obtain ⟨s', hCopy, hLength, hHolds⟩ := h.copy
  refine ⟨s', hHolds, hLength, ?_⟩
  simp [literalLoop, h.read, hZero, hQuote, hSlash, hCopy]

/-- A backslash is copied with the byte behind it. -/
theorem literalLoop_escape {fuel : Nat} (h : Holds s out (0x5c :: c :: rest)) :
    ∃ s', Holds s' (out ++ [0x5c, c]) rest ∧ s'.mem.length = s.mem.length ∧
      literalLoop (fuel + 1) s = literalLoop fuel s' := by
  obtain ⟨s', hCopy, hLength, hHolds⟩ := h.copy
  obtain ⟨s'', hCopy', hLength', hHolds'⟩ := hHolds.copy
  refine ⟨s'', ?_, hLength'.trans hLength, ?_⟩
  · rw [List.append_assoc] at hHolds'
    exact hHolds'
  · simp [literalLoop, h.read, hCopy, hCopy']

/-- Hexadecimal digits are plain bytes. -/
theorem literalLoop_unit {a b c d : UInt8} {u fuel : Nat} (hUnit : hexUnit a b c d = some u)
    (h : Holds s out (0x5c :: 0x75 :: a :: b :: c :: d :: rest)) :
    ∃ s', Holds s' (out ++ [0x5c, 0x75, a, b, c, d]) rest ∧ s'.mem.length = s.mem.length ∧
      literalLoop (fuel + 5) s = literalLoop fuel s' := by
  obtain ⟨_, _, _, _, hA, hB, hC, hD, -⟩ := hexUnit_digits hUnit
  obtain ⟨-, hA⟩ := hexDigit_spec hA
  obtain ⟨-, hB⟩ := hexDigit_spec hB
  obtain ⟨-, hC⟩ := hexDigit_spec hC
  obtain ⟨-, hD⟩ := hexDigit_spec hD
  obtain ⟨s1, h1, hLen1, hLoop1⟩ := @literalLoop_escape s out _ _ (fuel + 4) h
  obtain ⟨s2, h2, hLen2, hLoop2⟩ := @literalLoop_plain s1 _ _ a (fuel + 3) hA.1 hA.2.1 hA.2.2 h1
  obtain ⟨s3, h3, hLen3, hLoop3⟩ := @literalLoop_plain s2 _ _ b (fuel + 2) hB.1 hB.2.1 hB.2.2 h2
  obtain ⟨s4, h4, hLen4, hLoop4⟩ := @literalLoop_plain s3 _ _ c (fuel + 1) hC.1 hC.2.1 hC.2.2 h3
  obtain ⟨s5, h5, hLen5, hLoop5⟩ := @literalLoop_plain s4 _ _ d fuel hD.1 hD.2.1 hD.2.2 h4
  refine ⟨s5, ?_, by omega, ?_⟩
  · simp only [List.append_assoc, List.cons_append, List.nil_append] at h5
    exact h5
  · rw [hLoop1, hLoop2, hLoop3, hLoop4, hLoop5]

/-- A string is copied up to the quote behind it. -/
theorem literalLoop_spec {bytes : List UInt8} (hChars : Chars bytes text) {fuel : Nat}
    (h : Holds s out (text ++ 0x22 :: rest)) (hFuel : text.length < fuel) :
    ∃ s', literalLoop fuel s = some s' ∧ Holds s' (out ++ text) (0x22 :: rest) ∧
      s'.mem.length = s.mem.length := by
  induction hChars generalizing s out fuel with
  | nil =>
      cases fuel with
      | zero => cases hFuel
      | succ fuel =>
          refine ⟨s, ?_, by rwa [List.append_nil], rfl⟩
          rw [List.nil_append] at h
          simp [literalLoop, h.read]
  | plain hZero hQuote hSlash _ ih =>
      rw [List.length_cons] at hFuel
      obtain ⟨fuel, rfl⟩ : ∃ f, fuel = f + 1 := Nat.exists_eq_add_of_le' (by omega)
      obtain ⟨s1, h1, hLen1, hLoop1⟩ := @literalLoop_plain s out _ _ fuel hZero hQuote hSlash h
      obtain ⟨s', hLoop, hHolds, hLen⟩ := @ih s1 _ fuel h1 (by omega)
      refine ⟨s', hLoop1.trans hLoop, ?_, hLen.trans hLen1⟩
      rwa [List.append_assoc] at hHolds
  | short _ _ ih =>
      simp only [List.length_cons] at hFuel
      obtain ⟨fuel, rfl⟩ : ∃ f, fuel = f + 1 := Nat.exists_eq_add_of_le' (by omega)
      obtain ⟨s1, h1, hLen1, hLoop1⟩ := @literalLoop_escape s out _ _ fuel h
      obtain ⟨s', hLoop, hHolds, hLen⟩ := @ih s1 _ fuel h1 (by omega)
      refine ⟨s', hLoop1.trans hLoop, ?_, hLen.trans hLen1⟩
      rwa [List.append_assoc] at hHolds
  | unit hUnit _ _ _ ih =>
      simp only [List.length_cons] at hFuel
      obtain ⟨fuel, rfl⟩ : ∃ f, fuel = f + 5 := Nat.exists_eq_add_of_le' (by omega)
      obtain ⟨s1, h1, hLen1, hLoop1⟩ := @literalLoop_unit s out _ _ _ _ _ _ fuel hUnit h
      obtain ⟨s', hLoop, hHolds, hLen⟩ := @ih s1 _ fuel h1 (by omega)
      refine ⟨s', hLoop1.trans hLoop, ?_, hLen.trans hLen1⟩
      rwa [List.append_assoc] at hHolds
  | pair hHigh hLow _ _ _ _ _ ih =>
      simp only [List.length_cons] at hFuel
      obtain ⟨fuel, rfl⟩ : ∃ f, fuel = f + 5 + 5 := ⟨fuel - 10, by omega⟩
      obtain ⟨s1, h1, hLen1, hLoop1⟩ := @literalLoop_unit s out _ _ _ _ _ _ (fuel + 5) hHigh h
      obtain ⟨s2, h2, hLen2, hLoop2⟩ := @literalLoop_unit s1 _ _ _ _ _ _ _ fuel hLow h1
      obtain ⟨s', hLoop, hHolds, hLen⟩ := @ih s2 _ fuel h2 (by omega)
      refine ⟨s', hLoop1.trans (hLoop2.trans hLoop), ?_, hLen.trans (hLen2.trans hLen1)⟩
      simpa only [List.append_assoc, List.cons_append, List.nil_append] using hHolds

end

/-! ## Parts of a text -/

/-- A part of a text becomes another one, in at most as many turns as it has bytes. -/
def Minifies (text text' : List UInt8) : Prop :=
  ∀ (s : Cursor) (out rest : List UInt8), Holds s out (text ++ rest) →
    ∃ k s', k ≤ text.length ∧ Holds s' (out ++ text') rest ∧ s'.mem.length = s.mem.length ∧
      ∀ fuel, minifyLoop (fuel + k) s = minifyLoop fuel s'

section

variable {text text' more more' : List UInt8} {c : UInt8}

theorem Minifies.nil : Minifies [] [] :=
  fun s out _ h => ⟨0, s, le_rfl, by rwa [List.append_nil], rfl, fun _ => rfl⟩

theorem Minifies.append (h : Minifies text text') (hMore : Minifies more more') :
    Minifies (text ++ more) (text' ++ more') := by
  intro s out rest hHolds
  rw [List.append_assoc] at hHolds
  obtain ⟨k, s1, hk, h1, hLen1, hLoop1⟩ := h s out _ hHolds
  obtain ⟨k', s2, hk', h2, hLen2, hLoop2⟩ := hMore s1 _ _ h1
  refine ⟨k' + k, s2, ?_, ?_, hLen2.trans hLen1, ?_⟩
  · rw [List.length_append]
    omega
  · rwa [List.append_assoc] at h2
  · intro fuel
    rw [← Nat.add_assoc, hLoop1, hLoop2]

/-- One turn of the loop, for a part of a text. -/
theorem minifies_turn (hZero : c ≠ 0) (hTurn : ∀ (s : Cursor) (out rest : List UInt8),
    Holds s out (c :: text ++ rest) → ∃ s', minifyTurn c s = some s' ∧
      Holds s' (out ++ text') rest ∧ s'.mem.length = s.mem.length) :
    Minifies (c :: text) text' := by
  intro s out rest h
  obtain ⟨s', hTurn, hHolds, hLen⟩ := hTurn s out rest h
  refine ⟨1, s', by rw [List.length_cons]; omega, hHolds, hLen, ?_⟩
  intro fuel
  rw [List.cons_append] at h
  simp [minifyLoop, h.read, hZero, hTurn]

/-- The blanks that `cJSON_Minify` takes out. -/
def White (c : UInt8) : Prop := c = 0x20 ∨ c = 0x09 ∨ c = 0x0d ∨ c = 0x0a

theorem minifies_white (hc : White c) : Minifies [c] [] := by
  have hZero : c ≠ 0 := by
    rcases hc with rfl | rfl | rfl | rfl <;> decide
  apply minifies_turn hZero
  intro s out rest h
  refine ⟨s.next, ?_, ?_, rfl⟩
  · rcases hc with rfl | rfl | rfl | rfl <;> rfl
  · rw [List.append_nil]
    exact h.next

/-- A byte outside of strings that is copied. -/
def Copied (c : UInt8) : Prop :=
  c ≠ 0 ∧ c ≠ 0x20 ∧ c ≠ 0x09 ∧ c ≠ 0x0d ∧ c ≠ 0x0a ∧ c ≠ 0x2f ∧ c ≠ 0x22

instance : DecidablePred Copied := fun _ => inferInstanceAs (Decidable (_ ∧ _))

theorem minifies_copied (hc : Copied c) : Minifies [c] [c] := by
  obtain ⟨hZero, h20, h09, h0d, h0a, h2f, h22⟩ := hc
  apply minifies_turn hZero
  intro s out rest h
  obtain ⟨s', hCopy, hLen, hHolds⟩ := h.copy
  refine ⟨s', ?_, hHolds, hLen⟩
  rw [minifyTurn, if_neg h20, if_neg h09, if_neg h0d, if_neg h0a, if_neg h2f, if_neg h22, hCopy]

theorem minifies_all (hText : ∀ c ∈ text, Copied c) : Minifies text text := by
  induction text with
  | nil => exact .nil
  | cons c text ih =>
      exact (minifies_copied (hText c (List.mem_cons_self ..))).append
        (ih fun x hx => hText x (List.mem_cons_of_mem c hx))

private theorem minifies_whites (hText : ∀ c ∈ text, White c) : Minifies text [] := by
  induction text with
  | nil => exact .nil
  | cons c text ih =>
      exact (minifies_white (hText c (List.mem_cons_self ..))).append
        (ih fun x hx => hText x (List.mem_cons_of_mem c hx))

/-- A string is left as it is. -/
theorem minifies_quoted {bytes : List UInt8} (hChars : Chars bytes text) :
    Minifies (quoted text) (quoted text) := by
  apply minifies_turn (by decide)
  intro s out rest h
  rw [List.cons_append, List.append_assoc, List.singleton_append] at h
  obtain ⟨s1, hCopy1, hLen1, h1⟩ := h.copy
  have hFuel := h1.length_le
  rw [List.length_append] at hFuel
  obtain ⟨s2, hLoop, h2, hLen2⟩ := @literalLoop_spec s1 _ _ _ _ hChars (s1.mem.length + 1) h1
    (by omega)
  obtain ⟨s3, hCopy3, hLen3, h3⟩ := h2.copy
  refine ⟨s3, ?_, ?_, hLen3.trans (hLen2.trans hLen1)⟩
  · have hTurn : minifyTurn 0x22 s = (do
        let s ← s.copy
        let s ← literalLoop (s.mem.length + 1) s
        s.copy) := rfl
    rw [hTurn, hCopy1]
    simp only [Option.bind_eq_bind, Option.bind_some, hLoop, hCopy3]
  · simp only [List.append_assoc, List.cons_append, List.nil_append] at h3
    exact h3

/-- What may stand between tokens: blanks, comments up to the end of a line, and comments that end
at the first star with a slash behind it, the star of their start included. -/
inductive Gap : List UInt8 → Prop where
  | nil : Gap []
  | white {c : UInt8} {w : List UInt8} : White c → Gap w → Gap (c :: w)
  | line {body w : List UInt8} : (∀ c ∈ body, c ≠ 0 ∧ c ≠ 0x0a) → Gap w →
      Gap (0x2f :: 0x2f :: (body ++ 0x0a :: w))
  | comment {body w : List UInt8} : (∀ c ∈ body, c ≠ 0) →
      ¬[0x2a, 0x2f] <:+: 0x2a :: (body ++ [0x2a]) → Gap w →
      Gap (0x2f :: 0x2a :: (body ++ 0x2a :: 0x2f :: w))

private theorem minifies_line (hText : ∀ c ∈ text, c ≠ 0 ∧ c ≠ 0x0a) :
    Minifies (0x2f :: 0x2f :: (text ++ [0x0a])) [] := by
  intro s out rest h
  have hAll : ∀ c ∈ 0x2f :: 0x2f :: text, c ≠ 0 ∧ c ≠ 0x0a := by
    intro c hc
    rcases List.mem_cons.mp hc with rfl | hc
    · decide
    rcases List.mem_cons.mp hc with rfl | hc
    · decide
    · exact hText c hc
  have hFuel := h.length_le
  simp only [List.cons_append, List.append_assoc, List.nil_append, List.length_append,
    List.length_cons] at h hFuel
  obtain ⟨s1, hLoop, h1, hMem1⟩ := @lineLoop_spec s out rest _ (s.mem.length + 1) hAll h
    (by simp only [List.length_cons]; omega)
  obtain ⟨k, s2, hk, h2, hLen2, hLoop2⟩ := minifies_white (Or.inr (Or.inr (Or.inr rfl))) s1 out rest
    h1
  refine ⟨k + 1, s2, ?_, h2, hLen2.trans (congrArg List.length hMem1), ?_⟩
  · simp only [List.length_append, List.length_cons, List.length_nil] at hk ⊢
    omega
  · intro fuel
    have hTurn : minifyTurn 0x2f s = some s1 := by
      have hSlash : minifyTurn 0x2f s = (do
          let d ← s.next.read
          minifySlash d s) := rfl
      have hLine : minifySlash 0x2f s = lineLoop (s.mem.length + 1) s := rfl
      rw [hSlash, h.next.read, Option.bind_eq_bind, Option.bind_some, hLine, hLoop]
    rw [← hLoop2, ← Nat.add_assoc]
    simp [minifyLoop, h.read, hTurn]

private theorem minifies_comment (hText : ∀ c ∈ text, c ≠ 0)
    (hOpen : ¬[0x2a, 0x2f] <:+: 0x2a :: (text ++ [0x2a])) :
    Minifies (0x2f :: 0x2a :: (text ++ [0x2a, 0x2f])) [] := by
  intro s out rest h
  have hAll : ∀ c ∈ 0x2f :: 0x2a :: text, c ≠ 0 := by
    intro c hc
    rcases List.mem_cons.mp hc with rfl | hc
    · decide
    rcases List.mem_cons.mp hc with rfl | hc
    · decide
    · exact hText c hc
  have hStart : ¬[0x2a, 0x2f] <:+: 0x2f :: 0x2a :: text ++ [0x2a] := by
    intro hIn
    rcases List.infix_cons_iff.mp hIn with hFirst | hRest
    · obtain ⟨more, hMore⟩ := hFirst
      cases hMore
    · exact hOpen hRest
  have hFuel := h.length_le
  simp only [List.cons_append, List.append_assoc, List.nil_append, List.length_append,
    List.length_cons] at h hFuel
  obtain ⟨s1, hLoop, h1, hMem1⟩ := @commentLoop_spec s out rest _ (s.mem.length + 1) hAll hStart h
    (by simp only [List.length_cons]; omega)
  refine ⟨1, s1.next.next, ?_, ?_, congrArg List.length hMem1, ?_⟩
  · simp only [List.length_cons]
    omega
  · rw [List.append_nil]
    exact h1.next.next
  · intro fuel
    have hTurn : minifyTurn 0x2f s = some s1.next.next := by
      have hSlash : minifyTurn 0x2f s = (do
          let d ← s.next.read
          minifySlash d s) := rfl
      have hComment : minifySlash 0x2a s = (do
          let s ← commentLoop (s.mem.length + 1) s
          return s.next.next) := rfl
      rw [hSlash, h.next.read, Option.bind_eq_bind, Option.bind_some, hComment, hLoop]
      rfl
    simp [minifyLoop, h.read, hTurn]

theorem minifies_gap (h : Gap text) : Minifies text [] := by
  induction h with
  | nil => exact .nil
  | white hc _ ih => exact (minifies_white hc).append ih
  | @line body w hBody _ ih =>
      have hBoth := (minifies_line hBody).append ih
      simpa only [List.cons_append, List.append_assoc, List.nil_append] using hBoth
  | @comment body w hBody hOpen _ ih =>
      have hBoth := (minifies_comment hBody hOpen).append ih
      simpa only [List.cons_append, List.append_assoc, List.nil_append] using hBoth

end

/-! ## Texts -/

/-- Texts with blanks and comments. -/
def commented {D : Type} (F : Double D) : Grammar (BitVec 32 × D) where
  gap := Gap
  number := Number F

/-- Texts with nothing between their tokens. -/
def compact {D : Type} (F : Double D) : Grammar (BitVec 32 × D) where
  gap w := w = []
  number := Number F

/-- Bytes that are no blank, no slash and no quote are copied. -/
theorem copied_of_lt {c : UInt8} (h : 0x2f < c) : Copied c := by
  have hNe : ∀ x : UInt8, x ≤ 0x2f → c ≠ x := by
    rintro x hx rfl
    exact absurd h (UInt8.not_lt.mpr hx)
  exact ⟨hNe _ (by decide), hNe _ (by decide), hNe _ (by decide), hNe _ (by decide),
    hNe _ (by decide), hNe _ (by decide), hNe _ (by decide)⟩

theorem copied_word {word : List UInt8} (h : word.all (fun c => decide (Copied c)) = true) :
    ∀ c ∈ word, Copied c :=
  fun c hc => of_decide_eq_true (List.all_eq_true.mp h c hc)

theorem copied_digit {c : UInt8} (h : isdigit c = true) : Copied c :=
  copied_of_lt (UInt8.lt_of_lt_of_le (by decide) (isdigit_iff.mp h).1)

/-- The bytes of a literal are copied. -/
theorem copied_literal (l : Literal) : ∀ c ∈ l.text, Copied c := by
  have hExponent : ∀ c ∈ l.exponentText, Copied c := by
    unfold Literal.exponentText
    cases l.exponent with
    | none => intro c hc; cases hc
    | some e =>
        intro c hc
        rcases List.mem_cons.mp hc with rfl | hc
        · cases e.upper <;> exact copied_of_lt (by decide)
        rcases List.mem_append.mp hc with hSign | hDigit
        · cases hs : e.sign with
          | none =>
              rw [hs] at hSign
              cases hSign
          | some minus =>
              rw [hs] at hSign
              cases minus
              · rw [List.mem_singleton.mp hSign]
                decide
              · rw [List.mem_singleton.mp hSign]
                decide
        · exact copied_digit (e.isDigits c hDigit)
  have hFraction : ∀ c ∈ l.fractionText, Copied c := by
    unfold Literal.fractionText
    intro c hc
    split_ifs at hc with hNil
    · cases hc
    · rcases List.mem_cons.mp hc with rfl | hc
      · unfold Copied
        decide
      · exact copied_digit (l.fractionDigits c hc)
  have hWhole : ∀ c ∈ l.wholeText, Copied c := by
    unfold Literal.wholeText
    intro c hc
    split_ifs at hc with hNil
    · rw [List.mem_singleton.mp hc]
      exact copied_of_lt (by decide)
    · exact copied_digit (l.wholeDigits c hc)
  intro c hc
  rcases List.mem_append.mp hc with hMinus | hc
  · cases hm : l.minus with
    | false =>
        rw [hm] at hMinus
        cases hMinus
    | true =>
        rw [hm] at hMinus
        rw [List.mem_singleton.mp hMinus]
        decide
  rcases List.mem_append.mp hc with hc | hc
  · exact hWhole c hc
  rcases List.mem_append.mp hc with hc | hc
  · exact hFraction c hc
  · exact hExponent c hc

section

variable {D : Type} {F : Double D}

/-- A byte between the tokens. -/
theorem minifies_byte {c : UInt8} (h : 0x2f < c ∨ c = 0x2c) : Minifies [c] [c] := by
  rcases h with hLt | rfl
  · exact minifies_copied (copied_of_lt hLt)
  · exact minifies_copied (by decide)

mutual

/-- A text of a value becomes one with nothing between its tokens. -/
theorem Text_minifies : ∀ {v : Value (BitVec 32 × D)} {t : List UInt8}, Text (commented F) v t →
    ∃ t', Minifies t t' ∧ Text (compact F) v t'
  | _, _, .null ht => by
      refine ⟨_, minifies_all ?_, .null ht⟩
      rw [ht]
      exact copied_word (by decide)
  | _, _, .falsum ht => by
      refine ⟨_, minifies_all ?_, .falsum ht⟩
      rw [ht]
      exact copied_word (by decide)
  | _, _, .verum ht => by
      refine ⟨_, minifies_all ?_, .verum ht⟩
      rw [ht]
      exact copied_word (by decide)
  | _, _, .number hn => by
      refine ⟨_, minifies_all ?_, .number hn⟩
      obtain ⟨l, rfl, -⟩ := hn
      exact copied_literal l
  | _, _, .string hc => ⟨_, minifies_quoted hc, .string hc⟩
  | _, _, .empty hw =>
      ⟨_, (minifies_byte (by decide)).append ((minifies_gap hw).append (minifies_byte (by decide))),
        .empty rfl⟩
  | _, _, .array he => by
      obtain ⟨t', hMin, ht'⟩ := Elements_minifies he
      exact ⟨_, (minifies_byte (by decide)).append (hMin.append (minifies_byte (by decide))),
        .array ht'⟩
  | _, _, .blank hw =>
      ⟨_, (minifies_byte (by decide)).append ((minifies_gap hw).append (minifies_byte (by decide))),
        .blank rfl⟩
  | _, _, .object hm => by
      obtain ⟨t', hMin, ht'⟩ := Members_minifies hm
      exact ⟨_, (minifies_byte (by decide)).append (hMin.append (minifies_byte (by decide))),
        .object ht'⟩

theorem Padded_minifies : ∀ {v : Value (BitVec 32 × D)} {t : List UInt8},
    Padded (commented F) v t → ∃ t', Minifies t t' ∧ Padded (compact F) v t'
  | _, _, .mk hw ht hw' => by
      obtain ⟨t', hMin, ht'⟩ := Text_minifies ht
      exact ⟨_, (minifies_gap hw).append (hMin.append (minifies_gap hw')), .mk rfl ht' rfl⟩

private theorem Elements_minifies : ∀ {vs : List (Value (BitVec 32 × D))} {t : List UInt8},
    Elements (commented F) vs t → ∃ t', Minifies t t' ∧ Elements (compact F) vs t'
  | _, _, .last hp => by
      obtain ⟨t', hMin, ht'⟩ := Padded_minifies hp
      exact ⟨t', hMin, .last ht'⟩
  | _, _, .cons hp he => by
      obtain ⟨t', hMin, ht'⟩ := Padded_minifies hp
      obtain ⟨u', hRest, hu'⟩ := Elements_minifies he
      exact ⟨_, hMin.append ((minifies_byte (by decide)).append hRest), .cons ht' hu'⟩

private theorem Member_minifies : ∀ {m : List UInt8 × Value (BitVec 32 × D)} {t : List UInt8},
    Member (commented F) m t → ∃ t', Minifies t t' ∧ Member (compact F) m t'
  | _, _, .mk hw hc hw' hp => by
      obtain ⟨t', hMin, ht'⟩ := Padded_minifies hp
      exact ⟨_, (minifies_gap hw).append ((minifies_quoted hc).append
        ((minifies_gap hw').append ((minifies_byte (by decide)).append hMin))), .mk rfl hc rfl ht'⟩

theorem Members_minifies : ∀ {ms : List (List UInt8 × Value (BitVec 32 × D))} {t : List UInt8},
    Members (commented F) ms t → ∃ t', Minifies t t' ∧ Members (compact F) ms t'
  | _, _, .last hm => by
      obtain ⟨t', hMin, ht'⟩ := Member_minifies hm
      exact ⟨t', hMin, .last ht'⟩
  | _, _, .cons hm hms => by
      obtain ⟨t', hMin, ht'⟩ := Member_minifies hm
      obtain ⟨u', hRest, hu'⟩ := Members_minifies hms
      exact ⟨_, hMin.append ((minifies_byte (by decide)).append hRest), .cons ht' hu'⟩

end

end

/-- The whole array, of which a part is minified up to the zero. -/
theorem cJSONMinify_spec {text text' : List UInt8} (h : Minifies text text') (post : List UInt8) :
    ∃ junk, cJSONMinify (text ++ 0 :: post) = some (text' ++ 0 :: (junk ++ post)) ∧
      (text' ++ junk).length = text.length := by
  have hStart : Holds { mem := text ++ 0 :: post, json := 0, into := 0 } [] (text ++ 0 :: post) :=
    ⟨⟨[], rfl, rfl⟩, rfl⟩
  obtain ⟨k, s, hk, hHolds, hLen, hLoop⟩ := h _ _ _ hStart
  obtain ⟨junk, hMem, hJson⟩ := hHolds.mem
  have hLength : s.mem.length = text.length + (post.length + 1) := by
    rw [hLen, List.length_append, List.length_cons]
  rw [List.nil_append] at hMem hJson
  have hAll : text'.length + (junk.length + (post.length + 1)) =
      text.length + (post.length + 1) := by
    rw [← hLength, hMem, List.length_append, List.length_append, List.length_cons]
  have hInto : s.into = text'.length := hHolds.into
  have hRun : minifyLoop ((text ++ 0 :: post).length + 1)
      { mem := text ++ 0 :: post, json := 0, into := 0 } = some s := by
    have hFuel : (text ++ 0 :: post).length + 1 =
        ((text ++ 0 :: post).length - k) + 1 + k := by
      rw [List.length_append]
      omega
    rw [hFuel, hLoop]
    simp [minifyLoop, hHolds.read]
  refine ⟨(junk ++ [0]).tail, ?_, ?_⟩
  · rw [cJSONMinify, hRun]
    simp only [Option.bind_eq_bind, Option.bind_some]
    rw [if_pos (by omega), hMem, hInto, List.set_append_right _ _ le_rfl, Nat.sub_self]
    cases junk with
    | nil => rfl
    | cons j junk => simp
  · rw [List.length_append, List.length_tail, List.length_append, List.length_singleton]
    omega

section

variable {D : Type} {F : Double D}

theorem stringText_minifies (str : Option Str) : Minifies (stringText str) (stringText str) := by
  cases str with
  | none => exact .nil
  | some str => exact minifies_quoted (chars_escaped str.property)

theorem minifies_newline : Minifies [0x0a] [] := minifies_white (Or.inr (Or.inr (Or.inr rfl)))

theorem minifies_tabs (n : Nat) : Minifies (List.replicate n 0x09) [] := by
  apply minifies_whites
  intro c hc
  rw [List.eq_of_mem_replicate hc]
  exact Or.inr (Or.inl rfl)

private theorem joined_minifies {entries entries' : List (List UInt8)}
    (h : List.Forall₂ Minifies entries entries') :
    Minifies (joined true entries) (joined false entries') := by
  induction h with
  | nil => exact .nil
  | @cons entry entry' entries entries' hFirst hRest ih =>
      rw [joined, joined]
      by_cases hNil : entries = []
      · subst hNil
        cases hRest
        exact hFirst.append .nil
      · have hNil' : entries' ≠ [] := by
          rintro rfl
          cases hRest
          exact hNil rfl
        rw [if_neg hNil, if_neg hNil']
        exact hFirst.append ((minifies_byte (by decide)).append
          ((minifies_white (Or.inl rfl)).append ih))

private theorem arrayText_minifies {entries entries' : List (List UInt8)}
    (h : List.Forall₂ Minifies entries entries') :
    Minifies (arrayText entries true) (arrayText entries' false) :=
  (minifies_byte (by decide)).append ((joined_minifies h).append (minifies_byte (by decide)))

theorem lines_minifies {depth depth' : Nat} {entries entries' : List (List UInt8 × List UInt8)}
    (h : List.Forall₂ (fun line line' => Minifies line.1 line'.1 ∧ Minifies line.2 line'.2)
      entries entries') :
    Minifies (lines true depth entries) (lines false depth' entries') := by
  induction h with
  | nil => exact .nil
  | @cons line line' entries entries' hFirst hRest ih =>
      obtain ⟨name, entry⟩ := line
      obtain ⟨name', entry'⟩ := line'
      have hComma : Minifies (if entries ≠ [] then [0x2c] else [])
          (if entries' ≠ [] then [0x2c] else []) := by
        by_cases hNil : entries = []
        · subst hNil
          cases hRest
          exact .nil
        · have hNil' : entries' ≠ [] := by
            rintro rfl
            cases hRest
            exact hNil rfl
          rw [if_pos hNil, if_pos hNil']
          exact minifies_byte (by decide)
      rw [lines, lines]
      exact (minifies_tabs depth).append (hFirst.1.append ((minifies_byte (by decide)).append
        ((minifies_white (Or.inr (Or.inl rfl))).append (hFirst.2.append
          (hComma.append (minifies_newline.append ih))))))

private theorem objectText_minifies {depth depth' : Nat}
    {entries entries' : List (List UInt8 × List UInt8)}
    (h : List.Forall₂ (fun line line' => Minifies line.1 line'.1 ∧ Minifies line.2 line'.2)
      entries entries') :
    Minifies (objectText entries depth true) (objectText entries' depth' false) := by
  unfold objectText
  by_cases hNil : entries = []
  · subst hNil
    cases h
    exact (minifies_byte (by decide)).append ((minifies_newline.append (minifies_tabs _)).append
      (minifies_byte (by decide)))
  · have hNil' : entries' ≠ [] := by
      rintro rfl
      cases h
      exact hNil rfl
    rw [if_neg hNil, if_neg hNil']
    exact (minifies_byte (by decide)).append (minifies_newline.append ((lines_minifies h).append
      ((minifies_tabs depth).append (minifies_byte (by decide)))))

theorem copied_decimal (i : Int) : ∀ c ∈ decimal i, Copied c := by
  rw [← intLiteral_text]
  exact copied_literal _

mutual

/-- The text with a format becomes the one without. -/
theorem render_minifies (hDouble : ∀ d, ∀ c ∈ doubleText F d, Copied c) :
    ∀ (item : Item D) (depth depth' : Nat),
      Minifies (render F item depth true) (render F item depth' false)
  | ⟨.null, _, _, _, _, _⟩, _, _ => by
      rw [render, render]
      exact minifies_all (copied_word (by decide))
  | ⟨.false, _, _, _, _, _⟩, _, _ => by
      rw [render, render]
      exact minifies_all (copied_word (by decide))
  | ⟨.true, _, _, _, _, _⟩, _, _ => by
      rw [render, render]
      exact minifies_all (copied_word (by decide))
  | ⟨.number, _, valueint, d, _, _⟩, _, _ => by
      rw [render, render, numberText]
      refine minifies_all ?_
      split_ifs
      · exact copied_decimal _
      · exact hDouble d
  | ⟨.string, valuestring, _, _, _, _⟩, _, _ => stringText_minifies valuestring
  | ⟨.array, _, _, _, _, child⟩, depth, depth' =>
      arrayText_minifies (renderElements_minifies hDouble child (depth + 1) (depth' + 1))
  | ⟨.object, _, _, _, _, child⟩, depth, depth' =>
      objectText_minifies (renderMembers_minifies hDouble child (depth + 1) (depth' + 1))

private theorem renderElements_minifies (hDouble : ∀ d, ∀ c ∈ doubleText F d, Copied c) :
    ∀ (child : List (Item D)) (depth depth' : Nat),
      List.Forall₂ Minifies (renderElements F child depth true)
        (renderElements F child depth' false)
  | [], _, _ => .nil
  | child :: next, depth, depth' =>
      .cons (render_minifies hDouble child depth depth')
        (renderElements_minifies hDouble next depth depth')

private theorem renderMembers_minifies (hDouble : ∀ d, ∀ c ∈ doubleText F d, Copied c) :
    ∀ (child : List (Item D)) (depth depth' : Nat),
      List.Forall₂ (fun line line' => Minifies line.1 line'.1 ∧ Minifies line.2 line'.2)
        (renderMembers F child depth true) (renderMembers F child depth' false)
  | [], _, _ => .nil
  | child :: next, depth, depth' =>
      .cons ⟨stringText_minifies child.string, render_minifies hDouble child depth depth'⟩
        (renderMembers_minifies hDouble next depth depth')

end

end

/-- `cJSON_Minify` makes the text of `cJSON_Print` that of `cJSON_PrintUnformatted`, whatever the
item holds, and leaves what is behind the text. -/
theorem json_minify_print {D : Type} {F : Double D} (hSprintf : Sprintf F)
    (hDouble : ∀ d, ∀ c ∈ doubleText F d, Copied c) (item : Item D)
    (hSize : 2 * ((render F item 0 true).length : Int) + 64 ≤ intMax) (post : List UInt8) :
    ∃ text text' junk, cJSONPrint F item = some text ∧ cJSONPrintUnformatted F item = some text' ∧
      cJSONMinify (text ++ 0 :: post) = some (text' ++ 0 :: (junk ++ post)) := by
  obtain ⟨junk, hRun, hLength⟩ := cJSONMinify_spec (render_minifies hDouble item 0 0) post
  rw [List.length_append] at hLength
  exact ⟨_, _, junk, printValue_eq hSprintf item 0 true hSize,
    printValue_eq hSprintf item 0 false (by omega), hRun⟩

theorem json_minify_print_object :
    ∃ text text' junk,
      cJSONPrint integers ⟨.object, none, 0, 0, none,
        [⟨.array, none, 0, 0, some (Str.of [0x6b]),
          [⟨.string, some (Str.of [0x20]), 0, 0, none, []⟩, ⟨.number, none, 0, 0, none, []⟩]⟩]⟩ =
        some text ∧
      cJSONPrintUnformatted integers ⟨.object, none, 0, 0, none,
        [⟨.array, none, 0, 0, some (Str.of [0x6b]),
          [⟨.string, some (Str.of [0x20]), 0, 0, none, []⟩, ⟨.number, none, 0, 0, none, []⟩]⟩]⟩ =
        some text' ∧
      cJSONMinify (text ++ 0 :: []) = some (text' ++ 0 :: (junk ++ [])) := by
  have hDouble : ∀ d, ∀ c ∈ doubleText integers d, Copied c := by
    intro d c hc
    unfold doubleText at hc
    split_ifs at hc
    · exact copied_decimal d c hc
    · exact copied_decimal d c (List.mem_of_mem_take hc)
    · rcases List.mem_append.mp hc with hDigits | hTail
      · exact copied_decimal d c hDigits
      · exact copied_word (by decide) c hTail
  exact json_minify_print sprintf_integers hDouble _ (by decide) []

end Gbase.Util.Cjson
