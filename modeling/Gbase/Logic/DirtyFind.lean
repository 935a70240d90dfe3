import Gbase.Logic.Dirty

/-!
# Looking up a dirty word (`logic/dirty.c`)

`dirty_hash_find` compares as many bytes as it was given.  A longer word of the same bucket that
starts with these bytes is therefore taken for the word as well.

The words of a bucket share the place that their hashes lead to, and the bytes that are looked up
decide which one is meant.  What is compared is stated here without the chains of the bucket, as a
condition on the words of the table.

## Main results

* `found_iff`: what the lookup takes for the word.
* `dirtyHashFind_exact_iff`: when the lookup finds the words of the table and no other.
-/

namespace Gbase.Logic.Dirty

open Gbase.Lib.CString

/-- The lookup ends, and succeeds just for a word of the table. -/
def Exact (ctx : DirtyCtxT) (src : List UInt8) (len : Nat) : Prop :=
  ∃ r, dirtyHashFind ctx src len = some r ∧ (r = 0 ↔ src.take len ∈ ctx.words)

/-- A longer word that is taken for the bytes is no harm if they are a word themselves. -/
def Apart (words : List (List UInt8)) (bytes : List UInt8) : Prop :=
  ∀ w, w ∈ words → bytes <+: w → bucket w = bucket bytes → w ≠ bytes → bytes ∈ words

instance Apart.decidable (words : List (List UInt8)) (bytes : List UInt8) :
    Decidable (Apart words bytes) := inferInstanceAs (Decidable (∀ w, w ∈ words → _))

section

variable {words : List (List UInt8)} {src : List UInt8} {len : Nat}

/-- What is compared of a text without a zero is all of it. -/
theorem take_takeWhile (hText : ∀ x, x ∈ src.take len → x ≠ 0) :
    (src.takeWhile fun x => decide (x ≠ 0)).take len = src.take len := by
  have hBytes : src.takeWhile (fun x => decide (x ≠ 0)) =
      src.take len ++ (src.drop len).takeWhile fun x => decide (x ≠ 0) := by
    conv_lhs => rw [← List.take_append_drop len src]
    exact List.takeWhile_append_of_pos fun x hx => decide_eq_true (hText x hx)
  by_cases hLen : len ≤ src.length
  · rw [hBytes, List.take_left' (List.length_take_of_le hLen)]
  · have hAll : src.take len = src := List.take_of_length_le (by omega)
    have hNone : src.drop len = [] := List.drop_eq_nil_of_le (by omega)
    rw [hBytes, hNone, List.takeWhile_nil, List.append_nil, hAll, hAll]

/-- A word is found if it starts with the bytes and is in their bucket. -/
theorem found_iff (hLen : len ≤ src.length) (hText : ∀ x, x ∈ src.take len → x ≠ 0) :
    Found words src len ↔
      ∃ w, w ∈ words ∧ src.take len <+: w ∧ bucket w = bucket (src.take len) := by
  have hSame : ∀ w, strneq len w (src.takeWhile fun x => decide (x ≠ 0)) = true ↔
      src.take len <+: w := by
    intro w
    rw [strneq, decide_eq_true_iff, take_takeWhile hText, List.prefix_iff_eq_take,
      List.length_take_of_le hLen]
    exact eq_comm
  constructor
  · rintro ⟨w, hIn, hBucket, hStarts⟩
    exact ⟨w, hIn, (hSame w).mp hStarts, hBucket⟩
  · rintro ⟨w, hIn, hStarts, hBucket⟩
    exact ⟨w, hIn, hBucket, (hSame w).mpr hStarts⟩

end

/-- The lookup is exact if and only if the bytes are a word of the table or no longer word of their
bucket starts with them. -/
theorem dirtyHashFind_exact_iff {file : List UInt8} {ctx : DirtyCtxT}
    (hCreate : dirtyCreate file = some ctx) {src : List UInt8} {len : Nat} (hPos : 0 < len)
    (hLen : len ≤ src.length) (hText : ∀ x, x ∈ src.take len → x ≠ 0) :
    Exact ctx src len ↔ Apart ctx.words (src.take len) := by
  obtain ⟨r, hFind, hSpec⟩ := dirtyHashFind_spec (dirtyCreate_built hCreate).hashed src hPos
  rw [found_iff hLen hText] at hSpec
  have hExact : Exact ctx src len ↔ (r = 0 ↔ src.take len ∈ ctx.words) := by
    constructor
    · rintro ⟨r', hFind', hIff⟩
      rw [hFind] at hFind'
      cases hFind'
      exact hIff
    · exact fun hIff => ⟨r, hFind, hIff⟩
  rw [hExact, hSpec]
  constructor
  · intro hIff w hIn hStarts hBucket _
    exact hIff.mp ⟨w, hIn, hStarts, hBucket⟩
  · intro hApart
    constructor
    · rintro ⟨w, hIn, hStarts, hBucket⟩
      by_cases hSame : w = src.take len
      · exact hSame ▸ hIn
      · exact hApart w hIn hStarts hBucket hSame
    · exact fun hIn => ⟨src.take len, hIn, List.prefix_refl _, rfl⟩

/-- The context of a file with one word that shares the bucket of its first byte. -/
def offCtx : DirtyCtxT := (dirtyCreate (ascii "off\n")).get (by decide)

/-- The word is found. -/
theorem dirtyHashFind_exact_off : Exact offCtx (ascii "off the record") 3 :=
  (dirtyHashFind_exact_iff (Option.some_get _).symm (by decide) (by decide)
    (by simp [ascii])).mpr (by decide)

/-- The first byte of the word is taken for the word. -/
theorem dirtyHashFind_not_exact : dirtyHashFind offCtx (ascii "o") 1 = some 0 ∧
    (ascii "o").take 1 ∉ offCtx.words ∧ ¬ Exact offCtx (ascii "o") 1 := by
  have hFind : dirtyHashFind offCtx (ascii "o") 1 = some 0 := by decide
  have hNot : (ascii "o").take 1 ∉ offCtx.words := by decide
  refine ⟨hFind, hNot, ?_⟩
  rintro ⟨r, hFind', hIff⟩
  rw [hFind] at hFind'
  cases hFind'
  exact hNot (hIff.mp rfl)

end Gbase.Logic.Dirty
