import Gbase.Base.Hash
import Gbase.Lib.CString
import Gbase.Lib.Run
import Mathlib.Logic.Function.Basic

/-!
# Dirty words (`logic/dirty.c`)

A table of words is read from a file, line by line.  The words of one bucket of the hash are chained
by their places in the table, and a mask for the first bytes of a text tells the lengths of the
words that start so.  A word is the string that its array holds.

`MAX_DIRTY_WORDS_COUNT` is written without brackets, so that the hash of a word is taken modulo 1024
and multiplied afterwards.

## Main results

* `initHash_hashed`: each chain holds the words of its bucket.
* `dirtyHashFind_spec`: what is found through the hash.
* `initIndex_indexed`: the masks hold the lengths of the words.
* `readTable_word`: what is known of a word that was read.
-/

namespace Gbase.Logic.Dirty

open Gbase.Base.Hash Gbase.Lib.CString Gbase.Lib.Run

/-- `MAX_DIRTY_WORDS_LEN` -/
def maxDirtyWordsLen : Nat := 32

/-- `MAX_DIRTY_WORDS_COUNT` -/
def maxDirtyWordsCount : Nat := 1024 * 16

/-- `MAX_SOURCE_WORDS_LEN` -/
def maxSourceWordsLen : Nat := 1024 * 8

/-- `GB_SPEC_CHAR` -/
def gbSpecChar : UInt8 := 0x80

/-- `dirty_t` -/
structure DirtyT where
  word : List UInt8
  prev : Int
  next : Int

/-- `dirty_ctx_t`; `table_size` is the length of the table. -/
structure DirtyCtxT where
  table : List DirtyT
  hash : Nat → Int
  index : UInt8 → UInt8 → BitVec 32

/-- `tolower` -/
def tolower (c : UInt8) : UInt8 := if 0x41 ≤ c ∧ c ≤ 0x5a then c + 0x20 else c

/-- `fgets` into an array of `n` bytes: the line, with the newline if there is room for it, and what
is left of the file. -/
def fgets (n : Nat) (file : List UInt8) : Option (List UInt8 × List UInt8) :=
  if file = [] then none
  else
    let bytes := file.take (n - 1)
    let line := bytes.take ((bytes.takeWhile (· ≠ 0x0a)).length + 1)
    some (line, file.drop line.length)

/-- A line in lower case, without what ends it.  The byte before an empty word, which is compared as
well, belongs to `table_size` or `next` and does not end a line. -/
def readWord (line : List UInt8) : List UInt8 :=
  (((line.takeWhile (· ≠ 0)).map tolower).reverse.dropWhile fun c => c = 0x0d ∨ c = 0x0a).reverse

/-- The loop of `_dirty_init_table`, with room for some more words. -/
def readTable : Nat → List UInt8 → List DirtyT
  | 0, _ => []
  | more + 1, file =>
      match fgets maxDirtyWordsLen file with
      | none => []
      | some (line, file) => ⟨readWord line, -1, -1⟩ :: readTable more file

/-- `hkey % MAX_DIRTY_WORDS_HASH_COUNT` -/
def bucket (key : List UInt8) : Nat := (hashJhash key).toNat % 1024 * 16 * 3

/-- The last place of a chain, from some place on. -/
def chainEnd (table : List DirtyT) : Nat → Nat → Option Nat
  | 0, _ => none
  | more + 1, windex => do
      let dirty ← table[windex]?
      if dirty.next ≥ 0 then chainEnd table more dirty.next.toNat else some windex

/-- One turn of the loop of `_dirty_init_hash`. -/
def hashTurn (ctx : DirtyCtxT) (i : Nat) : Option DirtyCtxT := do
  let dirty ← ctx.table[i]?
  let hindex := bucket dirty.word
  if ctx.hash hindex < 0 then
    return { ctx with hash := Function.update ctx.hash hindex i }
  else
    let windex ← chainEnd ctx.table ctx.table.length (ctx.hash hindex).toNat
    let table := ctx.table.modify windex fun d => { d with next := i }
    return { ctx with table := table.modify i fun d => { d with prev := windex } }

/-- `_dirty_init_hash` -/
def initHash (ctx : DirtyCtxT) : Option DirtyCtxT :=
  (List.range ctx.table.length).foldlM hashTurn { ctx with hash := fun _ => -1 }

/-- The entry of `index` for a text that starts so; there is none for a lead byte with nothing
behind it. -/
def slot : List UInt8 → Option (UInt8 × UInt8)
  | [] => some (0, 0)
  | c :: rest =>
      if c < gbSpecChar then some (0, c)
      else
        match rest with
        | [] => none
        | d :: _ => some (c, d)

theorem slot_one (c : UInt8) : slot [c] = if c < gbSpecChar then some (0, c) else none := rfl

theorem slot_low {c : UInt8} (hLow : c < gbSpecChar) (rest : List UInt8) :
    slot (c :: rest) = some (0, c) := if_pos hLow

theorem slot_two (c d : UInt8) (rest : List UInt8) :
    slot (c :: d :: rest) = if c < gbSpecChar then some (0, c) else some (c, d) := rfl

/-- One turn of the loop of `_dirty_init_index`. -/
def indexTurn (index : UInt8 → UInt8 → BitVec 32) (dirty : DirtyT) :
    Option (UInt8 → UInt8 → BitVec 32) := do
  let (row, col) ← slot dirty.word
  return Function.update index row
    (Function.update (index row) col (index row col ||| 1#32 <<< dirty.word.length))

/-- `_dirty_init_index` -/
def initIndex (ctx : DirtyCtxT) : Option DirtyCtxT := do
  let index ← ctx.table.foldlM indexTurn fun _ _ => 0
  return { ctx with index := index }

/-- `dirty_create` with a file that can be read; `none` is a failed assertion. -/
def dirtyCreate (file : List UInt8) : Option DirtyCtxT := do
  let ctx ← initHash ⟨readTable maxDirtyWordsCount file, fun _ => 0, fun _ _ => 0⟩
  initIndex ctx

/-- The loop of `dirty_hash_find` along a chain; `src` is the text from where it is looked up. -/
def findLoop (table : List DirtyT) (src : List UInt8) (len : Nat) : Nat → Int → Option Int
  | 0, _ => none
  | more + 1, windex =>
      if windex < 0 then some (-1)
      else do
        let dirty ← table[windex.toNat]?
        if strneq len dirty.word (src.takeWhile (· ≠ 0)) then some 0
        else findLoop table src len more dirty.next

/-- `dirty_hash_find`; `ctx->index[hindex] < 0` compares an address and is never true. -/
def dirtyHashFind (ctx : DirtyCtxT) (src : List UInt8) (len : Nat) : Option Int :=
  if len = 0 then some (-1)
  else findLoop ctx.table src len (ctx.table.length + 1) (ctx.hash (bucket (src.take len)))

/-! ## The chains of the hash -/

def DirtyCtxT.words (ctx : DirtyCtxT) : List (List UInt8) := ctx.table.map DirtyT.word

/-- From `w` on the places of a list are chained. -/
def Chain (next : Nat → Option Int) : Int → List Nat → Prop
  | w, [] => w = -1
  | w, j :: js => w = j ∧ ∃ w', next j = some w' ∧ Chain next w' js

def nextOf (table : List DirtyT) (j : Nat) : Option Int := (table[j]?).map DirtyT.next

/-- Which of the first `n` words are in a bucket. -/
def places (words : List (List UInt8)) (h n : Nat) : List Nat :=
  (List.range n).filter fun j => (words[j]?).map bucket = some h

/-- The first `n` words are in their chains, and the others in none. -/
structure Hashed (words : List (List UInt8)) (n : Nat) (ctx : DirtyCtxT) : Prop where
  same : ctx.words = words
  chain : ∀ h, Chain (nextOf ctx.table) (ctx.hash h) (places words h n)
  fresh : ∀ j, n ≤ j → j < words.length → nextOf ctx.table j = some (-1)

section

variable {next next' : Nat → Option Int} {w : Int} {i j : Nat} {js : List Nat}

theorem Chain.congr (h : Chain next w js) (hSame : ∀ x, x ∈ js → next' x = next x) :
    Chain next' w js := by
  induction js generalizing w with
  | nil => exact h
  | cons j js ih =>
      obtain ⟨hw, w', hNext, hRest⟩ := h
      refine ⟨hw, w', ?_, ih hRest fun x hx => hSame x (List.mem_cons_of_mem j hx)⟩
      rw [hSame j List.mem_cons_self, hNext]

/-- A place is chained behind the last one. -/
theorem Chain.concat (h : Chain next w (js ++ [j])) (hLast : next' j = some (i : Int))
    (hNew : next' i = some (-1)) (hSame : ∀ x, x ∈ js → next' x = next x) :
    Chain next' w (js ++ [j] ++ [i]) := by
  induction js generalizing w with
  | nil => exact ⟨h.1, i, hLast, rfl, -1, hNew, rfl⟩
  | cons x js ih =>
      obtain ⟨hw, w', hNext, hRest⟩ := h
      refine ⟨hw, w', ?_, ih hRest fun y hy => hSame y (List.mem_cons_of_mem x hy)⟩
      rw [hSame x List.mem_cons_self, hNext]

/-- Only an empty chain starts nowhere. -/
theorem Chain.nil_iff (h : Chain next w js) : js = [] ↔ w < 0 := by
  cases js with
  | nil =>
      have hw : w = -1 := h
      exact iff_of_true rfl (by omega)
  | cons j js =>
      have hw : w = j := h.1
      exact iff_of_false (List.cons_ne_nil j js) (by omega)

theorem nextOf_some {table : List DirtyT} (h : nextOf table j = some w) :
    ∃ d, table[j]? = some d ∧ d.next = w := Option.map_eq_some_iff.mp h

theorem chainEnd_eq {table : List DirtyT} {more : Nat}
    (h : Chain (nextOf table) w (js ++ [j])) (hMore : js.length < more) :
    chainEnd table more w.toNat = some j := by
  induction js generalizing w more with
  | nil =>
      obtain ⟨more, rfl⟩ := Nat.exists_eq_succ_of_ne_zero (by omega : more ≠ 0)
      obtain ⟨rfl, w', hNext, hEnd⟩ := h
      obtain ⟨d, hAt, rfl⟩ := nextOf_some hNext
      have hNone : d.next = -1 := hEnd
      rw [chainEnd, Int.toNat_natCast, hAt, Option.bind_eq_bind, Option.bind_some,
        if_neg (by omega)]
  | cons x js ih =>
      rw [List.length_cons] at hMore
      obtain ⟨more, rfl⟩ := Nat.exists_eq_succ_of_ne_zero (by omega : more ≠ 0)
      obtain ⟨rfl, w', hNext, hRest⟩ := h
      obtain ⟨d, hAt, rfl⟩ := nextOf_some hNext
      have hSome : ¬ d.next < 0 := fun hNeg =>
        List.append_ne_nil_of_right_ne_nil js (List.cons_ne_nil j []) (hRest.nil_iff.mpr hNeg)
      rw [chainEnd, Int.toNat_natCast, hAt, Option.bind_eq_bind, Option.bind_some,
        if_pos (by omega)]
      exact ih hRest (by omega)

/-- The search along a chain ends, and finds what one of the places holds. -/
theorem findLoop_spec {table : List DirtyT} {src : List UInt8} {len more : Nat}
    (h : Chain (nextOf table) w js) (hMore : js.length < more) :
    ∃ r, findLoop table src len more w = some r ∧
      (r = 0 ↔ ∃ j d, j ∈ js ∧ table[j]? = some d ∧
        strneq len d.word (src.takeWhile (· ≠ 0)) = true) := by
  induction js generalizing w more with
  | nil =>
      obtain ⟨more, rfl⟩ := Nat.exists_eq_succ_of_ne_zero (by omega : more ≠ 0)
      have hw : w = -1 := h
      refine ⟨-1, ?_, iff_of_false (by decide) ?_⟩
      · rw [findLoop, if_pos (by omega)]
      · rintro ⟨j, d, hj, -⟩
        cases hj
  | cons x js ih =>
      rw [List.length_cons] at hMore
      obtain ⟨more, rfl⟩ := Nat.exists_eq_succ_of_ne_zero (by omega : more ≠ 0)
      obtain ⟨rfl, w', hNext, hRest⟩ := h
      obtain ⟨d, hAt, rfl⟩ := nextOf_some hNext
      obtain ⟨r, hLoop, hSpec⟩ := @ih d.next more hRest (by omega)
      rw [findLoop, if_neg (by omega : ¬ (x : Int) < 0), Int.toNat_natCast, hAt,
        Option.bind_eq_bind, Option.bind_some]
      by_cases hHere : strneq len d.word (src.takeWhile (· ≠ 0)) = true
      · exact ⟨0, if_pos hHere, iff_of_true rfl ⟨x, d, List.mem_cons_self, hAt, hHere⟩⟩
      · refine ⟨r, by rw [if_neg hHere, hLoop], hSpec.trans ?_⟩
        constructor
        · rintro ⟨j, d', hj, hAt', hSame⟩
          exact ⟨j, d', List.mem_cons_of_mem x hj, hAt', hSame⟩
        · rintro ⟨j, d', hj, hAt', hSame⟩
          cases List.mem_cons.mp hj with
          | inl hEq =>
              rw [hEq, hAt] at hAt'
              cases hAt'
              exact absurd hSame hHere
          | inr hIn => exact ⟨j, d', hIn, hAt', hSame⟩

end

section

variable {words : List (List UInt8)} {ctx : DirtyCtxT} {n : Nat}

theorem mem_places {h j : Nat} :
    j ∈ places words h n ↔ j < n ∧ (words[j]?).map bucket = some h := by
  rw [places, List.mem_filter, List.mem_range, decide_eq_true_iff]

private theorem length_places_le (h : Nat) : (places words h n).length ≤ n := by
  have hLess := List.length_filter_le (fun j => decide ((words[j]?).map bucket = some h))
    (List.range n)
  rwa [List.length_range] at hLess

private theorem places_succ {word : List UInt8} (hAt : words[n]? = some word) (h : Nat) :
    places words h (n + 1) = places words h n ++ if bucket word = h then [n] else [] := by
  rw [places, List.range_succ, List.filter_append, List.filter_singleton, hAt]
  by_cases hSame : bucket word = h
  · simp [places, hSame]
  · simp [places, hSame]

/-- The links after a place was chained behind another one. -/
theorem nextOf_chained {table : List DirtyT} {i j : Nat} (hj : j < table.length) (x : Nat) :
    nextOf ((table.modify j fun d => { d with next := i }).modify i
      fun d => { d with prev := j }) x = if x = j then some (i : Int) else nextOf table x := by
  simp only [nextOf, List.getElem?_modify, Option.map_eq_map, Option.map_map]
  by_cases hx : x = j
  · rw [hx, if_pos rfl, List.getElem?_eq_getElem hj, Option.map_some]
    simp only [Function.comp_apply, if_true]
    split <;> rfl
  · rw [if_neg hx]
    apply Option.map_congr
    intro d _
    simp only [Function.comp_apply, if_neg (Ne.symm hx)]
    split <;> rfl

private theorem words_chained (table : List DirtyT) (i j : Nat) :
    ((table.modify j fun d => { d with next := i }).modify i
      fun d => { d with prev := j }).map DirtyT.word = table.map DirtyT.word := by
  apply List.ext_getElem?
  intro x
  simp only [List.getElem?_map, List.getElem?_modify, Option.map_eq_map, Option.map_map]
  apply Option.map_congr
  intro d _
  simp only [Function.comp_apply]
  split <;> split <;> rfl

/-- One more word is chained. -/
theorem Hashed.turn (h : Hashed words n ctx) (hn : n < words.length) :
    ∃ ctx', hashTurn ctx n = some ctx' ∧ Hashed words (n + 1) ctx' := by
  have hSize : ctx.table.length = words.length := by
    rw [← h.same, DirtyCtxT.words, List.length_map]
  obtain ⟨dirty, hAt⟩ : ∃ dirty, ctx.table[n]? = some dirty :=
    ⟨ctx.table[n], List.getElem?_eq_getElem (by omega)⟩
  have hWord : words[n]? = some dirty.word := by
    rw [← h.same, DirtyCtxT.words, List.getElem?_map, hAt]
    rfl
  have hChain := h.chain (bucket dirty.word)
  have hEnd := h.fresh n (Nat.le_refl n) hn
  rw [hashTurn, hAt, Option.bind_eq_bind, Option.bind_some]
  by_cases hNone : ctx.hash (bucket dirty.word) < 0
  · refine ⟨_, if_pos hNone, h.same, ?_, fun j hj => h.fresh j (by omega)⟩
    intro k
    rw [places_succ hWord]
    show Chain (nextOf ctx.table) (Function.update ctx.hash (bucket dirty.word) n k) _
    by_cases hk : bucket dirty.word = k
    · subst hk
      rw [Function.update_self, if_pos rfl, hChain.nil_iff.mpr hNone]
      exact ⟨rfl, -1, hEnd, rfl⟩
    · rw [Function.update_of_ne (Ne.symm hk), if_neg hk, List.append_nil]
      exact h.chain k
  · obtain ⟨js, j, hPlaces⟩ := (places words (bucket dirty.word) n).eq_nil_or_concat.resolve_left
      fun hNil => hNone (hChain.nil_iff.mp hNil)
    rw [List.concat_eq_append] at hPlaces
    rw [hPlaces] at hChain
    have hIn : ∀ x, x ∈ js ++ [j] → x < n ∧ (words[x]?).map bucket = some (bucket dirty.word) :=
      fun x hx => mem_places.mp (hPlaces ▸ hx)
    have hj := (hIn j (List.mem_append_right js (List.mem_singleton_self j))).1
    have hNodup : (js ++ [j]).Nodup := by
      rw [← hPlaces]
      exact List.Nodup.filter _ List.nodup_range
    have hShort : js.length < ctx.table.length := by
      have hLess := @length_places_le words n (bucket dirty.word)
      rw [hPlaces, List.length_append, List.length_singleton] at hLess
      omega
    rw [if_neg hNone, chainEnd_eq hChain hShort]
    have hLinks := @nextOf_chained ctx.table n j (by omega)
    have hjn : ¬ n = j := by omega
    refine ⟨_, rfl, (words_chained ctx.table n j).trans h.same, ?_, ?_⟩
    · intro k
      rw [places_succ hWord]
      show Chain (nextOf _) (ctx.hash k) _
      by_cases hk : bucket dirty.word = k
      · subst hk
        rw [if_pos rfl, hPlaces]
        apply hChain.concat
        · rw [hLinks, if_pos rfl]
        · rw [hLinks, if_neg hjn, hEnd]
        · intro x hx
          have hne : x ≠ j := by
            rintro rfl
            exact (List.nodup_append.mp hNodup).2.2 x hx x (List.mem_singleton_self x) rfl
          rw [hLinks, if_neg hne]
      · rw [if_neg hk, List.append_nil]
        refine (h.chain k).congr ?_
        intro x hx
        have hne : x ≠ j := by
          rintro rfl
          have hBoth := (hIn x (List.mem_append_right js (List.mem_singleton_self x))).2
          rw [(mem_places.mp hx).2, Option.some.injEq] at hBoth
          exact hk hBoth.symm
        rw [hLinks, if_neg hne]
    · intro x hx hx'
      show nextOf _ x = some (-1)
      rw [hLinks, if_neg (by omega), h.fresh x (by omega) hx']

/-- `_dirty_init_hash` chains all words. -/
theorem initHash_hashed (hFresh : ∀ d, d ∈ ctx.table → d.next = -1) :
    ∃ ctx', initHash ctx = some ctx' ∧ Hashed ctx.words ctx.words.length ctx' := by
  have hSize : ctx.table.length = ctx.words.length := by rw [DirtyCtxT.words, List.length_map]
  have hStart : Hashed ctx.words 0 { ctx with hash := fun _ => -1 } := by
    refine ⟨rfl, fun _ => rfl, ?_⟩
    intro j _ hj
    have hAt : ctx.table[j]? = some ctx.table[j] := List.getElem?_eq_getElem (by omega)
    show nextOf ctx.table j = some (-1)
    rw [nextOf, hAt, Option.map_some, hFresh _ (List.getElem_mem _)]
  rw [initHash, hSize]
  exact foldlM_range (Hashed ctx.words) hStart fun i t hi h => h.turn hi

/-- A word of the same bucket is like the text as far as it is compared. -/
def Found (words : List (List UInt8)) (src : List UInt8) (len : Nat) : Prop :=
  ∃ w, w ∈ words ∧ bucket w = bucket (src.take len) ∧
    strneq len w (src.takeWhile (· ≠ 0)) = true

/-- Looking up a text ends. -/
theorem dirtyHashFind_spec (h : Hashed words words.length ctx) (src : List UInt8) {len : Nat}
    (hLen : 0 < len) :
    ∃ r, dirtyHashFind ctx src len = some r ∧ (r = 0 ↔ Found words src len) := by
  have hSize : ctx.table.length = words.length := by
    rw [← h.same, DirtyCtxT.words, List.length_map]
  have hMore := @length_places_le words words.length (bucket (src.take len))
  obtain ⟨r, hLoop, hSpec⟩ := @findLoop_spec _ _ ctx.table src len (ctx.table.length + 1)
    (h.chain (bucket (src.take len))) (by omega)
  refine ⟨r, by rw [dirtyHashFind, if_neg (by omega), hLoop], hSpec.trans ?_⟩
  have hWord : ∀ j : Nat, words[j]? = (ctx.table[j]?).map DirtyT.word := by
    intro j
    rw [← h.same, DirtyCtxT.words, List.getElem?_map]
  constructor
  · rintro ⟨j, d, hj, hAt, hSame⟩
    have hIn := (mem_places.mp hj).2
    rw [hWord, hAt] at hIn
    refine ⟨d.word, List.mem_of_getElem? (i := j) ?_, Option.some.inj hIn, hSame⟩
    rw [hWord, hAt]
    rfl
  · rintro ⟨w, hIn, hBucket, hSame⟩
    obtain ⟨j, hj⟩ := List.mem_iff_getElem?.mp hIn
    have hMap := hj
    rw [hWord] at hMap
    obtain ⟨d, hAt, rfl⟩ := Option.map_eq_some_iff.mp hMap
    refine ⟨j, d, mem_places.mpr ⟨(List.getElem?_eq_some_iff.mp hj).1, ?_⟩, hAt, hSame⟩
    rw [hj, Option.map_some, hBucket]

/-! ## The masks -/

/-- The masks hold the lengths of the words that start so. -/
def Indexed (words : List (List UInt8)) (index : UInt8 → UInt8 → BitVec 32) : Prop :=
  ∀ row col k, k < 32 → ((index row col).getLsbD k = true ↔
    ∃ w, w ∈ words ∧ slot w = some (row, col) ∧ w.length = k)

/-- The bits of a mask after one was set. -/
theorem getLsbD_set (mask : BitVec 32) {n k : Nat} (hk : k < 32) :
    (mask ||| 1#32 <<< n).getLsbD k = true ↔ mask.getLsbD k = true ∨ n = k := by
  simp only [BitVec.getLsbD_or, BitVec.getLsbD_shiftLeft, BitVec.getLsbD_one, Bool.or_eq_true,
    Bool.and_eq_true, decide_eq_true_iff, Bool.not_eq_true', decide_eq_false_iff_not]
  refine or_congr_right ?_
  omega

/-- One more word is indexed. -/
theorem Indexed.turn {index index' : UInt8 → UInt8 → BitVec 32} (h : Indexed words index)
    {dirty : DirtyT} (hTurn : indexTurn index dirty = some index') :
    Indexed (words ++ [dirty.word]) index' ∧ slot dirty.word ≠ none := by
  obtain ⟨⟨row, col⟩, hSlot, hNew⟩ := Option.bind_eq_some_iff.mp hTurn
  cases hNew
  refine ⟨?_, by rw [hSlot]; exact Option.some_ne_none _⟩
  intro a b k hk
  have hOld := h a b k hk
  have hMem : (∃ w, w ∈ words ++ [dirty.word] ∧ slot w = some (a, b) ∧ w.length = k) ↔
      (∃ w, w ∈ words ∧ slot w = some (a, b) ∧ w.length = k) ∨
        (row = a ∧ col = b ∧ dirty.word.length = k) := by
    constructor
    · rintro ⟨w, hIn, hAt, hLength⟩
      cases List.mem_append.mp hIn with
      | inl hThere => exact Or.inl ⟨w, hThere, hAt, hLength⟩
      | inr hHere =>
          rw [List.mem_singleton.mp hHere] at hAt hLength
          rw [hSlot] at hAt
          cases hAt
          exact Or.inr ⟨rfl, rfl, hLength⟩
    · rintro (⟨w, hIn, hAt, hLength⟩ | ⟨rfl, rfl, hLength⟩)
      · exact ⟨w, List.mem_append_left _ hIn, hAt, hLength⟩
      · exact ⟨dirty.word, List.mem_append_right _ (List.mem_singleton_self _), hSlot, hLength⟩
  rw [hMem, ← hOld]
  by_cases hRow : a = row
  · subst hRow
    rw [Function.update_self]
    by_cases hCol : b = col
    · subst hCol
      rw [Function.update_self, getLsbD_set _ hk]
      simp
    · rw [Function.update_of_ne hCol]
      simp [Ne.symm hCol]
  · rw [Function.update_of_ne hRow]
    simp [Ne.symm hRow]

/-- `_dirty_init_index` indexes all words, each of which has an entry. -/
theorem initIndex_indexed {ctx' : DirtyCtxT} (hInit : initIndex ctx = some ctx') :
    ctx'.table = ctx.table ∧ ctx'.hash = ctx.hash ∧ Indexed ctx.words ctx'.index ∧
      ∀ w, w ∈ ctx.words → slot w ≠ none := by
  obtain ⟨index', hLoop, hNew⟩ := Option.bind_eq_some_iff.mp hInit
  cases hNew
  -- the words that are indexed come first
  have hRest : ∀ (rest : List DirtyT) (done : List (List UInt8))
      (index : UInt8 → UInt8 → BitVec 32), Indexed done index → (∀ w, w ∈ done → slot w ≠ none) →
      rest.foldlM indexTurn index = some index' →
      Indexed (done ++ rest.map DirtyT.word) index' ∧
        ∀ w, w ∈ done ++ rest.map DirtyT.word → slot w ≠ none := by
    intro rest
    induction rest with
    | nil =>
        intro done index hDone hSlots hEnd
        cases hEnd
        rw [List.map_nil, List.append_nil]
        exact ⟨hDone, hSlots⟩
    | cons dirty rest ih =>
        intro done index hDone hSlots hEnd
        rw [List.foldlM_cons] at hEnd
        obtain ⟨index₁, hTurn, hEnd⟩ := Option.bind_eq_some_iff.mp hEnd
        obtain ⟨hDone₁, hSlot⟩ := hDone.turn hTurn
        rw [List.map_cons, List.append_cons]
        refine ih _ index₁ hDone₁ ?_ hEnd
        intro w hIn
        cases List.mem_append.mp hIn with
        | inl hThere => exact hSlots w hThere
        | inr hHere => exact List.mem_singleton.mp hHere ▸ hSlot
  have hNone : Indexed [] fun _ _ => 0 := by
    intro row col k hk
    exact iff_of_false (by simp) (by rintro ⟨w, hIn, -⟩; cases hIn)
  have hAll := hRest ctx.table [] _ hNone nofun hLoop
  exact ⟨rfl, rfl, hAll.1, hAll.2⟩

/-! ## The table -/

theorem tolower_eq_zero {c : UInt8} (h : tolower c = 0) : c = 0 := by
  rw [tolower] at h
  split at h
  · rename_i hUpper
    obtain ⟨hLow, hHigh⟩ := hUpper
    have hSum := congrArg UInt8.toNat h
    rw [UInt8.le_iff_toNat_le] at hLow hHigh
    rw [UInt8.toNat_add] at hSum
    simp only [UInt8.reduceToNat] at hLow hHigh hSum
    omega
  · exact h

/-- A word that was read is shorter than its array and holds no zero. -/
theorem readWord_fits {line : List UInt8} (hLine : line.length < maxDirtyWordsLen) :
    (readWord line).length < maxDirtyWordsLen ∧ ∀ x, x ∈ readWord line → x ≠ 0 := by
  have hCut : ∀ (p : UInt8 → Bool) (xs : List UInt8), (xs.dropWhile p).Sublist xs :=
    fun p xs => List.dropWhile_sublist p
  have hSub : (readWord line).Sublist ((line.takeWhile (· ≠ 0)).map tolower) := by
    rw [← List.reverse_sublist, readWord, List.reverse_reverse]
    exact hCut _ _
  constructor
  · have hLess := hSub.length_le
    rw [List.length_map] at hLess
    have hShort := (List.takeWhile_sublist (fun x : UInt8 => decide (x ≠ 0)) (l := line)).length_le
    omega
  · intro x hx
    obtain ⟨c, hc, rfl⟩ := List.mem_map.mp (hSub.subset hx)
    have hNot : c ≠ 0 := by simpa using List.mem_takeWhile_imp hc
    exact fun hZero => hNot (tolower_eq_zero hZero)

theorem readTable_word {more : Nat} {file : List UInt8} {d : DirtyT}
    (hIn : d ∈ readTable more file) :
    d.next = -1 ∧ d.word.length < maxDirtyWordsLen ∧ ∀ x, x ∈ d.word → x ≠ 0 := by
  induction more generalizing file with
  | zero => cases hIn
  | succ more ih =>
      rw [readTable] at hIn
      split at hIn
      · cases hIn
      · rename_i line rest hLine
        cases List.mem_cons.mp hIn with
        | inr hThere => exact ih hThere
        | inl hHere =>
            subst hHere
            refine ⟨rfl, readWord_fits ?_⟩
            rw [fgets] at hLine
            split at hLine
            · cases hLine
            · cases hLine
              rw [List.length_take, List.length_take]
              have hMax : maxDirtyWordsLen = 32 := rfl
              omega

/-- What `dirty_create` leaves. -/
structure Built (words : List (List UInt8)) (ctx : DirtyCtxT) : Prop where
  hashed : Hashed words words.length ctx
  indexed : Indexed words ctx.index
  slot : ∀ w, w ∈ words → slot w ≠ none
  word : ∀ w, w ∈ words → w.length < maxDirtyWordsLen ∧ ∀ x, x ∈ w → x ≠ 0

theorem dirtyCreate_built {file : List UInt8} (hCreate : dirtyCreate file = some ctx) :
    Built ctx.words ctx := by
  obtain ⟨ctx₁, hHash, hIndex⟩ := Option.bind_eq_some_iff.mp hCreate
  obtain ⟨ctx₂, hHash', hHashed⟩ := @initHash_hashed
    ⟨readTable maxDirtyWordsCount file, fun _ => 0, fun _ _ => 0⟩ fun d hd => (readTable_word hd).1
  rw [hHash] at hHash'
  cases hHash'
  obtain ⟨hTable, hSame, hIndexed, hSlot⟩ := initIndex_indexed hIndex
  have hWords : ctx.words = ctx₁.words := congrArg (List.map DirtyT.word) hTable
  rw [hWords, hHashed.same]
  rw [hHashed.same] at hIndexed hSlot
  refine ⟨⟨hWords.trans hHashed.same, ?_, ?_⟩, hIndexed, hSlot, ?_⟩
  · rw [hTable, hSame]
    exact hHashed.chain
  · rw [hTable]
    exact hHashed.fresh
  · intro w hw
    obtain ⟨d, hd, rfl⟩ := List.mem_map.mp hw
    exact (readTable_word hd).2

end

end Gbase.Logic.Dirty
