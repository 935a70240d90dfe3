import Gbase.Lib.CString
import Gbase.Lib.Prefixes
import Mathlib.Data.List.Nodup

/-!
# Commands (`util/cmd.c`)

The words of the registered sentences are kept in a tree; a node is a number in the order the nodes
were made, and a null pointer is `none`.  The array on the stack that a sentence is printed to
holds arbitrary bytes before.  A handler is any value, and what it returns comes from outside.

## Main results

* `Trie`: the nodes of the tree and the sequences of words they stand for.
* `Trie.registerFind_spec`, `Trie.handleFind_spec`: one word in both loops.
-/

namespace Gbase.Util.Cmd

open Gbase.Lib.CString Gbase.Lib.Prefixes

/-- `MAX_WORD_LEN` -/
def maxWordLen : Nat := 32

/-- `MAX_SENTENCE_LEN` -/
def maxSentenceLen : Nat := 1024

/-- `MAX_WORD_OPTION` -/
def maxWordOption : Nat := 32

/-- `_sep` -/
def sep : List UInt8 := ascii " \n"

/-- `word_t` -/
structure WordT (H : Type) where
  word : List UInt8
  children : List (Option Nat)
  handle : Option H

/-- `cmd_t`, with the memory its words live in. -/
structure CmdT (H : Type) where
  word : Option Nat
  mem : List (WordT H)

variable {H : Type}

def CmdT.modify (cmd : CmdT H) (c : Nat) (change : WordT H → WordT H) : CmdT H :=
  { cmd with mem := cmd.mem.modify c change }

/-- `_word_create` -/
def wordCreate (cmd : CmdT H) : Nat × CmdT H :=
  (cmd.mem.length, { cmd with mem := cmd.mem ++
    [⟨List.replicate maxWordLen 0, List.replicate maxWordOption none, none⟩] })

/-- The loop of `cmd_register` over the children of `c` from `i` on: the child the word is at, and
the tree with it. -/
def registerFind (cmd : CmdT H) (c : Nat) (word : List UInt8) :
    Nat → Nat → Option (Nat × CmdT H)
  | 0, _ => none
  | more + 1, i => do
      let w ← cmd.mem[c]?
      let child ← w.children[i]?
      match child with
      | none =>
          let (a, cmd) := wordCreate cmd
          let cmd := cmd.modify c fun w => { w with children := w.children.set i (some a) }
          let cmd := cmd.modify a fun w => { w with word := snprintf w.word word }
          return (a, cmd)
      | some a =>
          let w ← cmd.mem[a]?
          let text ← cString w.word 0
          if strneq maxWordLen text word then return (a, cmd)
          else if i = maxWordOption - 1 then none
          else registerFind cmd c word more (i + 1)

/-- The loop of `cmd_register` over the words, with `host` and `c`. -/
def registerLoop : Nat → CmdT H → List UInt8 → Nat → Option Nat → Nat →
    Option (Option Nat × CmdT H)
  | 0, _, _, _, _, _ => none
  | fuel + 1, cmd, input, start, host, c => do
      match ← strtok input start sep with
      | none => return (host, cmd)
      | some (word, input, next) =>
          let word ← cString input word
          let (c, cmd) ← registerFind cmd c word maxWordOption 0
          registerLoop fuel cmd input next (some c) c

/-- `cmd_register`; `input` is what the array on the stack held before. -/
def cmdRegister (cmd : CmdT H) (input sentence : List UInt8) (handle : Option H) :
    Option (CmdT H) := do
  let (host, cmd) :=
    match cmd.word with
    | none =>
        let (a, cmd) := wordCreate cmd
        (some a, { cmd with word := some a })
    | some _ => (none, cmd)
  let c ← cmd.word
  let (host, cmd) ← registerLoop maxSentenceLen cmd (snprintf input sentence) 0 host c
  let host ← host
  return cmd.modify host fun w => { w with handle := handle }

/-- The loop of `cmd_handle` over the children of `host` from `i` on: the child the word is at, if
it is found. -/
def handleFind (cmd : CmdT H) (host : Nat) (word : List UInt8) : Nat → Nat → Option (Option Nat)
  | 0, _ => none
  | more + 1, i => do
      let w ← cmd.mem[host]?
      -- `children[i]` is read before `i` is compared
      let child ← w.children[i]?
      match child with
      | none => return none
      | some a =>
          if i < maxWordOption then
            let w ← cmd.mem[a]?
            let text ← cString w.word 0
            if strneq maxWordLen text word then return some a
            else if i = maxWordOption - 1 then return none
            else handleFind cmd host word more (i + 1)
          else return none

/-- The loop of `cmd_handle` over the words: `host` and `word` behind it. -/
def handleLoop (cmd : CmdT H) : Nat → List UInt8 → Nat → Option Nat →
    Option (Option Nat × Option (List UInt8))
  | 0, _, _, _ => none
  | fuel + 1, input, start, host => do
      match ← strtok input start sep with
      | none => return (host, none)
      | some (word, input, next) =>
          let word ← cString input word
          let c ← host
          match ← handleFind cmd c word (maxWordOption + 1) 0 with
          | none => return (some c, some word)
          | some a => handleLoop cmd fuel input next (some a)

/-- `cmd_handle`: the handlers called, with their parameters, and the return value; `results` is
what the handlers return. -/
def cmdHandle (results : H → Option (List UInt8) → Int) (cmd : CmdT H)
    (input sentence : List UInt8) : Option (List (H × Option (List UInt8)) × Int) := do
  let (host, word) ← handleLoop cmd maxSentenceLen (snprintf input sentence) 0 cmd.word
  match host with
  | none => return ([], -1)
  | some c =>
      let w ← cmd.mem[c]?
      match w.handle with
      | none => return ([], -1)
      | some handle => return ([(handle, word)], results handle word)

/-! ## The tree -/

/-- The children of a node that stands for `p`, with their words. -/
def Children (paths : List (List (List UInt8))) (p : List (List UInt8))
    (children : List (Option Nat)) : Prop :=
  ∃ kids : List (Nat × List UInt8), kids.length ≤ maxWordOption ∧ (kids.map Prod.snd).Nodup ∧
    children = kids.map (fun kid => some kid.1) ++
      List.replicate (maxWordOption - kids.length) none ∧
    ∀ k x, (k, x) ∈ kids ↔ paths[k]? = some (p ++ [x])

/-- Each node stands for a sequence of words: the empty one at the root, and one word more at each
child.  `last` is the handler of each sequence. -/
structure Trie (cmd : CmdT H) (paths : List (List (List UInt8)))
    (last : List (List UInt8) → Option H) : Prop where
  root : cmd.word = some 0 ∧ paths[0]? = some []
  size : paths.length = cmd.mem.length
  nodup : paths.Nodup
  closed : ∀ p x, p ++ [x] ∈ paths → p ∈ paths
  short : ∀ p x, p ++ [x] ∈ paths → x.length < maxWordLen
  word : ∀ (c : Nat) (w : WordT H) p x, cmd.mem[c]? = some w → paths[c]? = some (p ++ [x]) →
    cString w.word 0 = some x
  children : ∀ (c : Nat) (w : WordT H) p, cmd.mem[c]? = some w → paths[c]? = some p →
    Children paths p w.children
  handle : ∀ (c : Nat) (w : WordT H) p, cmd.mem[c]? = some w → paths[c]? = some p →
    w.handle = last p
  fresh : ∀ p, p ∉ paths → last p = none

section

variable {cmd : CmdT H} {paths : List (List (List UInt8))} {last : List (List UInt8) → Option H}
  {p : List (List UInt8)} {c : Nat} {word : List UInt8}

theorem Trie.node (h : Trie cmd paths last) (hAt : paths[c]? = some p) :
    ∃ w, cmd.mem[c]? = some w := by
  have hc := (List.getElem?_eq_some_iff.mp hAt).1
  rw [h.size] at hc
  exact ⟨cmd.mem[c], List.getElem?_eq_getElem hc⟩

/-- The word of a child, as the loops read it. -/
theorem Trie.text (h : Trie cmd paths last) {k : Nat} {x : List UInt8}
    (hAt : paths[k]? = some (p ++ [x])) (hShort : word.length < maxWordLen) :
    ∃ w, cmd.mem[k]? = some w ∧ cString w.word 0 = some x ∧
      (strneq maxWordLen x word = true ↔ x = word) := by
  obtain ⟨w, hNode⟩ := h.node hAt
  have hx := h.short p x (List.mem_of_getElem? hAt)
  exact ⟨w, hNode, h.word k w p x hNode hAt, strneq_iff (by omega) (by omega)⟩

/-- The entries of a list of children. -/
theorem children_at {before after : List (Nat × List UInt8)}
    (hSize : (before ++ after).length ≤ maxWordOption) :
    ((before ++ after).map (fun kid => some kid.1) ++
      List.replicate (maxWordOption - (before ++ after).length) none)[before.length]? =
      match after with
      | [] => if before.length < maxWordOption then some none else none
      | kid :: _ => some (some kid.1) := by
  rw [List.map_append, List.append_assoc, List.getElem?_append_right (by rw [List.length_map]),
    List.length_map, Nat.sub_self]
  cases after with
  | cons kid after => rfl
  | nil =>
      rw [List.append_nil] at hSize ⊢
      simp only [List.map_nil, List.nil_append, List.getElem?_replicate]
      split
      · rw [if_pos (by omega)]
      · rw [if_neg (by omega)]

/-- The tree after a word was added behind the first children of a node. -/
def added (cmd : CmdT H) (c : Nat) (word : List UInt8) (place : Nat) : CmdT H :=
  let (a, cmd) := wordCreate cmd
  let cmd := cmd.modify c fun w => { w with children := w.children.set place (some a) }
  cmd.modify a fun w => { w with word := snprintf w.word word }

/-- The search in `cmd_handle`, among the children from some place on. -/
theorem Trie.handleFind_from (h : Trie cmd paths last) (hShort : word.length < maxWordLen)
    {w : WordT H} (hNode : cmd.mem[c]? = some w) {before after : List (Nat × List UInt8)}
    (hSize : (before ++ after).length ≤ maxWordOption)
    (hChildren : w.children = (before ++ after).map (fun kid => some kid.1) ++
      List.replicate (maxWordOption - (before ++ after).length) none)
    (hKids : ∀ k x, (k, x) ∈ before ++ after → paths[k]? = some (p ++ [x]))
    (hOnly : ∀ a, (a, word) ∉ before) (hRoom : after = [] → before.length < maxWordOption) :
    ∃ found, handleFind cmd c word (maxWordOption + 1 - before.length) before.length = some found ∧
      (∀ a, found = some a → (a, word) ∈ before ++ after) ∧
      (found = none → ∀ a, (a, word) ∉ before ++ after) := by
  induction after generalizing before with
  | nil =>
      have hLess := hRoom rfl
      obtain ⟨more, hMore⟩ := Nat.exists_eq_succ_of_ne_zero
        (by omega : maxWordOption + 1 - before.length ≠ 0)
      refine ⟨none, ?_, nofun, fun _ => by rwa [List.append_nil]⟩
      rw [hMore, handleFind, hNode, Option.bind_eq_bind, Option.bind_some, hChildren,
        children_at hSize, if_pos hLess]
      rfl
  | cons kid after ih =>
      obtain ⟨k, x⟩ := kid
      rw [List.length_append, List.length_cons] at hSize
      obtain ⟨more, hMore⟩ := Nat.exists_eq_succ_of_ne_zero
        (by omega : maxWordOption + 1 - before.length ≠ 0)
      have hIn : (k, x) ∈ before ++ (k, x) :: after :=
        List.mem_append_right before List.mem_cons_self
      obtain ⟨wk, hNodeK, hText, hSame⟩ := h.text (hKids k x hIn) hShort
      have hTurn : handleFind cmd c word (maxWordOption + 1 - before.length) before.length =
          if strneq maxWordLen x word = true then some (some k)
          else if before.length = maxWordOption - 1 then some none
          else handleFind cmd c word more (before.length + 1) := by
        rw [hMore, handleFind, hNode, Option.bind_eq_bind, Option.bind_some, hChildren,
          children_at (by rw [List.length_append, List.length_cons]; omega)]
        simp only [Option.bind_eq_bind, Option.bind_some,
          if_pos (by omega : before.length < maxWordOption), hNodeK, hText]
        rfl
      rw [hTurn]
      by_cases hx : x = word
      · refine ⟨some k, if_pos (hSame.mpr hx), ?_, nofun⟩
        intro a ha
        cases ha
        rwa [← hx]
      · have hNot : ∀ a, (a, word) ∉ before ++ [(k, x)] := by
          intro a ha
          cases List.mem_append.mp ha with
          | inl hOld => exact hOnly a hOld
          | inr hNew => exact hx (Prod.mk.inj (List.mem_singleton.mp hNew)).2.symm
        rw [if_neg fun hEq => hx (hSame.mp hEq)]
        by_cases hEnd : before.length = maxWordOption - 1
        · have hLast : after = [] := List.eq_nil_of_length_eq_zero (by omega)
          refine ⟨none, if_pos hEnd, nofun, ?_⟩
          intro _ a
          rw [hLast]
          exact hNot a
        · have hLength : (before ++ [(k, x)]).length = before.length + 1 := List.length_append
          rw [List.append_cons] at hChildren hKids ⊢
          obtain ⟨found, hFind, hSpec⟩ := ih (by rw [List.length_append, hLength]; omega) hChildren
            hKids hNot (fun _ => by rw [hLength]; omega)
          refine ⟨found, ?_, hSpec⟩
          rw [if_neg hEnd, ← hFind, hLength]
          congr 1
          omega

/-- The search in `cmd_register`, among the children from some place on. -/
theorem Trie.registerFind_from (h : Trie cmd paths last) (hShort : word.length < maxWordLen)
    {w : WordT H} (hNode : cmd.mem[c]? = some w) {before after : List (Nat × List UInt8)}
    (hSize : (before ++ after).length ≤ maxWordOption)
    (hChildren : w.children = (before ++ after).map (fun kid => some kid.1) ++
      List.replicate (maxWordOption - (before ++ after).length) none)
    (hKids : ∀ k x, (k, x) ∈ before ++ after → paths[k]? = some (p ++ [x]))
    (hOnly : ∀ a, (a, word) ∉ before)
    (hRoom : (∀ a, (a, word) ∉ after) → (before ++ after).length < maxWordOption) :
    (∃ a, (a, word) ∈ before ++ after ∧
      registerFind cmd c word (maxWordOption - before.length) before.length = some (a, cmd)) ∨
    ((∀ a, (a, word) ∉ before ++ after) ∧
      registerFind cmd c word (maxWordOption - before.length) before.length =
        some (cmd.mem.length, added cmd c word (before ++ after).length)) := by
  induction after generalizing before with
  | nil =>
      have hLess := hRoom fun _ => List.not_mem_nil
      rw [List.append_nil] at hLess
      obtain ⟨more, hMore⟩ := Nat.exists_eq_succ_of_ne_zero
        (by omega : maxWordOption - before.length ≠ 0)
      refine Or.inr ⟨by rwa [List.append_nil], ?_⟩
      rw [hMore, registerFind, hNode, Option.bind_eq_bind, Option.bind_some, hChildren,
        children_at hSize, if_pos hLess, List.append_nil]
      rfl
  | cons kid after ih =>
      obtain ⟨k, x⟩ := kid
      rw [List.length_append, List.length_cons] at hSize
      obtain ⟨more, hMore⟩ := Nat.exists_eq_succ_of_ne_zero
        (by omega : maxWordOption - before.length ≠ 0)
      have hIn : (k, x) ∈ before ++ (k, x) :: after :=
        List.mem_append_right before List.mem_cons_self
      obtain ⟨wk, hNodeK, hText, hSame⟩ := h.text (hKids k x hIn) hShort
      have hTurn : registerFind cmd c word (maxWordOption - before.length) before.length =
          if strneq maxWordLen x word = true then some (k, cmd)
          else if before.length = maxWordOption - 1 then none
          else registerFind cmd c word more (before.length + 1) := by
        rw [hMore, registerFind, hNode, Option.bind_eq_bind, Option.bind_some, hChildren,
          children_at (by rw [List.length_append, List.length_cons]; omega)]
        simp only [Option.bind_eq_bind, Option.bind_some, hNodeK, hText]
        rfl
      rw [hTurn]
      by_cases hx : x = word
      · refine Or.inl ⟨k, ?_, if_pos (hSame.mpr hx)⟩
        rwa [← hx]
      · have hNot : ∀ a, (a, word) ∉ before ++ [(k, x)] := by
          intro a ha
          cases List.mem_append.mp ha with
          | inl hOld => exact hOnly a hOld
          | inr hNew => exact hx (Prod.mk.inj (List.mem_singleton.mp hNew)).2.symm
        have hRoom' : (∀ a, (a, word) ∉ after) →
            (before ++ [(k, x)] ++ after).length < maxWordOption := by
          intro hNone
          rw [← List.append_cons]
          apply hRoom
          intro a ha
          cases List.mem_cons.mp ha with
          | inl hHere => exact hx (Prod.mk.inj hHere).2.symm
          | inr hThere => exact hNone a hThere
        -- behind the last place of the array nothing is left to be found
        have hMid : ¬ before.length = maxWordOption - 1 := by
          intro hEnd
          have hLast : after = [] := List.eq_nil_of_length_eq_zero (by omega)
          subst hLast
          have hLess := hRoom' fun _ => List.not_mem_nil
          rw [List.append_nil, List.length_append, List.length_singleton] at hLess
          omega
        have hLength : (before ++ [(k, x)]).length = before.length + 1 := List.length_append
        have hCount : more = maxWordOption - (before.length + 1) := by omega
        rw [if_neg fun hEq => hx (hSame.mp hEq), if_neg hMid, hCount, ← hLength]
        rw [List.append_cons] at hChildren hKids ⊢
        exact ih (by rw [List.length_append, hLength]; omega) hChildren hKids hNot hRoom'

/-- The search in `cmd_handle` finds the child of a word, and nothing if there is none. -/
theorem Trie.handleFind_spec (h : Trie cmd paths last) (hAt : paths[c]? = some p)
    (hShort : word.length < maxWordLen) :
    ∃ found, handleFind cmd c word (maxWordOption + 1) 0 = some found ∧
      (∀ a, found = some a → paths[a]? = some (p ++ [word])) ∧
      (found = none → p ++ [word] ∉ paths) := by
  obtain ⟨w, hNode⟩ := h.node hAt
  obtain ⟨kids, hSize, -, hChildren, hKids⟩ := h.children c w p hNode hAt
  obtain ⟨found, hFind, hFound, hNone⟩ := @Trie.handleFind_from _ _ _ _ p c word h hShort w hNode []
    kids hSize hChildren (fun k x hIn => (hKids k x).mp hIn) (fun _ => List.not_mem_nil)
    (fun _ => by decide)
  refine ⟨found, hFind, fun a ha => (hKids a word).mp (hFound a ha), ?_⟩
  intro hNot hIn
  obtain ⟨a, ha⟩ := List.mem_iff_getElem?.mp hIn
  exact hNone hNot a ((hKids a word).mpr ha)

/-- The nodes after a word was added. -/
theorem added_at {place b : Nat} {w' : WordT H} (hc : c < cmd.mem.length)
    (hNode : (added cmd c word place).mem[b]? = some w') :
    (b = cmd.mem.length ∧ w' = ⟨snprintf (List.replicate maxWordLen 0) word,
      List.replicate maxWordOption none, none⟩) ∨
    ∃ w, cmd.mem[b]? = some w ∧ w' =
      if b = c then { w with children := w.children.set place (some cmd.mem.length) } else w := by
  simp only [added, wordCreate, CmdT.modify, List.getElem?_modify] at hNode
  by_cases hb : b = cmd.mem.length
  · have hOther : ¬ c = cmd.mem.length := by omega
    rw [hb, List.getElem?_concat_length] at hNode
    simp only [Option.map_eq_map, Option.map_some, if_neg hOther, if_true] at hNode
    cases hNode
    exact Or.inl ⟨hb, rfl⟩
  · right
    have hOld : b < cmd.mem.length := by
      by_contra hOut
      rw [List.getElem?_eq_none (by rw [List.length_append, List.length_singleton]; omega)] at hNode
      cases hNode
    rw [List.getElem?_append_left hOld, List.getElem?_eq_getElem hOld] at hNode
    refine ⟨cmd.mem[b], List.getElem?_eq_getElem hOld, ?_⟩
    simp only [Option.map_eq_map, Option.map_some, if_neg (Ne.symm hb)] at hNode
    cases hNode
    by_cases hSame : b = c
    · rw [if_pos hSame, if_pos hSame.symm]
    · rw [if_neg hSame, if_neg (Ne.symm hSame)]

/-- The places of the paths with one more at the end. -/
theorem concat_at {path q : List (List UInt8)} {k : Nat} :
    (paths ++ [path])[k]? = some q ↔ paths[k]? = some q ∨ k = paths.length ∧ q = path := by
  rcases Nat.lt_trichotomy k paths.length with hLess | rfl | hMore
  · rw [List.getElem?_append_left hLess]
    exact (or_iff_left fun hEnd => absurd hEnd.1 (Nat.ne_of_lt hLess)).symm
  · rw [List.getElem?_concat_length, List.getElem?_eq_none (Nat.le_refl _), Option.some.injEq]
    constructor
    · rintro rfl
      exact Or.inr ⟨rfl, rfl⟩
    · rintro (hNone | ⟨-, rfl⟩)
      · cases hNone
      · rfl
  · rw [List.getElem?_eq_none (by rw [List.length_append, List.length_singleton]; omega),
      List.getElem?_eq_none (Nat.le_of_lt hMore)]
    refine iff_of_false nofun ?_
    rintro (hNone | ⟨rfl, -⟩)
    · cases hNone
    · exact Nat.lt_irrefl _ hMore

/-- A node after a word was added, with its path: the new one, or one that was there. -/
theorem Trie.added_cases (h : Trie cmd paths last) (hc : c < cmd.mem.length) {place b : Nat}
    {w' : WordT H} {q : List (List UInt8)} (hNode : (added cmd c word place).mem[b]? = some w')
    (hPath : (paths ++ [p ++ [word]])[b]? = some q) :
    (q = p ++ [word] ∧ w' = ⟨snprintf (List.replicate maxWordLen 0) word,
      List.replicate maxWordOption none, none⟩) ∨
    ∃ w, cmd.mem[b]? = some w ∧ paths[b]? = some q ∧ w' =
      if b = c then { w with children := w.children.set place (some cmd.mem.length) } else w := by
  cases concat_at.mp hPath with
  | inl hOld =>
      have hb := (List.getElem?_eq_some_iff.mp hOld).1
      rw [h.size] at hb
      cases added_at hc hNode with
      | inl hHere => exact absurd hHere.1 (Nat.ne_of_lt hb)
      | inr hThere =>
          obtain ⟨w, hMem, hEq⟩ := hThere
          exact Or.inr ⟨w, hMem, hOld, hEq⟩
  | inr hLast =>
      obtain ⟨rfl, hq⟩ := hLast
      cases added_at hc hNode with
      | inl hHere => exact Or.inl ⟨hq, hHere.2⟩
      | inr hThere =>
          obtain ⟨w, hMem, -⟩ := hThere
          have hb := (List.getElem?_eq_some_iff.mp hMem).1
          rw [h.size] at hb
          exact absurd hb (Nat.lt_irrefl _)

/-- The new node has no children. -/
theorem Trie.children_new (h : Trie cmd paths last) (hNew : p ++ [word] ∉ paths) :
    Children (paths ++ [p ++ [word]]) (p ++ [word]) (List.replicate maxWordOption none) := by
  refine ⟨[], Nat.zero_le _, List.nodup_nil, rfl, ?_⟩
  intro k x
  refine iff_of_false List.not_mem_nil ?_
  intro hChild
  cases concat_at.mp hChild with
  | inl hThere => exact hNew (h.closed _ x (List.mem_of_getElem? hThere))
  | inr hLast =>
      have hLength := congrArg List.length hLast.2
      rw [List.length_append, List.length_singleton] at hLength
      omega

/-- The node that the word is added below has one more child. -/
theorem children_added (hNew : p ++ [word] ∉ paths) {children : List (Option Nat)}
    {kids : List (Nat × List UInt8)} (hSize : kids.length < maxWordOption)
    (hNodup : (kids.map Prod.snd).Nodup)
    (hChildren : children = kids.map (fun kid => some kid.1) ++
      List.replicate (maxWordOption - kids.length) none)
    (hKids : ∀ k x, (k, x) ∈ kids ↔ paths[k]? = some (p ++ [x])) :
    Children (paths ++ [p ++ [word]]) p (children.set kids.length (some paths.length)) := by
  refine ⟨kids ++ [(paths.length, word)], ?_, ?_, ?_, ?_⟩
  · rw [List.length_append, List.length_singleton]
    omega
  · have hOut : word ∉ kids.map Prod.snd := by
      intro hIn
      obtain ⟨⟨k, x⟩, hKid, hx⟩ := List.mem_map.mp hIn
      cases hx
      exact hNew (List.mem_of_getElem? ((hKids k _).mp hKid))
    rw [List.map_append, List.map_singleton, ← List.concat_eq_append]
    exact List.Nodup.concat hOut hNodup
  · obtain ⟨more, hMore⟩ := Nat.exists_eq_succ_of_ne_zero
      (by omega : maxWordOption - kids.length ≠ 0)
    rw [hChildren, List.set_append_right _ _ (by rw [List.length_map]), List.length_map,
      Nat.sub_self, hMore, List.replicate_succ, List.set_cons_zero, List.map_append,
      List.append_assoc, List.length_append, List.length_singleton,
      (by omega : maxWordOption - (kids.length + 1) = more)]
    rfl
  · intro k x
    rw [List.mem_append, List.mem_singleton, concat_at, hKids, Prod.mk.injEq]
    refine or_congr_right (and_congr_right fun _ => ?_)
    constructor
    · rintro rfl
      rfl
    · intro hEq
      exact List.singleton_inj.mp (List.append_inj' hEq rfl).2

/-- All other nodes keep their children. -/
theorem Children.other {q : List (List UInt8)} {children : List (Option Nat)}
    (h : Children paths q children) (hNot : q ≠ p) :
    Children (paths ++ [p ++ [word]]) q children := by
  obtain ⟨kids, hSize, hNodup, hChildren, hKids⟩ := h
  refine ⟨kids, hSize, hNodup, hChildren, ?_⟩
  intro k x
  rw [concat_at, hKids]
  refine (or_iff_left ?_).symm
  rintro ⟨-, hEq⟩
  exact hNot (List.append_inj' hEq rfl).1

/-- A word that is new below its node is added. -/
theorem Trie.add (h : Trie cmd paths last) (hAt : paths[c]? = some p) (hNew : p ++ [word] ∉ paths)
    (hShort : word.length < maxWordLen) (hText : ∀ x, x ∈ word → x ≠ 0) {w : WordT H}
    (hNode : cmd.mem[c]? = some w) {kids : List (Nat × List UInt8)}
    (hSize : kids.length < maxWordOption) (hNodup : (kids.map Prod.snd).Nodup)
    (hChildren : w.children = kids.map (fun kid => some kid.1) ++
      List.replicate (maxWordOption - kids.length) none)
    (hKids : ∀ k x, (k, x) ∈ kids ↔ paths[k]? = some (p ++ [x])) :
    Trie (added cmd c word kids.length) (paths ++ [p ++ [word]]) last where
  root := ⟨h.root.1, concat_at.mpr (Or.inl h.root.2)⟩
  size := by
    simp only [added, wordCreate, CmdT.modify, List.length_modify, List.length_append,
      List.length_singleton, h.size]
  nodup := by
    rw [← List.concat_eq_append]
    exact List.Nodup.concat hNew h.nodup
  closed := by
    intro q x hIn
    refine List.mem_append_left _ ?_
    cases List.mem_append.mp hIn with
    | inl hThere => exact h.closed q x hThere
    | inr hHere =>
        rw [(List.append_inj' (List.mem_singleton.mp hHere) rfl).1]
        exact List.mem_of_getElem? hAt
  short := by
    intro q x hIn
    cases List.mem_append.mp hIn with
    | inl hThere => exact h.short q x hThere
    | inr hHere =>
        have hLast := (List.append_inj' (List.mem_singleton.mp hHere) rfl).2
        cases hLast
        exact hShort
  word := by
    intro b w' q x hMem hPath
    have hc := (List.getElem?_eq_some_iff.mp hNode).1
    cases h.added_cases hc hMem hPath with
    | inl hHere =>
        obtain ⟨hEq, rfl⟩ := hHere
        have hWord := (List.append_inj' hEq rfl).2
        cases hWord
        have hCut : word.take ((List.replicate maxWordLen (0 : UInt8)).length - 1) = word :=
          List.take_of_length_le (by rw [List.length_replicate]; omega)
        show cString (snprintf (List.replicate maxWordLen 0) word) 0 = some word
        rw [snprintf, hCut]
        exact @cString_eq [] word _ hText
    | inr hThere =>
        obtain ⟨w₀, hMem₀, hPath₀, rfl⟩ := hThere
        have hWord := h.word b w₀ q x hMem₀ hPath₀
        split
        · exact hWord
        · exact hWord
  children := by
    intro b w' q hMem hPath
    have hc := (List.getElem?_eq_some_iff.mp hNode).1
    cases h.added_cases hc hMem hPath with
    | inl hHere =>
        obtain ⟨rfl, rfl⟩ := hHere
        exact h.children_new hNew
    | inr hThere =>
        obtain ⟨w₀, hMem₀, hPath₀, rfl⟩ := hThere
        by_cases hSame : b = c
        · subst hSame
          have hq : q = p := Option.some.inj (hPath₀.symm.trans hAt)
          have hw : w₀ = w := Option.some.inj (hMem₀.symm.trans hNode)
          rw [if_pos rfl, hq, hw, ← h.size]
          exact children_added hNew hSize hNodup hChildren hKids
        · rw [if_neg hSame]
          refine (h.children b w₀ q hMem₀ hPath₀).other ?_
          rintro rfl
          have hb := (List.getElem?_eq_some_iff.mp hPath₀).1
          exact hSame ((List.getElem?_inj hb h.nodup).mp (hPath₀.trans hAt.symm))
  handle := by
    intro b w' q hMem hPath
    have hc := (List.getElem?_eq_some_iff.mp hNode).1
    cases h.added_cases hc hMem hPath with
    | inl hHere =>
        obtain ⟨rfl, rfl⟩ := hHere
        exact (h.fresh _ hNew).symm
    | inr hThere =>
        obtain ⟨w₀, hMem₀, hPath₀, rfl⟩ := hThere
        have hHandle := h.handle b w₀ q hMem₀ hPath₀
        split
        · exact hHandle
        · exact hHandle
  fresh := by
    intro q hOut
    exact h.fresh q fun hIn => hOut (List.mem_append_left _ hIn)

/-- The search in `cmd_register` finds the child of a word, or adds it. -/
theorem Trie.registerFind_spec {S : Set (List (List UInt8))} (hNarrow : Narrow maxWordOption S)
    (h : Trie cmd paths last) (hPaths : ∀ q, q ∈ paths → q ∈ S) (hAt : paths[c]? = some p)
    (hShort : word.length < maxWordLen) (hText : ∀ x, x ∈ word → x ≠ 0) (hIn : p ++ [word] ∈ S) :
    ∃ a cmd' paths', registerFind cmd c word maxWordOption 0 = some (a, cmd') ∧
      Trie cmd' paths' last ∧ paths'[a]? = some (p ++ [word]) ∧
      ∀ q, q ∈ paths' ↔ q ∈ paths ∨ q = p ++ [word] := by
  obtain ⟨w, hNode⟩ := h.node hAt
  obtain ⟨kids, hSize, hNodup, hChildren, hKids⟩ := h.children c w p hNode hAt
  have hRoom : (∀ a, (a, word) ∉ kids) → kids.length < maxWordOption := by
    intro hNone
    have hOut : word ∉ kids.map Prod.snd := by
      intro hMem
      obtain ⟨⟨k, x⟩, hKid, rfl⟩ := List.mem_map.mp hMem
      exact hNone k hKid
    have hAll : ∀ x, x ∈ word :: kids.map Prod.snd → p ++ [x] ∈ S := by
      intro x hx
      cases List.mem_cons.mp hx with
      | inl hHere => rwa [hHere]
      | inr hThere =>
          obtain ⟨⟨k, y⟩, hKid, rfl⟩ := List.mem_map.mp hThere
          exact hPaths _ (List.mem_of_getElem? ((hKids k y).mp hKid))
    have hLess := hNarrow p _ (List.nodup_cons.mpr ⟨hOut, hNodup⟩) hAll
    rw [List.length_cons, List.length_map] at hLess
    omega
  cases @Trie.registerFind_from _ _ _ _ p c word h hShort w hNode [] kids hSize hChildren
    (fun k x hKid => (hKids k x).mp hKid) (fun _ => List.not_mem_nil) hRoom with
  | inl hFound =>
      obtain ⟨a, hKid, hFind⟩ := hFound
      have hChild := (hKids a word).mp hKid
      refine ⟨a, cmd, paths, hFind, h, hChild, ?_⟩
      intro q
      refine (or_iff_left_of_imp ?_).symm
      rintro rfl
      exact List.mem_of_getElem? hChild
  | inr hAdded =>
      obtain ⟨hNone, hFind⟩ := hAdded
      have hNew : p ++ [word] ∉ paths := by
        intro hMem
        obtain ⟨a, ha⟩ := List.mem_iff_getElem?.mp hMem
        exact hNone a ((hKids a word).mpr ha)
      refine ⟨cmd.mem.length, _, paths ++ [p ++ [word]], hFind,
        h.add hAt hNew hShort hText hNode (hRoom hNone) hNodup hChildren hKids, ?_, ?_⟩
      · rw [← h.size]
        exact List.getElem?_concat_length
      · intro q
        rw [List.mem_append, List.mem_singleton]

end

end Gbase.Util.Cmd
