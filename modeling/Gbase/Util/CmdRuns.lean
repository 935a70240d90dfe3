import Gbase.Util.Cmd

/-!
# Registered sentences (`util/cmd.c`)

The sentences that are registered one after the other make a tree of all prefixes of their words,
and a sentence that is handled goes down this tree as far as it reaches.

A sentence that goes beyond the tree is handled at the last place it reached, and the words behind
it are the argument of the handler.  Registering a sentence twice replaces its handler.

## Main results

* `Trie.registerLoop_spec`, `Trie.handleLoop_spec`: a whole sentence in both loops.
* `registerAll_trie`: the tree after all registrations.
* `cmdHandle_spec`: which handler a sentence is given to.
-/

namespace Gbase.Util.Cmd

open Gbase.Lib.CString Gbase.Lib.Prefixes

/-- The words of a sentence. -/
def words (sentence : List UInt8) : List (List UInt8) := tokens sep sentence

/-- One call of `cmd_register`. -/
structure Registration (H : Type) where
  input : List UInt8
  sentence : List UInt8
  handle : Option H

variable {H : Type}

/-- The calls one after the other, from `cmd_create` on. -/
def registerAll (calls : List (Registration H)) : Option (CmdT H) :=
  calls.foldlM (fun cmd call => cmdRegister cmd call.input call.sentence call.handle) ⟨none, []⟩

/-- The handler registered last for a sequence of words. -/
def lastHandle (calls : List (Registration H)) (p : List (List UInt8)) : Option H :=
  ((calls.filter fun call => words call.sentence = p).getLast?).bind Registration.handle

/-- A sentence that the arrays have room for; `input` is what the array of the call held before. -/
structure Fits (input sentence : List UInt8) : Prop where
  room : input.length = maxSentenceLen
  short : sentence.length < maxSentenceLen
  text : ∀ x, x ∈ sentence → x ≠ 0
  word : ∀ w, w ∈ words sentence → w.length < maxWordLen

/-- The prefixes of the registered sentences. -/
def known (calls : List (Registration H)) : Set (List (List UInt8)) :=
  prefixes (calls.map fun call => words call.sentence)

section

variable {cmd : CmdT H} {paths : List (List (List UInt8))} {last : List (List UInt8) → Option H}
  {p : List (List UInt8)} {c fuel : Nat} {text pre post : List UInt8}

private theorem sep_ne_zero : 0 ∉ sep := by decide

/-- The words of a sentence that is registered become a path down the tree. -/
theorem Trie.registerLoop_spec {S : Set (List (List UInt8))} (hNarrow : Narrow maxWordOption S)
    (h : Trie cmd paths last) (hPaths : ∀ q, q ∈ paths → q ∈ S) (hAt : paths[c]? = some p)
    (hText : ∀ x, x ∈ text → x ≠ 0) (hShort : ∀ w, w ∈ words text → w.length < maxWordLen)
    (hIn : ∀ q, q <+: words text → p ++ q ∈ S) {host : Option Nat}
    (hHost : words text = [] → host = some c) (hFuel : text.length < fuel) :
    ∃ cmd' paths' c',
      registerLoop fuel cmd (pre ++ text ++ 0 :: post) pre.length host c = some (some c', cmd') ∧
      Trie cmd' paths' last ∧ paths'[c']? = some (p ++ words text) ∧
      ∀ q, q ∈ paths' ↔ q ∈ paths ∨ ∃ r, r <+: words text ∧ q = p ++ r := by
  induction fuel generalizing text pre host c p cmd paths with
  | zero => omega
  | succ fuel ih =>
      cases strtok_tokens hText sep_ne_zero with
      | inl hEnd =>
          obtain ⟨hNone, hTok⟩ := hEnd
          have hWords : words text = [] := hNone
          refine ⟨cmd, paths, c, ?_, h, ?_, ?_⟩
          · rw [registerLoop, hTok pre post, hHost hWords]
            rfl
          · rw [hWords, List.append_nil, hAt]
          · intro q
            refine (or_iff_left_of_imp ?_).symm
            rintro ⟨r, hr, rfl⟩
            rw [hWords, List.prefix_nil] at hr
            rw [hr, List.append_nil]
            exact List.mem_of_getElem? hAt
      | inr hToken =>
          obtain ⟨word, rest, hSplit, hLess, hWord, hRest, hTok⟩ := hToken
          have hWords : words text = word :: words rest := hSplit
          obtain ⟨start, pre', hTok, hRead⟩ := hTok pre post
          rw [hWords] at hShort hIn
          have hOne : [word] <+: word :: words rest := List.prefix_append [word] (words rest)
          obtain ⟨a, cmd₁, paths₁, hFind, hTrie₁, hAt₁, hMem₁⟩ := h.registerFind_spec hNarrow hPaths
            hAt (hShort word List.mem_cons_self) hWord (hIn [word] hOne)
          have hPaths₁ : ∀ q, q ∈ paths₁ → q ∈ S := by
            intro q hq
            cases (hMem₁ q).mp hq with
            | inl hOld => exact hPaths q hOld
            | inr hNew => exact hNew ▸ hIn [word] hOne
          have hIn₁ : ∀ q, q <+: words rest → p ++ [word] ++ q ∈ S := by
            intro q hq
            rw [List.append_assoc]
            exact hIn (word :: q) ((List.prefix_cons_inj word).mpr hq)
          obtain ⟨cmd', paths', c', hLoop, hTrie', hAt', hMem'⟩ :=
            @ih cmd₁ paths₁ (p ++ [word]) a rest pre' hTrie₁ hPaths₁ hAt₁ hRest
              (fun w hw => hShort w (List.mem_cons_of_mem word hw)) hIn₁ (some a) (fun _ => rfl)
              (by omega)
          refine ⟨cmd', paths', c', ?_, hTrie', ?_, ?_⟩
          · rw [registerLoop, hTok]
            simp only [Option.bind_eq_bind, Option.bind_some, hRead, hFind]
            exact hLoop
          · rw [hAt', hWords, List.append_assoc]
            rfl
          · intro q
            rw [hMem', hMem₁, hWords]
            constructor
            · rintro ((hOld | rfl) | ⟨r, hr, rfl⟩)
              · exact Or.inl hOld
              · exact Or.inr ⟨[word], hOne, rfl⟩
              · refine Or.inr ⟨word :: r, (List.prefix_cons_inj word).mpr hr, ?_⟩
                rw [List.append_assoc]
                rfl
            · rintro (hOld | ⟨r, hr, rfl⟩)
              · exact Or.inl (Or.inl hOld)
              · cases r with
                | nil =>
                    rw [List.append_nil]
                    exact Or.inl (Or.inl (List.mem_of_getElem? hAt))
                | cons x r =>
                    rw [List.cons_prefix_cons] at hr
                    obtain ⟨rfl, hr⟩ := hr
                    refine Or.inr ⟨r, hr, ?_⟩
                    rw [List.append_assoc]
                    rfl

/-- A sentence that is handled goes down the tree as far as its words are there. -/
theorem Trie.handleLoop_spec (h : Trie cmd paths last) (hAt : paths[c]? = some p)
    (hText : ∀ x, x ∈ text → x ≠ 0) (hShort : ∀ w, w ∈ words text → w.length < maxWordLen)
    (hFuel : text.length < fuel) :
    ∃ c' q rest, handleLoop cmd fuel (pre ++ text ++ 0 :: post) pre.length (some c) =
        some (some c', rest.head?) ∧
      words text = q ++ rest ∧ paths[c']? = some (p ++ q) ∧
      ∀ x, rest.head? = some x → p ++ q ++ [x] ∉ paths := by
  induction fuel generalizing text pre c p with
  | zero => omega
  | succ fuel ih =>
      cases strtok_tokens hText sep_ne_zero with
      | inl hEnd =>
          obtain ⟨hNone, hTok⟩ := hEnd
          refine ⟨c, [], [], ?_, hNone, by rw [List.append_nil, hAt], nofun⟩
          rw [handleLoop, hTok pre post]
          rfl
      | inr hToken =>
          obtain ⟨word, rest, hSplit, hLess, hWord, hRest, hTok⟩ := hToken
          have hWords : words text = word :: words rest := hSplit
          obtain ⟨start, pre', hTok, hRead⟩ := hTok pre post
          rw [hWords] at hShort
          obtain ⟨found, hFind, hFound, hNone⟩ :=
            h.handleFind_spec hAt (hShort word List.mem_cons_self)
          have hTurn : handleLoop cmd (fuel + 1) (pre ++ text ++ 0 :: post) pre.length (some c) =
              match found with
              | none => some (some c, some word)
              | some a => handleLoop cmd fuel (pre' ++ rest ++ 0 :: post) pre'.length (some a) := by
            rw [handleLoop, hTok]
            simp only [Option.bind_eq_bind, Option.bind_some, hRead, hFind]
            cases found with
            | none => rfl
            | some a => rfl
          rw [hTurn]
          cases found with
          | none =>
              refine ⟨c, [], word :: words rest, rfl, hWords, by rw [List.append_nil, hAt], ?_⟩
              intro x hx
              cases hx
              rw [List.append_nil]
              exact hNone rfl
          | some a =>
              obtain ⟨c', q, rest', hLoop, hEq, hAt', hStuck⟩ := @ih (p ++ [word]) a rest pre'
                (hFound a rfl) hRest (fun w hw => hShort w (List.mem_cons_of_mem word hw))
                (by omega)
              rw [List.append_assoc] at hAt' hStuck
              exact ⟨c', word :: q, rest', hLoop, by rw [hWords, hEq]; rfl, hAt', hStuck⟩

/-- A new tree has a root with the empty sequence. -/
theorem trie_root : Trie (⟨some 0, [⟨List.replicate maxWordLen 0,
    List.replicate maxWordOption none, none⟩]⟩ : CmdT H) [[]] fun _ => none := by
  have hOnly : ∀ (b : Nat) (q : List (List UInt8)), [([] : List (List UInt8))][b]? = some q →
      b = 0 ∧ q = [] := by
    intro b q hAt
    rw [List.getElem?_singleton] at hAt
    split at hAt
    · cases hAt
      exact ⟨by assumption, rfl⟩
    · cases hAt
  have hLong : ∀ (q : List (List UInt8)) x, q ++ [x] ∉ [([] : List (List UInt8))] := by
    intro q x hIn
    exact List.append_ne_nil_of_right_ne_nil q (List.cons_ne_nil x []) (List.mem_singleton.mp hIn)
  refine ⟨⟨rfl, rfl⟩, rfl, List.nodup_singleton [], ?_, ?_, ?_, ?_, ?_, fun _ _ => rfl⟩
  · intro q x hIn
    exact absurd hIn (hLong q x)
  · intro q x hIn
    exact absurd hIn (hLong q x)
  · intro b w q x _ hAt
    exact absurd (List.mem_of_getElem? hAt) (hLong q x)
  · intro b w q hNode hAt
    obtain ⟨rfl, rfl⟩ := hOnly b q hAt
    cases hNode
    refine ⟨[], Nat.zero_le _, List.nodup_nil, rfl, ?_⟩
    intro k x
    refine iff_of_false List.not_mem_nil ?_
    intro hChild
    exact hLong [] x (List.mem_of_getElem? hChild)
  · intro b w q hNode hAt
    obtain ⟨rfl, rfl⟩ := hOnly b q hAt
    cases hNode
    rfl

/-- A handler is set at the node of a sequence. -/
theorem Trie.setHandle (h : Trie cmd paths last) (hAt : paths[c]? = some p) (handle : Option H) :
    Trie (cmd.modify c fun w => { w with handle := handle }) paths
      fun q => if q = p then handle else last q := by
  have hNodes : ∀ b w', (cmd.modify c fun w => { w with handle := handle }).mem[b]? = some w' →
      ∃ w, cmd.mem[b]? = some w ∧ w' = if b = c then { w with handle := handle } else w := by
    intro b w' hNode
    rw [CmdT.modify, List.getElem?_modify, Option.map_eq_map, Option.map_eq_some_iff] at hNode
    obtain ⟨w, hMem, rfl⟩ := hNode
    refine ⟨w, hMem, ?_⟩
    simp only [eq_comm]
  refine ⟨h.root, ?_, h.nodup, h.closed, h.short, ?_, ?_, ?_, ?_⟩
  · rw [CmdT.modify, List.length_modify, h.size]
  · intro b w' q x hNode hPath
    obtain ⟨w, hMem, rfl⟩ := hNodes b w' hNode
    have hWord := h.word b w q x hMem hPath
    split
    · exact hWord
    · exact hWord
  · intro b w' q hNode hPath
    obtain ⟨w, hMem, rfl⟩ := hNodes b w' hNode
    have hChildren := h.children b w q hMem hPath
    split
    · exact hChildren
    · exact hChildren
  · intro b w' q hNode hPath
    obtain ⟨w, hMem, rfl⟩ := hNodes b w' hNode
    have hHandle := h.handle b w q hMem hPath
    by_cases hSame : b = c
    · have hq : q = p := by
        rw [hSame, hAt] at hPath
        exact (Option.some.inj hPath).symm
      rw [if_pos hSame, if_pos hq]
    · have hq : ¬ q = p := by
        rintro rfl
        exact hSame ((List.getElem?_inj (List.getElem?_eq_some_iff.mp hPath).1 h.nodup).mp
          (hPath.trans hAt.symm))
      rw [if_neg hSame, if_neg hq]
      exact hHandle
  · intro q hOut
    have hq : ¬ q = p := by
      rintro rfl
      exact hOut (List.mem_of_getElem? hAt)
    rw [if_neg hq]
    exact h.fresh q hOut

/-- What `snprintf` leaves in an array that is long enough. -/
theorem snprintf_eq {dst : List UInt8} (hRoom : text.length < dst.length) :
    snprintf dst text = [] ++ text ++ 0 :: dst.drop (text.length + 1) := by
  rw [snprintf, List.take_of_length_le (by omega), List.nil_append]

private theorem lastHandle_concat (calls : List (Registration H)) (call : Registration H) :
    lastHandle (calls ++ [call]) =
      fun q => if q = words call.sentence then call.handle else lastHandle calls q := by
  funext q
  rw [lastHandle, List.filter_append, List.filter_singleton]
  by_cases hSame : q = words call.sentence
  · rw [if_pos hSame, decide_eq_true hSame.symm, cond_true, List.getLast?_concat]
    rfl
  · rw [if_neg hSame, decide_eq_false (Ne.symm hSame), cond_false, List.append_nil]
    rfl

theorem mem_known_concat (calls : List (Registration H)) (call : Registration H)
    (q : List (List UInt8)) :
    q ∈ known (calls ++ [call]) ↔ q ∈ known calls ∨ q <+: words call.sentence := by
  rw [known, List.map_append, List.map_singleton]
  exact mem_prefixes_concat

/-- What the calls so far leave: no tree before the first one, and then the tree of all prefixes. -/
def Registered (calls : List (Registration H)) (cmd : CmdT H) : Prop :=
  (calls = [] ∧ cmd = ⟨none, []⟩) ∨
    ∃ paths, Trie cmd paths (lastHandle calls) ∧ ∀ q, q ∈ paths ↔ q ∈ known calls

/-- A sentence is added to a tree that has a root. -/
theorem Trie.register {S : Set (List (List UInt8))} (hNarrow : Narrow maxWordOption S)
    (h : Trie cmd paths last) (hPaths : ∀ q, q ∈ paths → q ∈ S) {call : Registration H}
    (hFits : Fits call.input call.sentence) (hSome : words call.sentence ≠ [])
    (hIn : ∀ q, q <+: words call.sentence → q ∈ S) (host : Option Nat) :
    ∃ c' cmd' paths',
      registerLoop maxSentenceLen cmd (snprintf call.input call.sentence) 0 host 0 =
        some (some c', cmd') ∧
      Trie (cmd'.modify c' fun w => { w with handle := call.handle }) paths'
        (fun q => if q = words call.sentence then call.handle else last q) ∧
      ∀ q, q ∈ paths' ↔ q ∈ paths ∨ q <+: words call.sentence := by
  have hRoom : call.sentence.length < call.input.length := by
    rw [hFits.room]
    exact hFits.short
  rw [snprintf_eq hRoom]
  obtain ⟨cmd', paths', c', hLoop, hTrie, hAt, hMem⟩ :=
    @Trie.registerLoop_spec _ _ _ _ [] 0 maxSentenceLen call.sentence []
      (call.input.drop (call.sentence.length + 1)) S hNarrow h hPaths h.root.2 hFits.text hFits.word
      hIn host (fun hNone => absurd hNone hSome) hFits.short
  refine ⟨c', cmd', paths', hLoop, hTrie.setHandle hAt call.handle, ?_⟩
  intro q
  rw [hMem]
  refine or_congr_right ⟨?_, fun hq => ⟨q, hq, rfl⟩⟩
  rintro ⟨r, hr, rfl⟩
  exact hr

/-- One call of `cmd_register`. -/
theorem cmdRegister_spec {S : Set (List (List UInt8))} (hNarrow : Narrow maxWordOption S)
    {calls : List (Registration H)} (h : Registered calls cmd) {call : Registration H}
    (hFits : Fits call.input call.sentence) (hSome : words call.sentence ≠ [])
    (hIn : ∀ q, q ∈ known (calls ++ [call]) → q ∈ S) :
    ∃ cmd', cmdRegister cmd call.input call.sentence call.handle = some cmd' ∧
      Registered (calls ++ [call]) cmd' := by
  have hNew : ∀ q, q <+: words call.sentence → q ∈ S := fun q hq =>
    hIn q ((mem_known_concat calls call q).mpr (Or.inr hq))
  cases h with
  | inl hFirst =>
      obtain ⟨rfl, rfl⟩ := hFirst
      have hPaths : ∀ q, q ∈ [([] : List (List UInt8))] → q ∈ S := by
        intro q hq
        rw [List.mem_singleton.mp hq]
        exact hNew [] List.nil_prefix
      obtain ⟨c', cmd', paths', hLoop, hTrie, hMem⟩ :=
        (@trie_root H).register hNarrow hPaths hFits hSome hNew (some 0)
      refine ⟨cmd'.modify c' fun w => { w with handle := call.handle }, ?_,
        Or.inr ⟨paths', ?_, ?_⟩⟩
      · simp only [cmdRegister, wordCreate, List.length_nil, List.nil_append, Option.bind_eq_bind,
          Option.bind_some, hLoop]
        rfl
      · rw [lastHandle_concat]
        exact hTrie
      · intro q
        rw [hMem, mem_known_concat, List.mem_singleton]
        constructor
        · rintro (rfl | hq)
          · exact Or.inr List.nil_prefix
          · exact Or.inr hq
        · rintro (⟨s, hs, -⟩ | hq)
          · cases hs
          · exact Or.inr hq
  | inr hLater =>
      obtain ⟨paths, hTrie, hMem⟩ := hLater
      have hPaths : ∀ q, q ∈ paths → q ∈ S := fun q hq =>
        hIn q ((mem_known_concat calls call q).mpr (Or.inl ((hMem q).mp hq)))
      obtain ⟨c', cmd', paths', hLoop, hTrie', hMem'⟩ :=
        hTrie.register hNarrow hPaths hFits hSome hNew none
      refine ⟨cmd'.modify c' fun w => { w with handle := call.handle }, ?_,
        Or.inr ⟨paths', ?_, ?_⟩⟩
      · simp only [cmdRegister, hTrie.root.1, Option.bind_eq_bind, Option.bind_some, hLoop]
        rfl
      · rw [lastHandle_concat]
        exact hTrie'
      · intro q
        rw [hMem', mem_known_concat, hMem]

/-- All calls, when the sentences fit and no more words than the arrays have room for follow one
another. -/
theorem registerAll_trie {calls : List (Registration H)}
    (hFits : ∀ call, call ∈ calls → Fits call.input call.sentence ∧ words call.sentence ≠ [])
    (hNarrow : Narrow maxWordOption (known calls)) :
    ∃ cmd, registerAll calls = some cmd ∧ Registered calls cmd := by
  -- the calls that are done come first
  have hRest : ∀ (rest done : List (Registration H)) cmd, done ++ rest = calls →
      Registered done cmd →
      ∃ cmd', rest.foldlM
          (fun cmd call => cmdRegister cmd call.input call.sentence call.handle) cmd = some cmd' ∧
        Registered calls cmd' := by
    intro rest
    induction rest with
    | nil =>
        intro done cmd hAll hDone
        rw [List.append_nil] at hAll
        rw [hAll] at hDone
        exact ⟨cmd, rfl, hDone⟩
    | cons call rest ih =>
        intro done cmd hAll hDone
        obtain ⟨hOne, hSome⟩ := hFits call (by rw [← hAll]; simp)
        have hIn : ∀ q, q ∈ known (done ++ [call]) → q ∈ known calls := by
          rintro q ⟨s, hs, hq⟩
          refine ⟨s, ?_, hq⟩
          rw [← hAll, List.append_cons, List.map_append]
          exact List.mem_append_left _ hs
        obtain ⟨cmd₁, hStep, hDone₁⟩ := cmdRegister_spec hNarrow hDone hOne hSome hIn
        rw [List.foldlM_cons, hStep]
        exact ih (done ++ [call]) cmd₁ (by rw [← hAll, List.append_assoc]; rfl) hDone₁
  exact hRest calls [] ⟨none, []⟩ rfl (Or.inl ⟨rfl, rfl⟩)

end

/-- A sentence is given to the handler registered last for the longest prefix of its words that is
a prefix of a registered sentence, once, with the word behind it; and when this prefix itself was
not registered, no handler is called. -/
theorem cmdHandle_spec {calls : List (Registration H)} (hCalls : calls ≠ [])
    (hFits : ∀ call, call ∈ calls → Fits call.input call.sentence ∧ words call.sentence ≠ [])
    (hNarrow : Narrow maxWordOption (known calls)) {input s : List UInt8} (hs : Fits input s)
    (results : H → Option (List UInt8) → Int) :
    ∃ cmd p rest, registerAll calls = some cmd ∧ words s = p ++ rest ∧
      Longest (known calls) (words s) p ∧
      cmdHandle results cmd input s = some (match lastHandle calls p with
        | none => ([], -1)
        | some handle => ([(handle, rest.head?)], results handle rest.head?)) := by
  obtain ⟨cmd, hAll, hRegistered⟩ := registerAll_trie hFits hNarrow
  obtain ⟨paths, hTrie, hMem⟩ := hRegistered.resolve_left fun hNone => hCalls hNone.1
  have hRoom : s.length < input.length := by
    rw [hs.room]
    exact hs.short
  obtain ⟨c, p, rest, hLoop, hWords, hAt, hStuck⟩ :=
    @Trie.handleLoop_spec _ _ _ _ [] 0 maxSentenceLen s [] (input.drop (s.length + 1)) hTrie
      hTrie.root.2 hs.text hs.word hs.short
  rw [List.nil_append] at hAt hStuck
  obtain ⟨w, hNode⟩ := hTrie.node hAt
  have hLongest : Longest (known calls) (words s) p := by
    rw [hWords]
    apply longest_of_stuck (closed_prefixes _) ((hMem p).mp (List.mem_of_getElem? hAt))
    intro x hx hIn
    exact hStuck x hx ((hMem _).mpr hIn)
  refine ⟨cmd, p, rest, hAll, hWords, hLongest, ?_⟩
  rw [← snprintf_eq hRoom, List.length_nil] at hLoop
  rw [cmdHandle, hTrie.root.1, hLoop]
  simp only [Option.bind_eq_bind, Option.bind_some, hNode, hTrie.handle c w p hNode hAt]
  cases lastHandle calls p with
  | none => rfl
  | some handle => rfl

/-- Two sentences of which one is a prefix of the other, and the first one registered again. -/
def skiplistCalls : List (Registration Nat) :=
  [⟨List.replicate maxSentenceLen 7, ascii "base skiplist", some 1⟩,
    ⟨List.replicate maxSentenceLen 0, ascii "base skiplist find", some 2⟩,
    ⟨List.replicate maxSentenceLen 0, ascii " base  skiplist", some 3⟩]

/-- The handler registered last for the first two words is called with the third one. -/
theorem cmdHandle_skiplist : ∃ cmd, registerAll skiplistCalls = some cmd ∧
    cmdHandle (fun handle _ => Int.ofNat handle) cmd (List.replicate maxSentenceLen 0)
      (ascii "base skiplist random find") = some ([(3, some (ascii "random"))], 3) := by
  have hText : ∀ text : List UInt8, text.length < maxSentenceLen → 0 ∉ text →
      (∀ w, w ∈ words text → w.length < maxWordLen) → ∀ x,
      Fits (List.replicate maxSentenceLen x) text :=
    fun text hShort hNot hWord _ =>
      ⟨List.length_replicate, hShort, fun _ hx hZero => hNot (hZero ▸ hx), hWord⟩
  have hFits : ∀ call, call ∈ skiplistCalls →
      Fits call.input call.sentence ∧ words call.sentence ≠ [] := by
    intro call hCall
    simp only [skiplistCalls, List.mem_cons, List.not_mem_nil, or_false] at hCall
    rcases hCall with rfl | rfl | rfl
    · exact ⟨hText _ (by decide) (by decide) (by decide) 7, by decide⟩
    · exact ⟨hText _ (by decide) (by decide) (by decide) 0, by decide⟩
    · exact ⟨hText _ (by decide) (by decide) (by decide) 0, by decide⟩
  obtain ⟨cmd, p, rest, hAll, hWords, hLongest, hHandle⟩ := cmdHandle_spec (by decide) hFits
    (narrow_prefixes (by decide)) (hText (ascii "base skiplist random find") (by decide) (by decide)
      (by decide) 0) fun handle _ => Int.ofNat handle
  have hSplit : words (ascii "base skiplist random find") =
      [ascii "base", ascii "skiplist"] ++ [ascii "random", ascii "find"] := by decide
  have hLongest' : Longest (known skiplistCalls)
      ([ascii "base", ascii "skiplist"] ++ [ascii "random", ascii "find"])
      [ascii "base", ascii "skiplist"] := by
    apply longest_of_stuck (closed_prefixes _)
    · exact ⟨_, List.mem_cons_self, List.prefix_rfl⟩
    · intro x hx
      cases hx
      rintro ⟨s, hs, hOf⟩
      revert s
      decide
  rw [hSplit] at hWords hLongest
  have hp := hLongest.unique hLongest'
  subst hp
  have hRest := List.append_cancel_left hWords
  subst hRest
  have hLast : lastHandle skiplistCalls [ascii "base", ascii "skiplist"] = some 3 := by decide
  rw [hLast] at hHandle
  exact ⟨cmd, hAll, hHandle⟩

end Gbase.Util.Cmd
