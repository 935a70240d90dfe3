import Gbase.Lib.Comparator
import Gbase.Lib.Dictionary
import Gbase.Lib.Run
import Mathlib.Data.List.Nodup

/-!
# The chained hash table (`base/hash.c`)

A table of `m_size` singly linked chains.  A chain is modelled as the list of its
`m_data`, first node first; a data pointer is `Option α`, with `none` for `NULL`.
Node allocation succeeds, and the table pointer is not `NULL`.

`hash_remove` links the node before the removed one to the node behind it, except when
there is none before: then it clears the whole bucket.  So the table refines a finite
set along a run exactly as long as no removal hits the first node of a longer chain.

## Main results

* `hashOp_refines_iff`: one operation on a well-formed table does what the finite set
  does if and only if it is not such a removal.
* `hash_refines_finite_set_iff`: the same over whole runs.
-/

namespace Gbase.Base.Hash

open Gbase.Lib.Comparator
open Gbase.Lib.Dictionary
open Gbase.Lib.Run

universe u

/-- `hash_t`: `mTable i` is the chain of bucket `i`. -/
structure HashT (α : Type u) where
  mSize : Nat
  mCount : Int
  mHashFunc : α → UInt32
  mCmpFunc : α → α → Int
  mTable : Nat → List α

variable {α : Type u}

/-- `hash_create` -/
def hashCreate (hash : α → UInt32) (cmp : α → α → Int) (hintSize : Int) : Option (HashT α) :=
  if hintSize ≤ 0 then none
  else some
    { mSize := hintSize.toNat, mCount := 0, mHashFunc := hash, mCmpFunc := cmp,
      mTable := fun _ => [] }

/-- `hash_key % htable->m_size` -/
def HashT.index (htable : HashT α) (data : α) : Nat :=
  (htable.mHashFunc data).toNat % htable.mSize

/-- The chain an operation on `data` walks. -/
def HashT.chain (htable : HashT α) (data : α) : List α :=
  htable.mTable (htable.index data)

def HashT.setTable (htable : HashT α) (index : Nat) (chain : List α) : HashT α :=
  { htable with mTable := fun i => if i = index then chain else htable.mTable i }

/-- `hash_clean`: every bucket is freed; `m_count` is left as it is. -/
def hashClean (htable : HashT α) : Int × HashT α :=
  (0, { htable with mTable := fun i => if i < htable.mSize then [] else htable.mTable i })

/-- `hash_loop`: the elements the callback is called with, in order. -/
def hashLoop (htable : HashT α) : List α :=
  (List.range htable.mSize).flatMap htable.mTable

/-- `hash_insert`: the new node goes behind the last one of its chain. -/
def hashInsert (htable : HashT α) : Option α → Int × HashT α
  | none => (-1, htable)
  | some data =>
      if (htable.chain data).any (fun e => htable.mCmpFunc e data == 0) then (-1, htable)
      else
        (0, { htable.setTable (htable.index data) (htable.chain data ++ [data]) with
              mCount := htable.mCount + 1 })

/-- The loop of `hash_remove` from `node` on; `seen` are the nodes before it.  Returns
the removed data and the chain that is left. -/
def removeFrom (cmp : α → α → Int) (data : α) : List α → List α → Option (α × List α)
  | _, [] => none
  | seen, node :: next =>
      if cmp node data = 0 then
        -- `prev` is `NULL` when no node was passed: the bucket is set to 0
        some (node, if seen.isEmpty then [] else seen ++ next)
      else removeFrom cmp data (seen ++ [node]) next

/-- `hash_remove` -/
def hashRemove (htable : HashT α) : Option α → Option α × HashT α
  | none => (none, htable)
  | some data =>
      match removeFrom htable.mCmpFunc data [] (htable.chain data) with
      | none => (none, htable)
      | some (ret, chain) =>
          (some ret, { htable.setTable (htable.index data) chain with
                       mCount := htable.mCount - 1 })

/-- `hash_count` -/
def hashCount (htable : HashT α) : Int := htable.mCount

/-- `hash_find` -/
def hashFind (htable : HashT α) : Option α → Option α
  | none => none
  | some data => (htable.chain data).find? (fun e => htable.mCmpFunc e data == 0)

/-- `__jhash_mix` -/
def jhashMix (a b c : UInt32) : UInt32 × UInt32 × UInt32 :=
  let a := (a - b - c) ^^^ (c >>> 13)
  let b := (b - c - a) ^^^ (a <<< 8)
  let c := (c - a - b) ^^^ (b >>> 13)
  let a := (a - b - c) ^^^ (c >>> 12)
  let b := (b - c - a) ^^^ (a <<< 16)
  let c := (c - a - b) ^^^ (b >>> 5)
  let a := (a - b - c) ^^^ (c >>> 3)
  let b := (b - c - a) ^^^ (a <<< 10)
  let c := (c - a - b) ^^^ (b >>> 15)
  (a, b, c)

/-- Four bytes of the key, the lowest first. -/
def jhashWord (k₀ k₁ k₂ k₃ : UInt8) : UInt32 :=
  k₀.toUInt32 + (k₁.toUInt32 <<< 8) + (k₂.toUInt32 <<< 16) + (k₃.toUInt32 <<< 24)

/-- The loop of `hash_jhash` over twelve bytes a turn, and its last turn; a byte behind the end
of the key adds nothing. -/
def jhashFrom (length a b c : UInt32) : List UInt8 → UInt32
  | k₀ :: k₁ :: k₂ :: k₃ :: k₄ :: k₅ :: k₆ :: k₇ :: k₈ :: k₉ :: k₁₀ :: k₁₁ :: key =>
      let (a, b, c) := jhashMix (a + jhashWord k₀ k₁ k₂ k₃) (b + jhashWord k₄ k₅ k₆ k₇)
        (c + jhashWord k₈ k₉ k₁₀ k₁₁)
      jhashFrom length a b c key
  | key =>
      let k := fun i => key.getD i 0
      (jhashMix (a + jhashWord (k 0) (k 1) (k 2) (k 3)) (b + jhashWord (k 4) (k 5) (k 6) (k 7))
        (c + length + jhashWord 0 (k 8) (k 9) (k 10))).2.2

/-- `hash_jhash` -/
def hashJhash (key : List UInt8) : UInt32 :=
  jhashFrom (UInt32.ofNat key.length) 0x9e3779b9 0x9e3779b9 99989 key

/-! ## Runs -/

/-- The calls a client makes. -/
inductive HashOp (α : Type u) where
  | insert (data : Option α)
  | remove (data : Option α)
  | find (data : Option α)
  | clean
  | loop

/-- What a call gives back: a status, a data pointer, or the visited elements. -/
inductive HashResult (α : Type u) where
  | status (code : Int)
  | data (ptr : Option α)
  | visited (elements : List α)

def hashStep : Step (HashT α) (HashOp α) (HashResult α)
  | h, .insert data => some (.status (hashInsert h data).1, (hashInsert h data).2)
  | h, .remove data => some (.data (hashRemove h data).1, (hashRemove h data).2)
  | h, .find data => some (.data (hashFind h data), h)
  | h, .clean => some (.status (hashClean h).1, (hashClean h).2)
  | h, .loop => some (.visited (hashLoop h), h)

/-! ## The finite set the table stands for -/

/-- The hash function and the comparator agree: the comparator returns 0 on the pairs
of an equivalence, and equivalent elements have one hash. -/
structure EqualityStyle (hash : α → UInt32) (cmp : α → α → Int) : Prop where
  refl : ∀ a, cmp a a = 0
  symm : ∀ a b, cmp a b = 0 → cmp b a = 0
  trans : ∀ a b c, cmp a b = 0 → cmp b c = 0 → cmp a c = 0
  hash_eq : ∀ a b, cmp a b = 0 → hash a = hash b

/-- The elements stored in the table. -/
def HashT.stored (htable : HashT α) : Set α :=
  {e | ∃ i < htable.mSize, e ∈ htable.mTable i}

/-- What an operation does to a finite set of elements, seen through the comparator. -/
def SetStep (cmp : α → α → Int) (S : Set α) : HashOp α → HashResult α → Set α → Prop
  | .insert none, r, S' => r = .status (-1) ∧ S' = S
  | .insert (some d), r, S' =>
      ∃ ok, r = .status (if ok then 0 else -1) ∧ Inserts (fun a b => cmp a b = 0) S d ok S'
  | .remove none, r, S' => r = .data none ∧ S' = S
  | .remove (some d), r, S' =>
      ∃ p, r = .data p ∧ Removes (fun a b => cmp a b = 0) S d p S'
  | .find none, r, S' => r = .data none ∧ S' = S
  | .find (some d), r, S' =>
      ∃ p, r = .data p ∧ Finds (fun a b => cmp a b = 0) S d p ∧ S' = S
  | .clean, r, S' => r = .status 0 ∧ S' = ∅
  | .loop, r, S' => ∃ l, r = .visited l ∧ Visits S l ∧ S' = S

/-- One call of the table does what the same call of the finite set does. -/
def Refines (htable : HashT α) (op : HashOp α) : Prop :=
  Does hashStep
    (fun h op r h' => SetStep htable.mCmpFunc h.stored op r h'.stored) htable op

/-- `hash_remove` does not take the first node away from the others of its chain. -/
def NoHeadRemoval (htable : HashT α) : HashOp α → Prop
  | .remove (some d) =>
      ∀ first rest, htable.chain d = first :: rest → htable.mCmpFunc first d = 0 → rest = []
  | _ => True

/-! ## Chains -/

/-- What every reachable table satisfies: elements sit in the bucket of their hash, and
no two elements of a chain are equal. -/
structure WellFormed (htable : HashT α) : Prop where
  size_pos : 0 < htable.mSize
  lawful : EqualityStyle htable.mHashFunc htable.mCmpFunc
  bucket : ∀ i < htable.mSize, ∀ e ∈ htable.mTable i, htable.index e = i
  distinct : ∀ i < htable.mSize,
    (htable.mTable i).Pairwise (fun a b => htable.mCmpFunc a b ≠ 0)

private theorem removeFrom_none {cmp : α → α → Int} {data : α} {seen chain : List α}
    (h : ∀ e ∈ chain, cmp e data ≠ 0) : removeFrom cmp data seen chain = none := by
  induction chain generalizing seen with
  | nil => rfl
  | cons node next ih =>
      have hNode : cmp node data ≠ 0 := h node (by simp)
      rw [removeFrom, if_neg hNode]
      exact ih fun e he => h e (by simp [he])

private theorem removeFrom_some {cmp : α → α → Int} {data e : α} {seen before after : List α}
    (hBefore : ∀ x ∈ before, cmp x data ≠ 0) (hEq : cmp e data = 0) :
    removeFrom cmp data seen (before ++ e :: after) =
      some (e, if seen = [] ∧ before = [] then [] else seen ++ before ++ after) := by
  induction before generalizing seen with
  | nil => cases seen <;> simp [removeFrom, hEq]
  | cons node next ih =>
      have hNode : cmp node data ≠ 0 := hBefore node (by simp)
      rw [List.cons_append, removeFrom, if_neg hNode,
        ih fun x hx => hBefore x (by simp [hx])]
      simp

/-- A chain either has no element equal to `data`, or splits at the first one. -/
theorem chain_split (cmp : α → α → Int) (data : α) (chain : List α) :
    (∀ e ∈ chain, cmp e data ≠ 0) ∨
      ∃ before e after, chain = before ++ e :: after ∧
        (∀ x ∈ before, cmp x data ≠ 0) ∧ cmp e data = 0 := by
  induction chain with
  | nil => exact Or.inl (by simp)
  | cons node next ih =>
      by_cases hNode : cmp node data = 0
      · exact Or.inr ⟨[], node, next, by simp, by simp, hNode⟩
      · rcases ih with hNone | ⟨before, e, after, hSplit, hBefore, hEq⟩
        · refine Or.inl ?_
          intro e he
          rcases List.mem_cons.mp he with rfl | he
          · exact hNode
          · exact hNone e he
        · refine Or.inr ⟨node :: before, e, after, by simp [hSplit], ?_, hEq⟩
          intro x hx
          rcases List.mem_cons.mp hx with rfl | hx
          · exact hNode
          · exact hBefore x hx

/-! ## The stored set under the operations -/

section Stored

variable {h : HashT α}

theorem WellFormed.index_lt (hW : WellFormed h) (d : α) : h.index d < h.mSize :=
  Nat.mod_lt _ hW.size_pos

/-- An element is stored exactly when it is in the chain of its own hash. -/
theorem WellFormed.mem_stored_iff (hW : WellFormed h) {e : α} :
    e ∈ h.stored ↔ e ∈ h.chain e := by
  constructor
  · rintro ⟨i, hi, he⟩
    have hIndex := hW.bucket i hi e he
    rw [HashT.chain, hIndex]
    exact he
  · intro he
    exact ⟨h.index e, hW.index_lt e, he⟩

/-- Elements equal to `d` can only be in the chain of `d`. -/
theorem WellFormed.stored_equal_iff (hW : WellFormed h) {e d : α}
    (hEq : h.mCmpFunc e d = 0) : e ∈ h.stored ↔ e ∈ h.chain d := by
  have hIndex : h.index e = h.index d := by
    rw [HashT.index, HashT.index, hW.lawful.hash_eq e d hEq]
  rw [hW.mem_stored_iff, HashT.chain, HashT.chain, hIndex]

theorem WellFormed.chain_subset (hW : WellFormed h) {e d : α} (he : e ∈ h.chain d) :
    e ∈ h.stored :=
  ⟨h.index d, hW.index_lt d, he⟩

/-- The first equal element of a chain is the only one. -/
theorem WellFormed.unique (hW : WellFormed h) {d e : α} {before after : List α}
    (hChain : h.chain d = before ++ e :: after) (hEq : h.mCmpFunc e d = 0) :
    ∀ x ∈ before ++ after, h.mCmpFunc x d ≠ 0 := by
  have hPair := hW.distinct _ (hW.index_lt d)
  change (h.chain d).Pairwise _ at hPair
  rw [hChain, List.pairwise_append] at hPair
  obtain ⟨_, hTail, hCross⟩ := hPair
  intro x hx hxd
  have hed := hW.lawful.symm e d hEq
  rcases List.mem_append.mp hx with hx | hx
  · exact hCross x hx e (by simp) (hW.lawful.trans x d e hxd hed)
  · have hex := hW.lawful.trans e d x hEq (hW.lawful.symm x d hxd)
    exact (List.pairwise_cons.mp hTail).1 x hx hex

theorem WellFormed.finds_of_split (hW : WellFormed h) {d e : α} {before after : List α}
    (hChain : h.chain d = before ++ e :: after) (hEq : h.mCmpFunc e d = 0) :
    Finds (fun a b => h.mCmpFunc a b = 0) h.stored d (some e) := by
  have hMem : e ∈ h.chain d := by
    rw [hChain]
    exact List.mem_append_right _ List.mem_cons_self
  refine finds_some (hW.chain_subset hMem) hEq ?_
  intro x hx hxd
  have hMem := (hW.stored_equal_iff hxd).mp hx
  have hUnique := hW.unique hChain hEq x
  rw [hChain] at hMem
  grind

/-- The set after one chain is replaced. -/
theorem mem_stored_setTable (hW : WellFormed h) (d : α) (chain : List α) {e : α} :
    e ∈ (h.setTable (h.index d) chain).stored ↔
      e ∈ chain ∨ (e ∈ h.stored ∧ h.index e ≠ h.index d) := by
  constructor
  · rintro ⟨i, hi, he⟩
    by_cases hid : i = h.index d
    · exact Or.inl (by simpa [HashT.setTable, hid] using he)
    · have he' : e ∈ h.mTable i := by simpa [HashT.setTable, hid] using he
      exact Or.inr ⟨⟨i, hi, he'⟩, by rw [hW.bucket i hi e he']; exact hid⟩
  · rintro (he | ⟨⟨i, hi, he⟩, hne⟩)
    · exact ⟨h.index d, hW.index_lt d, by simpa [HashT.setTable] using he⟩
    · have hid : i ≠ h.index d := by rw [← hW.bucket i hi e he]; exact hne
      exact ⟨i, hi, by simpa [HashT.setTable, hid] using he⟩

private theorem stored_withCount (h : HashT α) (n : Int) :
    HashT.stored { h with mCount := n } = h.stored := rfl

/-- Replacing a chain by one with elements of the same bucket, pairwise distinct, keeps
the table well formed, whatever the count says. -/
theorem WellFormed.setTable (hW : WellFormed h) (d : α) (chain : List α) (n : Int)
    (hBucket : ∀ e ∈ chain, h.index e = h.index d)
    (hDistinct : chain.Pairwise (fun a b => h.mCmpFunc a b ≠ 0)) :
    WellFormed { h.setTable (h.index d) chain with mCount := n } where
  size_pos := hW.size_pos
  lawful := hW.lawful
  bucket := by
    intro i hi e he
    by_cases hid : i = h.index d
    · subst hid
      exact hBucket e (by simpa [HashT.setTable] using he)
    · exact hW.bucket i hi e (by simpa [HashT.setTable, hid] using he)
  distinct := by
    intro i hi
    by_cases hid : i = h.index d
    · subst hid
      simpa [HashT.setTable] using hDistinct
    · simpa [HashT.setTable, hid] using hW.distinct i hi

end Stored

/-! ## One operation -/

theorem hashCreate_wellFormed {hash : α → UInt32} {cmp : α → α → Int} {hintSize : Int}
    {h : HashT α} (hLawful : EqualityStyle hash cmp)
    (hCreate : hashCreate hash cmp hintSize = some h) :
    WellFormed h ∧ h.stored = ∅ ∧ h.mHashFunc = hash ∧ h.mCmpFunc = cmp := by
  unfold hashCreate at hCreate
  split at hCreate
  · cases hCreate
  · cases hCreate
    refine ⟨⟨by simp; omega, hLawful, by simp, by simp⟩, ?_, rfl, rfl⟩
    ext e
    simp [HashT.stored]

theorem hashInsert_refines {h : HashT α} (hW : WellFormed h) (d : α) :
    SetStep h.mCmpFunc h.stored (.insert (some d)) (.status (hashInsert h (some d)).1)
      (hashInsert h (some d)).2.stored ∧ WellFormed (hashInsert h (some d)).2 := by
  by_cases hAny : (h.chain d).any (fun e => h.mCmpFunc e d == 0)
  · have hRun : hashInsert h (some d) = (-1, h) := by simp [hashInsert, hAny]
    rw [hRun]
    refine ⟨⟨false, rfl, ?_, by simp⟩, hW⟩
    simp only [List.any_eq_true, beq_iff_eq] at hAny
    obtain ⟨e, he, hEq⟩ := hAny
    simpa using ⟨e, hW.chain_subset he, hEq⟩
  · have hNew : ∀ e ∈ h.chain d, h.mCmpFunc e d ≠ 0 := by
      intro e he hEq
      exact hAny (List.any_eq_true.mpr ⟨e, he, by simp [hEq]⟩)
    have hRun : hashInsert h (some d) =
        (0, { h.setTable (h.index d) (h.chain d ++ [d]) with mCount := h.mCount + 1 }) := by
      simp [hashInsert, hAny]
    have hBucket : ∀ e ∈ h.chain d ++ [d], h.index e = h.index d := by
      intro e he
      rcases List.mem_append.mp he with he | he
      · exact hW.bucket _ (hW.index_lt d) e he
      · rw [List.mem_singleton.mp he]
    rw [hRun]
    refine ⟨⟨true, rfl, ?_, ?_⟩, hW.setTable d _ _ hBucket ?_⟩
    · have hNone : ¬ ∃ e ∈ h.stored, h.mCmpFunc e d = 0 := by
        rintro ⟨e, he, hEq⟩
        exact hNew e ((hW.stored_equal_iff hEq).mp he) hEq
      simpa using hNone
    · ext e
      rw [stored_withCount, mem_stored_setTable hW d]
      simp only [if_true, Set.mem_insert_iff, List.mem_append, List.mem_singleton]
      constructor
      · rintro ((he | rfl) | ⟨he, _⟩)
        · exact Or.inr (hW.chain_subset he)
        · exact Or.inl rfl
        · exact Or.inr he
      · rintro (rfl | he)
        · exact Or.inl (Or.inr rfl)
        · by_cases hIndex : h.index e = h.index d
          · refine Or.inl (Or.inl ?_)
            rw [HashT.chain, ← hIndex]
            exact hW.mem_stored_iff.mp he
          · exact Or.inr ⟨he, hIndex⟩
    · refine List.pairwise_append.mpr ⟨hW.distinct _ (hW.index_lt d), by simp, ?_⟩
      intro a ha b hb
      rw [List.mem_singleton.mp hb]
      exact hNew a ha

theorem hashFind_refines {h : HashT α} (hW : WellFormed h) (d : α) :
    Finds (fun a b => h.mCmpFunc a b = 0) h.stored d (hashFind h (some d)) := by
  rcases chain_split h.mCmpFunc d (h.chain d) with hNone | ⟨before, e, after, hChain, hBefore, hEq⟩
  · have hRun : hashFind h (some d) = none := by
      simpa [hashFind, List.find?_eq_none] using hNone
    rw [hRun]
    refine finds_none ?_
    intro e he hEq
    exact hNone e ((hW.stored_equal_iff hEq).mp he) hEq
  · have hRun : hashFind h (some d) = some e := by
      simp only [hashFind, hChain]
      rw [List.find?_append, List.find?_eq_none.mpr (by simpa using hBefore)]
      simp [hEq]
    rw [hRun]
    exact hW.finds_of_split hChain hEq

theorem hashRemove_absent {h : HashT α} {d : α}
    (hNone : ∀ e ∈ h.chain d, h.mCmpFunc e d ≠ 0) : hashRemove h (some d) = (none, h) := by
  simp [hashRemove, removeFrom_none hNone]

theorem hashRemove_present {h : HashT α} {d e : α} {before after : List α}
    (hChain : h.chain d = before ++ e :: after)
    (hBefore : ∀ x ∈ before, h.mCmpFunc x d ≠ 0) (hEq : h.mCmpFunc e d = 0) :
    hashRemove h (some d) =
      (some e, { h.setTable (h.index d) (if before = [] then [] else before ++ after) with
                 mCount := h.mCount - 1 }) := by
  have hRun := @removeFrom_some α h.mCmpFunc d e [] before after hBefore hEq
  rw [← hChain] at hRun
  simp [hashRemove, hRun]

/-- A removal keeps the table well formed, whether or not it drops elements. -/
theorem hashRemove_wellFormed {h : HashT α} (hW : WellFormed h) (d : α) :
    WellFormed (hashRemove h (some d)).2 := by
  rcases chain_split h.mCmpFunc d (h.chain d) with hNone | ⟨before, e, after, hChain, hBefore, hEq⟩
  · rw [hashRemove_absent hNone]
    exact hW
  · have hSub : (before ++ after).Sublist (h.chain d) := by
      rw [hChain]
      exact List.Sublist.append_left (List.sublist_cons_self e after) before
    rw [hashRemove_present hChain hBefore hEq]
    refine hW.setTable d _ _ ?_ ?_
    · intro x hx
      refine hW.bucket _ (hW.index_lt d) x (hSub.subset ?_)
      split at hx
      · simp at hx
      · exact hx
    · split
      · simp
      · exact (hW.distinct _ (hW.index_lt d)).sublist hSub

/-- A removal takes elements away only. -/
theorem hashRemove_subset {h : HashT α} (hW : WellFormed h) (d : α) :
    (hashRemove h (some d)).2.stored ⊆ h.stored := by
  rcases chain_split h.mCmpFunc d (h.chain d) with hNone | ⟨before, e, after, hChain, hBefore, hEq⟩
  · rw [hashRemove_absent hNone]
  · rw [hashRemove_present hChain hBefore hEq]
    intro x hx
    rcases (mem_stored_setTable hW d _).mp hx with hx | ⟨hx, -⟩
    · apply hW.chain_subset (d := d)
      rw [hChain]
      split at hx
      · cases hx
      · rcases List.mem_append.mp hx with hx | hx
        · exact List.mem_append_left _ hx
        · exact List.mem_append_right _ (List.mem_cons_of_mem e hx)
    · exact hx

/-- What a removal returns is what the set holds, whatever else it takes away. -/
theorem hashRemove_finds {h : HashT α} (hW : WellFormed h) (d : α) :
    Finds (fun a b => h.mCmpFunc a b = 0) h.stored d (hashRemove h (some d)).1 := by
  rcases chain_split h.mCmpFunc d (h.chain d) with hNone | ⟨before, e, after, hChain, hBefore, hEq⟩
  · rw [hashRemove_absent hNone]
    refine finds_none ?_
    intro e he hEq
    exact hNone e ((hW.stored_equal_iff hEq).mp he) hEq
  · rw [hashRemove_present hChain hBefore hEq]
    exact hW.finds_of_split hChain hEq

/-- The elements left after `e` was unlinked from the middle of its chain. -/
theorem hashRemove_stored {h : HashT α} (hW : WellFormed h) {d e : α}
    {before after : List α} (hChain : h.chain d = before ++ e :: after)
    (hEq : h.mCmpFunc e d = 0) {x : α} :
    x ∈ (h.setTable (h.index d) (before ++ after)).stored ↔
      x ∈ h.stored ∧ h.mCmpFunc x d ≠ 0 := by
  have hUnique := hW.unique hChain hEq
  rw [mem_stored_setTable hW d]
  constructor
  · rintro (hx | ⟨hx, hne⟩)
    · exact ⟨hW.chain_subset (d := d) (by rw [hChain]; grind), hUnique x hx⟩
    · refine ⟨hx, fun hxd => hne ?_⟩
      rw [HashT.index, HashT.index, hW.lawful.hash_eq x d hxd]
  · rintro ⟨hx, hne⟩
    by_cases hIndex : h.index x = h.index d
    · have hMem := hW.mem_stored_iff.mp hx
      rw [HashT.chain, hIndex] at hMem
      change x ∈ h.chain d at hMem
      rw [hChain] at hMem
      have hxe : x ≠ e := fun he => hne (he ▸ hEq)
      exact Or.inl (by grind)
    · exact Or.inr ⟨hx, hIndex⟩

/-- A removal behaves like the removal from a finite set exactly when it does not take
the first node of a longer chain. -/
theorem hashRemove_refines_iff {h : HashT α} (hW : WellFormed h) (d : α) :
    Removes (fun a b => h.mCmpFunc a b = 0) h.stored d (hashRemove h (some d)).1
      (hashRemove h (some d)).2.stored ↔ NoHeadRemoval h (.remove (some d)) := by
  rcases chain_split h.mCmpFunc d (h.chain d) with hNone | ⟨before, e, after, hChain, hBefore, hEq⟩
  · rw [hashRemove_absent hNone]
    refine iff_of_true (removes_none ?_) ?_
    · intro e he hEq
      exact hNone e ((hW.stored_equal_iff hEq).mp he) hEq
    · intro first rest hFirst hEq
      exact absurd hEq (hNone first (by simp [hFirst]))
  · rw [hashRemove_present hChain hBefore hEq]
    have hFinds := hW.finds_of_split hChain hEq
    cases before with
    | cons b bs =>
        refine iff_of_true ⟨hFinds, ?_⟩ ?_
        · ext x
          exact hashRemove_stored hW hChain hEq
        · intro first rest hFirst hFirstEq
          rw [hChain] at hFirst
          obtain ⟨rfl, _⟩ := List.cons.inj hFirst
          exact absurd hFirstEq (hBefore b (by simp))
    | nil =>
        constructor
        · rintro ⟨_, hSet⟩ first rest hFirst _
          rw [hChain] at hFirst
          obtain ⟨rfl, rfl⟩ := List.cons.inj hFirst
          -- an element behind the removed head would still have to be stored
          refine List.eq_nil_iff_forall_not_mem.mpr ?_
          intro x hx
          have hInChain : x ∈ h.chain d := by
            rw [hChain]
            exact List.mem_cons_of_mem _ hx
          have hKeep : x ∈ (h.setTable (h.index d) []).stored := by
            rw [show HashT.stored (h.setTable (h.index d) []) = _ from hSet]
            exact ⟨hW.chain_subset hInChain, hW.unique hChain hEq x hx⟩
          rw [mem_stored_setTable hW d] at hKeep
          rcases hKeep with hKeep | ⟨_, hne⟩
          · simp at hKeep
          · exact hne (hW.bucket _ (hW.index_lt d) x hInChain)
        · intro hTail
          have hAfter : after = [] := hTail e after hChain hEq
          subst hAfter
          refine ⟨hFinds, ?_⟩
          ext x
          exact hashRemove_stored hW hChain hEq

/-- `hash_loop` meets every stored element once. -/
theorem hashLoop_visits {h : HashT α} (hW : WellFormed h) : Visits h.stored (hashLoop h) := by
  constructor
  · refine List.nodup_flatMap.mpr ⟨?_, ?_⟩
    · intro i hi
      refine (hW.distinct i (List.mem_range.mp hi)).imp ?_
      intro a b hab hEq
      exact hab (hEq ▸ hW.lawful.refl a)
    · refine List.nodup_range.imp_of_mem ?_
      intro i j hi hj hne e hei hej
      have hIndexI := hW.bucket i (List.mem_range.mp hi) e hei
      have hIndexJ := hW.bucket j (List.mem_range.mp hj) e hej
      exact hne (hIndexI.symm.trans hIndexJ)
  · intro e
    simp [hashLoop, HashT.stored]

theorem hashClean_refines {h : HashT α} (hW : WellFormed h) :
    (hashClean h).2.stored = ∅ ∧ WellFormed (hashClean h).2 := by
  constructor
  · ext e
    rw [Set.mem_empty_iff_false, iff_false]
    rintro ⟨i, hi, he⟩
    change i < h.mSize at hi
    simp [hashClean, hi] at he
  · refine ⟨hW.size_pos, hW.lawful, ?_, ?_⟩
    · intro i hi e he
      change i < h.mSize at hi
      simp [hashClean, hi] at he
    · intro i hi
      change i < h.mSize at hi
      simp [hashClean, hi]

/-- One call on a well-formed table does what the finite set does, except for the
removal of the first node of a longer chain. -/
theorem hashOp_refines_iff {h : HashT α} (hW : WellFormed h) (op : HashOp α) :
    Refines h op ↔ NoHeadRemoval h op := by
  cases op with
  | insert data =>
      refine iff_of_true ⟨_, _, rfl, ?_⟩ trivial
      cases data with
      | none => exact ⟨rfl, rfl⟩
      | some d => exact (hashInsert_refines hW d).1
  | remove data =>
      cases data with
      | none => exact iff_of_true ⟨_, _, rfl, rfl, rfl⟩ trivial
      | some d =>
          rw [← hashRemove_refines_iff hW d]
          constructor
          · rintro ⟨r, h', hStep, p, hr, hRemoves⟩
            obtain ⟨hr', rfl⟩ := Prod.mk.inj (Option.some.inj hStep)
            obtain rfl : (hashRemove h (some d)).1 = p := by
              simpa using hr'.trans hr
            exact hRemoves
          · intro hRemoves
            exact ⟨_, _, rfl, _, rfl, hRemoves⟩
  | find data =>
      refine iff_of_true ⟨_, _, rfl, ?_⟩ trivial
      cases data with
      | none => exact ⟨rfl, rfl⟩
      | some d => exact ⟨_, rfl, hashFind_refines hW d, rfl⟩
  | clean => exact iff_of_true ⟨_, _, rfl, rfl, (hashClean_refines hW).1⟩ trivial
  | loop => exact iff_of_true ⟨_, _, rfl, _, rfl, hashLoop_visits hW, rfl⟩ trivial

private theorem hashStep_wellFormed {h h' : HashT α} {op : HashOp α} {r : HashResult α}
    (hW : WellFormed h) (hStep : hashStep h op = some (r, h')) : WellFormed h' := by
  cases op with
  | insert data =>
      obtain ⟨_, rfl⟩ := Prod.mk.inj (Option.some.inj hStep)
      cases data with
      | none => exact hW
      | some d => exact (hashInsert_refines hW d).2
  | remove data =>
      obtain ⟨_, rfl⟩ := Prod.mk.inj (Option.some.inj hStep)
      cases data with
      | none => exact hW
      | some d => exact hashRemove_wellFormed hW d
  | find data =>
      obtain ⟨_, rfl⟩ := Prod.mk.inj (Option.some.inj hStep)
      exact hW
  | clean =>
      obtain ⟨_, rfl⟩ := Prod.mk.inj (Option.some.inj hStep)
      exact (hashClean_refines hW).2
  | loop =>
      obtain ⟨_, rfl⟩ := Prod.mk.inj (Option.some.inj hStep)
      exact hW

/-! ## Whole runs -/

/-- A fresh table holds nothing, and every call of a run on it does what the finite set
does if and only if no call of the run removes the first node of a longer chain. -/
theorem hash_refines_finite_set_iff {hash : α → UInt32} {cmp : α → α → Int}
    (hLawful : EqualityStyle hash cmp) {hintSize : Int} {h : HashT α}
    (hCreate : hashCreate hash cmp hintSize = some h) (ops : List (HashOp α)) :
    h.stored = ∅ ∧ (Along hashStep Refines h ops ↔ Along hashStep NoHeadRemoval h ops) := by
  obtain ⟨hW, hEmpty, _, _⟩ := hashCreate_wellFormed hLawful hCreate
  refine ⟨hEmpty, along_iff_of_inv WellFormed ?_ ?_ hW (along_true h ops)⟩
  · intro s op hInv _
    exact hashOp_refines_iff hInv op
  · intro s op r t hInv _ _ hStep
    exact hashStep_wellFormed hInv hStep

theorem natCmp_equalityStyle : EqualityStyle (fun _ : Nat => (0 : UInt32)) natCmp where
  refl := by intro a; simp [natCmp]
  symm := by intro a b; unfold natCmp; omega
  trans := by intro a b c; unfold natCmp; omega
  hash_eq := by intros; rfl

/-- A table of four buckets in which every number hashes to 0. -/
def collidingTable : HashT Nat :=
  { mSize := 4, mCount := 0, mHashFunc := fun _ => 0, mCmpFunc := natCmp, mTable := fun _ => [] }

/-- A run with one colliding pair, whose tail is removed before its head. -/
theorem hash_refines_finite_set_tail_first :
    collidingTable.stored = ∅ ∧
      Along hashStep Refines collidingTable
        [.insert (some 1), .insert (some 2), .remove (some 2), .remove (some 1), .loop] := by
  obtain ⟨hEmpty, hIff⟩ := hash_refines_finite_set_iff natCmp_equalityStyle
    (show hashCreate _ _ 4 = some collidingTable from rfl)
    [.insert (some 1), .insert (some 2), .remove (some 2), .remove (some 1), .loop]
  refine ⟨hEmpty, hIff.mpr ?_⟩
  refine ⟨trivial, fun _ _ h1 => ?_⟩; cases h1
  refine ⟨trivial, fun _ _ h2 => ?_⟩; cases h2
  refine ⟨?_, fun _ _ h3 => ?_⟩
  · intro first rest hChain hEq
    change [1, 2] = first :: rest at hChain
    cases hChain
    change natCmp 1 2 = 0 at hEq
    exact absurd hEq (by decide)
  cases h3
  refine ⟨?_, fun _ _ h4 => ?_⟩
  · intro first rest hChain _
    change [1] = first :: rest at hChain
    cases hChain
    rfl
  cases h4
  exact ⟨trivial, fun _ _ _ => trivial⟩

/-- Removing the head of a chain of two: the other element is not found any more, so the
run does not refine the finite set. -/
theorem hash_head_removal_loses_element :
    EqualityStyle (fun _ : Nat => (0 : UInt32)) natCmp ∧
      hashCreate (fun _ : Nat => 0) natCmp 4 = some collidingTable ∧
      (run hashStep collidingTable
        [.insert (some 1), .insert (some 2), .remove (some 1), .find (some 2)]).map Prod.fst =
        some [.status 0, .status 0, .data (some 1), .data none] ∧
      ¬ Along hashStep Refines collidingTable
        [.insert (some 1), .insert (some 2), .remove (some 1), .find (some 2)] := by
  refine ⟨natCmp_equalityStyle, rfl, rfl, ?_⟩
  intro hAlong
  obtain ⟨hW, -⟩ := hashCreate_wellFormed natCmp_equalityStyle
    (show hashCreate _ _ 4 = some collidingTable from rfl)
  have hThird := ((hAlong.tail rfl).tail rfl).head
  have hW₁ : WellFormed (hashInsert collidingTable (some 1)).2 := (hashInsert_refines hW 1).2
  have hW₂ := (hashInsert_refines hW₁ 2).2
  have hNo : [2] = [] := (hashOp_refines_iff hW₂ _).mp hThird 1 [2] rfl rfl
  cases hNo

end Gbase.Base.Hash
