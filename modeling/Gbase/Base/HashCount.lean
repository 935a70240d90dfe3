import Gbase.Base.Hash

/-!
# The counter of the hash table

`m_count` goes up by one with every inserted node and down by one with every removed element,
while the chains can lose more than one node at a time: `hash_remove` drops what follows the
head of a chain with it, and `hash_clean` drops everything and leaves the counter alone.

Whether the counter is right is a question about one number and all chains at once.  Here it is
answered per call, by what the call leaves in its own chain, and the runs follow by induction.

## Main results

* `hashStep_count_iff`: one operation keeps the counter exact if and only if it does neither.
* `hash_count_iff`: the same over whole runs.
-/

namespace Gbase.Base.Hash

open Gbase.Lib.Comparator
open Gbase.Lib.Run

universe u

variable {α : Type u}

/-- `hash_count` gives the number of elements `hash_loop` visits. -/
def CountExact (htable : HashT α) : Prop := hashCount htable = (hashLoop htable).length

instance (htable : HashT α) : Decidable (CountExact htable) :=
  inferInstanceAs (Decidable (_ = _))

/-- What an operation needs to keep the counter exact: `hash_remove` does not hit the head of
a longer chain, and `hash_clean` finds all chains empty. -/
def KeepsCount (htable : HashT α) : HashOp α → Prop
  | .clean => ∀ i < htable.mSize, htable.mTable i = []
  | op => NoHeadRemoval htable op

instance (htable : HashT α) : (op : HashOp α) → Decidable (NoHeadRemoval htable op)
  | .remove (some d) =>
      decidable_of_iff (∀ first ∈ (htable.chain d).head?, htable.mCmpFunc first d = 0 →
          (htable.chain d).tail.length = 0) (by
        cases hChain : htable.chain d <;> simp [NoHeadRemoval, hChain])
  | .remove none => isTrue trivial
  | .insert _ => isTrue trivial
  | .find _ => isTrue trivial
  | .clean => isTrue trivial
  | .loop => isTrue trivial

instance (htable : HashT α) : (op : HashOp α) → Decidable (KeepsCount htable op)
  | .clean =>
      decidable_of_iff (∀ i < htable.mSize, (htable.mTable i).length = 0) (by
        simp [KeepsCount, List.length_eq_zero_iff])
  | .remove data => inferInstanceAs (Decidable (NoHeadRemoval htable (.remove data)))
  | .insert _ => isTrue trivial
  | .find _ => isTrue trivial
  | .loop => isTrue trivial

/-! ## Replacing one chain -/

/-- The lengths of the first `n` chains together, when one of them is replaced. -/
theorem length_flatMap_replace (table : Nat → List α) (chain : List α) {index n : Nat}
    (hIndex : index < n) :
    ((List.range n).flatMap fun i => if i = index then chain else table i).length +
        (table index).length =
      ((List.range n).flatMap table).length + chain.length := by
  induction n with
  | zero => exact absurd hIndex (Nat.not_lt_zero index)
  | succ n ih =>
      simp only [List.range_succ, List.flatMap_append, List.length_append, List.flatMap_singleton]
      by_cases hLast : index = n
      · subst hLast
        have hBefore : (List.range index).flatMap (fun i => if i = index then chain else table i) =
            (List.range index).flatMap table := by
          apply List.flatMap_congr
          intro i hi
          rw [if_neg (Nat.ne_of_lt (List.mem_range.mp hi))]
        rw [hBefore, if_pos rfl]
        omega
      · have hRest := ih (by omega)
        rw [if_neg (Ne.symm hLast)]
        omega

theorem length_hashLoop_setTable {htable : HashT α} {index : Nat} (hIndex : index < htable.mSize)
    (chain : List α) (count : Int) :
    (hashLoop { htable.setTable index chain with mCount := count }).length +
        (htable.mTable index).length =
      (hashLoop htable).length + chain.length :=
  length_flatMap_replace htable.mTable chain hIndex

/-- No element is visited exactly when all chains are empty. -/
theorem hashLoop_eq_nil_iff (htable : HashT α) :
    hashLoop htable = [] ↔ ∀ i < htable.mSize, htable.mTable i = [] := by
  simp [hashLoop, List.flatMap_eq_nil_iff]

/-! ## The operations -/

section Operations

variable {htable : HashT α}

theorem index_lt (hSize : 0 < htable.mSize) (data : α) : htable.index data < htable.mSize :=
  Nat.mod_lt _ hSize

private theorem hashInsert_countExact (hSize : 0 < htable.mSize) (hExact : CountExact htable)
    (data : Option α) : CountExact (hashInsert htable data).2 := by
  cases data with
  | none => exact hExact
  | some d =>
      simp only [hashInsert]
      split
      · exact hExact
      · have hLength := length_hashLoop_setTable (index_lt hSize d) (htable.chain d ++ [d])
          (htable.mCount + 1)
        unfold CountExact hashCount at *
        rw [List.length_append, List.length_singleton] at hLength
        change _ + (htable.chain d).length = _ at hLength
        change htable.mCount + 1 = ((hashLoop { htable.setTable (htable.index d)
          (htable.chain d ++ [d]) with mCount := htable.mCount + 1 }).length : Int)
        omega

/-- `hash_remove` takes one off the counter, which is right for the chain exactly when the
removed node was not the head of a longer one. -/
theorem hashRemove_countExact_iff (hSize : 0 < htable.mSize) (hExact : CountExact htable)
    (data : Option α) :
    CountExact (hashRemove htable data).2 ↔ NoHeadRemoval htable (.remove data) := by
  cases data with
  | none => exact iff_of_true hExact trivial
  | some d =>
      rcases chain_split htable.mCmpFunc d (htable.chain d) with
        hNone | ⟨before, e, after, hChain, hBefore, hEq⟩
      · rw [hashRemove_absent hNone]
        refine iff_of_true hExact ?_
        intro first rest hChain hFirst
        exact absurd hFirst (hNone first (by rw [hChain]; exact List.mem_cons_self))
      · rw [hashRemove_present hChain hBefore hEq]
        have hLength := length_hashLoop_setTable (index_lt hSize d)
          (if before = [] then [] else before ++ after) (htable.mCount - 1)
        change _ + (htable.chain d).length = _ at hLength
        rw [hChain] at hLength
        unfold CountExact hashCount at *
        change htable.mCount - 1 = _ ↔ _
        cases before with
        | nil =>
            simp only [if_true, List.nil_append, List.length_cons, List.length_nil] at hLength ⊢
            constructor
            · intro hCount first rest hSplit hFirst
              rw [hChain, List.nil_append] at hSplit
              obtain ⟨-, rfl⟩ := List.cons.inj hSplit
              exact List.eq_nil_of_length_eq_zero (by omega)
            · intro hNot
              rw [hNot e after hChain hEq, List.length_nil] at hLength
              omega
        | cons first before =>
            simp only [reduceCtorEq, if_false, List.length_append, List.length_cons] at hLength ⊢
            refine iff_of_true (by omega) ?_
            intro head rest hSplit hHead
            rw [hChain, List.cons_append] at hSplit
            obtain ⟨rfl, -⟩ := List.cons.inj hSplit
            exact absurd hHead (hBefore first List.mem_cons_self)

private theorem hashClean_countExact_iff (hExact : CountExact htable) :
    CountExact (hashClean htable).2 ↔ KeepsCount htable .clean := by
  have hEmpty : hashLoop (hashClean htable).2 = [] := by
    rw [hashLoop_eq_nil_iff]
    intro i hi
    exact if_pos hi
  unfold CountExact at *
  rw [hEmpty, KeepsCount, ← hashLoop_eq_nil_iff, ← List.length_eq_zero_iff]
  change htable.mCount = _ ↔ _
  unfold hashCount at hExact
  rw [hExact, List.length_nil]
  omega

theorem hashStep_count_iff (hSize : 0 < htable.mSize) (hExact : CountExact htable)
    (op : HashOp α) :
    Does hashStep (fun _ _ _ h' => CountExact h') htable op ↔ KeepsCount htable op := by
  have hStep : ∀ {r : HashResult α} {h' : HashT α}, hashStep htable op = some (r, h') →
      (Does hashStep (fun _ _ _ h' => CountExact h') htable op ↔ CountExact h') := by
    intro r h' hRun
    exact does_iff hRun
  cases op with
  | insert data =>
      exact (hStep rfl).trans (iff_of_true (hashInsert_countExact hSize hExact data) trivial)
  | remove data => exact (hStep rfl).trans (hashRemove_countExact_iff hSize hExact data)
  | find data => exact (hStep rfl).trans (iff_of_true hExact trivial)
  | clean => exact (hStep rfl).trans (hashClean_countExact_iff hExact)
  | loop => exact (hStep rfl).trans (iff_of_true hExact trivial)

/-- No operation changes the number of buckets. -/
theorem hashStep_mSize {op : HashOp α} {r : HashResult α} {h' : HashT α}
    (hRun : hashStep htable op = some (r, h')) : h'.mSize = htable.mSize := by
  cases op with
  | insert data =>
      cases hRun
      cases data with
      | none => rfl
      | some d =>
          simp only [hashInsert]
          split <;> rfl
  | remove data =>
      cases hRun
      cases data with
      | none => rfl
      | some d =>
          simp only [hashRemove]
          split <;> rfl
  | find data => cases hRun; rfl
  | clean => cases hRun; rfl
  | loop => cases hRun; rfl

end Operations

/-! ## Runs -/

theorem hashCreate_countExact {hash : α → UInt32} {cmp : α → α → Int} {hintSize : Int}
    {h : HashT α} (hCreate : hashCreate hash cmp hintSize = some h) :
    0 < h.mSize ∧ CountExact h := by
  unfold hashCreate at hCreate
  split at hCreate
  · cases hCreate
  · cases hCreate
    refine ⟨by simp only; omega, ?_⟩
    have hEmpty : hashLoop
        { mSize := hintSize.toNat, mCount := 0, mHashFunc := hash, mCmpFunc := cmp,
          mTable := fun _ => [] } = [] := by
      rw [hashLoop_eq_nil_iff]
      intro i _
      rfl
    rw [CountExact, hEmpty]
    rfl

/-- Along every run of a table, `hash_count` is the number of elements `hash_loop` visits after
every operation if and only if the run removes no head of a longer chain and cleans empty
tables only. -/
theorem hash_count_iff {hash : α → UInt32} {cmp : α → α → Int} {hintSize : Int} {h : HashT α}
    (hCreate : hashCreate hash cmp hintSize = some h) (ops : List (HashOp α)) :
    Along hashStep (Does hashStep fun _ _ _ h' => CountExact h') h ops ↔
      Along hashStep KeepsCount h ops := by
  refine along_iff_of_inv (fun h => 0 < h.mSize ∧ CountExact h)
    ?_ ?_ (hashCreate_countExact hCreate) (along_true h ops)
  · rintro h op ⟨hSize, hExact⟩ -
    exact hashStep_count_iff hSize hExact op
  · rintro h op r h' ⟨hSize, -⟩ - hDoes hRun
    rw [hashStep_mSize hRun]
    exact ⟨hSize, (does_iff hRun).mp hDoes⟩

/-- A run that cleans an empty table and removes the elements of a chain from its end. -/
theorem hash_count_tail_first :
    Along hashStep (Does hashStep fun _ _ _ h' => CountExact h') collidingTable
      [.clean, .insert (some 1), .insert (some 2), .insert (some 1), .remove (some 2),
        .remove (some 1), .clean, .loop] :=
  (hash_count_iff (show hashCreate _ _ 4 = some collidingTable from rfl) _).mpr (by decide)

/-- After cleaning, the counter still counts what is gone; and a removed head takes the
elements behind it along. -/
theorem hash_count_drifts :
    hashCreate (fun _ => 0) natCmp 4 = some collidingTable ∧
      ((run hashStep collidingTable [.insert (some 1), .clean]).map fun r =>
          (hashCount r.2, (hashLoop r.2).length)) = some (1, 0) ∧
      ((run hashStep collidingTable [.insert (some 1), .insert (some 2), .remove (some 1)]).map
          fun r => (hashCount r.2, (hashLoop r.2).length)) = some (1, 0) ∧
      ¬ Along hashStep (Does hashStep fun _ _ _ h' => CountExact h') collidingTable
        [.insert (some 1), .clean] ∧
      ¬ Along hashStep (Does hashStep fun _ _ _ h' => CountExact h') collidingTable
        [.insert (some 1), .insert (some 2), .remove (some 1)] := by
  refine ⟨rfl, by decide, by decide, ?_, ?_⟩
  · intro hAlong
    obtain ⟨_, _, hExact⟩ := last_of_along hAlong rfl
    exact absurd hExact (by decide)
  · intro hAlong
    obtain ⟨_, _, hExact⟩ := last_of_along hAlong rfl
    exact absurd hExact (by decide)

end Gbase.Base.Hash
