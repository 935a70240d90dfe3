import Gbase.Base.Hash
import Mathlib.Data.List.Find

/-!
# The key-value store (`base/kv.c`)

`kv.c` keeps pairs of a key and a value as the elements of a hash table.  It hands the
table the address of a `kv_node_t` when it inserts and the bare key when it searches, and
the table passes on whatever it was handed.  So the callbacks of the client, which are
declared on keys, are also called on nodes: to hash a new node, to compare the stored
nodes with it, and to compare the stored nodes with a key.  A data pointer is therefore
`Ptr`, and a callback is any function of it.

Allocation succeeds and the table pointer is not `NULL`; the address `MALLOC` returns is an
argument of `kv_insert`, since a callback that takes a node for a key can depend on it.

## Main results

* `kvStep_meets_iff`: where the callbacks answer for the nodes of one call as they do for
  the keys in them, the call is that of a map exactly when it is not an erasure that takes
  the first node of a longer chain.
* `kv_refines_map_iff`: the same over whole runs.
-/

namespace Gbase.Base.Kv

open Gbase.Lib.Comparator
open Gbase.Lib.Dictionary
open Gbase.Lib.Run
open Gbase.Base.Hash

universe u v

/-- `kv_node_t`; a `NULL` value is `none`. -/
structure KvNodeT (κ : Type u) (ν : Type v) where
  key : κ
  value : Option ν
  deriving DecidableEq

/-- What a `void*` given to the table points to: a key, or the node at an address. -/
inductive Ptr (κ : Type u) (ν : Type v) where
  | key (k : κ)
  | node (address : Nat) (node : KvNodeT κ ν)
  deriving DecidableEq

variable {κ : Type u} {ν : Type v}

/-- `kv_t` -/
abbrev KvT (κ : Type u) (ν : Type v) := HashT (Ptr κ ν)

/-- `kv_create` -/
def kvCreate (hash : Ptr κ ν → UInt32) (cmp : Ptr κ ν → Ptr κ ν → Int) (hintSize : Int) :
    Option (KvT κ ν) :=
  hashCreate hash cmp hintSize

/-- `kv_insert`: the new node is at `address`. -/
def kvInsert (kv : KvT κ ν) (address : Nat) (key : Option κ) (value : Option ν) :
    Int × KvT κ ν :=
  match key with
  | none => (-1, kv)
  | some key => hashInsert kv (some (.node address { key := key, value := value }))

/-- `node->value`, read from what the table gave back; only a node has it. -/
def Ptr.nodeValue : Ptr κ ν → Option (Option ν)
  | .key _ => none
  | .node _ n => some n.value

/-- `kv_find` -/
def kvFind (kv : KvT κ ν) : Option κ → Option (Option ν)
  | none => some none
  | some key =>
      match hashFind kv (some (.key key)) with
      | none => some none
      | some node => node.nodeValue

/-- `kv_erase` -/
def kvErase (kv : KvT κ ν) : Option κ → Option (Option ν × KvT κ ν)
  | none => some (none, kv)
  | some key =>
      match hashRemove kv (some (.key key)) with
      | (none, kv) => some (none, kv)
      | (some node, kv) => node.nodeValue.map fun value => (value, kv)

/-! ## Runs -/

inductive KvOp (κ : Type u) (ν : Type v) where
  | insert (address : Nat) (key : Option κ) (value : Option ν)
  | find (key : Option κ)
  | erase (key : Option κ)

inductive KvResult (ν : Type v) where
  | status (code : Int)
  | value (ptr : Option ν)
  deriving DecidableEq

def kvStep : Step (KvT κ ν) (KvOp κ ν) (KvResult ν)
  | kv, .insert address key value =>
      some (.status (kvInsert kv address key value).1, (kvInsert kv address key value).2)
  | kv, .find key => (kvFind kv key).map fun value => (.value value, kv)
  | kv, .erase key => (kvErase kv key).map fun r => (.value r.1, r.2)

/-! ## The map the store stands for -/

/-- The entry a pointer stands for; a bare key stands for a search. -/
def Ptr.entry : Ptr κ ν → KvNodeT κ ν
  | .key k => { key := k, value := none }
  | .node _ n => n

/-- The entries of the store: the insertions that succeeded and were not erased since. -/
def entries (kv : KvT κ ν) : Set (KvNodeT κ ν) := Ptr.entry '' kv.stored

/-- The comparator of the client calls the two keys equal. -/
def SameKey (cmp : Ptr κ ν → Ptr κ ν → Int) (a b : KvNodeT κ ν) : Prop :=
  cmp (.key a.key) (.key b.key) = 0

/-- What an operation does to a map from keys to values. -/
def MapStep (same : KvNodeT κ ν → KvNodeT κ ν → Prop) (S : Set (KvNodeT κ ν)) :
    KvOp κ ν → KvResult ν → Set (KvNodeT κ ν) → Prop
  | .insert _ none _, r, S' => r = .status (-1) ∧ S' = S
  | .insert _ (some k) v, r, S' =>
      ∃ ok, r = .status (if ok then 0 else -1) ∧ Inserts same S { key := k, value := v } ok S'
  | .find none, r, S' => r = .value none ∧ S' = S
  | .find (some k), r, S' =>
      ∃ p : Option (KvNodeT κ ν), r = .value (p.bind KvNodeT.value) ∧
        Finds same S { key := k, value := none } p ∧ S' = S
  | .erase none, r, S' => r = .value none ∧ S' = S
  | .erase (some k), r, S' =>
      ∃ p : Option (KvNodeT κ ν), r = .value (p.bind KvNodeT.value) ∧
        Removes same S { key := k, value := none } p S'

/-- One call of the store does what the same call of the map does, and an insertion that
fails leaves the store as it was. -/
def Meets (kv : KvT κ ν) (op : KvOp κ ν) : Prop :=
  Does kvStep
    (fun kv op r kv' =>
      MapStep (SameKey kv.mCmpFunc) (entries kv) op r (entries kv') ∧
        (r = .status (-1) → kv' = kv)) kv op

/-- On the calls `op` makes of them, the callbacks answer for a node as for its key. -/
def Sees (kv : KvT κ ν) : KvOp κ ν → Prop
  | .insert address (some k) v =>
      let node : Ptr κ ν := .node address { key := k, value := v }
      kv.index node = kv.index (.key k) ∧
        ∀ e ∈ kv.chain node,
          (kv.mCmpFunc e node = 0 ↔ kv.mCmpFunc (.key e.entry.key) (.key k) = 0)
  | .find (some k) | .erase (some k) =>
      ∀ e ∈ kv.chain (.key k),
        (kv.mCmpFunc e (.key k) = 0 ↔ kv.mCmpFunc (.key e.entry.key) (.key k) = 0)
  | _ => True

instance Sees.decidable (kv : KvT κ ν) : ∀ op, Decidable (Sees kv op)
  | .insert address (some k) v =>
      inferInstanceAs (Decidable
        (kv.index (.node address { key := k, value := v }) = kv.index (.key k) ∧
          ∀ e ∈ kv.chain (.node address { key := k, value := v }),
            (kv.mCmpFunc e (.node address { key := k, value := v }) = 0 ↔
              kv.mCmpFunc (.key e.entry.key) (.key k) = 0)))
  | .find (some k) | .erase (some k) =>
      inferInstanceAs (Decidable (∀ e ∈ kv.chain (.key k),
        (kv.mCmpFunc e (.key k) = 0 ↔ kv.mCmpFunc (.key e.entry.key) (.key k) = 0)))
  | .insert _ none _ | .find none | .erase none => isTrue trivial

/-- `kv_erase` does not take the first node away from the others of its chain. -/
def NoHeadErase (kv : KvT κ ν) : KvOp κ ν → Prop
  | .erase (some k) => NoHeadRemoval kv (.remove (some (.key k)))
  | _ => True

/-! ## A table under other callbacks -/

section Callbacks

variable {α : Type u}

/-- The same chains, hashed and compared by other functions. -/
def withCallbacks (hash : α → UInt32) (cmp : α → α → Int) (h : HashT α) : HashT α :=
  { h with mHashFunc := hash, mCmpFunc := cmp }

variable {hash : α → UInt32} {cmp : α → α → Int} {h : HashT α} {d : α}

theorem chain_withCallbacks (hIndex : (withCallbacks hash cmp h).index d = h.index d) :
    (withCallbacks hash cmp h).chain d = h.chain d := by
  rw [HashT.chain, hIndex]
  rfl

private theorem removeFrom_congr {cmp' : α → α → Int} {seen chain : List α}
    (hCmp : ∀ e ∈ chain, (cmp' e d = 0 ↔ cmp e d = 0)) :
    removeFrom cmp' d seen chain = removeFrom cmp d seen chain := by
  induction chain generalizing seen with
  | nil => rfl
  | cons node next ih =>
      have hNode : cmp' node d = 0 ↔ cmp node d = 0 := hCmp node List.mem_cons_self
      rw [removeFrom, removeFrom, ih fun e he => hCmp e (List.mem_cons_of_mem node he)]
      simp only [hNode]

variable (hIndex : (withCallbacks hash cmp h).index d = h.index d)
  (hCmp : ∀ e ∈ h.chain d, (h.mCmpFunc e d = 0 ↔ cmp e d = 0))

include hIndex hCmp

/-- Callbacks that give the same bucket and the same verdicts find the same element. -/
theorem hashFind_withCallbacks :
    hashFind (withCallbacks hash cmp h) (some d) = hashFind h (some d) := by
  rw [hashFind, hashFind, chain_withCallbacks hIndex]
  apply List.find?_congr
  intro e he
  exact decide_eq_decide.mpr (hCmp e he).symm

private theorem hashInsert_withCallbacks :
    hashInsert (withCallbacks hash cmp h) (some d) =
      ((hashInsert h (some d)).1, withCallbacks hash cmp (hashInsert h (some d)).2) := by
  have hAny : (h.chain d).any (fun e => cmp e d == 0) =
      (h.chain d).any (fun e => h.mCmpFunc e d == 0) := by
    rw [Bool.eq_iff_iff, List.any_eq_true, List.any_eq_true]
    refine exists_congr fun e => and_congr_right fun he => ?_
    rw [beq_iff_eq, beq_iff_eq]
    exact (hCmp e he).symm
  rw [hashInsert, hashInsert, chain_withCallbacks hIndex, hIndex]
  change (if (h.chain d).any (fun e => cmp e d == 0) then _ else _) = _
  rw [hAny]
  split <;> rfl

private theorem hashRemove_withCallbacks :
    hashRemove (withCallbacks hash cmp h) (some d) =
      ((hashRemove h (some d)).1, withCallbacks hash cmp (hashRemove h (some d)).2) := by
  have hRun : removeFrom cmp d [] (h.chain d) = removeFrom h.mCmpFunc d [] (h.chain d) :=
    removeFrom_congr fun e he => (hCmp e he).symm
  have hCallback : (withCallbacks hash cmp h).mCmpFunc = cmp := rfl
  rw [hashRemove, hashRemove, chain_withCallbacks hIndex, hIndex, hCallback, hRun]
  cases removeFrom h.mCmpFunc d [] (h.chain d) <;> rfl

end Callbacks

/-! ## The store as a table of keys -/

/-- The store with callbacks that look for the key in whatever they are given. -/
def keyed (kv : KvT κ ν) : KvT κ ν :=
  withCallbacks (fun p => kv.mHashFunc (.key p.entry.key))
    (fun a b => kv.mCmpFunc (.key a.entry.key) (.key b.entry.key)) kv

/-- What every store of a run looks like: only nodes are stored, and they lie where their
keys belong. -/
structure Coherent (kv : KvT κ ν) : Prop where
  wellFormed : WellFormed (keyed kv)
  nodes : ∀ p ∈ kv.stored, ∃ address n, p = Ptr.node address n

/-- How the table of keys compares two pointers. -/
def SameEntry (kv : KvT κ ν) (a b : Ptr κ ν) : Prop :=
  SameKey kv.mCmpFunc a.entry b.entry

section Coherent

variable {kv : KvT κ ν}

private theorem keyed_stored : (keyed kv).stored = kv.stored := rfl

private theorem keyed_chain_key (k : κ) : (keyed kv).chain (.key k) = kv.chain (.key k) := rfl

/-- Two stored pointers whose entries have one key are the same pointer. -/
theorem Coherent.eq_of_sameEntry (hC : Coherent kv) {a b : Ptr κ ν} (ha : a ∈ kv.stored)
    (hb : b ∈ kv.stored) (hSame : SameEntry kv a b) : a = b := by
  have hFinds := hashFind_refines hC.wellFormed b
  have hSelf : SameEntry kv b b := hC.wellFormed.lawful.refl b
  have hA := (hFinds a).mpr ⟨ha, hSame⟩
  have hB := (hFinds b).mpr ⟨hb, hSelf⟩
  rw [hA] at hB
  exact Option.some.inj hB

theorem Coherent.injOn (hC : Coherent kv) : Set.InjOn Ptr.entry kv.stored := by
  intro a ha b hb hEq
  apply hC.eq_of_sameEntry ha hb
  rw [SameEntry, hEq]
  exact hC.wellFormed.lawful.refl b

/-- The element the table of keys finds is a node of the store. -/
theorem Coherent.node_of_finds (hC : Coherent kv) {k : κ} {p : Ptr κ ν}
    (hFinds : Finds (SameEntry kv) kv.stored (.key k) (some p)) :
    p.nodeValue = some p.entry.value := by
  obtain ⟨hStored, -⟩ := (hFinds p).mp rfl
  obtain ⟨address, n, rfl⟩ := hC.nodes p hStored
  rfl

end Coherent

private theorem kvCreate_coherent {hash : Ptr κ ν → UInt32} {cmp : Ptr κ ν → Ptr κ ν → Int}
    (hLawful : EqualityStyle (fun k => hash (.key k)) (fun a b => cmp (.key a) (.key b)))
    {hintSize : Int} {kv : KvT κ ν} (hCreate : kvCreate hash cmp hintSize = some kv) :
    Coherent kv ∧ entries kv = ∅ := by
  have hKeys : EqualityStyle (fun p : Ptr κ ν => hash (.key p.entry.key))
      (fun a b => cmp (.key a.entry.key) (.key b.entry.key)) :=
    { refl := fun a => hLawful.refl a.entry.key
      symm := fun a b => hLawful.symm a.entry.key b.entry.key
      trans := fun a b c => hLawful.trans a.entry.key b.entry.key c.entry.key
      hash_eq := fun a b => hLawful.hash_eq a.entry.key b.entry.key }
  have hKeyed : hashCreate (fun p : Ptr κ ν => hash (.key p.entry.key))
      (fun a b => cmp (.key a.entry.key) (.key b.entry.key)) hintSize = some (keyed kv) := by
    unfold kvCreate hashCreate at hCreate
    unfold hashCreate
    split at hCreate
    · cases hCreate
    · cases hCreate
      rw [if_neg (by assumption)]
      rfl
  obtain ⟨hW, hEmpty, -, -⟩ := hashCreate_wellFormed hKeys hKeyed
  rw [keyed_stored] at hEmpty
  refine ⟨⟨hW, ?_⟩, ?_⟩
  · intro p hp
    rw [hEmpty] at hp
    cases hp
  · rw [entries, hEmpty]
    exact Set.image_empty _

/-! ## One call -/

section Calls

variable {kv : KvT κ ν}

/-- An operation leaves the callbacks alone, so looking for the key commutes with it. -/
theorem keyed_of_callbacks {kv' : KvT κ ν} (hHash : kv'.mHashFunc = kv.mHashFunc)
    (hCmp : kv'.mCmpFunc = kv.mCmpFunc) :
    withCallbacks (fun p => kv.mHashFunc (.key p.entry.key))
      (fun a b => kv.mCmpFunc (.key a.entry.key) (.key b.entry.key)) kv' = keyed kv' := by
  rw [keyed, hHash, hCmp]

private theorem hashInsert_keyed (d : Ptr κ ν) :
    withCallbacks (fun p => kv.mHashFunc (.key p.entry.key))
      (fun a b => kv.mCmpFunc (.key a.entry.key) (.key b.entry.key))
      (hashInsert kv (some d)).2 = keyed (hashInsert kv (some d)).2 := by
  apply keyed_of_callbacks
  · rw [hashInsert]
    split <;> rfl
  · rw [hashInsert]
    split <;> rfl

private theorem hashRemove_keyed (d : Ptr κ ν) :
    withCallbacks (fun p => kv.mHashFunc (.key p.entry.key))
      (fun a b => kv.mCmpFunc (.key a.entry.key) (.key b.entry.key))
      (hashRemove kv (some d)).2 = keyed (hashRemove kv (some d)).2 := by
  apply keyed_of_callbacks
  · rw [hashRemove]
    split <;> rfl
  · rw [hashRemove]
    split <;> rfl

/-- A call of the map for an insertion, and the store is coherent behind it. -/
theorem kvInsert_spec (hC : Coherent kv) {address : Nat} {k : κ} {v : Option ν}
    (hSees : Sees kv (.insert address (some k) v)) :
    (∃ ok : Bool, (kvInsert kv address (some k) v).1 = (if ok then 0 else -1) ∧
      Inserts (SameKey kv.mCmpFunc) (entries kv) { key := k, value := v } ok
        (entries (kvInsert kv address (some k) v).2)) ∧
      Coherent (kvInsert kv address (some k) v).2 := by
  obtain ⟨hIndex, hCmp⟩ := hSees
  have hRun : hashInsert (keyed kv) (some (.node address { key := k, value := v })) = _ :=
    hashInsert_withCallbacks hIndex.symm hCmp
  obtain ⟨⟨ok, hr, hInserts⟩, hW⟩ := hashInsert_refines hC.wellFormed
    (.node address { key := k, value := v })
  rw [hRun] at hr hInserts hW
  dsimp only at hr hInserts hW
  rw [hashInsert_keyed] at hInserts hW
  have hImage := @Inserts.image _ _ Ptr.entry (SameKey kv.mCmpFunc) _ _ _ _ hInserts
  refine ⟨⟨ok, HashResult.status.inj hr, hImage⟩, hW, ?_⟩
  intro p hp
  have hNew : p ∈ (if ok then insert (.node address { key := k, value := v }) kv.stored
      else kv.stored) := by
    rw [← keyed_stored, ← hInserts.2]
    exact hp
  split at hNew
  · rcases Set.mem_insert_iff.mp hNew with rfl | hOld
    · exact ⟨address, _, rfl⟩
    · exact hC.nodes p hOld
  · exact hC.nodes p hNew

/-- The node a search gives back holds what the map holds under the key. -/
theorem kvFind_spec (hC : Coherent kv) {k : κ} (hSees : Sees kv (.find (some k))) :
    ∃ p : Option (KvNodeT κ ν), kvFind kv (some k) = some (p.bind KvNodeT.value) ∧
      Finds (SameKey kv.mCmpFunc) (entries kv) { key := k, value := none } p := by
  have hRun : hashFind (keyed kv) (some (.key k)) = hashFind kv (some (.key k)) :=
    hashFind_withCallbacks rfl hSees
  have hFinds := hashFind_refines hC.wellFormed (.key k)
  rw [hRun] at hFinds
  have hImage := @Finds.image _ _ Ptr.entry (SameKey kv.mCmpFunc) _ _ _ hFinds
  refine ⟨(hashFind kv (some (.key k))).map Ptr.entry, ?_, hImage⟩
  cases hFound : hashFind kv (some (.key k)) with
  | none => simp [kvFind, hFound]
  | some p =>
      rw [hFound] at hFinds
      simp [kvFind, hFound, hC.node_of_finds hFinds]

/-- An erasure returns what the map holds under the key, whatever else it takes away. -/
theorem kvErase_spec (hC : Coherent kv) {k : κ} (hSees : Sees kv (.erase (some k))) :
    ∃ (p : Option (KvNodeT κ ν)) (kv' : KvT κ ν),
      kvErase kv (some k) = some (p.bind KvNodeT.value, kv') ∧
      Finds (SameKey kv.mCmpFunc) (entries kv) { key := k, value := none } p ∧
      (Removes (SameKey kv.mCmpFunc) (entries kv) { key := k, value := none } p (entries kv') ↔
        NoHeadErase kv (.erase (some k))) ∧ Coherent kv' := by
  have hRun : hashRemove (keyed kv) (some (.key k)) = _ := hashRemove_withCallbacks rfl hSees
  have hFinds := hashRemove_finds hC.wellFormed (.key k)
  have hIff := hashRemove_refines_iff hC.wellFormed (.key k)
  have hSub := hashRemove_subset hC.wellFormed (.key k)
  have hW := hashRemove_wellFormed hC.wellFormed (.key k)
  rw [hRun] at hFinds hIff hSub hW
  dsimp only at hFinds hIff hSub hW
  rw [hashRemove_keyed] at hW hSub hIff
  have hImage := @Finds.image _ _ Ptr.entry (SameKey kv.mCmpFunc) _ _ _ hFinds
  have hHead : NoHeadRemoval (keyed kv) (.remove (some (.key k))) ↔
      NoHeadErase kv (.erase (some k)) := by
    refine forall₃_congr fun first rest hChain => ?_
    have hMem : first ∈ kv.chain (.key k) := by
      rw [← keyed_chain_key, hChain]
      exact List.mem_cons_self
    exact imp_congr_left (hSees first hMem).symm
  refine ⟨(hashRemove kv (some (.key k))).1.map Ptr.entry, (hashRemove kv (some (.key k))).2,
    ?_, hImage, ?_, hW, ?_⟩
  · rw [kvErase]
    cases hOut : hashRemove kv (some (.key k)) with
    | mk r kv' =>
        cases r with
        | none => rfl
        | some p =>
            rw [hOut] at hFinds
            simp [hC.node_of_finds hFinds]
  · rw [← hHead, ← hIff]
    exact @removes_image_iff _ _ Ptr.entry (SameKey kv.mCmpFunc) _ _ _ _ hC.injOn hSub hFinds
  · intro p hp
    exact hC.nodes p (hSub hp)

/-- An insertion that reports a failure changed nothing. -/
theorem kvInsert_failed {address : Nat} {key : Option κ} {v : Option ν}
    (hFailed : (kvInsert kv address key v).1 = -1) : (kvInsert kv address key v).2 = kv := by
  cases key with
  | none => rfl
  | some k =>
      unfold kvInsert hashInsert at hFailed ⊢
      dsimp only at hFailed ⊢
      split at hFailed
      · rw [if_pos (by assumption)]
      · simp at hFailed

/-- Where the callbacks look through the nodes of one call, the call is that of a map exactly
when it does not erase the first node of a longer chain. -/
theorem kvStep_meets_iff (hC : Coherent kv) {op : KvOp κ ν} (hSees : Sees kv op) :
    Meets kv op ↔ NoHeadErase kv op := by
  cases op with
  | insert address key v =>
      refine iff_of_true ⟨_, _, rfl, ?_, ?_⟩ trivial
      · cases key with
        | none => exact ⟨rfl, rfl⟩
        | some k =>
            obtain ⟨⟨ok, hr, hInserts⟩, -⟩ := kvInsert_spec hC hSees
            exact ⟨ok, congrArg KvResult.status hr, hInserts⟩
      · intro hFailed
        exact kvInsert_failed (KvResult.status.inj hFailed)
  | find key =>
      cases key with
      | none => exact iff_of_true ⟨_, _, rfl, ⟨rfl, rfl⟩, fun _ => rfl⟩ trivial
      | some k =>
          obtain ⟨p, hRun, hFinds⟩ := kvFind_spec hC hSees
          refine iff_of_true ⟨_, kv, by simp [kvStep, hRun], ⟨p, rfl, hFinds, rfl⟩, ?_⟩ trivial
          exact fun _ => rfl
  | erase key =>
      cases key with
      | none => exact iff_of_true ⟨_, _, rfl, ⟨rfl, rfl⟩, fun _ => rfl⟩ trivial
      | some k =>
          obtain ⟨p, kv', hRun, hFinds, hIff, -⟩ := kvErase_spec hC hSees
          rw [← hIff]
          have hStep : kvStep kv (.erase (some k)) = some (.value (p.bind KvNodeT.value), kv') := by
            simp [kvStep, hRun]
          constructor
          · rintro ⟨r, t, hStep', ⟨q, -, hRemoves⟩, -⟩
            rw [hStep] at hStep'
            cases hStep'
            rwa [hFinds.unique hRemoves.1]
          · intro hRemoves
            exact ⟨_, _, hStep, ⟨p, rfl, hRemoves⟩, fun hr => by cases hr⟩

private theorem kvStep_coherent (hC : Coherent kv) {op : KvOp κ ν} (hSees : Sees kv op)
    {r : KvResult ν} {kv' : KvT κ ν} (hStep : kvStep kv op = some (r, kv')) : Coherent kv' := by
  cases op with
  | insert address key v =>
      cases hStep
      cases key with
      | none => exact hC
      | some k => exact (kvInsert_spec hC hSees).2
  | find key =>
      obtain ⟨value, -, hEq⟩ := Option.map_eq_some_iff.mp hStep
      cases hEq
      exact hC
  | erase key =>
      cases key with
      | none =>
          cases hStep
          exact hC
      | some k =>
          obtain ⟨p, kv₁, hRun, -, -, hC₁⟩ := kvErase_spec hC hSees
          simp only [kvStep, hRun, Option.map_some, Option.some.injEq, Prod.mk.injEq] at hStep
          rw [← hStep.2]
          exact hC₁

end Calls

/-! ## Whole runs -/

/-- A fresh store holds nothing.  In a run in which the callbacks look through the nodes they
are given, every call does what the map does if and only if no erasure takes the first node of
a longer chain. -/
theorem kv_refines_map_iff {hash : Ptr κ ν → UInt32} {cmp : Ptr κ ν → Ptr κ ν → Int}
    (hLawful : EqualityStyle (fun k => hash (.key k)) (fun a b => cmp (.key a) (.key b)))
    {hintSize : Int} {kv : KvT κ ν} (hCreate : kvCreate hash cmp hintSize = some kv)
    {ops : List (KvOp κ ν)} (hSees : Along kvStep Sees kv ops) :
    entries kv = ∅ ∧ (Along kvStep Meets kv ops ↔ Along kvStep NoHeadErase kv ops) := by
  obtain ⟨hC, hEmpty⟩ := kvCreate_coherent hLawful hCreate
  refine ⟨hEmpty, along_iff_of_inv Coherent ?_ ?_ hC hSees⟩
  · intro s op hInv hOp
    exact kvStep_meets_iff hInv hOp
  · intro s op r t hInv hOp _ hStep
    exact kvStep_coherent hInv hOp hStep

/-- Numbers as keys, by callbacks that take the key out of a node. -/
def lookingStore : KvT Nat Nat :=
  { mSize := 4, mCount := 0, mHashFunc := fun p => UInt32.ofNat p.entry.key,
    mCmpFunc := fun a b => natCmp a.entry.key b.entry.key, mTable := fun _ => [] }

private theorem natKeys_equalityStyle :
    EqualityStyle (fun k : Nat => UInt32.ofNat k) (fun a b => natCmp a b) where
  refl := by intro a; simp [natCmp]
  symm := by intro a b; unfold natCmp; omega
  trans := by intro a b c; unfold natCmp; omega
  hash_eq := by
    intro a b hEq
    have : a = b := by unfold natCmp at hEq; omega
    rw [this]

/-- A key inserted twice, found and erased. -/
theorem kv_refines_map_inserted_twice :
    entries lookingStore = ∅ ∧
      Along kvStep Meets lookingStore
        [.insert 100 (some 1) (some 10), .insert 200 (some 1) (some 11), .find (some 1),
          .erase (some 1), .find (some 1)] := by
  have hSees : Along kvStep Sees lookingStore
      [.insert 100 (some 1) (some 10), .insert 200 (some 1) (some 11), .find (some 1),
        .erase (some 1), .find (some 1)] := by decide
  obtain ⟨hEmpty, hIff⟩ := kv_refines_map_iff natKeys_equalityStyle
    (show kvCreate _ _ 4 = some lookingStore from rfl) hSees
  refine ⟨hEmpty, hIff.mpr ?_⟩
  refine ⟨trivial, fun _ _ h₁ => ?_⟩; cases h₁
  refine ⟨trivial, fun _ _ h₂ => ?_⟩; cases h₂
  refine ⟨trivial, fun _ _ h₃ => ?_⟩; cases h₃
  refine ⟨?_, fun _ _ h₄ => ?_⟩
  · intro first rest hChain _
    change [Ptr.node 100 ⟨1, some 10⟩] = first :: rest at hChain
    cases hChain
    rfl
  cases h₄
  exact ⟨trivial, fun _ _ _ => trivial⟩

/-- A callback on numbers reads the number its argument points to; in a node that is the
address of the key. -/
def numberAt : Ptr Nat Nat → Nat
  | .key k => k
  | .node _ _ => 4096

def plainStore : KvT Nat Nat :=
  { mSize := 4, mCount := 0, mHashFunc := fun p => UInt32.ofNat (numberAt p),
    mCmpFunc := fun a b => natCmp (numberAt a) (numberAt b), mTable := fun _ => [] }

/-- The node of key 1 lies in the bucket of what was read from the node: the key is inserted
and not found. -/
theorem kv_loses_inserted_key :
    EqualityStyle (fun k : Nat => UInt32.ofNat (numberAt (.key k)))
        (fun a b => natCmp (numberAt (.key a)) (numberAt (.key b))) ∧
      kvCreate (fun p => UInt32.ofNat (numberAt p))
        (fun a b => natCmp (numberAt a) (numberAt b)) 4 = some plainStore ∧
      (run kvStep plainStore [.insert 100 (some 1) (some 10), .find (some 1)]).map Prod.fst =
        some [.status 0, .value none] ∧
      ¬ Along kvStep Meets plainStore [.insert 100 (some 1) (some 10), .find (some 1)] := by
  refine ⟨natKeys_equalityStyle, rfl, rfl, ?_⟩
  intro hAlong
  obtain ⟨r, kv', hStep, ⟨p, hr, hFinds, -⟩, -⟩ := (hAlong.tail rfl).head
  have hEntry : (⟨1, some 10⟩ : KvNodeT Nat Nat) ∈
      entries (kvInsert plainStore 100 (some 1) (some 10)).2 :=
    ⟨.node 100 ⟨1, some 10⟩, ⟨0, by decide, by decide⟩, rfl⟩
  have hFound := (hFinds _).mpr ⟨hEntry, rfl⟩
  subst hFound
  obtain ⟨hr', -⟩ := Prod.mk.inj (Option.some.inj hStep)
  have hNone : (none : Option Nat) = some 10 := KvResult.value.inj (hr'.trans hr)
  cases hNone

end Gbase.Base.Kv
