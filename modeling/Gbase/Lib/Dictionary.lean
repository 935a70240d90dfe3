import Mathlib.Data.Set.Image

/-!
# A set of elements searched through an equivalence

What a container of elements is for: it holds a set `S` of elements, no two of them
equivalent, and is asked by an element for the equivalent one it holds.  The three
relations below say what one operation returns and which set it leaves; nothing here
depends on how the set is stored.

A container often holds the elements wrapped in something else, and compares what is
inside.  The last section carries the three relations over to the elements inside.
-/

namespace Gbase.Lib.Dictionary

universe u v

variable {α : Type u}

/-- `r` is the element of `S` equivalent to `k`, or nothing when `S` has none. -/
def Finds (eqv : α → α → Prop) (S : Set α) (k : α) (r : Option α) : Prop :=
  ∀ e, r = some e ↔ e ∈ S ∧ eqv e k

/-- Adding `d` succeeds exactly when no element of `S` is equivalent to it, and only
then changes the set. -/
def Inserts (eqv : α → α → Prop) (S : Set α) (d : α) (ok : Bool) (S' : Set α) : Prop :=
  (ok = true ↔ ¬ ∃ e ∈ S, eqv e d) ∧ S' = if ok then insert d S else S

/-- The element equivalent to `k` is returned and leaves the set; the others stay. -/
def Removes (eqv : α → α → Prop) (S : Set α) (k : α) (r : Option α) (S' : Set α) : Prop :=
  Finds eqv S k r ∧ S' = {e | e ∈ S ∧ ¬ eqv e k}

/-- `l` lists the elements of `S`, each once. -/
def Visits (S : Set α) (l : List α) : Prop :=
  l.Nodup ∧ ∀ e, e ∈ l ↔ e ∈ S

theorem finds_none {eqv : α → α → Prop} {S : Set α} {k : α}
    (h : ∀ e ∈ S, ¬ eqv e k) : Finds eqv S k none := by
  intro e
  constructor
  · intro he
    cases he
  · rintro ⟨hMem, hEq⟩
    exact absurd hEq (h e hMem)

theorem finds_some {eqv : α → α → Prop} {S : Set α} {k d : α} (hMem : d ∈ S) (hEq : eqv d k)
    (hUnique : ∀ e ∈ S, eqv e k → e = d) : Finds eqv S k (some d) := by
  intro e
  constructor
  · intro he
    cases he
    exact ⟨hMem, hEq⟩
  · rintro ⟨hMemE, hEqE⟩
    rw [hUnique e hMemE hEqE]

/-- Nothing equivalent to `k` is stored, and removing it leaves the set as it is. -/
theorem removes_none {eqv : α → α → Prop} {S : Set α} {k : α}
    (h : ∀ e ∈ S, ¬ eqv e k) : Removes eqv S k none S := by
  refine ⟨finds_none h, ?_⟩
  ext e
  exact ⟨fun he => ⟨he, h e he⟩, fun he => he.1⟩

theorem Finds.unique {eqv : α → α → Prop} {S : Set α} {k : α} {r r' : Option α}
    (h : Finds eqv S k r) (h' : Finds eqv S k r') : r = r' := by
  ext e
  exact (h e).trans (h' e).symm

/-! ## Wrapped elements -/

section Image

variable {β : Type v} {f : α → β} {eqv : β → β → Prop} {S S' : Set α} {k : α} {r : Option α}

theorem Finds.image (h : Finds (fun a b => eqv (f a) (f b)) S k r) :
    Finds eqv (f '' S) (f k) (r.map f) := by
  intro e
  constructor
  · intro he
    obtain ⟨a, ha, rfl⟩ := Option.map_eq_some_iff.mp he
    obtain ⟨hMem, hEq⟩ := (h a).mp ha
    exact ⟨⟨a, hMem, rfl⟩, hEq⟩
  · rintro ⟨⟨a, hMem, rfl⟩, hEq⟩
    rw [(h a).mpr ⟨hMem, hEq⟩]
    rfl

theorem Inserts.image {ok : Bool} (h : Inserts (fun a b => eqv (f a) (f b)) S k ok S') :
    Inserts eqv (f '' S) (f k) ok (f '' S') := by
  obtain ⟨hOk, rfl⟩ := h
  have hExists : (∃ e ∈ f '' S, eqv e (f k)) ↔ ∃ a ∈ S, eqv (f a) (f k) := Set.exists_mem_image
  refine ⟨hOk.trans (not_congr hExists.symm), ?_⟩
  cases ok with
  | true => exact Set.image_insert_eq
  | false => rfl

/-- Where no two wrapped elements hold the same one, a removal can be told from outside. -/
theorem removes_image_iff (hInj : Set.InjOn f S) (hSub : S' ⊆ S)
    (hFinds : Finds (fun a b => eqv (f a) (f b)) S k r) :
    Removes eqv (f '' S) (f k) (r.map f) (f '' S') ↔
      Removes (fun a b => eqv (f a) (f b)) S k r S' := by
  constructor
  · rintro ⟨-, hSet⟩
    refine ⟨hFinds, ?_⟩
    ext x
    constructor
    · intro hx
      have hImage : f x ∈ f '' S' := ⟨x, hx, rfl⟩
      rw [hSet] at hImage
      exact ⟨hSub hx, hImage.2⟩
    · rintro ⟨hx, hne⟩
      have hImage : f x ∈ f '' S' := by
        rw [hSet]
        exact ⟨⟨x, hx, rfl⟩, hne⟩
      obtain ⟨y, hy, hEq⟩ := hImage
      rwa [← hInj (hSub hy) hx hEq]
  · rintro ⟨-, rfl⟩
    refine ⟨hFinds.image, ?_⟩
    ext e
    constructor
    · rintro ⟨x, ⟨hx, hne⟩, rfl⟩
      exact ⟨⟨x, hx, rfl⟩, hne⟩
    · rintro ⟨⟨x, hx, rfl⟩, hne⟩
      exact ⟨x, ⟨hx, hne⟩, rfl⟩

end Image

end Gbase.Lib.Dictionary
