import Gbase.Base.Skiplist
import Gbase.Lib.Lanes
import Gbase.Lib.Linked
import Gbase.Lib.Store

/-!
# Skiplists in memory

How the nodes of `base/skiplist.c` lie in memory: `Repr sl ts` says that the nodes of the list are
the towers `ts`, and that on every level those of this level and above are linked one behind the
other, each with the distance from the one before it.

## Main results

* `skiplistInsertNode_spec`, `skiplistEraseNode_spec`, `setSpan_spec`: what the accesses of one
  level do to its chain; the other levels are as before.
* `walk_spec`, `descend_spec`: where the loops along a level and down the levels end.
-/

namespace Gbase.Base.Skiplist

open Gbase.Lib.Lanes
open Gbase.Lib.Linked
open Gbase.Lib.Store

variable {α : Type}

/-- A node with its address. -/
structure Tower (α : Type) where
  addr : Nat
  level : Nat
  data : α

/-- The links of a level. -/
def SkiplistT.links (sl : SkiplistT α) (i a : Nat) : LinkT :=
  match sl.mem a with
  | none => emptyLink
  | some n => n.link i

/-- What the nodes are apart from their links. -/
def SkiplistT.record (sl : SkiplistT α) (a : Nat) : Option (Nat × Option α) :=
  (sl.mem a).map fun n => (n.level, n.data)

/-- The chain of a level behind `p`. -/
def Lane (sl : SkiplistT α) (i p : Nat) (cs : List (Nat × Int)) : Prop :=
  Chain (fun a => (sl.links i a).next) (fun a => (sl.links i a).prev)
    (fun a => (sl.links i a).span) p cs

/-- The addresses and spans of a level, `g` elements behind one of its nodes. -/
def cells (i g : Nat) (ts : List (Tower α)) : List (Nat × Int) :=
  (lane Tower.level i g ts).map fun c => (c.1.addr, (c.2 : Int))

/-- A number is added to the first span. -/
def bump (k : Int) : List (Nat × Int) → List (Nat × Int)
  | [] => []
  | (a, v) :: cs => (a, v + k) :: cs

/-- The address of the last tower, if there is one. -/
def lastAddr : Nat → List (Tower α) → Nat
  | p, [] => p
  | _, t :: ts => lastAddr t.addr ts

/-- The record of a tower. -/
def Tower.record (t : Tower α) : Nat × Nat × Option α := (t.addr, t.level, some t.data)

/-- The nodes in memory are the head and the towers. -/
def Recorded (sl : SkiplistT α) (ts : List (Tower α)) : Prop :=
  Holds sl.record ↑((sl.head, 0, none) :: ts.map Tower.record)

/-- The skiplist consists of the towers. -/
structure Repr (sl : SkiplistT α) (ts : List (Tower α)) : Prop where
  recorded : Recorded sl ts
  low : ∀ t, t ∈ ts → t.level < maxSkiplistLevel
  lanes : ∀ i, i < maxSkiplistLevel → Lane sl i sl.head (cells i 0 ts)

/-! ## Chains of levels -/

section

variable {i g k p : Nat} {t : Tower α} {ts us : List (Tower α)} {cs ds : List (Nat × Int)}

@[simp] theorem cells_nil : cells i g ([] : List (Tower α)) = [] := rfl

theorem cells_append : cells i g (ts ++ us) =
    cells i g ts ++ cells i (gap Tower.level i g ts) us := by
  rw [cells, lane_append, List.map_append]
  rfl

theorem cells_at (ht : i ≤ t.level) : cells i 0 (us ++ t :: ts) =
    cells i 0 us ++ (t.addr, (gap Tower.level i 0 us : Int) + 1) :: cells i 0 ts := by
  rw [cells, lane_at ht, List.map_append, List.map_cons, Int.natCast_add, Int.natCast_one]
  rfl

/-- Behind a gap only the first span is different. -/
theorem cells_gap : cells i (g + k) ts = bump k (cells i g ts) := by
  rw [cells, lane_gap, cells]
  cases lane Tower.level i g ts with
  | nil => rfl
  | cons c cs =>
      rw [shift, List.map_cons, List.map_cons, bump, Int.natCast_add]

theorem cells_low (h : Low Tower.level i ts) : cells i g ts = [] := by
  rw [cells, h.lane_eq]
  rfl

theorem cells_first (hLow : Low Tower.level i us) (ht : i ≤ t.level) :
    cells i g (us ++ t :: ts) = (t.addr, (g + us.length + 1 : Int)) :: cells i 0 ts := by
  rw [cells, lane_first hLow ht, List.map_cons]
  simp only [Int.natCast_add, Int.natCast_one]
  rfl

/-- The addresses of a level. -/
theorem cells_addrs : (cells i g ts).map Prod.fst =
    (ts.filter fun t => i ≤ t.level).map Tower.addr := by
  rw [cells, List.map_map, ← lane_map_fst, List.map_map]
  rfl

theorem cells_sublist : ((cells i g ts).map Prod.fst).Sublist (ts.map Tower.addr) := by
  rw [cells_addrs]
  exact List.filter_sublist.map Tower.addr

@[simp] theorem bump_addrs (k : Int) : (bump k cs).map Prod.fst = cs.map Prod.fst := by
  cases cs <;> rfl

theorem bump_addrs_head (k : Int) :
    (bump k cs).head?.map Prod.fst = cs.head?.map Prod.fst := by
  cases cs <;> rfl

@[simp] theorem bump_bump (j k : Int) : bump j (bump k cs) = bump (k + j) cs := by
  cases cs with
  | nil => rfl
  | cons c cs => exact congrArg (fun v => (c.1, v) :: cs) (Int.add_assoc c.2 k j)

@[simp] theorem bump_zero : bump 0 cs = cs := by
  cases cs with
  | nil => rfl
  | cons c cs => exact congrArg (fun v => (c.1, v) :: cs) (Int.add_zero c.2)

@[simp] theorem lastAddr_nil : lastAddr p ([] : List (Tower α)) = p := rfl

@[simp] theorem lastAddr_append : lastAddr p (ts ++ us) = lastAddr (lastAddr p ts) us := by
  induction ts generalizing p with
  | nil => rfl
  | cons t ts ih => exact ih

/-- Where a level goes on behind some towers that end in it. -/
theorem last_cells (h : Ends Tower.level i ts) : last p (cells i 0 ts) = lastAddr p ts := by
  rcases h with rfl | ⟨us, t, rfl, ht⟩
  · rfl
  · rw [cells_at ht, last_append, lastAddr_append]
    rfl

end

/-! ## Accesses -/

/-- Nothing changes but links of one level. -/
structure Frame (i : Nat) (sl sl' : SkiplistT α) : Prop where
  head : sl'.head = sl.head
  random : sl'.random = sl.random
  record : sl'.record = sl.record
  others : ∀ j, j ≠ i → sl'.links j = sl.links j

section

variable {i j a b p : Nat} {sl sl' sl'' : SkiplistT α} {f : LinkT → LinkT} {v : Int}
  {cs ds : List (Nat × Int)}

theorem Frame.refl (i : Nat) (sl : SkiplistT α) : Frame i sl sl where
  head := rfl
  random := rfl
  record := rfl
  others := fun _ _ => rfl

theorem Frame.trans (h : Frame i sl sl') (h' : Frame i sl' sl'') : Frame i sl sl'' where
  head := h'.head.trans h.head
  random := h'.random.trans h.random
  record := h'.record.trans h.record
  others := fun j hj => (h'.others j hj).trans (h.others j hj)

/-- The chains of the other levels are as before. -/
theorem Frame.lane (h : Frame i sl sl') (hj : j ≠ i) (hLane : Lane sl j p cs) :
    Lane sl' j p cs := by
  rw [Lane, h.others j hj]
  exact hLane

theorem Frame.recorded (h : Frame i sl sl') {ts : List (Tower α)} (hRecorded : Recorded sl ts) :
    Recorded sl' ts := by
  rw [Recorded, h.record, h.head]
  exact hRecorded

private theorem exists_node (hUse : (sl.record a).isSome) : ∃ n, sl.mem a = some n := by
  cases hNode : sl.mem a with
  | none => simp [SkiplistT.record, hNode] at hUse
  | some n => exact ⟨n, rfl⟩

theorem link_eq (hUse : (sl.record a).isSome) (hi : i < maxSkiplistLevel) :
    sl.link a i = some (sl.links i a) := by
  obtain ⟨n, hNode⟩ := exists_node hUse
  simp only [SkiplistT.link, SkiplistT.links, hNode, Option.bind_eq_bind, Option.bind_some,
    if_pos hi]
  rfl

/-- A link is changed, and nothing else. -/
theorem setLink_eq (hUse : (sl.record a).isSome) (hi : i < maxSkiplistLevel) :
    ∃ sl', sl.setLink a i f = some sl' ∧ Frame i sl sl' ∧
      ∀ b, sl'.links i b = if b = a then f (sl.links i a) else sl.links i b := by
  obtain ⟨n, hNode⟩ := exists_node hUse
  let n' : NodeT α := { n with link := Function.update n.link i (f (n.link i)) }
  let sl' : SkiplistT α := { sl with mem := Function.update sl.mem a (some n') }
  have hSet : sl.setLink a i f = some sl' := by
    simp only [SkiplistT.setLink, hNode, Option.bind_eq_bind, Option.bind_some, if_pos hi]
    rfl
  refine ⟨sl', hSet, ⟨rfl, rfl, ?_, ?_⟩, ?_⟩
  · funext b
    by_cases hba : b = a
    · subst hba
      simp [SkiplistT.record, sl', n', hNode]
    · simp [SkiplistT.record, sl', hba]
  · intro j hj
    funext b
    by_cases hba : b = a
    · subst hba
      simp [SkiplistT.links, sl', n', hNode, hj]
    · simp [SkiplistT.links, sl', hba]
  · intro b
    by_cases hba : b = a
    · subst hba
      simp [SkiplistT.links, sl', n', hNode]
    · simp [SkiplistT.links, sl', hba]

/-- A node is linked in. -/
theorem skiplistInsertNode_spec (hi : i < maxSkiplistLevel)
    (hUse : ∀ b, b ∈ p :: (cs ++ ds).map Prod.fst → (sl.record b).isSome)
    (hNode : (sl.record a).isSome) (hNodup : (p :: (cs ++ ds).map Prod.fst).Nodup)
    (hNew : a ∉ p :: (cs ++ ds).map Prod.fst) (hLane : Lane sl i p (cs ++ ds)) :
    ∃ sl', skiplistInsertNode sl (last p cs) a i = some sl' ∧ Frame i sl sl' ∧
      Lane sl' i p (cs ++ (a, (sl.links i a).span) :: ds) := by
  have hLastIn : last p cs ∈ p :: (cs ++ ds).map Prod.fst := by
    rw [List.map_append, ← List.cons_append]
    exact List.mem_append_left _ last_mem
  have hLast : last p cs ≠ a := fun hEq => hNew (hEq ▸ hLastIn)
  have hNextIn : ∀ b, (sl.links i (last p cs)).next = some b →
      b ∈ p :: (cs ++ ds).map Prod.fst := by
    intro b hb
    have hHead := hLane.behind.next_eq
    rw [hb] at hHead
    cases ds with
    | nil => cases hHead
    | cons d ds =>
        cases hHead
        simp
  obtain ⟨sl₁, hSet₁, hFrame₁, hLinks₁⟩ := @setLink_eq _ i (last p cs) sl
    (fun l => { l with next := some a }) (hUse _ hLastIn) hi
  obtain ⟨sl₂, hSet₂, hFrame₂, hLinks₂⟩ := @setLink_eq _ i a sl₁
    (fun l => { l with prev := some (last p cs) }) (by rwa [hFrame₁.record]) hi
  obtain ⟨sl₃, hSet₃, hFrame₃, hLinks₃⟩ := @setLink_eq _ i a sl₂
    (fun l => { l with next := (sl.links i (last p cs)).next })
    (by rwa [hFrame₂.record, hFrame₁.record]) hi
  have hFrame := (hFrame₁.trans hFrame₂).trans hFrame₃
  -- the links at the end, whether there is a next node or not
  obtain ⟨sl', hRun, hFrame', hNext, hPrev, hSpan⟩ : ∃ sl',
      skiplistInsertNode sl (last p cs) a i = some sl' ∧ Frame i sl sl' ∧
      (∀ c, (sl'.links i c).next =
        if c = last p cs then some a
        else if c = a then (sl.links i (last p cs)).next else (sl.links i c).next) ∧
      (∀ c, (sl'.links i c).prev =
        if c = a then some (last p cs)
        else if (sl.links i (last p cs)).next = some c then some a else (sl.links i c).prev) ∧
      ∀ c, (sl'.links i c).span = (sl.links i c).span := by
    simp only [skiplistInsertNode, link_eq (hUse _ hLastIn) hi, hSet₁, hSet₂, hSet₃,
      Option.bind_eq_bind, Option.bind_some]
    cases hPoints : (sl.links i (last p cs)).next with
    | none =>
        refine ⟨sl₃, rfl, hFrame, fun c => ?_, fun c => ?_, fun c => ?_⟩
        all_goals
          rw [hPoints] at hLinks₃
          rw [hLinks₃ c, hLinks₂ a, hLinks₂ c, hLinks₁ a, hLinks₁ c]
          grind
    | some b =>
        have hba : b ≠ a := fun hEq => hNew (hEq ▸ hNextIn b hPoints)
        obtain ⟨sl₄, hSet₄, hFrame₄, hLinks₄⟩ := @setLink_eq _ i b sl₃
          (fun l => { l with prev := some a })
          (by rw [hFrame.record]; exact hUse b (hNextIn b hPoints)) hi
        refine ⟨sl₄, hSet₄, hFrame.trans hFrame₄, fun c => ?_, fun c => ?_, fun c => ?_⟩
        all_goals
          rw [hPoints] at hLinks₃
          rw [hLinks₄ c, hLinks₃ b, hLinks₃ c, hLinks₂ a, hLinks₂ b, hLinks₂ c, hLinks₁ a,
            hLinks₁ b, hLinks₁ c]
          grind
  refine ⟨sl', hRun, hFrame', ?_⟩
  rw [← hSpan a]
  apply hLane.insert hNodup hNew
  · exact (hNext _).trans (if_pos rfl)
  · exact (hNext a).trans ((if_neg hLast.symm).trans (if_pos rfl))
  · exact fun b hbl hba => (hNext b).trans ((if_neg hbl).trans (if_neg hba))
  · exact (hPrev a).trans (if_pos rfl)
  · intro b hb
    have hba : b ≠ a := fun hEq => hNew (hEq ▸ hNextIn b hb)
    exact (hPrev b).trans ((if_neg hba).trans (if_pos hb))
  · exact fun b hba hb => (hPrev b).trans ((if_neg hba).trans (if_neg hb))
  · exact fun b hba => hSpan b

/-- A span is changed. -/
theorem setSpan_spec (hi : i < maxSkiplistLevel) (hUse : (sl.record a).isSome)
    (hNodup : (p :: (cs ++ (a, v) :: ds).map Prod.fst).Nodup) {w : Int}
    (hf : f (sl.links i a) = { sl.links i a with span := w })
    (hLane : Lane sl i p (cs ++ (a, v) :: ds)) :
    ∃ sl', sl.setLink a i f = some sl' ∧ Frame i sl sl' ∧ Lane sl' i p (cs ++ (a, w) :: ds) := by
  obtain ⟨sl', hSet, hFrame, hLinks⟩ := @setLink_eq _ i a sl f hUse hi
  rw [hf] at hLinks
  refine ⟨sl', hSet, hFrame, ?_⟩
  have hNext : (fun b => (sl'.links i b).next) = fun b => (sl.links i b).next := by
    funext b
    rw [hLinks b]
    grind
  have hPrev : (fun b => (sl'.links i b).prev) = fun b => (sl.links i b).prev := by
    funext b
    rw [hLinks b]
    grind
  rw [Lane, hNext, hPrev]
  apply hLane.setVal hNodup
  · rw [hLinks a, if_pos rfl]
  · exact fun b hba => by rw [hLinks b, if_neg hba]

/-- The span of the next node, if there is one, is changed. -/
theorem bumpNext_spec (hi : i < maxSkiplistLevel)
    (hUse : ∀ b, b ∈ ds.map Prod.fst → (sl.record b).isSome)
    (hNodup : (p :: (cs ++ ds).map Prod.fst).Nodup) {k : Int}
    (hf : ∀ l, f l = { l with span := l.span + k }) (hLane : Lane sl i p (cs ++ ds)) :
    ∃ sl', (match ds.head?.map Prod.fst with
        | none => some sl
        | some b => sl.setLink b i f) = some sl' ∧
      Frame i sl sl' ∧ Lane sl' i p (cs ++ bump k ds) := by
  cases ds with
  | nil => exact ⟨sl, rfl, Frame.refl i sl, hLane⟩
  | cons d ds =>
      have hSpan : (sl.links i d.1).span = d.2 := hLane.behind.2.2.1
      have hValue : f (sl.links i d.1) = { sl.links i d.1 with span := d.2 + k } := by
        rw [hf, hSpan]
      exact setSpan_spec hi (hUse d.1 List.mem_cons_self) hNodup hValue hLane

/-- A node is taken out. -/
theorem skiplistEraseNode_spec (hi : i < maxSkiplistLevel)
    (hUse : ∀ b, b ∈ p :: (cs ++ (a, v) :: ds).map Prod.fst → (sl.record b).isSome)
    (hNodup : (p :: (cs ++ (a, v) :: ds).map Prod.fst).Nodup)
    (hLane : Lane sl i p (cs ++ (a, v) :: ds)) :
    ∃ sl', skiplistEraseNode sl a i = some sl' ∧ Frame i sl sl' ∧
      Lane sl' i p (cs ++ bump (v - 1) ds) := by
  obtain ⟨-, hBack, hSpan, hRest⟩ := hLane.behind
  have hHead := hRest.next_eq
  have hParts := hNodup
  rw [List.map_append, ← List.cons_append, List.nodup_append] at hParts
  obtain ⟨-, hSecond, hApart⟩ := hParts
  have hLastIn : last p cs ∈ p :: (cs ++ (a, v) :: ds).map Prod.fst := by
    rw [List.map_append, ← List.cons_append]
    exact List.mem_append_left _ last_mem
  have hIn : a ∈ p :: (cs ++ (a, v) :: ds).map Prod.fst := by simp
  have hLast : last p cs ≠ a := fun hEq => hApart _ last_mem a List.mem_cons_self hEq
  obtain ⟨sl₁, hSet₁, hFrame₁, hLinks₁⟩ := @setLink_eq _ i (last p cs) sl
    (fun l => { l with next := (sl.links i a).next }) (hUse _ hLastIn) hi
  simp only [skiplistEraseNode, link_eq (hUse a hIn) hi, hBack, hSet₁, Option.bind_eq_bind,
    Option.bind_some]
  cases ds with
  | nil =>
      rw [List.head?_nil, Option.map_none] at hHead
      rw [hHead]
      refine ⟨sl₁, rfl, hFrame₁, ?_⟩
      have hSame : (fun b => (sl₁.links i b).span) = fun b => (sl.links i b).span := by
        funext b
        rw [hLinks₁ b]
        grind
      rw [Lane, hSame]
      apply hLane.erase hNodup
      · rw [hLinks₁, if_pos rfl]
      · exact fun b hbl hba => by rw [hLinks₁, if_neg hbl]
      · intro b hb
        rw [hHead] at hb
        cases hb
      · intro b hba hb
        rw [hLinks₁]
        grind
  | cons d ds =>
      rw [List.head?_cons, Option.map_some] at hHead
      rw [hHead]
      have hdIn : d.1 ∈ p :: (cs ++ (a, v) :: d :: ds).map Prod.fst := by simp
      have hda : d.1 ≠ a := by
        rintro rfl
        simp at hSecond
      obtain ⟨sl₂, hSet₂, hFrame₂, hLinks₂⟩ := @setLink_eq _ i d.1 sl₁
        (fun n => { n with prev := some (last p cs) })
        (by rw [hFrame₁.record]; exact hUse d.1 hdIn) hi
      have hFrame := hFrame₁.trans hFrame₂
      have hRead : sl₂.link a i = some (sl₂.links i a) :=
        link_eq (by rw [hFrame.record]; exact hUse a hIn) hi
      have hLane₂ : Lane sl₂ i p (cs ++ d :: ds) := by
        have hSame : (fun b => (sl₂.links i b).span) = fun b => (sl.links i b).span := by
          funext b
          rw [hLinks₂ b, hLinks₁ b, hLinks₁ d.1]
          grind
        rw [Lane, hSame]
        apply hLane.erase hNodup
        · rw [hLinks₂, hLinks₁, hLinks₁]
          grind
        · exact fun b hbl hba => by rw [hLinks₂, hLinks₁, hLinks₁]; grind
        · intro b hb
          rw [hHead] at hb
          cases hb
          rw [hLinks₂, if_pos rfl]
        · intro b hba hb
          rw [hLinks₂, hLinks₁, hLinks₁]
          grind
      have hNodup₂ : (p :: (cs ++ d :: ds).map Prod.fst).Nodup := by
        refine List.Nodup.sublist (List.Sublist.cons_cons p (List.Sublist.map Prod.fst ?_)) hNodup
        exact (List.sublist_cons_self _ _).append_left cs
      have hSpan₂ : (sl₂.links i d.1).span = d.2 := hLane₂.behind.2.2.1
      have hOld : (sl₂.links i a).span = v := by
        rw [hLinks₂ a, if_neg hda.symm, hLinks₁ a, if_neg hLast.symm]
        exact hSpan
      have hValue : ({ sl₂.links i d.1 with
          span := (sl₂.links i d.1).span + ((sl₂.links i a).span - 1) } : LinkT) =
          { sl₂.links i d.1 with span := d.2 + (v - 1) } := by
        rw [hOld, hSpan₂]
      obtain ⟨sl₃, hSet₃, hFrame₃, hLane₃⟩ :=
        setSpan_spec (f := fun n => { n with span := n.span + ((sl₂.links i a).span - 1) }) hi
          (by rw [hFrame.record]; exact hUse d.1 hdIn) hNodup₂ hValue hLane₂
      refine ⟨sl₃, ?_, hFrame.trans hFrame₃, hLane₃⟩
      simp only [hSet₂, hRead, Option.bind_some]
      exact hSet₃

end

/-! ## Records -/

section

variable {sl : SkiplistT α} {ts : List (Tower α)} {t : Tower α} {a : Nat}

theorem Recorded.of_mem (h : Recorded sl ts) (ht : t ∈ ts) :
    sl.record t.addr = some (t.level, some t.data) := by
  apply Holds.read h
  rw [Multiset.mem_coe]
  exact List.mem_cons_of_mem _ (List.mem_map_of_mem ht)

theorem Recorded.of_head (h : Recorded sl ts) : sl.record sl.head = some (0, none) := by
  apply Holds.read h
  rw [Multiset.mem_coe]
  exact List.mem_cons_self

theorem Recorded.nodup (h : Recorded sl ts) : (sl.head :: ts.map Tower.addr).Nodup := by
  have hNodup := Holds.nodup h
  rw [Multiset.map_coe, Multiset.coe_nodup, List.map_cons, List.map_map] at hNodup
  exact hNodup

theorem Recorded.isSome (h : Recorded sl ts) (ha : a ∈ sl.head :: ts.map Tower.addr) :
    (sl.record a).isSome := by
  rcases List.mem_cons.mp ha with rfl | ha
  · rw [h.of_head]
    rfl
  · obtain ⟨t, ht, rfl⟩ := List.mem_map.mp ha
    rw [h.of_mem ht]
    rfl

/-- The node of a tower. -/
theorem Recorded.node (h : Recorded sl ts) (ht : t ∈ ts) :
    ∃ n, sl.mem t.addr = some n ∧ n.level = t.level ∧ n.data = some t.data := by
  have hRecord := h.of_mem ht
  rw [SkiplistT.record, Option.map_eq_some_iff] at hRecord
  obtain ⟨n, hNode, hEq⟩ := hRecord
  rw [Prod.mk.injEq] at hEq
  exact ⟨n, hNode, hEq⟩

/-- The addresses of a level are different, and not that of the head. -/
theorem Recorded.nodup_cells (h : Recorded sl ts) (i g : Nat) :
    (sl.head :: (cells i g ts).map Prod.fst).Nodup :=
  List.Nodup.sublist (cells_sublist.cons_cons sl.head) h.nodup

theorem Recorded.use_cells (h : Recorded sl ts) {i g : Nat} :
    ∀ b, b ∈ sl.head :: (cells i g ts).map Prod.fst → (sl.record b).isSome := by
  intro b hb
  apply h.isSome
  exact (cells_sublist.cons_cons sl.head).subset hb

end

/-! ## Walks -/

/-- A level is left at `next`: nothing of it follows, or the first one of it stops the loop. -/
def Leaves (verdict : α → Int → Turn) (i : Nat) (r : Int) (ts : List (Tower α))
    (next : Option Nat) : Prop :=
  (Low Tower.level i ts ∧ next = none) ∨
    ∃ us t vs, ts = us ++ t :: vs ∧ Low Tower.level i us ∧ i ≤ t.level ∧
      verdict t.data (r + us.length + 1) = .stop ∧ next = some t.addr

/-- A loop is done at a tower: the first one of the level. -/
def Meets (verdict : α → Int → Turn) (i : Nat) (r : Int) (ts : List (Tower α)) (node : Nat)
    (rank : Int) : Prop :=
  ∃ us t vs, ts = us ++ t :: vs ∧ Low Tower.level i us ∧ i ≤ t.level ∧
    verdict t.data rank = .found ∧ node = t.addr ∧ rank = r + us.length + 1

section

variable {sl : SkiplistT α} {turn : NodeT α → Int → Option Turn} {verdict : α → Int → Turn}
  {pass rest : List (Tower α)} {i : Nat}

/-- A turn where nothing of the level follows. -/
theorem walk_end {fuel prev : Nat} {span : Int} {ts : List (Tower α)} (hi : i < maxSkiplistLevel)
    (hLane : Lane sl i prev (cells i 0 ts)) (hPrev : (sl.record prev).isSome)
    (hLow : Low Tower.level i ts) :
    walk sl i turn (fuel + 1) prev span = some (.stopped prev none span) := by
  have hLink := link_eq hPrev hi
  have hNone : (sl.links i prev).next = none := by
    have hHead := hLane.next_eq
    rwa [cells_low hLow] at hHead
  simp [walk, hLink, hNone]

/-- A turn that comes to the first tower of the level. -/
theorem walk_turn {fuel prev : Nat} {span : Int} {us vs : List (Tower α)} {t : Tower α}
    (hi : i < maxSkiplistLevel) (hLane : Lane sl i prev (cells i 0 (us ++ t :: vs)))
    (hPrev : (sl.record prev).isSome) (hLow : Low Tower.level i us) (ht : i ≤ t.level)
    (hRecord : sl.record t.addr = some (t.level, some t.data))
    (hTurn : ∀ n d s, n.data = some d → turn n s = some (verdict d s)) :
    Lane sl i t.addr (cells i 0 vs) ∧
      walk sl i turn (fuel + 1) prev span =
        match verdict t.data (span + us.length + 1) with
        | .pass => walk sl i turn fuel t.addr (span + us.length + 1)
        | .stop => some (.stopped prev (some t.addr) span)
        | .found => some (.found t.addr (span + us.length + 1)) := by
  have hLink := link_eq hPrev hi
  obtain ⟨n, hMem, hEq⟩ := Option.map_eq_some_iff.mp hRecord
  rw [Prod.mk.injEq] at hEq
  have hUse : (sl.record t.addr).isSome := by
    rw [hRecord]
    rfl
  have hLink' := link_eq hUse hi
  rw [cells_first hLow ht] at hLane
  obtain ⟨hNext, -, hSpan, hBehind⟩ := hLane
  replace hNext : (sl.links i prev).next = some t.addr := hNext
  replace hSpan : (sl.links i t.addr).span = ((0 : Nat) : Int) + us.length + 1 := hSpan
  have hRank : span + (sl.links i t.addr).span = span + us.length + 1 := by omega
  have hVerdict := hTurn n t.data (span + (sl.links i t.addr).span) hEq.2
  rw [hRank] at hVerdict
  refine ⟨hBehind, ?_⟩
  rw [walk]
  simp only [hLink, hNext, hMem, hLink', hRank, hVerdict, Option.bind_eq_bind, Option.bind_some]
  rfl

/-- A loop along a level passes the towers of `pass` and none behind them. -/
theorem walk_spec {fuel prev : Nat} {span : Int} (hi : i < maxSkiplistLevel)
    (hLane : Lane sl i prev (cells i 0 (pass ++ rest)))
    (hRecords : ∀ t, t ∈ pass ++ rest → sl.record t.addr = some (t.level, some t.data))
    (hPrev : (sl.record prev).isSome)
    (hTurn : ∀ n d s, n.data = some d → turn n s = some (verdict d s))
    (hPass : ∀ us t vs, pass = us ++ t :: vs → verdict t.data (span + us.length + 1) = .pass)
    (hHalt : ∀ us t vs, rest = us ++ t :: vs →
      verdict t.data (span + pass.length + us.length + 1) ≠ .pass)
    (hFuel : pass.length < fuel) :
    ∃ done left, pass = done ++ left ∧ Ends Tower.level i done ∧ Low Tower.level i left ∧
      ((∃ next, Leaves verdict i (span + pass.length) rest next ∧
          walk sl i turn fuel prev span =
            some (.stopped (lastAddr prev done) next (span + done.length))) ∨
        ∃ node rank, Meets verdict i (span + pass.length) rest node rank ∧
          walk sl i turn fuel prev span = some (.found node rank)) := by
  induction fuel generalizing pass prev span with
  | zero => omega
  | succ fuel ih =>
      rcases low_or_first Tower.level i pass with hLow | ⟨us, t, vs, rfl, hLow, ht⟩
      · refine ⟨[], pass, rfl, Or.inl rfl, hLow, ?_⟩
        rcases low_or_first Tower.level i rest with hRest | ⟨us, t, vs, rfl, hUs, ht⟩
        · left
          have hBoth : Low Tower.level i (pass ++ rest) := fun x hx =>
            (List.mem_append.mp hx).elim (hLow x) (hRest x)
          refine ⟨none, Or.inl ⟨hRest, rfl⟩, ?_⟩
          rw [walk_end hi hLane hPrev hBoth]
          simp [lastAddr]
        · have hBoth : Low Tower.level i (pass ++ us) := fun x hx =>
            (List.mem_append.mp hx).elim (hLow x) (hUs x)
          rw [← List.append_assoc] at hLane
          obtain ⟨-, hWalk⟩ := @walk_turn _ sl turn verdict i fuel prev span _ vs t hi hLane hPrev
            hBoth ht (hRecords t (by simp)) hTurn
          have hRank : span + ((pass ++ us).length : Nat) + 1 =
              span + pass.length + us.length + 1 := by
            rw [List.length_append]
            omega
          rw [hRank] at hWalk
          cases hCase : verdict t.data (span + pass.length + us.length + 1) with
          | pass => exact absurd hCase (hHalt us t vs rfl)
          | stop =>
              left
              refine ⟨some t.addr, Or.inr ⟨us, t, vs, rfl, hUs, ht, hCase, rfl⟩, ?_⟩
              rw [hWalk, hCase]
              simp [lastAddr]
          | found =>
              right
              refine ⟨t.addr, _, ⟨us, t, vs, rfl, hUs, ht, hCase, rfl, rfl⟩, ?_⟩
              rw [hWalk, hCase]
      · rw [List.append_assoc, List.cons_append] at hLane
        obtain ⟨hBehind, hWalk⟩ := @walk_turn _ sl turn verdict i fuel prev span us (vs ++ rest) t
          hi hLane hPrev hLow ht (hRecords t (by simp)) hTurn
        rw [hPass us t vs rfl] at hWalk
        have hLength : (us ++ t :: vs).length = us.length + 1 + vs.length := by
          simp only [List.length_append, List.length_cons]
          omega
        rw [hLength] at hFuel hHalt ⊢
        have hOffset : span + us.length + 1 + vs.length =
            span + ((us.length + 1 + vs.length : Nat) : Int) := by
          omega
        obtain ⟨done, left, rfl, hEnds, hLeft, hOut⟩ :=
          @ih vs t.addr (span + us.length + 1) hBehind
          (fun u hu => hRecords u (by
            rw [List.append_assoc, List.cons_append]
            exact List.mem_append_right _ (List.mem_cons_of_mem t hu)))
          (by rw [hRecords t (by simp)]; rfl)
          (by
            rintro xs x ys rfl
            have hHere := hPass (us ++ t :: xs) x ys (by simp)
            rw [← hHere, List.length_append, List.length_cons]
            congr 1
            omega)
          (by
            intro xs x ys hEq
            rw [hOffset]
            exact hHalt xs x ys hEq)
          (by omega)
        refine ⟨us ++ t :: done, left, by simp, ?_, hLeft, ?_⟩
        · have hHere : Ends Tower.level i (us ++ [t]) := Or.inr ⟨us, t, rfl, ht⟩
          have hAll := hHere.append hEnds
          rwa [List.append_assoc] at hAll
        · rw [hWalk, ← hOffset]
          have hDone : lastAddr prev (us ++ t :: done) = lastAddr t.addr done := by
            rw [lastAddr_append]
            rfl
          have hSum : span + ((us ++ t :: done).length : Int) =
              span + us.length + 1 + done.length := by
            rw [List.length_append, List.length_cons]
            omega
          rw [hDone, hSum]
          exact hOut

theorem low_zero {ts : List (Tower α)} (h : Low Tower.level 0 ts) : ts = [] := by
  cases ts with
  | nil => rfl
  | cons t ts => exact absurd (h t List.mem_cons_self) (Nat.not_lt_zero _)

/-- The chain of a level behind towers that end in it. -/
theorem Repr.behind {before behind : List (Tower α)} (h : Repr sl (before ++ behind))
    (hi : i < maxSkiplistLevel) (hEnds : Ends Tower.level i before) :
    Lane sl i (lastAddr sl.head before) (cells i 0 behind) := by
  have hLane := h.lanes i hi
  rw [cells_append, hEnds.gap_eq] at hLane
  rw [← last_cells hEnds]
  exact hLane.behind

theorem lastAddr_mem (p : Nat) (ts : List (Tower α)) : lastAddr p ts ∈ p :: ts.map Tower.addr := by
  induction ts generalizing p with
  | nil => exact List.mem_cons_self
  | cons t ts ih => exact List.mem_cons_of_mem p (ih t.addr)

/-- A loop down the levels goes behind the towers of `pass`, as far as the level has them. -/
theorem descend_spec {fuel k : Nat} {change : Nat → Option Nat} {before : List (Tower α)}
    (hRepr : Repr sl (before ++ pass ++ rest)) (hk : k ≤ maxSkiplistLevel)
    (hEnds : ∀ j, j < k → Ends Tower.level j before) (hBase : k = 0 → pass = [])
    (hTurn : ∀ n d s, n.data = some d → turn n s = some (verdict d s))
    (hPass : ∀ us t vs, pass = us ++ t :: vs →
      verdict t.data ((before.length : Int) + us.length + 1) = .pass)
    (hHalt : ∀ us t vs, rest = us ++ t :: vs →
      verdict t.data ((before.length : Int) + pass.length + us.length + 1) ≠ .pass)
    (hFuel : pass.length < fuel) :
    (∃ node i rank change', i < k ∧
        Meets verdict i ((before.length : Int) + pass.length) rest node rank ∧
        (∀ j, i < j → j < k →
          Leaves verdict j ((before.length : Int) + pass.length) rest (change' j)) ∧
        (∀ j, j ≤ i ∨ k ≤ j → change' j = change j) ∧
        descend sl turn fuel k (lastAddr sl.head before) before.length change =
          some (.found node i rank change')) ∨
      (∀ j, j < k → ∃ next,
          Leaves verdict j ((before.length : Int) + pass.length) rest next) ∧
        descend sl turn fuel k (lastAddr sl.head before) before.length change =
          some (.bottom (lastAddr sl.head (before ++ pass))
            ((before.length : Int) + pass.length)) := by
  induction k generalizing before pass change with
  | zero =>
      right
      have hNone := hBase rfl
      subst hNone
      refine ⟨fun j hj => absurd hj (Nat.not_lt_zero j), ?_⟩
      rw [descend, List.append_nil, List.length_nil, Int.natCast_zero, Int.add_zero]
  | succ k ih =>
      have hLane := @Repr.behind _ sl k before (pass ++ rest) (by rwa [← List.append_assoc])
        (by omega) (hEnds k (Nat.lt_succ_self k))
      have hPrev : (sl.record (lastAddr sl.head before)).isSome := by
        apply hRepr.recorded.isSome
        rw [List.append_assoc, List.map_append, ← List.cons_append]
        exact List.mem_append_left _ (lastAddr_mem _ _)
      have hRecords : ∀ t, t ∈ pass ++ rest → sl.record t.addr = some (t.level, some t.data) := by
        intro t ht
        apply hRepr.recorded.of_mem
        rw [List.append_assoc]
        exact List.mem_append_right _ ht
      obtain ⟨done, left, rfl, hDone, hLeft, hOut⟩ :=
        @walk_spec _ sl turn verdict pass rest k fuel _ before.length (by omega) hLane hRecords
          hPrev hTurn hPass hHalt hFuel
      rcases hOut with ⟨next, hLeaves, hWalk⟩ | ⟨node, rank, hMeets, hWalk⟩
      · have hSum : (((before ++ done).length : Nat) : Int) + left.length =
            before.length + ((done ++ left).length : Nat) := by
          simp only [List.length_append]
          omega
        have hLengths : (((before ++ done).length : Nat) : Int) = before.length + done.length := by
          rw [List.length_append]
          omega
        have hNext := @ih left (Function.update change k next) (before ++ done)
          (by rwa [List.append_assoc before done left]) (by omega)
          (fun j hj => (hEnds j (by omega)).append (hDone.mono (by omega)))
          (by
            rintro rfl
            exact low_zero hLeft)
          (by
            rintro us t vs rfl
            have hHere := hPass (done ++ us) t vs (by simp)
            rw [← hHere, List.length_append, List.length_append]
            congr 1
            omega)
          (by
            intro us t vs hEq
            rw [hSum]
            exact hHalt us t vs hEq)
          (by
            rw [List.length_append] at hFuel
            omega)
        have hStep : descend sl turn fuel (k + 1) (lastAddr sl.head before) before.length change =
            descend sl turn fuel k (lastAddr sl.head (before ++ done))
              ((before ++ done).length : Nat) (Function.update change k next) := by
          rw [descend, hWalk, lastAddr_append, hLengths]
          rfl
        rw [hSum, List.append_assoc] at hNext
        rw [hStep]
        rcases hNext with ⟨node, i, rank, change', hik, hMeets, hAbove, hOthers, hFound⟩ |
          ⟨hAll, hBottom⟩
        · left
          refine ⟨node, i, rank, change', by omega, hMeets, ?_, ?_, hFound⟩
          · intro j hij hjk
            by_cases hj : j = k
            · subst hj
              rw [hOthers j (Or.inr (le_refl j)), Function.update_self]
              exact hLeaves
            · exact hAbove j hij (by omega)
          · intro j hj
            rw [hOthers j (by omega), Function.update_of_ne (by omega)]
        · right
          refine ⟨?_, hBottom⟩
          intro j hj
          by_cases hjk : j = k
          · subst hjk
            exact ⟨next, hLeaves⟩
          · exact hAll j (by omega)
      · left
        refine ⟨node, k, rank, change, Nat.lt_succ_self k, hMeets, by omega, fun _ _ => rfl, ?_⟩
        rw [descend, hWalk]
        rfl

end

end Gbase.Base.Skiplist
