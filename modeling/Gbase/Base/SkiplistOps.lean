import Gbase.Base.SkiplistRepr
import Gbase.Lib.Comparator

/-!
# Insertion into a skiplist, and removal from it

Both work on one level after the other; `Stage` says how far a level is.

The levels are treated one by one: a new node is linked into some and only counted by the others,
and its spans are written in a second loop, so that a level passes through three stages.  An
insertion is then an induction over the levels downwards and one upwards, with the stage of every
level as the invariant.

## Main results

* `skiplistInsert_spec`: the new node comes behind all that are not larger.
* `skiplistFindErase_spec`: what is found, with its rank, and what is taken out.
-/

namespace Gbase.Base.Skiplist

open Gbase.Lib.Comparator
open Gbase.Lib.Lanes
open Gbase.Lib.Linked
open Gbase.Lib.Store

variable {α : Type}

/-! ## Insertion -/

/-- How far the insertion is on a level: nothing is done; the node is linked in, but has no span;
or all is done. -/
inductive Stage where
  | untouched
  | linked
  | complete

/-- The cells of a level while `t` is inserted between `front` and `back`. -/
def Stage.cells (i : Nat) (front : List (Tower α)) (t : Tower α) (back : List (Tower α)) :
    Stage → List (Nat × Int)
  | .untouched => Skiplist.cells i 0 (front ++ back)
  | .linked => Skiplist.cells i 0 front ++
      (t.addr, 0) :: Skiplist.cells i (gap Tower.level i 0 front) back
  | .complete => Skiplist.cells i 0 (front ++ t :: back)

/-- The skiplist while `t` is inserted. -/
structure Inserting (front : List (Tower α)) (t : Tower α) (back : List (Tower α))
    (stage : Nat → Stage) (sl : SkiplistT α) : Prop where
  recorded : Recorded sl (front ++ t :: back)
  low : t.level < maxSkiplistLevel
  lanes : ∀ i, i < maxSkiplistLevel → Lane sl i sl.head ((stage i).cells i front t back)
  unspanned : ∀ i, stage i = .untouched → (sl.links i t.addr).span = 0

section

variable {cmp : α → α → Int} {sl sl' : SkiplistT α} {front back : List (Tower α)} {t : Tower α}
  {stage stage' : Nat → Stage} {k i : Nat}

/-- One level gets on. -/
theorem Inserting.step (h : Inserting front t back stage sl) (hFrame : Frame k sl sl')
    (hLane : Lane sl' k sl.head ((stage' k).cells k front t back)) (hNow : stage' k ≠ .untouched)
    (hStage : ∀ i, i ≠ k → stage' i = stage i) : Inserting front t back stage' sl' where
  recorded := hFrame.recorded h.recorded
  low := h.low
  lanes := by
    intro i hi
    rw [hFrame.head]
    by_cases hik : i = k
    · subst hik
      exact hLane
    · rw [hStage i hik]
      exact hFrame.lane hik (h.lanes i hi)
  unspanned := by
    intro i hUntouched
    have hik : i ≠ k := by
      rintro rfl
      exact hNow hUntouched
    rw [hFrame.others i hik]
    exact h.unspanned i (by rw [← hStage i hik, hUntouched])

/-- The addresses of a level are in use and different, at any stage. -/
theorem Inserting.addrs (h : Inserting front t back stage sl) (s : Stage) :
    (∀ b, b ∈ sl.head :: (s.cells i front t back).map Prod.fst → (sl.record b).isSome) ∧
      (sl.head :: (s.cells i front t back).map Prod.fst).Nodup := by
  have hSub : ((s.cells i front t back).map Prod.fst).Sublist
      ((front ++ t :: back).map Tower.addr) := by
    cases s with
    | untouched =>
        apply cells_sublist.trans
        exact ((List.sublist_cons_self t back).append_left front).map Tower.addr
    | linked =>
        rw [Stage.cells, List.map_append, List.map_append, List.map_cons, List.map_cons]
        exact cells_sublist.append (cells_sublist.cons_cons t.addr)
    | complete => exact cells_sublist
  constructor
  · intro b hb
    exact h.recorded.isSome ((hSub.cons_cons sl.head).subset hb)
  · exact List.Nodup.sublist (hSub.cons_cons sl.head) h.recorded.nodup

/-- A new node in the memory. -/
theorem Repr.alloc (h : Repr sl (front ++ back)) (hFresh : sl.mem t.addr = none)
    (hLow : t.level < maxSkiplistLevel) :
    Inserting front t back (fun _ => .untouched)
      (sl.alloc t.addr { link := fun _ => emptyLink, level := t.level, data := some t.data }) where
  recorded := by
    have hRecord : (sl.alloc t.addr
        { link := fun _ => emptyLink, level := t.level, data := some t.data }).record =
          Function.update sl.record t.addr (some (t.level, some t.data)) := by
      funext b
      by_cases hb : b = t.addr
      · subst hb
        simp [SkiplistT.record, SkiplistT.alloc]
      · simp [SkiplistT.record, SkiplistT.alloc, hb]
    have hNone : sl.record t.addr = none := by
      rw [SkiplistT.record, hFresh]
      rfl
    have hHolds := Holds.alloc h.recorded hNone (t.level, some t.data)
    rw [Recorded, hRecord]
    have hPerm : ((sl.head, 0, none) :: (front ++ t :: back).map Tower.record).Perm
        ((t.addr, t.level, some t.data) ::
          (sl.head, 0, none) :: (front ++ back).map Tower.record) := by
      refine List.Perm.trans (List.Perm.cons _ ?_) (List.Perm.swap _ _ _)
      exact List.perm_middle.map Tower.record
    rw [Multiset.singleton_add, Multiset.cons_coe, ← Multiset.coe_eq_coe.mpr hPerm] at hHolds
    exact hHolds
  low := hLow
  lanes := by
    intro i hi
    have hLinks : (sl.alloc t.addr
        { link := fun _ => emptyLink, level := t.level, data := some t.data }).links i =
          sl.links i := by
      funext b
      by_cases hb : b = t.addr
      · subst hb
        simp [SkiplistT.links, SkiplistT.alloc, hFresh]
      · simp [SkiplistT.links, SkiplistT.alloc, hb]
    rw [Lane, hLinks]
    exact h.lanes i hi
  unspanned := by
    intro i _
    simp [SkiplistT.links, SkiplistT.alloc, emptyLink]

/-- The next node where a level is left. -/
theorem Leaves.next_eq {verdict : α → Int → Turn} {r : Int} {ts : List (Tower α)}
    {next : Option Nat} (h : Leaves verdict i r ts next) (g : Nat) :
    next = (cells i g ts).head?.map Prod.fst := by
  rcases h with ⟨hLow, rfl⟩ | ⟨us, u, vs, rfl, hLow, hu, -, rfl⟩
  · rw [cells_low hLow]
    rfl
  · rw [cells_first hLow hu]
    rfl

theorem ends_zero (ts : List (Tower α)) : Ends Tower.level 0 ts := by
  rcases List.eq_nil_or_concat ts with rfl | ⟨us, u, rfl⟩
  · exact Or.inl rfl
  · exact Or.inr ⟨us, u, List.concat_eq_append, Nat.zero_le _⟩

/-- The stages when the levels from `k` on are linked. -/
def linkedFrom (t : Tower α) (k i : Nat) : Stage :=
  if i < k then .untouched else if i ≤ t.level then .linked else .complete

/-- What `skiplist_insert` passes, by the data. -/
def insertVerdict (cmp : α → α → Int) (data : α) (d : α) (_ : Int) : Turn :=
  if cmp d data ≤ 0 then .pass else .stop

theorem insertTurn_eq (data : α) (n : NodeT α) (d : α) (s : Int) (hData : n.data = some d) :
    insertTurn cmp data n s = some (insertVerdict cmp data d s) := by
  simp only [insertTurn, insertVerdict, hData, Option.bind_eq_bind, Option.bind_some]
  split <;> rfl

theorem cells_cons_of_lt {g : Nat} (ht : t.level < i) :
    cells i g (t :: back) = bump 1 (cells i g back) := by
  rw [← Int.natCast_one, ← cells_gap, cells, lane_cons_of_lt ht]
  rfl

/-- One level of the first loop of the insertion. -/
theorem insertLevel_spec (h : Inserting front t back (linkedFrom t (k + 1)) sl)
    (hk : k < maxSkiplistLevel) {prev : Nat} {next : Option Nat}
    (hPrev : prev = last sl.head (cells k 0 front))
    (hNext : next = (cells k (gap Tower.level k 0 front) back).head?.map Prod.fst) :
    ∃ sl', (if k ≤ t.level then skiplistInsertNode sl prev t.addr k
        else
          match next with
          | none => some sl
          | some next => sl.setLink next k fun l => { l with span := l.span + 1 }) = some sl' ∧
      Frame k sl sl' ∧ Inserting front t back (linkedFrom t k) sl' := by
  have hRead : linkedFrom t (k + 1) k = .untouched := if_pos (Nat.lt_succ_self k)
  have hOthers : ∀ i, i ≠ k → linkedFrom t k i = linkedFrom t (k + 1) i := by
    intro i hik
    by_cases hi : i < k
    · simp only [linkedFrom, if_pos hi, if_pos (by omega : i < k + 1)]
    · simp only [linkedFrom, if_neg hi, if_neg (by omega : ¬ i < k + 1)]
  have hLane := h.lanes k hk
  obtain ⟨hUse, hNodup⟩ := @Inserting.addrs _ sl front back t _ k h .untouched
  rw [hRead, Stage.cells, cells_append] at hLane
  rw [Stage.cells, cells_append] at hUse hNodup
  by_cases hLevel : k ≤ t.level
  · have hNow : linkedFrom t k k = .linked := by
      rw [linkedFrom, if_neg (Nat.lt_irrefl k), if_pos hLevel]
    have hIn : t.addr ∈ sl.head :: (front ++ t :: back).map Tower.addr := by simp
    obtain ⟨-, hApart⟩ := @Inserting.addrs _ sl front back t _ k h .linked
    have hNew : t.addr ∉ sl.head :: (cells k 0 front ++
        cells k (gap Tower.level k 0 front) back).map Prod.fst := by
      rw [Stage.cells, List.map_append, List.map_cons, ← List.cons_append,
        List.perm_middle.nodup_iff, List.nodup_cons, List.cons_append, ← List.map_append] at hApart
      exact hApart.1
    obtain ⟨sl', hRun, hFrame, hLane'⟩ :=
      skiplistInsertNode_spec hk hUse (h.recorded.isSome hIn) hNodup hNew hLane
    rw [h.unspanned k hRead] at hLane'
    refine ⟨sl', ?_, hFrame, h.step hFrame ?_ ?_ hOthers⟩
    · rw [if_pos hLevel, hPrev, hRun]
    · rw [hNow]
      exact hLane'
    · rw [hNow]
      exact Stage.noConfusion
  · have hNow : linkedFrom t k k = .complete := by
      rw [linkedFrom, if_neg (Nat.lt_irrefl k), if_neg hLevel]
    obtain ⟨sl', hRun, hFrame, hLane'⟩ :=
      bumpNext_spec (k := 1) (f := fun l => { l with span := l.span + 1 }) hk
        (fun b hb => hUse b (by
          rw [List.map_append]
          exact List.mem_cons_of_mem _ (List.mem_append_right _ hb)))
        hNodup (fun l => rfl) hLane
    refine ⟨sl', ?_, hFrame, h.step hFrame ?_ ?_ hOthers⟩
    · rw [if_neg hLevel, hNext]
      exact hRun
    · rw [hNow, Stage.cells, cells_append, cells_cons_of_lt (by omega)]
      exact hLane'
    · rw [hNow]
      exact Stage.noConfusion

/-- The first loop of the insertion, below level `k`: the towers of `pass` are behind `before`. -/
theorem insertLevels_spec {fuel : Nat} {before pass : List (Tower α)} {span : Nat → Int}
    (h : Inserting (before ++ pass) t back (linkedFrom t k) sl) (hk : k ≤ maxSkiplistLevel)
    (hEnds : ∀ j, j < k → Ends Tower.level j before)
    (hPass : ∀ x, x ∈ pass → cmp x.data t.data ≤ 0)
    (hBack : ∀ x, x ∈ back → ¬ cmp x.data t.data ≤ 0)
    (hSpan : ∀ j, j < k → span j = 0) (hFuel : pass.length < fuel) :
    ∃ sl' span', insertLevels cmp fuel t.addr t.level t.data k sl (lastAddr sl.head before) span =
        some (sl', span') ∧
      Inserting (before ++ pass) t back (linkedFrom t 0) sl' ∧ sl'.head = sl.head ∧
      sl'.random = sl.random ∧
      (∀ i, k ≤ i → span' i = span i) ∧
      (∀ i, i + 1 < k → span' i =
        (gap Tower.level (i + 1) 0 pass : Int) - gap Tower.level i 0 pass) ∧
      ∀ i, i + 1 = k → span' i = (pass.length : Int) - gap Tower.level i 0 pass := by
  induction k generalizing before pass sl span with
  | zero =>
      exact ⟨sl, span, rfl, h, rfl, rfl, fun _ _ => rfl, by omega, by omega⟩
  | succ k ih =>
      have hRead : linkedFrom t (k + 1) k = .untouched := if_pos (Nat.lt_succ_self k)
      have hLane := h.lanes k (by omega)
      rw [hRead, Stage.cells] at hLane
      have hStart : Lane sl k (lastAddr sl.head before) (cells k 0 (pass ++ back)) := by
        have hHere := hEnds k (Nat.lt_succ_self k)
        rw [List.append_assoc, cells_append, hHere.gap_eq] at hLane
        rw [← last_cells hHere]
        exact hLane.behind
      have hPrev : (sl.record (lastAddr sl.head before)).isSome := by
        apply h.recorded.isSome
        rw [List.append_assoc, List.map_append, ← List.cons_append]
        exact List.mem_append_left _ (lastAddr_mem _ _)
      have hRecords : ∀ x, x ∈ pass ++ back → sl.record x.addr = some (x.level, some x.data) := by
        intro x hx
        apply h.recorded.of_mem
        rcases List.mem_append.mp hx with hx | hx
        · exact List.mem_append_left _ (List.mem_append_right _ hx)
        · exact List.mem_append_right _ (List.mem_cons_of_mem _ hx)
      obtain ⟨done, left, rfl, hDone, hLeft, hOut⟩ :=
        @walk_spec _ sl (insertTurn cmp t.data) (insertVerdict cmp t.data) pass back k fuel _
          (span k) (by omega) hStart hRecords hPrev (insertTurn_eq t.data)
          (by
            rintro us x vs rfl
            exact if_pos (hPass x (by simp)))
          (by
            rintro us x vs rfl
            rw [insertVerdict, if_neg (hBack x (by simp))]
            exact Turn.noConfusion)
          hFuel
      rcases hOut with ⟨next, hLeaves, hWalk⟩ | ⟨node, rank, hMeets, -⟩
      · have hSpot : last sl.head (cells k 0 (before ++ (done ++ left))) =
            lastAddr (lastAddr sl.head before) done := by
          have hHere := (hEnds k (Nat.lt_succ_self k)).append hDone
          rw [← List.append_assoc, cells_append, cells_low hLeft, List.append_nil,
            last_cells hHere, lastAddr_append]
        obtain ⟨sl₁, hRun, hFrame, hNow⟩ := insertLevel_spec h (by omega) hSpot.symm
          (hLeaves.next_eq _)
        rw [← List.append_assoc] at hNow
        obtain ⟨sl₂, span₂, hRest, hEnd, hHead, hRandom, hAbove, hWithin, hTop⟩ :=
          @ih sl₁ (before ++ done) left (Function.update span k (span k + done.length)) hNow
            (by omega) (fun j hj => (hEnds j (by omega)).append (hDone.mono (by omega)))
            (fun x hx => hPass x (List.mem_append_right _ hx))
            (fun j hj => by rw [Function.update_of_ne (by omega)]; exact hSpan j (by omega))
            (by rw [List.length_append] at hFuel; omega)
        have hGap : ∀ j, j ≤ k → gap Tower.level j 0 (done ++ left) = gap Tower.level j 0 left := by
          intro j hj
          rw [gap_append, (hDone.mono hj).gap_eq]
        have hHere : span₂ k = done.length := by
          rw [hAbove k (le_refl k), Function.update_self, hSpan k (Nat.lt_succ_self k)]
          omega
        refine ⟨sl₂, span₂, ?_, ?_, hHead.trans hFrame.head, hRandom.trans hFrame.random,
          ?_, ?_, ?_⟩
        · rw [insertLevels, hWalk]
          refine Option.bind_eq_some_iff.mpr ⟨_, rfl, Option.bind_eq_some_iff.mpr ⟨sl₁, hRun, ?_⟩⟩
          rw [← lastAddr_append, ← hFrame.head]
          exact hRest
        · rwa [← List.append_assoc]
        · intro i hi
          rw [hAbove i (by omega), Function.update_of_ne (by omega)]
        · intro i hi
          rw [hGap i (by omega), hGap (i + 1) (by omega)]
          by_cases hik : i + 1 < k
          · exact hWithin i hik
          · obtain rfl : i + 1 = k := by omega
            rw [hTop i rfl, hLeft.gap_eq, Nat.zero_add]
        · intro i hi
          obtain rfl : i = k := by omega
          rw [hHere, hGap i (le_refl i), hLeft.gap_eq, List.length_append]
          omega
      · obtain ⟨us, x, vs, -, -, -, hFound, -, -⟩ := hMeets
        rw [insertVerdict] at hFound
        split at hFound
        · cases hFound
        · cases hFound

/-- The stages when the spans up to level `k` are there. -/
def spannedTo (t : Tower α) (k i : Nat) : Stage :=
  if i ≤ t.level ∧ k < i then .linked else .complete

/-- A gap in front is taken off again. -/
theorem bump_neg_gap {g : Nat} {ts : List (Tower α)} :
    bump (-(g : Int)) (cells i g ts) = cells i 0 ts := by
  have hGap := @cells_gap _ i 0 g ts
  rw [Nat.zero_add] at hGap
  rw [hGap, bump_bump, Int.add_right_neg, bump_zero]

/-- The second loop of the insertion. -/
theorem insertSpans_spec {span : Nat → Int} (h : Inserting front t back (spannedTo t 0) sl)
    (hk : k ≤ t.level)
    (hSpan : ∀ i, i < k → span i =
      (gap Tower.level (i + 1) 0 front : Int) - gap Tower.level i 0 front) :
    ∃ sl', insertSpans t.addr span sl k = some sl' ∧ Inserting front t back (spannedTo t k) sl' ∧
      sl'.head = sl.head ∧ sl'.random = sl.random := by
  induction k with
  | zero => exact ⟨sl, rfl, h, rfl, rfl⟩
  | succ k ih =>
      obtain ⟨sl₁, hRun₁, h₁, hHead₁, hRandom₁⟩ := ih (by omega) fun i hi => hSpan i (by omega)
      have hTop : k + 1 < maxSkiplistLevel := lt_of_le_of_lt hk h.low
      have hIn : t.addr ∈ sl₁.head :: (front ++ t :: back).map Tower.addr := by simp
      have hUse := h₁.recorded.isSome hIn
      -- the span of the level below
      have hBelow : (sl₁.links k t.addr).span = (gap Tower.level k 0 front : Int) + 1 := by
        have hLane := h₁.lanes k (by omega)
        have hNow : spannedTo t k k = .complete := if_neg (by omega)
        rw [hNow, Stage.cells, cells_at (by omega)] at hLane
        exact hLane.behind.2.2.1
      -- the span of the node
      have hLane := h₁.lanes (k + 1) hTop
      have hNow : spannedTo t k (k + 1) = .linked := if_pos ⟨hk, Nat.lt_succ_self k⟩
      obtain ⟨hUses, hNodup⟩ := @Inserting.addrs _ sl₁ front back t _ (k + 1) h₁ .linked
      rw [hNow] at hLane
      rw [Stage.cells] at hLane hNodup hUses
      have hValue : ({ sl₁.links (k + 1) t.addr with
          span := (sl₁.links k t.addr).span + span k } : LinkT) =
          { sl₁.links (k + 1) t.addr with
            span := (gap Tower.level (k + 1) 0 front : Int) + 1 } := by
        rw [hBelow, hSpan k (Nat.lt_succ_self k), LinkT.mk.injEq]
        exact ⟨rfl, rfl, by omega⟩
      obtain ⟨sl₂, hSet₂, hFrame₂, hLane₂⟩ :=
        setSpan_spec (f := fun l => { l with span := (sl₁.links k t.addr).span + span k }) hTop hUse
          hNodup hValue hLane
      -- the span of the next node
      have hRead : sl₂.link t.addr (k + 1) = some (sl₂.links (k + 1) t.addr) :=
        link_eq (by rw [hFrame₂.record]; exact hUse) hTop
      have hSpan₂ : (sl₂.links (k + 1) t.addr).span = (gap Tower.level (k + 1) 0 front : Int) + 1 :=
        hLane₂.behind.2.2.1
      have hNext := hLane₂.behind.2.2.2.next_eq
      rw [List.append_cons] at hLane₂
      have hSame : ((cells (k + 1) 0 front ++ (t.addr, (0 : Int)) ::
          cells (k + 1) (gap Tower.level (k + 1) 0 front) back).map Prod.fst) =
          (cells (k + 1) 0 front ++ [(t.addr, (gap Tower.level (k + 1) 0 front : Int) + 1)] ++
            cells (k + 1) (gap Tower.level (k + 1) 0 front) back).map Prod.fst := by
        simp
      rw [hSame] at hNodup hUses
      obtain ⟨sl₃, hSet₃, hFrame₃, hLane₃⟩ :=
        bumpNext_spec (k := -(gap Tower.level (k + 1) 0 front : Int))
          (f := fun n => { n with span := n.span - ((sl₂.links (k + 1) t.addr).span - 1) }) hTop
          (fun b hb => by
            rw [hFrame₂.record]
            exact hUses b (List.mem_cons_of_mem _ (by
              rw [List.map_append]
              exact List.mem_append_right _ hb)))
          hNodup
          (fun l => by
            rw [LinkT.mk.injEq]
            exact ⟨rfl, rfl, by omega⟩)
          hLane₂
      rw [bump_neg_gap, ← List.append_cons, ← cells_at hk] at hLane₃
      have hFrame := hFrame₂.trans hFrame₃
      refine ⟨sl₃, ?_, ?_, hFrame.head.trans hHead₁, hFrame.random.trans hRandom₁⟩
      · rw [insertSpans, hRun₁]
        refine Option.bind_eq_some_iff.mpr ⟨sl₁, rfl, ?_⟩
        refine Option.bind_eq_some_iff.mpr ⟨_, link_eq hUse (by omega), ?_⟩
        refine Option.bind_eq_some_iff.mpr ⟨sl₂, hSet₂, ?_⟩
        refine Option.bind_eq_some_iff.mpr ⟨_, hRead, ?_⟩
        rw [← hNext] at hSet₃
        exact hSet₃
      · have hDone : spannedTo t (k + 1) (k + 1) = .complete := if_neg (by omega)
        apply h₁.step hFrame
        · rw [hDone]
          exact hLane₃
        · rw [hDone]
          exact Stage.noConfusion
        · intro i hi
          simp only [spannedTo]
          by_cases hLevel : i ≤ t.level ∧ k < i
          · rw [if_pos hLevel, if_pos (by omega)]
          · rw [if_neg hLevel, if_neg (by omega)]

/-- A level that was drawn is one of the array. -/
theorem skiplistRandLevel_lt {random : Nat → Int} {rand level : Nat}
    (h : skiplistRandLevel random rand = some level) : level < maxSkiplistLevel := by
  rw [skiplistRandLevel] at h
  split at h
  · cases h
  · obtain ⟨i, -, rfl⟩ := Option.map_eq_some_iff.mp h
    rw [maxSkiplistLevel]
    omega

/-- An insertion puts the new node behind all nodes that are not larger. -/
theorem skiplistInsert_spec {fuel a rand level : Nat} {d : α} (h : Repr sl (front ++ back))
    (hFresh : sl.mem a = none) (hLevel : skiplistRandLevel sl.random rand = some level)
    (hFront : ∀ x, x ∈ front → cmp x.data d ≤ 0) (hBack : ∀ x, x ∈ back → ¬ cmp x.data d ≤ 0)
    (hFuel : front.length < fuel) :
    ∃ sl', skiplistInsert cmp fuel sl (some a) rand (some d) = some (0, sl') ∧
      Repr sl' (front ++ { addr := a, level := level, data := d } :: back) ∧
      sl'.random = sl.random := by
  have hLow := skiplistRandLevel_lt hLevel
  let t : Tower α := { addr := a, level := level, data := d }
  have hStart := @Repr.alloc _ sl front back t h hFresh hLow
  have hAll : Inserting ([] ++ front) t back (linkedFrom t maxSkiplistLevel)
      (sl.alloc t.addr { link := fun _ => emptyLink, level := t.level, data := some t.data }) :=
    { hStart with
      lanes := by
        intro i hi
        rw [linkedFrom, if_pos hi]
        exact hStart.lanes i hi
      unspanned := fun i _ => hStart.unspanned i rfl }
  obtain ⟨sl₁, span, hRun₁, h₁, hHead₁, hRandom₁, -, hSpan, -⟩ :=
    @insertLevels_spec _ cmp _ back t maxSkiplistLevel fuel [] front (fun _ => 0) hAll
      (le_refl _) (fun _ _ => Or.inl rfl) hFront hBack (fun _ _ => rfl) hFuel
  rw [List.nil_append] at h₁
  -- the span on the lowest level
  have hIn : t.addr ∈ sl₁.head :: (front ++ t :: back).map Tower.addr := by simp
  have hZero : (0 : Nat) < maxSkiplistLevel := by decide
  obtain ⟨-, hNodup⟩ := @Inserting.addrs _ sl₁ front back t _ 0 h₁ .linked
  have hLane₁ := h₁.lanes 0 hZero
  have hNow : linkedFrom t 0 0 = .linked := by
    rw [linkedFrom, if_neg (Nat.not_lt_zero 0), if_pos (Nat.zero_le _)]
  rw [hNow] at hLane₁
  rw [Stage.cells] at hLane₁ hNodup
  obtain ⟨sl₂, hSet₂, hFrame₂, hLane₂⟩ :=
    setSpan_spec (f := fun l => { l with span := 1 }) hZero (h₁.recorded.isSome hIn) hNodup rfl
      hLane₁
  have h₂ : Inserting front t back (spannedTo t 0) sl₂ := by
    have hDone : spannedTo t 0 0 = .complete := if_neg (by omega)
    have hNone : gap Tower.level 0 0 front = 0 := (ends_zero front).gap_eq
    apply h₁.step hFrame₂
    · rw [hDone, Stage.cells, cells_at (Nat.zero_le _), hNone]
      rw [hNone] at hLane₂
      exact hLane₂
    · rw [hDone]
      exact Stage.noConfusion
    · intro i hi
      by_cases hLevel : i ≤ t.level
      · simp only [spannedTo, linkedFrom, if_pos hLevel, if_pos (by omega : i ≤ t.level ∧ 0 < i),
          if_neg (Nat.not_lt_zero i)]
      · simp only [spannedTo, linkedFrom, if_neg hLevel,
          if_neg (by omega : ¬ (i ≤ t.level ∧ 0 < i)),
          if_neg (Nat.not_lt_zero i)]
  obtain ⟨sl₃, hRun₃, h₃, hHead₃, hRandom₃⟩ :=
    @insertSpans_spec _ sl₂ front back t t.level span h₂ (le_refl _)
      (fun i hi => hSpan i (by have hLow : t.level < maxSkiplistLevel := hLow; omega))
  refine ⟨sl₃, ?_, ?_, ?_⟩
  · rw [skiplistInsert]
    refine Option.bind_eq_some_iff.mpr ⟨a, rfl, ?_⟩
    refine Option.bind_eq_some_iff.mpr ⟨level, hLevel, ?_⟩
    refine Option.bind_eq_some_iff.mpr ⟨(sl₁, span), hRun₁, ?_⟩
    refine Option.bind_eq_some_iff.mpr ⟨sl₂, hSet₂, ?_⟩
    exact Option.bind_eq_some_iff.mpr ⟨sl₃, hRun₃, rfl⟩
  · exact {
      recorded := h₃.recorded
      low := by
        intro x hx
        rcases List.mem_append.mp hx with hx | hx
        · exact h.low x (List.mem_append_left _ hx)
        · rcases List.mem_cons.mp hx with rfl | hx
          · exact hLow
          · exact h.low x (List.mem_append_right _ hx)
      lanes := by
        intro i hi
        have hLane := h₃.lanes i hi
        have hDone : spannedTo t t.level i = .complete := if_neg (by omega)
        rw [hDone] at hLane
        exact hLane }
  · rw [hRandom₃, hFrame₂.random, hRandom₁]
    rfl

end

/-! ## Search -/

/-- What `_skiplist_find_erase` does, by the data. -/
def findVerdict (cmp : α → α → Int) (data : α) (d : α) (_ : Int) : Turn :=
  if cmp d data = 0 then .found else if cmp d data < 0 then .pass else .stop

section

variable {cmp : α → α → Int} {sl sl' : SkiplistT α} {low same high front back : List (Tower α)}
  {t : Tower α} {k i : Nat} {d : α} {fuel : Nat}

theorem findTurn_eq (data : α) (n : NodeT α) (d : α) (s : Int) (hData : n.data = some d) :
    findTurn cmp data n s = some (findVerdict cmp data d s) := by
  simp only [findTurn, findVerdict, hData, Option.bind_eq_bind, Option.bind_some]
  split
  · rfl
  · split <;> rfl

/-- Where a level is left, no equal node is on it, and the next node is larger. -/
theorem Leaves.behind_same {r : Int} {next : Option Nat}
    (h : Leaves (findVerdict cmp d) i r (same ++ high) next)
    (hSame : ∀ x, x ∈ same → cmp x.data d = 0) (g : Nat) :
    Low Tower.level i same ∧ next = (cells i g high).head?.map Prod.fst := by
  have hLow : Low Tower.level i same := by
    rcases h with ⟨hLow, -⟩ | ⟨us, u, vs, hEq, hLow, -, hStop, -⟩
    · exact fun x hx => hLow x (List.mem_append_left _ hx)
    · have hNot : ¬ cmp u.data d = 0 := by
        intro hZero
        rw [findVerdict, if_pos hZero] at hStop
        cases hStop
      rcases List.append_eq_append_iff.mp hEq with ⟨ws, rfl, -⟩ | ⟨ws, rfl, hRest⟩
      · exact fun x hx => hLow x (List.mem_append_left _ hx)
      · cases ws with
        | nil =>
            rw [List.append_nil]
            exact hLow
        | cons w ws =>
            cases hRest
            exact absurd (hSame u (by simp)) hNot
  refine ⟨hLow, ?_⟩
  have hAny : ∀ g g', (cells i g high).head?.map Prod.fst =
      (cells i g' high).head?.map Prod.fst := by
    intro g g'
    have hOne := @cells_gap _ i 0 g high
    have hOther := @cells_gap _ i 0 g' high
    rw [Nat.zero_add] at hOne hOther
    rw [hOne, hOther]
    cases cells i 0 high <;> rfl
  rw [h.next_eq 0, cells_append, cells_low hLow, List.nil_append]
  exact hAny _ g

/-- A search finds the first of the equal nodes on the highest level that has one. -/
theorem find_spec (h : Repr sl (low ++ (same ++ high))) (hLow : ∀ x, x ∈ low → cmp x.data d < 0)
    (hSame : ∀ x, x ∈ same → cmp x.data d = 0) (hHigh : ∀ x, x ∈ high → 0 < cmp x.data d)
    (hFuel : low.length < fuel) :
    (∃ us t vs change, same = us ++ t :: vs ∧
        (∀ j, t.level < j → j < maxSkiplistLevel →
          Low Tower.level j same ∧ ∀ g, change j = (cells j g high).head?.map Prod.fst) ∧
        (∀ j, j ≤ t.level → change j = none) ∧
        descend sl (findTurn cmp d) fuel maxSkiplistLevel sl.head 0 (fun _ => none) =
          some (.found t.addr t.level ((low.length : Int) + us.length + 1) change)) ∨
      same = [] ∧ ∃ prev span,
        descend sl (findTurn cmp d) fuel maxSkiplistLevel sl.head 0 (fun _ => none) =
          some (.bottom prev span) := by
  have hOut := @descend_spec _ sl (findTurn cmp d) (findVerdict cmp d) low (same ++ high) fuel
    maxSkiplistLevel (fun _ => none) [] (by rwa [List.nil_append]) (le_refl _)
    (fun _ _ => Or.inl rfl) (fun hZero => by cases hZero) (findTurn_eq d)
    (by
      rintro us x vs rfl
      have hLess := hLow x (by simp)
      rw [findVerdict, if_neg (by omega), if_pos hLess])
    (by
      intro us x vs hEq hPass
      have hIn : x ∈ same ++ high := by
        rw [hEq]
        simp
      rw [findVerdict] at hPass
      rcases List.mem_append.mp hIn with hx | hx
      · rw [if_pos (hSame x hx)] at hPass
        cases hPass
      · have hMore := hHigh x hx
        rw [if_neg (by omega), if_neg (by omega)] at hPass
        cases hPass)
    hFuel
  simp only [List.length_nil, Int.natCast_zero, Int.zero_add] at hOut
  rcases hOut with ⟨node, i, rank, change, hi, hMeets, hAbove, hBelow, hRun⟩ | ⟨hAll, hRun⟩
  · left
    obtain ⟨us, t, vs, hEq, hUs, hti, hFound, rfl, rfl⟩ := hMeets
    have hZero : cmp t.data d = 0 := by
      rw [findVerdict] at hFound
      by_contra hNot
      rw [if_neg hNot] at hFound
      split at hFound <;> cases hFound
    obtain ⟨ws, rfl⟩ : ∃ ws, same = us ++ t :: ws := by
      rcases List.append_eq_append_iff.mp hEq with ⟨ws, rfl, hRest⟩ | ⟨ws, rfl, hRest⟩
      · have hIn : t ∈ high := by
          rw [hRest]
          simp
        have hMore := hHigh t hIn
        omega
      · cases ws with
        | nil =>
            have hIn : t ∈ high := by
              rw [List.nil_append] at hRest
              rw [← hRest]
              simp
            have hMore := hHigh t hIn
            omega
        | cons w ws =>
            cases hRest
            exact ⟨ws, rfl⟩
    have hLeft : ∀ j, i < j → j < maxSkiplistLevel →
        Low Tower.level j (us ++ t :: ws) ∧
            ∀ g, change j = (cells j g high).head?.map Prod.fst := by
      intro j hij hj
      have hLeaves := hAbove j hij hj
      exact ⟨(hLeaves.behind_same hSame 0).1, fun g => (hLeaves.behind_same hSame g).2⟩
    have hLevel : t.level = i := by
      by_contra hNe
      have hTop := h.low t (by simp)
      have hLess := (hLeft (i + 1) (Nat.lt_succ_self i) (by omega)).1 t (by simp)
      omega
    subst hLevel
    exact ⟨us, t, ws, change, rfl, hLeft, fun j hj => hBelow j (Or.inl hj), hRun⟩
  · right
    refine ⟨?_, _, _, hRun⟩
    obtain ⟨next, hLeaves⟩ := hAll 0 (by decide)
    exact low_zero (hLeaves.behind_same hSame 0).1

end

/-! ## Removal -/

/-- The chains while `t` is taken out from between `front` and `back`: some levels are done. -/
structure Erasing (front : List (Tower α)) (t : Tower α) (back : List (Tower α))
    (gone : Nat → Prop) (sl : SkiplistT α) : Prop where
  done : ∀ i, i < maxSkiplistLevel → gone i → Lane sl i sl.head (cells i 0 (front ++ back))
  todo : ∀ i, i < maxSkiplistLevel → ¬ gone i →
    Lane sl i sl.head (cells i 0 (front ++ t :: back))

section

variable {sl sl' : SkiplistT α} {front back : List (Tower α)} {t : Tower α} {k i : Nat}
  {gone gone' : Nat → Prop}

/-- One level gets on. -/
theorem Erasing.step (h : Erasing front t back gone sl) (hFrame : Frame k sl sl')
    (hLane : Lane sl' k sl.head (cells k 0 (front ++ back)))
    (hDone : ∀ i, gone' i ↔ i = k ∨ gone i) : Erasing front t back gone' sl' where
  done := by
    intro i hi hNow
    rw [hFrame.head]
    by_cases hik : i = k
    · subst hik
      exact hLane
    · exact hFrame.lane hik (h.done i hi (((hDone i).mp hNow).resolve_left hik))
  todo := by
    intro i hi hNow
    rw [hDone i, not_or] at hNow
    rw [hFrame.head]
    exact hFrame.lane hNow.1 (h.todo i hi hNow.2)

theorem Erasing.congr (h : Erasing front t back gone sl) (hDone : ∀ i, gone' i ↔ gone i) :
    Erasing front t back gone' sl where
  done := fun i hi hNow => h.done i hi ((hDone i).mp hNow)
  todo := fun i hi hNow => h.todo i hi fun hOld => hNow ((hDone i).mpr hOld)

private theorem cells_skip {g : Nat} : cells i g back = bump g (cells i 0 back) := by
  rw [← cells_gap, Nat.zero_add]

/-- The node is taken out of the levels up to its own. -/
theorem eraseLevels_spec (hRecorded : Recorded sl (front ++ t :: back))
    (hLow : t.level < maxSkiplistLevel) (hk : k ≤ t.level + 1)
    (h : Erasing front t back (fun i => k ≤ i ∧ i ≤ t.level) sl) :
    ∃ sl', eraseLevels t.addr k sl = some sl' ∧ Recorded sl' (front ++ t :: back) ∧
      Erasing front t back (fun i => i ≤ t.level) sl' ∧ sl'.head = sl.head ∧
      sl'.random = sl.random := by
  induction k generalizing sl with
  | zero => exact ⟨sl, rfl, hRecorded, h.congr (by omega), rfl, rfl⟩
  | succ k ih =>
      have hLane := h.todo k (by omega) fun hGone => absurd hGone.1 (Nat.not_succ_le_self k)
      rw [cells_at (by omega)] at hLane
      have hUse := @Recorded.use_cells _ sl _ hRecorded k 0
      have hNodup := hRecorded.nodup_cells k 0
      rw [cells_at (by omega)] at hUse hNodup
      obtain ⟨sl₁, hRun₁, hFrame₁, hLane₁⟩ :=
        skiplistEraseNode_spec (by omega) hUse hNodup hLane
      rw [Int.add_sub_cancel, ← cells_skip, ← cells_append] at hLane₁
      have hNow : Erasing front t back (fun i => k ≤ i ∧ i ≤ t.level) sl₁ :=
        h.step hFrame₁ hLane₁ (by omega)
      obtain ⟨sl₂, hRun₂, hRecorded₂, hErasing₂, hHead₂, hRandom₂⟩ :=
        ih (hFrame₁.recorded hRecorded) (by omega) hNow
      refine ⟨sl₂, ?_, hRecorded₂, hErasing₂, hHead₂.trans hFrame₁.head,
        hRandom₂.trans hFrame₁.random⟩
      exact Option.bind_eq_some_iff.mpr ⟨sl₁, hRun₁, hRun₂⟩

/-- A node that is on no level any more is given back. -/
theorem free_spec (hRecorded : Recorded sl (front ++ t :: back))
    (h : Erasing front t back (fun i => i ≤ t.level) sl) :
    ∃ sl', sl.free t.addr = some sl' ∧ Recorded sl' (front ++ back) ∧
      Erasing front t back (fun i => i ≤ t.level) sl' ∧ sl'.random = sl.random := by
  obtain ⟨n, hNode, -, -⟩ := @Recorded.node _ sl _ t hRecorded (by simp)
  have hNodup := hRecorded.nodup
  rw [List.map_append, List.map_cons, ← List.cons_append, List.perm_middle.nodup_iff,
    List.nodup_cons, List.cons_append, ← List.map_append, List.mem_cons, not_or] at hNodup
  obtain ⟨⟨hHead, hOut⟩, -⟩ := hNodup
  let sl' : SkiplistT α := { sl with mem := Function.update sl.mem t.addr none }
  have hFree : sl.free t.addr = some sl' := by
    rw [SkiplistT.free, hNode]
    rfl
  have hLinks : ∀ i b, b ≠ t.addr → sl'.links i b = sl.links i b := by
    intro i b hb
    simp [SkiplistT.links, sl', hb]
  -- a chain without the node is as before
  have hKeep : ∀ i cs, (cs.map Prod.fst).Sublist ((front ++ back).map Tower.addr) →
      Lane sl i sl.head cs → Lane sl' i sl.head cs := by
    intro i cs hSub hLane
    have hNot : ∀ b, b ∈ cs.map Prod.fst → b ≠ t.addr := fun b hb hEq =>
      hOut (hEq ▸ hSub.subset hb)
    apply hLane.congr
    · intro b hb
      rcases List.mem_cons.mp hb with rfl | hb
      · rw [hLinks i sl.head (Ne.symm hHead)]
      · rw [hLinks i b (hNot b hb)]
    · exact fun b hb => by rw [hLinks i b (hNot b hb)]
    · exact fun b hb => by rw [hLinks i b (hNot b hb)]
  refine ⟨sl', hFree, ?_, ⟨?_, ?_⟩, rfl⟩
  · have hRecord : sl'.record = Function.update sl.record t.addr none := by
      funext b
      by_cases hb : b = t.addr
      · subst hb
        simp [SkiplistT.record, sl']
      · simp [SkiplistT.record, sl', hb]
    have hPerm : ((sl.head, 0, none) :: (front ++ t :: back).map Tower.record).Perm
        (t.record :: (sl.head, 0, none) :: (front ++ back).map Tower.record) := by
      refine List.Perm.trans (List.Perm.cons _ ?_) (List.Perm.swap _ _ _)
      exact List.perm_middle.map Tower.record
    have hHolds := hRecorded
    rw [Recorded, Multiset.coe_eq_coe.mpr hPerm, ← Multiset.cons_coe, ← Multiset.singleton_add]
      at hHolds
    rw [Recorded, hRecord]
    exact Holds.free hHolds
  · exact fun i hi hDone => hKeep i _ cells_sublist (h.done i hi hDone)
  · intro i hi hTodo
    have hAbove : t.level < i := Nat.lt_of_not_le hTodo
    have hSame : (cells i 0 (front ++ t :: back)).map Prod.fst =
        (cells i 0 (front ++ back)).map Prod.fst := by
      rw [cells_append, cells_append, cells_cons_of_lt hAbove, List.map_append,
        List.map_append, bump_addrs]
    apply hKeep i _ _ (h.todo i hi hTodo)
    rw [hSame]
    exact cells_sublist

/-- The loop over the nodes where the levels above were left. -/
theorem changeSpans_spec {change : Nat → Option Nat} (hk : k ≤ maxSkiplistLevel)
    (hRecorded : Recorded sl (front ++ back))
    (h : Erasing front t back (fun i => i ≤ t.level) sl)
    (hBelow : ∀ j, j ≤ t.level → change j = none)
    (hAbove : ∀ j, t.level < j → j < maxSkiplistLevel →
      ∀ g, change j = (cells j g back).head?.map Prod.fst) :
    ∃ sl', changeSpans change sl k = some sl' ∧ Recorded sl' (front ++ back) ∧
      Erasing front t back (fun i => i ≤ t.level ∨ i < k) sl' ∧ sl'.head = sl.head ∧
      sl'.random = sl.random := by
  induction k with
  | zero => exact ⟨sl, rfl, hRecorded, h.congr (by omega), rfl, rfl⟩
  | succ k ih =>
      obtain ⟨sl₁, hRun₁, hRecorded₁, hErasing₁, hHead₁, hRandom₁⟩ := ih (by omega)
      by_cases hLevel : k ≤ t.level
      · refine ⟨sl₁, ?_, hRecorded₁, hErasing₁.congr (by omega), hHead₁, hRandom₁⟩
        rw [changeSpans, hRun₁]
        simp only [Option.bind_eq_bind, Option.bind_some, hBelow k hLevel]
        rfl
      · have hLane := hErasing₁.todo k (by omega) fun hGone =>
          hGone.elim hLevel (Nat.lt_irrefl k)
        rw [cells_append, cells_cons_of_lt (by omega)] at hLane
        have hUse := @Recorded.use_cells _ sl₁ _ hRecorded₁ k 0
        have hNodup := hRecorded₁.nodup_cells k 0
        rw [cells_append] at hUse hNodup
        have hSame : ((cells k 0 front ++
            bump 1 (cells k (gap Tower.level k 0 front) back)).map Prod.fst) =
            (cells k 0 front ++ cells k (gap Tower.level k 0 front) back).map Prod.fst := by
          rw [List.map_append, List.map_append, bump_addrs]
        obtain ⟨sl₂, hSet₂, hFrame₂, hLane₂⟩ :=
          bumpNext_spec (k := -1) (f := fun l => { l with span := l.span - 1 }) (by omega)
            (fun b hb => hUse b (by
              rw [bump_addrs] at hb
              rw [List.map_append]
              exact List.mem_cons_of_mem _ (List.mem_append_right _ hb)))
            (by rwa [hSame]) (fun l => rfl) hLane
        rw [bump_bump, Int.add_right_neg, bump_zero, ← cells_append] at hLane₂
        refine ⟨sl₂, ?_, hFrame₂.recorded hRecorded₁, hErasing₁.step hFrame₂ hLane₂ (by omega),
          hFrame₂.head.trans hHead₁, hFrame₂.random.trans hRandom₁⟩
        rw [changeSpans, hRun₁]
        refine Option.bind_eq_some_iff.mpr ⟨sl₁, rfl, ?_⟩
        rw [bump_addrs_head, ← hAbove k (by omega) (by omega)] at hSet₂
        exact hSet₂

end

/-! ## Calls -/

/-- The elements are in order. -/
def Sorted (cmp : α → α → Int) (l : List α) : Prop := l.Pairwise fun a b => cmp a b ≤ 0

section

variable {cmp : α → α → Int} {sl : SkiplistT α} {ts : List (Tower α)} {d : α} {fuel : Nat}

/-- A sorted list has what is smaller than `d` first, then what compares equal, then the rest. -/
theorem sorted_split (hCmp : TotalPreorder cmp) (hSorted : Sorted cmp (ts.map Tower.data)) (d : α) :
    ∃ low same high, ts = low ++ (same ++ high) ∧ (∀ x, x ∈ low → cmp x.data d < 0) ∧
      (∀ x, x ∈ same → cmp x.data d = 0) ∧ ∀ x, x ∈ high → 0 < cmp x.data d := by
  induction ts with
  | nil =>
      refine ⟨[], [], [], rfl, ?_, ?_, ?_⟩ <;> intro x hx <;> cases hx
  | cons t ts ih =>
      rw [Sorted, List.map_cons, List.pairwise_cons] at hSorted
      obtain ⟨low, same, high, rfl, hLow, hSame, hHigh⟩ := ih hSorted.2
      have hFirst : ∀ x, x ∈ low ++ (same ++ high) → cmp t.data x.data ≤ 0 := fun x hx =>
        hSorted.1 x.data (List.mem_map_of_mem hx)
      by_cases hLess : cmp t.data d < 0
      · refine ⟨t :: low, same, high, rfl, ?_, hSame, hHigh⟩
        intro x hx
        rcases List.mem_cons.mp hx with rfl | hx
        · exact hLess
        · exact hLow x hx
      · have hNone : low = [] := by
          rcases low with - | ⟨x, low⟩
          · rfl
          · exact absurd (hCmp.lt_of_le_of_lt (hFirst x (by simp)) (hLow x (by simp))) hLess
        subst hNone
        by_cases hEq : cmp t.data d = 0
        · refine ⟨[], t :: same, high, rfl, hLow, ?_, hHigh⟩
          intro x hx
          rcases List.mem_cons.mp hx with rfl | hx
          · exact hEq
          · exact hSame x hx
        · have hNone : same = [] := by
            rcases same with - | ⟨x, same⟩
            · rfl
            · have hLe := hCmp.le_trans t.data x.data d (hFirst x (by simp))
                (le_of_eq (hSame x (by simp)))
              omega
          subst hNone
          refine ⟨[], [], t :: high, rfl, hLow, hSame, ?_⟩
          intro x hx
          rcases List.mem_cons.mp hx with rfl | hx
          · omega
          · exact hHigh x hx

/-- What is found, with its rank, is what is taken out. -/
theorem skiplistFindErase_spec (hCmp : TotalPreorder cmp) (h : Repr sl ts)
    (hSorted : Sorted cmp (ts.map Tower.data)) (hFuel : ts.length < fuel) (d : α) :
    (skiplistFind cmp fuel sl (some d) = some (none, sl) ∧
        skiplistErase cmp fuel sl (some d) = some (none, sl) ∧ ∀ t, t ∈ ts → cmp t.data d ≠ 0) ∨
      ∃ front t back sl', ts = front ++ t :: back ∧ cmp t.data d = 0 ∧
        skiplistFind cmp fuel sl (some d) =
          some (some (some t.data, (front.length : Int) + 1), sl) ∧
        skiplistErase cmp fuel sl (some d) = some (some t.data, sl') ∧
        Repr sl' (front ++ back) ∧ sl'.random = sl.random := by
  obtain ⟨low, same, high, rfl, hLow, hSame, hHigh⟩ := sorted_split hCmp hSorted d
  have hEnough : low.length < fuel := by
    rw [List.length_append] at hFuel
    omega
  rcases find_spec h hLow hSame hHigh hEnough with
    ⟨us, t, vs, change, rfl, hAbove, hBelow, hRun⟩ | ⟨rfl, prev, span, hRun⟩
  · right
    have hSplit : low ++ (us ++ t :: vs ++ high) = (low ++ us) ++ t :: (vs ++ high) := by
      simp
    have hRecorded := h.recorded
    have hTop := h.low t (by simp)
    have hStart : Erasing (low ++ us) t (vs ++ high)
        (fun i => t.level + 1 ≤ i ∧ i ≤ t.level) sl := by
      refine ⟨fun i _ hGone => absurd (hGone.1.trans hGone.2) (Nat.not_succ_le_self _), ?_⟩
      intro i hi _
      rw [← hSplit]
      exact h.lanes i hi
    rw [hSplit] at hRecorded
    obtain ⟨sl₁, hRun₁, hRecorded₁, hErasing₁, hHead₁, hRandom₁⟩ :=
      eraseLevels_spec hRecorded hTop (le_refl _) hStart
    obtain ⟨sl₂, hRun₂, hRecorded₂, hErasing₂, hRandom₂⟩ := free_spec hRecorded₁ hErasing₁
    have hLeft : ∀ j, t.level < j → j < maxSkiplistLevel →
        ∀ g, change j = (cells j g (vs ++ high)).head?.map Prod.fst := by
      intro j hj hMax g
      obtain ⟨hNone, hNext⟩ := hAbove j hj hMax
      have hVs : Low Tower.level j vs := fun x hx => hNone x (by simp [hx])
      rw [cells_append, cells_low hVs, List.nil_append]
      exact hNext _
    obtain ⟨sl₃, hRun₃, hRecorded₃, hErasing₃, -, hRandom₃⟩ :=
      @changeSpans_spec _ sl₂ (low ++ us) (vs ++ high) t maxSkiplistLevel change (le_refl _)
        hRecorded₂ hErasing₂ hBelow hLeft
    obtain ⟨n, hNode, -, hData⟩ := hRecorded.node (by simp : t ∈ (low ++ us) ++ t :: (vs ++ high))
    have hRank : ((low ++ us).length : Int) + 1 = (low.length : Int) + us.length + 1 := by
      rw [List.length_append]
      omega
    refine ⟨low ++ us, t, vs ++ high, sl₃, hSplit, hSame t (by simp), ?_, ?_, ?_, ?_⟩
    · rw [skiplistFind, skiplistFindErase, hRun, hRank]
      simp only [Option.bind_eq_bind, Option.bind_some, hNode, hData]
      rfl
    · rw [skiplistErase, skiplistFindErase, hRun]
      simp only [Option.bind_eq_bind, Option.bind_some, hNode, hData, if_true, hRun₁, hRun₂, hRun₃]
      rfl
    · exact {
        recorded := hRecorded₃
        low := by
          intro x hx
          apply h.low x
          rw [hSplit]
          rcases List.mem_append.mp hx with hx | hx
          · exact List.mem_append_left _ hx
          · exact List.mem_append_right _ (List.mem_cons_of_mem t hx)
        lanes := fun i hi => hErasing₃.done i hi (Or.inr hi) }
    · rw [hRandom₃, hRandom₂, hRandom₁]
  · left
    refine ⟨?_, ?_, ?_⟩
    · rw [skiplistFind, skiplistFindErase, hRun]
      rfl
    · rw [skiplistErase, skiplistFindErase, hRun]
      rfl
    · intro t ht
      rw [List.nil_append] at ht
      rcases List.mem_append.mp ht with ht | ht
      · have hLess := hLow t ht
        omega
      · have hMore := hHigh t ht
        omega

end

end Gbase.Base.Skiplist
