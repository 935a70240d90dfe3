import Gbase.Base.ConhashRuns

/-!
# Erasing from a consistent hash (`base/conhash.c`)

`conhash_erase` looks for a node by its hash value alone, and takes the node that it finds off the
ring, whichever it is.

Two nodes with one hash value can exist, although only one of them can be on the ring, and a caller
may erase the one that was refused.  So the question is one about histories: the state has to tell
which node stands for a value.

## Main results

* `eraseOnly_iff`: a call erases its own node only exactly if no other node of the same hash value
  is on the ring.
* `conhash_erase_only_iff`: the same along every history.
-/

namespace Gbase.Base.Conhash

open Gbase.Lib.Run

variable {α κ : Type} [DecidableEq α]

/-- What an erasure is to do: its node leaves the ring, and the others stay as they were; without
its node on the ring, nothing changes. -/
def EraseOnly (fuel : Nat) (ch : ConhashT α κ) : Op α κ → Prop
  | .erase (some x) =>
      ∃ xs ch', OnRing ch xs ∧ conhashErase fuel ch (some x) = some ch' ∧
        OnRing ch' (xs.filter fun c => c.2 ≠ x) ∧ (x ∉ nodesOf xs → ch' = ch)
  | _ => True

/-- No other node on the ring has the hash value of the node that is erased. -/
def Alone (ch : ConhashT α κ) : Op α κ → Prop
  | .erase (some x) =>
      ∀ xs, OnRing ch xs → ∀ y ∈ nodesOf xs, ch.nodeHash y = ch.nodeHash x → y = x
  | _ => True

section

variable {ch : ConhashT α κ} {xs front back : List (Nat × α)} {fuel : Nat} {x : α} {c : Nat × α}

/-- The nodes of a ring without one of them. -/
theorem OnRing.filter_middle (h : OnRing ch (front ++ c :: back)) :
    (front ++ c :: back).filter (fun d => d.2 ≠ c.2) = front ++ back := by
  have hIncreasing := h.increasing
  rw [List.pairwise_append, List.pairwise_cons] at hIncreasing
  have hFront : ∀ d, d ∈ front → d.2 ≠ c.2 := by
    intro d hd hEq
    exact (hIncreasing.2.2 d hd c List.mem_cons_self).ne (congrArg ch.place hEq)
  have hBack : ∀ d, d ∈ back → d.2 ≠ c.2 := by
    intro d hd hEq
    exact (hIncreasing.2.1.1 d hd).ne' (congrArg ch.place hEq)
  rw [List.filter_append, List.filter_cons_of_neg (by simp),
    List.filter_eq_self.mpr fun d hd => decide_eq_true (hFront d hd),
    List.filter_eq_self.mpr fun d hd => decide_eq_true (hBack d hd)]

/-- What a call does to a ring, by the node that it finds. -/
theorem eraseOnly_iff (h : OnRing ch xs) (hFuel : xs.length < fuel) (op : Op α κ) :
    EraseOnly fuel ch op ↔ Alone ch op := by
  match op with
  | .add _ _ | .node _ | .erase none => exact Iff.rfl
  | .erase (some x) =>
      rcases conhashErase_spec h hFuel x with
        ⟨hNone, hErase⟩ | ⟨front, c, back, ch', rfl, hSame, hErase, hDone, -, -⟩
      · -- nothing of this hash value is on the ring: both sides hold
        have hOut : ∀ c, c ∈ xs → c.2 ≠ x := fun c hc hEq => hNone c hc (congrArg ch.nodeHash hEq)
        have hKeep : xs.filter (fun c => c.2 ≠ x) = xs :=
          List.filter_eq_self.mpr fun c hc => decide_eq_true (hOut c hc)
        refine iff_of_true ⟨xs, ch, h, hErase, by rwa [hKeep], fun _ => rfl⟩ ?_
        intro ys hys y hy hEq
        rw [hys.unique h] at hy
        obtain ⟨c, hc, rfl⟩ := List.mem_map.mp hy
        exact absurd hEq (hNone c hc)
      · have hIn : c.2 ∈ nodesOf (front ++ c :: back) :=
          List.mem_map_of_mem (List.mem_append_right front List.mem_cons_self)
        constructor
        · rintro ⟨ys, ch₁, hys, hErase₁, hRing, -⟩ zs hzs y hy hEq
          rw [hErase] at hErase₁
          cases hErase₁
          rw [hys.unique h] at hRing
          rw [hzs.unique h] at hy
          have hFound : y = c.2 := h.injOn hy hIn (congrArg UInt32.toNat (hEq.trans hSame.symm))
          -- the node that was found is gone, so the filter has taken it
          have hGone : c ∉ (front ++ c :: back).filter fun d => d.2 ≠ x := by
            rw [hRing.unique hDone, ← h.filter_middle, List.mem_filter]
            simp
          rw [List.mem_filter] at hGone
          rw [hFound]
          by_contra hNe
          exact hGone ⟨List.mem_append_right front List.mem_cons_self, decide_eq_true hNe⟩
        · intro hAlone
          have hEq := hAlone _ h c.2 hIn hSame
          refine ⟨_, ch', h, hErase, ?_, ?_⟩
          · rw [← hEq, h.filter_middle]
            exact hDone
          · intro hOut
            exact absurd (hEq ▸ hIn) hOut

end

/-- In every history, the erasures only erase their own nodes exactly if, at each of them, no other
node of the same hash value is on the ring. -/
theorem conhash_erase_only_iff {keyHash : κ → UInt32} {nodeHash : α → UInt32} {fuel nodeList : Nat}
    {ops : List (Op α κ)} (hFuel : ops.length < fuel)
    (hLegal : Along (conhashStep fuel) Legal (conhashCreate nodeList keyHash nodeHash) ops) :
    Along (conhashStep fuel) (EraseOnly fuel) (conhashCreate nodeList keyHash nodeHash) ops ↔
      Along (conhashStep fuel) Alone (conhashCreate nodeList keyHash nodeHash) ops := by
  apply along_iff_of_counted_inv (Inv keyHash nodeHash) _ _
    (by omega : 0 + ops.length ≤ fuel) (inv_create keyHash nodeHash nodeList) hLegal
  · intro k ch op hk hInv _
    obtain ⟨xs, hRing, hLen⟩ := hInv.ring
    exact eraseOnly_iff hRing (by omega) op
  · intro k ch op out ch' hk hInv hOk _ hStep
    exact inv_step hInv hk hOk hStep

/-- A node comes and goes, and another one stays on the ring. -/
theorem conhash_erase_only_one :
    (Along (conhashStep 9) (EraseOnly 9) noNode [.add (some 7) 101, .erase (some 7)] ↔
      Along (conhashStep 9) Alone noNode [.add (some 7) 101, .erase (some 7)]) ∧
      Along (conhashStep 9) (EraseOnly 9) noNode
        [.add (some 7) 101, .add (some 8) 102, .erase (some 7)] := by
  constructor
  · exact conhash_erase_only_iff (by decide)
      ⟨⟨rfl, rfl⟩, fun _ _ _ => ⟨trivial, fun _ _ _ => trivial⟩⟩
  obtain ⟨ch, xs, hAdd, hRing, hNodes⟩ := @add_other 7 8 (by decide)
  have hLegal := add_legal 7 8 [.erase (some 7)] fun _ => ⟨trivial, fun _ _ _ => trivial⟩
  refine (conhash_erase_only_iff (by decide) hLegal).mpr ?_
  refine (along_cons (add_one 7)).mpr ⟨trivial, (along_cons hAdd).mpr ⟨trivial, ?_,
    fun _ _ _ => trivial⟩⟩
  intro ys hys y hy hEq
  rw [hys.unique hRing, hNodes] at hy
  have hHash : ch.nodeHash = fun x => UInt32.ofNat (x % 2) := by
    cases hAdd
    rfl
  rcases hy with rfl | rfl
  · rw [hHash] at hEq
    exact absurd hEq (by decide)
  · rfl

private theorem add_nine :
    conhashStep 9 (ringOf 7) (.add (some 9) 102) = some (.res (-1), ringOf 7) := by
  have hNew : (ringOf 7).Unused 102 := ⟨rfl, rfl⟩
  rcases conhashAdd_spec (ringOf_ring 7) hNew (by decide : [(101, 7)].length < 9) 9 with
    ⟨-, hAdd⟩ | ⟨hNone, -⟩
  · rw [conhashStep, hAdd]
    rfl
  · exact absurd rfl (hNone (101, 7) List.mem_cons_self)

/-- The node 9 is refused because 7 has its hash value, and erasing 9 takes 7 off the ring. -/
theorem conhash_erase_other :
    Along (conhashStep 9) Legal noNode
        [.add (some 7) 101, .add (some 9) 102, .erase (some 9)] ∧
      (run (conhashStep 9) noNode [.add (some 7) 101, .add (some 9) 102, .node (some 1),
        .erase (some 9), .node (some 1)]).map Prod.fst =
          some [.res 0, .res (-1), .data (some 7), .done, .data none] ∧
      ¬ Along (conhashStep 9) (EraseOnly 9) noNode
        [.add (some 7) 101, .add (some 9) 102, .erase (some 9)] := by
  refine ⟨(along_cons (add_one 7)).mpr ⟨⟨rfl, rfl⟩, ?_⟩, by rfl, ?_⟩
  · exact ⟨⟨rfl, rfl⟩, fun _ _ _ => ⟨trivial, fun _ _ _ => trivial⟩⟩
  · intro hAlong
    have hErase := ((hAlong.tail (add_one 7)).tail add_nine).head
    have hAlone := (eraseOnly_iff (ringOf_ring 7) (by decide) _).mp hErase
    have hEq := hAlone [(101, 7)] (ringOf_ring 7) 7 (by simp [nodesOf]) rfl
    cases hEq

end Gbase.Base.Conhash
