import Gbase.Lib.Run
import Gbase.Net.Serialize

/-!
# Values that are read back as they were written (`net/serialize.c`)

Whatever writes put into the buffer one behind the other, reads from the same place on get back.
For values of fixed width this holds of all writes.  A text is put to the start of the buffer
instead of behind its length, and read from the fifth cell on, so that it is read back only if the
bytes there are the same by chance.

## Main results

* `run_writes`, `run_reads`: writes that each lay their value behind the cursor, and reads.
* `fixed_round_trip`: values of fixed width.
* `text_round_trip_iff`: when a text is laid where it belongs and read back.
-/

namespace Gbase.Net.Serialize

open Gbase.Core.OsDef
open Gbase.Lib.Bytes
open Gbase.Lib.Ring
open Gbase.Lib.Run

/-! ## What lies in the buffer -/

/-- How values lie in the buffer: the number of their cells, and what it means that a value lies
behind a cursor, which depends on no cell behind its last. -/
structure Layout (α : Type) where
  length : α → Nat
  At : (Nat → Int8) → Nat → α → Prop
  congr : ∀ {buffer buffer' : Nat → Int8} {cur : Nat} {x : α},
    (∀ j, j < cur + length x → buffer' j = buffer j) → At buffer cur x → At buffer' cur x

/-- The operations that returned 0. -/
def accepted {α : Type} : List Int → List α → List α
  | res :: results, x :: xs =>
      if res = 0 then x :: accepted results xs else accepted results xs
  | _, _ => []

section

variable {α β ρ : Type} (l : Layout α)

/-- The number of cells of some values. -/
def Layout.total (xs : List α) : Nat := (xs.map l.length).sum

/-- Some values lie one behind the other. -/
def Layout.All (buffer : Nat → Int8) : Nat → List α → Prop
  | _, [] => True
  | cur, x :: xs => l.At buffer cur x ∧ Layout.All buffer (cur + l.length x) xs

/-- A write lays its value behind the cursor and leaves all other cells alone, or it fails and
changes nothing. -/
def Layout.Puts (s : SerialT) (x : α) (res : Int) (t : SerialT) : Prop :=
  if s.cur + l.length x ≤ s.size then
    res = 0 ∧ t.size = s.size ∧ t.cur = s.cur + l.length x ∧ l.At t.buffer s.cur x ∧
      ∀ j, j < s.cur ∨ t.cur ≤ j → t.buffer j = s.buffer j
  else res = -1 ∧ t = s

/-- A read into a place that fits gets the value that lies behind the cursor. -/
def Layout.Gets (read : Step SerialT β ρ) (Fits : α → β → Prop) (out : α → β → ρ) : Prop :=
  ∀ s x dest, Valid s → s.cur + l.length x ≤ s.size → l.At s.buffer s.cur x → Fits x dest →
    read s dest = some (out x dest, { s with cur := s.cur + l.length x })

variable {l} {write : Step SerialT α Int} {read : Step SerialT β ρ} {Fits : α → β → Prop}
  {out : α → β → ρ} {s t : SerialT}

theorem Layout.Puts.valid {x : α} {res : Int} (h : Valid s) (hPuts : l.Puts s x res t) :
    Valid t := by
  rw [Layout.Puts] at hPuts
  split at hPuts
  · rename_i hFits
    obtain ⟨-, hSize, hCur, -⟩ := hPuts
    exact ⟨by rw [hCur, hSize]; exact hFits, by rw [hSize]; exact h.size_lt⟩
  · rw [hPuts.2]
    exact h

/-- Writes one after the other lay the accepted values one behind the other. -/
theorem run_writes {xs : List α} (h : Valid s)
    (hPuts : Along write (Does write l.Puts) s xs) :
    ∃ results t, run write s xs = some (results, t) ∧ Valid t ∧ t.size = s.size ∧
      t.cur = s.cur + l.total (accepted results xs) ∧
      l.All t.buffer s.cur (accepted results xs) ∧
      ∀ j, j < s.cur ∨ t.cur ≤ j → t.buffer j = s.buffer j := by
  induction xs generalizing s with
  | nil => exact ⟨[], s, rfl, h, rfl, rfl, trivial, fun _ _ => rfl⟩
  | cons x xs ih =>
      obtain ⟨res, s', hStep, hDone⟩ := hPuts.head
      have hValid := hDone.valid h
      obtain ⟨results, t, hRun, hValidT, hSize, hCur, hAll, hFrame⟩ :=
        ih hValid (hPuts.tail hStep)
      refine ⟨res :: results, t, run_cons hStep hRun, hValidT, ?_⟩
      rw [Layout.Puts] at hDone
      split at hDone
      · obtain ⟨rfl, hSize', hCur', hAt, hFrame'⟩ := hDone
        rw [accepted, if_pos rfl, Layout.total, List.map_cons, List.sum_cons, Layout.All]
        rw [Layout.total] at hCur
        rw [hCur'] at hAll hCur hFrame hFrame'
        refine ⟨hSize.trans hSize', by omega, ⟨?_, hAll⟩, ?_⟩
        · exact l.congr (fun j hj => hFrame j (Or.inl hj)) hAt
        · intro j hj
          rw [hFrame j (by omega), hFrame' j (by omega)]
      · obtain ⟨rfl, rfl⟩ := hDone
        rw [accepted, if_neg (by decide)]
        exact ⟨hSize, hCur, hAll, hFrame⟩

/-- Reads one after the other get the values that lie there one behind the other. -/
theorem run_reads (hGets : l.Gets read Fits out) {xs : List α} {dests : List β}
    (h : Valid s) (hAll : l.All s.buffer s.cur xs)
    (hRoom : s.cur + l.total xs ≤ s.size) (hFits : List.Forall₂ Fits xs dests) :
    run read s dests =
      some (List.zipWith out xs dests, { s with cur := s.cur + l.total xs }) := by
  induction hFits generalizing s with
  | nil => rfl
  | @cons x dest xs dests hHead hRest ih =>
      rw [Layout.total, List.map_cons, List.sum_cons] at hRoom ⊢
      have hStep := hGets s x dest h (by omega) hAll.1 hHead
      have hTail := @ih { s with cur := s.cur + l.length x }
        ⟨by show s.cur + l.length x ≤ s.size; omega, h.size_lt⟩ hAll.2
        (by show s.cur + l.length x + l.total xs ≤ s.size; rw [Layout.total]; omega)
      rw [run_cons hStep hTail, List.zipWith_cons_cons, Layout.total, Nat.add_assoc]

/-- What was written is read back from where it starts. -/
theorem Layout.round_trip {xs : List α} (h : Valid s)
    (hPuts : Along write (Does write l.Puts) s xs) (hGets : l.Gets read Fits out) :
    ∃ results t, run write s xs = some (results, t) ∧ t.size = s.size ∧ t.cur ≤ t.size ∧
      (∀ j, j < s.cur ∨ t.cur ≤ j → t.buffer j = s.buffer j) ∧
      ∀ dests, List.Forall₂ Fits (accepted results xs) dests →
        run read { t with cur := s.cur } dests =
          some (List.zipWith out (accepted results xs) dests, t) := by
  obtain ⟨results, t, hRun, hValid, hSize, hCur, hAll, hFrame⟩ := run_writes h hPuts
  have hStart : Valid { t with cur := s.cur } :=
    ⟨by show s.cur ≤ t.size; rw [hSize]; exact h.cur_le, hValid.size_lt⟩
  refine ⟨results, t, hRun, hSize, hValid.cur_le, hFrame, ?_⟩
  intro dests hFits
  rw [run_reads hGets hStart hAll (by rw [← hCur]; exact hValid.cur_le) hFits, ← hCur]

end

/-! ## Values of fixed width -/

theorem slice_congr {buffer buffer' : Nat → Int8} {start count bound : Nat}
    (h : ∀ j, j < bound → buffer' j = buffer j) (hBound : start + count ≤ bound) :
    slice buffer' start count = slice buffer start count :=
  (slice_eq_iff start).mpr fun i hi => h (start + i) (by omega)

/-- A value lies in as many cells as it has bytes, in the byte order of the build. -/
def fixedLayout (os : OsEndian) : Layout Fixed where
  length := Fixed.width
  At buffer cur v := slice buffer cur v.width = v.cells os
  congr := by
    intro buffer buffer' cur v hSame hAt
    rw [slice_congr hSame (Nat.le_refl _)]
    exact hAt

/-- A read of fixed width, with what it returns and the new `*dest`. -/
def readFixed (os : OsEndian) (s : SerialT) (dest : Fixed) : Option ((Int × Fixed) × SerialT) :=
  (serialReadFixed os s dest).map fun (res, dest, s) => ((res, dest), s)

section

variable {os : OsEndian} {s : SerialT}

theorem push_outside {cells : List Int8} {j : Nat} (h : j < s.cur ∨ s.cur + cells.length ≤ j) :
    (s.push cells).buffer j = s.buffer j := splice_outside h

/-- Every write of fixed width lays its value behind the cursor. -/
theorem serialWriteFixed_puts (os : OsEndian) (h : Valid s) (v : Fixed) :
    Does (serialWriteFixed os) (fixedLayout os).Puts s v := by
  have hWrite := serialWriteFixed_eq os h v
  by_cases hFits : s.cur + v.width ≤ s.size
  · rw [if_pos hFits] at hWrite
    have hAt := @slice_splice_self _ s.buffer (v.cells os) s.cur
    rw [Fixed.length_cells] at hAt
    refine ⟨0, s.push (v.cells os), hWrite, ?_⟩
    rw [Layout.Puts, if_pos (show s.cur + (fixedLayout os).length v ≤ s.size from hFits)]
    refine ⟨rfl, rfl, ?_, hAt, fun j hj => push_outside hj⟩
    rw [cur_push, Fixed.length_cells]
    rfl
  · rw [if_neg hFits] at hWrite
    refine ⟨-1, s, hWrite, ?_⟩
    rw [Layout.Puts, if_neg (show ¬ s.cur + (fixedLayout os).length v ≤ s.size from hFits)]
    exact ⟨rfl, rfl⟩

/-- Every read of fixed width gets the value that lies behind the cursor. -/
theorem readFixed_gets (os : OsEndian) :
    (fixedLayout os).Gets (readFixed os) (fun v dest => dest.width = v.width)
      (fun v _ => (0, v)) := by
  intro s v dest h hRoom hAt hWidth
  change slice s.buffer s.cur v.width = v.cells os at hAt
  rw [readFixed, serialReadFixed_eq os h, hWidth, if_pos (by exact hRoom), hAt,
    Fixed.read_cells hWidth]
  rfl

theorem along_puts (os : OsEndian) (h : Valid s) (vs : List Fixed) :
    Along (serialWriteFixed os) (Does (serialWriteFixed os) (fixedLayout os).Puts) s vs := by
  apply along_of_spec Valid _ h (along_true s vs)
  intro s v hs _
  obtain ⟨res, t, hStep, hPuts⟩ := serialWriteFixed_puts os hs v
  exact ⟨res, t, hStep, hPuts, hPuts.valid hs⟩

theorem zipWith_const {α β ρ : Type} {Fits : α → β → Prop} {f : α → ρ} {xs : List α}
    {ys : List β} (h : List.Forall₂ Fits xs ys) :
    List.zipWith (fun x _ => f x) xs ys = xs.map f := by
  induction h with
  | nil => rfl
  | cons _ _ ih => rw [List.zipWith_cons_cons, ih, List.map_cons]

/-- Values of fixed width, written with the calls of the little-endian build, are read back by the
calls of the same widths: the accepted ones, in the same order.  Each write puts the bytes in
network order behind the cursor and changes no other, and a call without room changes nothing. -/
theorem fixed_round_trip (h : Valid s) (vs : List Fixed) :
    Along (serialWriteFixed .little)
        (Does (serialWriteFixed .little) (fixedLayout .little).Puts) s vs ∧
      (∀ dest, s.size < s.cur + dest.width →
        serialReadFixed .little s dest = some (-1, dest, s)) ∧
      ∃ results t, run (serialWriteFixed .little) s vs = some (results, t) ∧
        t.size = s.size ∧ t.cur ≤ t.size ∧
        (∀ j, j < s.cur ∨ t.cur ≤ j → t.buffer j = s.buffer j) ∧
        ∀ dests, List.Forall₂ (fun v dest => dest.width = v.width) (accepted results vs) dests →
          run (readFixed .little) { t with cur := s.cur } dests =
            some ((accepted results vs).map fun v => (0, v), t) := by
  have hPuts := along_puts .little h vs
  refine ⟨hPuts, ?_, ?_⟩
  · intro dest hNone
    rw [serialReadFixed_eq .little h, if_neg (by omega)]
  · obtain ⟨results, t, hRun, hSize, hCur, hFrame, hBack⟩ :=
      Layout.round_trip h hPuts (readFixed_gets .little)
    refine ⟨results, t, hRun, hSize, hCur, hFrame, ?_⟩
    intro dests hWidths
    rw [hBack dests hWidths, zipWith_const hWidths]

end

/-- Two of three values fit seven cells, and are read back. -/
theorem fixed_round_trip_three :
    ∃ t, run (serialWriteFixed .little) (serialCreate (fun _ => -1) 7)
        [Fixed.u16 0x8001, Fixed.u64 5, Fixed.u32 0xfffefdfc] = some ([0, -1, 0], t) ∧
      run (readFixed .little) { t with cur := 0 } [Fixed.u16 0, Fixed.u32 0] =
        some ([(0, Fixed.u16 0x8001), (0, Fixed.u32 0xfffefdfc)], t) := by
  obtain ⟨-, -, results, t, hRun, -, -, -, hBack⟩ :=
    @fixed_round_trip (serialCreate (fun _ => -1) 7) ⟨by decide, by decide⟩
      [Fixed.u16 0x8001, Fixed.u64 5, Fixed.u32 0xfffefdfc]
  have hResults : (run (serialWriteFixed .little) (serialCreate (fun _ => -1) 7)
      [Fixed.u16 0x8001, Fixed.u64 5, Fixed.u32 0xfffefdfc]).map Prod.fst =
        some [0, -1, 0] := by decide
  rw [hRun, Option.map_some, Option.some.injEq] at hResults
  subst hResults
  exact ⟨t, hRun, hBack [.u16 0, .u32 0] (.cons rfl (.cons rfl .nil))⟩

/-! ## Texts -/

/-- A text whose length is a `uint32_t`. -/
structure Text where
  chars : List Int8
  length_lt : chars.length < 2 ^ 32

def Text.len (d : Text) : UInt32 := UInt32.ofNat d.chars.length

/-- The cells that belong behind the cursor: the length, and the text behind it. -/
def Text.cells (os : OsEndian) (d : Text) : List Int8 := (Fixed.u32 d.len).cells os ++ d.chars

/-- A text is put behind the cursor, all other cells are left alone, and it is read back. -/
def TextRoundTrip (os : OsEndian) (s : SerialT) (d : Text) : Prop :=
  ∃ t, serialWriten os s d.chars d.len = some (0, t) ∧ t.size = s.size ∧
    t.cur = s.cur + (4 + d.chars.length) ∧
    slice t.buffer s.cur (4 + d.chars.length) = d.cells os ∧
    (∀ j, j < s.cur ∨ t.cur ≤ j → t.buffer j = s.buffer j) ∧
    ∀ data len, d.chars.length ≤ data.length →
      ∃ u, serialReadn os { t with cur := s.cur } data len =
        some (0, d.chars ++ data.drop d.chars.length, d.len, u)

/-- What belongs before a text: the cells up to the cursor, and the length. -/
def Text.before (os : OsEndian) (s : SerialT) (d : Text) : List Int8 :=
  slice s.buffer 0 s.cur ++ (Fixed.u32 d.len).cells os

/-- The bytes are the right ones by chance: the text is what belongs at the start of the buffer,
it stands at its place already where the start of the buffer does not reach, and it is what belongs
from the fifth cell on. -/
structure Settled (os : OsEndian) (s : SerialT) (d : Text) : Prop where
  start : d.chars <+: d.before os s ++ d.chars
  place : ∀ i, i < d.chars.length → d.chars.length ≤ s.cur + 4 + i →
    some (s.buffer (s.cur + 4 + i)) = d.chars[i]?
  behind : d.chars <+: (d.before os s ++ d.chars).drop 4

section

variable {os : OsEndian} {s : SerialT} {d : Text}

theorem Text.toNat_len (d : Text) : d.len.toNat = d.chars.length := by
  rw [Text.len, UInt32.toNat_ofNat']
  exact Nat.mod_eq_of_lt d.length_lt

@[simp] theorem Text.length_before (os : OsEndian) (s : SerialT) (d : Text) :
    (d.before os s).length = s.cur + 4 := by
  rw [Text.before, List.length_append, length_slice, Fixed.length_cells]
  rfl

/-- The buffer after a write of a text. -/
def Text.written (os : OsEndian) (s : SerialT) (d : Text) : Nat → Int8 :=
  splice (splice s.buffer s.cur ((Fixed.u32 d.len).cells os)) 0 d.chars

theorem Text.written_start {j : Nat} (h : j < d.chars.length) :
    d.written os s j = d.chars[j] := by
  have hInside := @splice_inside _
      (splice s.buffer s.cur ((Fixed.u32 d.len).cells os)) d.chars 0 j h
  rw [Nat.zero_add] at hInside
  exact hInside

theorem Text.written_behind {j : Nat} (h : d.chars.length ≤ j) :
    d.written os s j = splice s.buffer s.cur ((Fixed.u32 d.len).cells os) j :=
  splice_outside (Or.inr (by omega))

/-- Behind the text nothing is written. -/
theorem Text.written_outside {j : Nat} (h : s.cur + (4 + d.chars.length) ≤ j) :
    d.written os s j = s.buffer j := by
  rw [Text.written_behind (by omega)]
  exact splice_outside (Or.inr (by rw [Fixed.length_cells]; show s.cur + 4 ≤ j; omega))

/-- The cells before the text, once the length is put. -/
theorem Text.before_eq (os : OsEndian) (s : SerialT) (d : Text) :
    slice (splice s.buffer s.cur ((Fixed.u32 d.len).cells os)) 0 (s.cur + 4) = d.before os s := by
  have hCells := @slice_splice_self _ s.buffer ((Fixed.u32 d.len).cells os) s.cur
  rw [Fixed.length_cells] at hCells
  rw [slice_add, slice_splice_before (by omega), Nat.zero_add, Text.before]
  exact congrArg _ hCells

/-- What was written is what belongs there, if and only if the text is what belongs at the start
of the buffer and stands at its place where the start does not reach. -/
theorem Text.written_iff (os : OsEndian) (s : SerialT) (d : Text) :
    slice (d.written os s) 0 (s.cur + 4 + d.chars.length) = d.before os s ++ d.chars ↔
      d.chars <+: d.before os s ++ d.chars ∧
        ∀ i, i < d.chars.length → d.chars.length ≤ s.cur + 4 + i →
          some (s.buffer (s.cur + 4 + i)) = d.chars[i]? := by
  constructor
  · intro hAll
    have hTake := @take_slice _ (d.written os s) 0 d.chars.length
      (s.cur + 4 + d.chars.length) (by omega)
    rw [hAll] at hTake
    refine ⟨?_, ?_⟩
    · have hStart := @slice_splice_self _ (splice s.buffer s.cur ((Fixed.u32 d.len).cells os))
        d.chars 0
      change slice (d.written os s) 0 d.chars.length = d.chars at hStart
      exact List.prefix_iff_eq_take.mpr (hTake.trans hStart).symm
    · intro i hi hBehind
      have hCell : (slice (d.written os s) 0 (s.cur + 4 + d.chars.length))[s.cur + 4 + i]? =
          (d.before os s ++ d.chars)[s.cur + 4 + i]? := by rw [hAll]
      rw [getElem?_slice 0 (by omega), Nat.zero_add, Text.written_behind hBehind,
        splice_outside (Or.inr (by rw [Fixed.length_cells]; show s.cur + 4 ≤ _; omega)),
        List.getElem?_append_right (by rw [Text.length_before]; omega), Text.length_before,
        Nat.add_sub_cancel_left] at hCell
      exact hCell
  · rintro ⟨hStart, hPlace⟩
    rw [List.prefix_iff_getElem?] at hStart
    apply List.ext_getElem?
    intro i
    by_cases hAll : i < s.cur + 4 + d.chars.length
    · rw [getElem?_slice 0 hAll, Nat.zero_add]
      by_cases hText : i < d.chars.length
      · rw [hStart i hText, Text.written_start hText]
      · rw [Text.written_behind (by omega)]
        by_cases hHead : i < s.cur + 4
        · have hSlice := @getElem?_slice _ (s.cur + 4)
            (splice s.buffer s.cur ((Fixed.u32 d.len).cells os)) 0 i hHead
          rw [Text.before_eq, Nat.zero_add] at hSlice
          rw [List.getElem?_append_left (by rwa [Text.length_before]), hSlice]
        · obtain ⟨k, rfl⟩ := Nat.exists_eq_add_of_le (Nat.le_of_not_lt hHead)
          rw [splice_outside (Or.inr (by rw [Fixed.length_cells]; show s.cur + 4 ≤ _; omega)),
            List.getElem?_append_right (by rw [Text.length_before]; omega), Text.length_before,
            Nat.add_sub_cancel_left]
          exact hPlace k (by omega) (by omega)
    · rw [List.getElem?_eq_none (by rw [length_slice]; omega),
        List.getElem?_eq_none (by rw [List.length_append, Text.length_before]; omega)]

/-- Reading what lies behind the cursor. -/
theorem serialReadn_text {data : List Int8} (len : UInt32) (h : Valid s)
    (hFits : s.cur + (4 + d.chars.length) ≤ s.size) (hRoom : d.chars.length ≤ data.length)
    (hAt : slice s.buffer s.cur (4 + d.chars.length) = d.cells os) :
    serialReadn os s data len =
      some (0, slice s.buffer 4 d.chars.length ++ data.drop d.chars.length, d.len,
        { s with cur := toSize (s.cur + (4 + d.len).toNat) }) := by
  have hLen : slice s.buffer s.cur 4 = (Fixed.u32 d.len).cells os := by
    rw [← take_slice s.cur (Nat.le_add_right 4 d.chars.length), hAt, Text.cells]
    exact List.take_left' (Fixed.length_cells os (Fixed.u32 d.len))
  have hRead := @serialReadn_eq s os d.len data len h (by rw [Text.toNat_len]; omega)
    (by rw [Text.toNat_len]; exact hRoom) hLen
  rw [Text.toNat_len] at hRead
  exact hRead

/-- The write of a text that fits. -/
theorem serialWriten_text (os : OsEndian) (h : Valid s)
    (hFits : s.cur + (4 + d.chars.length) ≤ s.size) :
    serialWriten os s d.chars d.len =
      some (0, { s with buffer := d.written os s, cur := s.cur + (4 + d.chars.length) }) := by
  rw [serialWriten_eq os h d.toNat_len, if_pos (by omega), Nat.add_assoc]
  rfl

/-- The cells that are read, among those up to the end of the text. -/
theorem Text.slice_behind (os : OsEndian) (s : SerialT) (d : Text) :
    slice (d.written os s) 4 d.chars.length =
      ((slice (d.written os s) 0 (s.cur + 4 + d.chars.length)).drop 4).take d.chars.length := by
  rw [show s.cur + 4 + d.chars.length = 4 + (s.cur + d.chars.length) by omega, drop_slice,
    take_slice 4 (by omega)]

/-- A text whose bytes are the right ones by chance lies where it belongs, and where it is read. -/
theorem Settled.laid (hSettled : Settled os s d) :
    slice (d.written os s) s.cur (4 + d.chars.length) = d.cells os ∧
      slice (d.written os s) 4 d.chars.length = d.chars ∧
      ∀ j, j < s.cur ∨ s.cur + (4 + d.chars.length) ≤ j → d.written os s j = s.buffer j := by
  have hAll := (Text.written_iff os s d).mpr ⟨hSettled.start, hSettled.place⟩
  have hParts : slice (d.written os s) 0 s.cur ++
      slice (d.written os s) s.cur (4 + d.chars.length) =
        slice s.buffer 0 s.cur ++ d.cells os := by
    have hSplit := @slice_add _ (d.written os s) 0 s.cur (4 + d.chars.length)
    rw [Nat.zero_add, ← Nat.add_assoc s.cur] at hSplit
    rw [← hSplit, hAll, Text.before, Text.cells, List.append_assoc]
  obtain ⟨hLow, hCells⟩ := List.append_inj hParts (by rw [length_slice, length_slice])
  refine ⟨hCells, ?_, ?_⟩
  · have hRead := hSettled.behind
    rw [List.prefix_iff_eq_take, ← hAll] at hRead
    rw [Text.slice_behind]
    exact hRead.symm
  · rintro j (hBefore | hAfter)
    · have hCell := (slice_eq_iff 0).mp hLow j hBefore
      rwa [Nat.zero_add] at hCell
    · exact Text.written_outside hAfter

/-- A text that fits is put where it belongs and read back if and only if its bytes are the right
ones by chance. -/
theorem text_round_trip_iff (h : Valid s) (hFits : s.cur + (4 + d.chars.length) ≤ s.size) :
    TextRoundTrip os s d ↔ Settled os s d := by
  have hWrite := serialWriten_text os h hFits
  have hStarted : Valid { s with buffer := d.written os s } := ⟨h.cur_le, h.size_lt⟩
  constructor
  · rintro ⟨t, hDone, -, -, hCells, hFrame, hBack⟩
    rw [hWrite] at hDone
    cases hDone
    have hLow : slice (d.written os s) 0 s.cur = slice s.buffer 0 s.cur :=
      slice_congr (fun j hj => hFrame j (Or.inl hj)) (by omega)
    have hAll : slice (d.written os s) 0 (s.cur + 4 + d.chars.length) =
        d.before os s ++ d.chars := by
      rw [Nat.add_assoc, slice_add, Nat.zero_add, hLow, Text.before, List.append_assoc]
      exact congrArg _ hCells
    obtain ⟨hStart, hPlace⟩ := (Text.written_iff os s d).mp hAll
    refine ⟨hStart, hPlace, ?_⟩
    obtain ⟨u, hRead⟩ := hBack d.chars 0 (Nat.le_refl _)
    have hGets := @serialReadn_text os _ d d.chars 0 hStarted hFits (Nat.le_refl _) hCells
    change serialReadn os { s with buffer := d.written os s } _ _ = _ at hRead
    rw [hGets] at hRead
    simp only [List.drop_length, List.append_nil, Option.some.injEq, Prod.mk.injEq,
        true_and] at hRead
    rw [List.prefix_iff_eq_take, ← hAll, ← Text.slice_behind]
    exact hRead.1.symm
  · intro hSettled
    obtain ⟨hCells, hRead, hFrame⟩ := hSettled.laid
    refine ⟨_, hWrite, rfl, rfl, hCells, hFrame, ?_⟩
    intro data len hRoom
    have hGets := @serialReadn_text os _ d data len hStarted hFits hRoom hCells
    change serialReadn os { s with buffer := d.written os s } _ _ = _ at hGets
    rw [hRead] at hGets
    exact ⟨_, hGets⟩

end

/-! ## Values and texts in any order -/

/-- What is written. -/
inductive Item where
  | fixed (v : Fixed)
  | text (d : Text)

/-- Where it is read to: `*dest`, or the memory of a text and `*len`. -/
inductive Dest where
  | fixed (dest : Fixed)
  | text (data : List Int8) (len : UInt32)

def writeItem (os : OsEndian) (s : SerialT) : Item → Option (Int × SerialT)
  | .fixed v => serialWriteFixed os s v
  | .text d => serialWriten os s d.chars d.len

def readItem (os : OsEndian) (s : SerialT) : Dest → Option ((Int × Dest) × SerialT)
  | .fixed dest => (readFixed os s dest).map fun ((res, dest), s) => ((res, .fixed dest), s)
  | .text data len =>
      (serialReadn os s data len).map fun (res, data, len, s) => ((res, .text data len), s)

/-- The place is one for what is read: of the same width, or with room for the text. -/
def Item.Fits : Item → Dest → Prop
  | .fixed v, .fixed dest => dest.width = v.width
  | .text d, .text data _ => d.chars.length ≤ data.length
  | _, _ => False

/-- What the read returns and leaves in the place when it gets what was written. -/
def Item.got : Item → Dest → Int × Dest
  | .fixed v, _ => (0, .fixed v)
  | .text d, .text data _ => (0, .text (d.chars ++ data.drop d.chars.length) d.len)
  | .text d, .fixed _ => (0, .text d.chars d.len)

/-- A text lies behind its length and from the fifth cell of the buffer on, and the sum by which
the read moves the cursor does not wrap around. -/
def itemLayout (os : OsEndian) : Layout Item where
  length
    | .fixed v => v.width
    | .text d => 4 + d.chars.length
  At buffer cur
    | .fixed v => slice buffer cur v.width = v.cells os
    | .text d =>
        slice buffer cur (4 + d.chars.length) = d.cells os ∧
          slice buffer 4 d.chars.length = d.chars ∧ 4 + d.chars.length < 2 ^ 32
  congr := by
    intro buffer buffer' cur item hSame hAt
    cases item with
    | fixed v => exact (fixedLayout os).congr hSame hAt
    | text d =>
        obtain ⟨hCells, hRead, hShort⟩ := hAt
        have hBound := fun j (hj : j < cur + (4 + d.chars.length)) => hSame j hj
        refine ⟨?_, ?_, hShort⟩
        · rw [slice_congr hBound (Nat.le_refl _)]
          exact hCells
        · rw [slice_congr hBound (by omega)]
          exact hRead

/-- The bytes of a text that fits are the right ones by chance, and it is not so long that the
cursor of the read wraps around. -/
def Meets (os : OsEndian) (s : SerialT) : Item → Prop
  | .fixed _ => True
  | .text d =>
      s.cur + (4 + d.chars.length) ≤ s.size → Settled os s d ∧ 4 + d.chars.length < 2 ^ 32

section

variable {os : OsEndian} {s : SerialT} {item : Item}

private theorem writeItem_puts (h : Valid s) (hMeets : Meets os s item) :
    Does (writeItem os) (itemLayout os).Puts s item := by
  cases item with
  | fixed v => exact serialWriteFixed_puts os h v
  | text d =>
      by_cases hFits : s.cur + (4 + d.chars.length) ≤ s.size
      · obtain ⟨hSettled, hShort⟩ := hMeets hFits
        obtain ⟨hCells, hRead, hFrame⟩ := hSettled.laid
        refine ⟨_, _, serialWriten_text os h hFits, ?_⟩
        rw [Layout.Puts, if_pos (show s.cur + (itemLayout os).length (.text d) ≤ s.size from hFits)]
        exact ⟨rfl, rfl, rfl, ⟨hCells, hRead, hShort⟩, hFrame⟩
      · have hWrite := serialWriten_eq os h d.toNat_len
        rw [if_neg (by omega)] at hWrite
        refine ⟨_, _, hWrite, ?_⟩
        rw [Layout.Puts,
          if_neg (show ¬ s.cur + (itemLayout os).length (.text d) ≤ s.size from hFits)]
        exact ⟨rfl, rfl⟩

private theorem readItem_gets (os : OsEndian) :
    (itemLayout os).Gets (readItem os) Item.Fits Item.got := by
  intro s item dest h hRoom hAt hFits
  cases item with
  | fixed v =>
      cases dest with
      | fixed dest =>
          rw [readItem, readFixed_gets os s v dest h hRoom hAt hFits]
          rfl
      | text data len => exact hFits.elim
  | text d =>
      cases dest with
      | fixed dest => exact hFits.elim
      | text data len =>
          obtain ⟨hCells, hRead, hShort⟩ := hAt
          change s.cur + (4 + d.chars.length) ≤ s.size at hRoom
          have hSum : (4 + d.len).toNat = 4 + d.chars.length := by
            rw [UInt32.toNat_add, d.toNat_len]
            exact Nat.mod_eq_of_lt hShort
          have hSize := h.size_lt
          have hCur : toSize (s.cur + (4 + d.len).toNat) = s.cur + (4 + d.chars.length) := by
            rw [hSum]
            exact toSize_eq (by omega)
          rw [readItem, serialReadn_text len h hRoom hFits hCells, hRead, hCur]
          rfl

/-- Values and texts in any order are read back as they were written, as long as the bytes of
every text are the right ones by chance. -/
theorem items_round_trip {items : List Item} (h : Valid s)
    (hMeets : Along (writeItem os) (Meets os) s items) :
    ∃ results t, run (writeItem os) s items = some (results, t) ∧ t.size = s.size ∧
      t.cur ≤ t.size ∧ (∀ j, j < s.cur ∨ t.cur ≤ j → t.buffer j = s.buffer j) ∧
      ∀ dests, List.Forall₂ Item.Fits (accepted results items) dests →
        run (readItem os) { t with cur := s.cur } dests =
          some (List.zipWith Item.got (accepted results items) dests, t) := by
  have hPuts : Along (writeItem os) (Does (writeItem os) (itemLayout os).Puts) s items := by
    apply along_of_spec Valid _ h hMeets
    intro s item hs hMeets
    obtain ⟨res, t, hStep, hPuts⟩ := writeItem_puts hs hMeets
    exact ⟨res, t, hStep, hPuts, hPuts.valid hs⟩
  exact Layout.round_trip h hPuts (readItem_gets os)

/-- A text that fits is put where it belongs and read back if and only if its bytes are the right
ones by chance; values and texts in any order are read back if this is so of every text. -/
theorem serial_texts (os : OsEndian) (h : Valid s) :
    (∀ d : Text, s.cur + (4 + d.chars.length) ≤ s.size →
      (TextRoundTrip os s d ↔ Settled os s d)) ∧
      ∀ items, Along (writeItem os) (Meets os) s items →
        ∃ results t, run (writeItem os) s items = some (results, t) ∧ t.size = s.size ∧
          t.cur ≤ t.size ∧ (∀ j, j < s.cur ∨ t.cur ≤ j → t.buffer j = s.buffer j) ∧
          ∀ dests, List.Forall₂ Item.Fits (accepted results items) dests →
            run (readItem os) { t with cur := s.cur } dests =
              some (List.zipWith Item.got (accepted results items) dests, t) :=
  ⟨fun _ hFits => text_round_trip_iff h hFits, fun _ hMeets => items_round_trip h hMeets⟩

end

/-- A buffer of zeros takes the text of one zero. -/
theorem serial_texts_zero :
    TextRoundTrip .little (serialCreate (fun _ => 0) 16) ⟨[0], by decide⟩ := by
  refine ((serial_texts .little ⟨by decide, by decide⟩).1 _ (by decide)).mpr
    ⟨by decide, ?_, by decide⟩
  intro i hi _
  obtain rfl : i = 0 := Nat.lt_one_iff.mp hi
  rfl

/-- Any other text of one byte overwrites the first byte of its length. -/
theorem serial_text_lost :
    ¬ TextRoundTrip .little (serialCreate (fun _ => 0) 16) ⟨[1], by decide⟩ := by
  intro hTrip
  have hSettled := (text_round_trip_iff ⟨by decide, by decide⟩ (by decide)).mp hTrip
  exact absurd hSettled.start (by decide)

end Gbase.Net.Serialize
