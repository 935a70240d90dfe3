import Gbase.Logic.Bus
import Mathlib.Data.List.Perm.Subperm

/-!
# What the terminals of a bus know (`logic/bus.c`)

The version of each table of the head is the number of its entries, and entries are only added.  So
a version tells which entries a terminal has seen, and the copies of a terminal are those of a head
with fewer entries.  A terminal has seen all pipes that start at it, as nobody else makes them.

## Main results

* `Table.add`: a pipe enters the id table of a terminal.
* `busUpdatePipes_spec`: after a look at all pipes, a terminal knows those that end at it, and the
  rings of those that it did not know are empty.
-/

namespace Gbase.Logic.Bus

open Gbase.Base.Idtable
open Gbase.Base.Rbuffer
open Gbase.Core.OsDef
open Gbase.Lib.Run

/-! ## The head -/

/-- There is a terminal with this address. -/
def Registered (head : BusHead) (addr : Int) : Prop := ∃ i, i < head.tcount ∧ head.terms i = addr

/-- The size of the segment of a pipe. -/
def pipeSegmentSize : Nat := roundup2 (busPipeDefaultSize + rbufferHeadSize) pageSize

/-- The head is as the calls keep it, and each pipe has a ring with some messages. -/
structure HeadRepr (shm : Shm) (head : BusHead) (queues : Nat → List (List UInt8)) : Prop where
  head_eq : shm.head = some head
  headKey : shm.segments shm.headKey = none
  key : head.key = shm.headKey
  size : head.size = busHeadSize
  tver : head.tver = head.tcount
  tcount : head.tcount ≤ busMaxTerminalCount
  terms : ∀ {i j}, i < head.tcount → j < head.tcount → head.terms i = head.terms j → i = j
  sign : ∀ {i}, i < head.tcount → 0 ≤ head.terms i
  pver : head.pver = head.pcount + 1
  pcount : head.pcount ≤ busMaxPipeCount
  apart : ∀ {i}, i < head.pcount → (head.pipes i).fromAddr ≠ (head.pipes i).toAddr
  fromAddr : ∀ {i}, i < head.pcount → Registered head (head.pipes i).fromAddr
  toAddr : ∀ {i}, i < head.pcount → Registered head (head.pipes i).toAddr
  pairs : ∀ {i j}, i < head.pcount → j < head.pcount →
    (head.pipes i).fromAddr = (head.pipes j).fromAddr →
    (head.pipes i).toAddr = (head.pipes j).toAddr → i = j
  keys : ∀ {i j}, i < head.pcount → j < head.pcount →
    (head.pipes i).key = (head.pipes j).key → i = j
  pipeSize : ∀ {i}, i < head.pcount → (head.pipes i).size = busPipeDefaultSize
  ring : ∀ {i}, i < head.pcount → ∃ segment, shm.segments (head.pipes i).key = some segment ∧
    segment.size = pipeSegmentSize ∧ Repr segment.ring (queues i)

section

variable {shm : Shm} {head : BusHead} {queues : Nat → List (List UInt8)} {addr self : Int}

theorem registered_iff : head.registered addr = true ↔ Registered head addr := by
  simp [BusHead.registered, Registered]

theorem HeadRepr.nonneg (h : HeadRepr shm head queues) (hReg : Registered head addr) :
    0 ≤ addr := by
  obtain ⟨i, hi, rfl⟩ := hReg
  exact h.sign hi

/-- Fewer than 64 other addresses are registered. -/
theorem HeadRepr.others_lt (h : HeadRepr shm head queues) (hSelf : Registered head self)
    {ids : List Int} (hNodup : ids.Nodup)
    (hOthers : ∀ id, id ∈ ids → Registered head id ∧ id ≠ self) :
    ids.length < busMaxTerminalCount := by
  have hAll : (self :: ids).Nodup := by
    rw [List.nodup_cons]
    exact ⟨fun hMem => (hOthers self hMem).2 rfl, hNodup⟩
  have hSubset : self :: ids ⊆ (List.range head.tcount).map head.terms := by
    intro id hMem
    have hReg : Registered head id := by
      cases hMem with
      | head => exact hSelf
      | tail _ hMem => exact (hOthers id hMem).1
    obtain ⟨i, hi, rfl⟩ := hReg
    exact List.mem_map_of_mem (List.mem_range.mpr hi)
  have hLength := (hAll.subperm hSubset).length_le
  have hCount := h.tcount
  rw [List.length_cons, List.length_map, List.length_range] at hLength
  omega

end

/-! ## The id tables of a terminal -/

/-- The id table has the pipes before `known` that have the terminal at one end, under the address
of the other end. -/
def Table (head : BusHead) (mine other : HeadT → Int) (self : Int) (known : Nat)
    (table : IdtableT PipeT) : Prop :=
  ∃ entries, Inv table entries ∧ table.count = busMaxTerminalCount ∧
    ∀ {id bp}, entries id = some bp ↔ bp.head < known ∧ mine (head.pipes bp.head) = self ∧
      other (head.pipes bp.head) = id ∧ bp.r = (head.pipes bp.head).key

section

variable {head head' : BusHead} {mine other : HeadT → Int} {self id : Int} {known n : Nat}
variable {table : IdtableT PipeT}

/-- A pipe that is known is found. -/
theorem Table.get (h : Table head mine other self known table) {i : Nat} (hi : i < known)
    (hMine : mine (head.pipes i) = self) (hOther : other (head.pipes i) = id) :
    idtableGet table id = some (some ⟨i, (head.pipes i).key⟩) := by
  obtain ⟨entries, hInv, -, hEntries⟩ := h
  rw [hInv.get id]
  exact congrArg some (hEntries.mpr ⟨hi, hMine, hOther, rfl⟩)

/-- An address to which no pipe is known is not found. -/
theorem Table.get_none (h : Table head mine other self known table)
    (hNone : ∀ i, i < known → mine (head.pipes i) = self → other (head.pipes i) ≠ id) :
    idtableGet table id = some none := by
  obtain ⟨entries, hInv, -, hEntries⟩ := h
  rw [hInv.get id]
  cases hEntry : entries id with
  | none => rfl
  | some bp =>
      obtain ⟨hLess, hMine, hOther, -⟩ := hEntries.mp hEntry
      exact absurd hOther (hNone _ hLess hMine)

/-- An address is looked up. -/
theorem Table.cases (h : Table head mine other self known table) (id : Int) :
    (∃ i, i < known ∧ mine (head.pipes i) = self ∧ other (head.pipes i) = id ∧
      idtableGet table id = some (some ⟨i, (head.pipes i).key⟩)) ∨
    (∀ i, i < known → mine (head.pipes i) = self → other (head.pipes i) ≠ id) ∧
      idtableGet table id = some none := by
  by_cases hKnown : ∃ i, i < known ∧ mine (head.pipes i) = self ∧ other (head.pipes i) = id
  · obtain ⟨i, hi, hMine, hOther⟩ := hKnown
    exact Or.inl ⟨i, hi, hMine, hOther, h.get hi hMine hOther⟩
  · have hNone : ∀ i, i < known → mine (head.pipes i) = self → other (head.pipes i) ≠ id :=
      fun i hi hMine hOther => hKnown ⟨i, hi, hMine, hOther⟩
    exact Or.inr ⟨hNone, h.get_none hNone⟩

/-- None is found exactly where no pipe is known. -/
theorem Table.lookup (h : Table head mine other self known table) (id : Int) :
    ∃ found, idtableGet table id = some found ∧ (found = none ↔
      ∀ i, i < known → mine (head.pipes i) = self → other (head.pipes i) ≠ id) := by
  cases h.cases id with
  | inl hFound =>
      obtain ⟨i, hi, hMine, hOther, hGet⟩ := hFound
      refine ⟨_, hGet, ?_⟩
      constructor
      · intro hNone
        cases hNone
      · intro hNone
        exact absurd hOther (hNone i hi hMine)
  | inr hFree => exact ⟨none, hFree.2, fun _ => hFree.1, fun _ => rfl⟩

/-- The pipe at an index is found exactly if it is among those that are known. -/
theorem unknown_iff {count : Nat} (hMine : mine (head.pipes count) = self)
    (hPairs : ∀ i, i < max known count → mine (head.pipes i) = mine (head.pipes count) →
      other (head.pipes i) = other (head.pipes count) → i = count) :
    (∀ i, i < max known count → mine (head.pipes i) = self →
      other (head.pipes i) ≠ other (head.pipes count)) ↔ known ≤ count := by
  constructor
  · intro hNone
    by_contra hNot
    exact hNone count (by omega) hMine rfl
  · intro hKnown i hi hEnd hOther
    have hSame := hPairs i hi (hEnd.trans hMine.symm) hOther
    omega

/-- A new id table, when nothing is known. -/
theorem table_create (head : BusHead) (self : Int) :
    ∃ table, idtableCreate busMaxTerminalCount = some table ∧
      ∀ mine other, Table head mine other self 0 table := by
  refine ⟨_, rfl, fun mine other => ⟨fun _ => none, inv_empty (by decide : 0 < 64) fun i hi => rfl,
    rfl, ?_⟩⟩
  intro id bp
  constructor
  · intro hNone
    cases hNone
  · intro hKnown
    exact absurd hKnown.1 (Nat.not_lt_zero _)

/-- The pipe behind those that are known does not have the terminal at its end. -/
theorem Table.skip (h : Table head mine other self known table)
    (hMine : mine (head.pipes known) ≠ self) : Table head mine other self (known + 1) table := by
  obtain ⟨entries, hInv, hCount, hEntries⟩ := h
  refine ⟨entries, hInv, hCount, ?_⟩
  intro id bp
  rw [hEntries]
  constructor
  · rintro ⟨hLess, hRest⟩
    exact ⟨by omega, hRest⟩
  · rintro ⟨hLess, hEnd, hRest⟩
    refine ⟨?_, hEnd, hRest⟩
    have hNe : bp.head ≠ known := by
      intro hEq
      rw [hEq] at hEnd
      exact hMine hEnd
    omega

/-- Only the pipes that are known matter. -/
theorem Table.congr (h : Table head mine other self known table)
    (hPipes : ∀ i, i < known → head'.pipes i = head.pipes i) :
    Table head' mine other self known table := by
  obtain ⟨entries, hInv, hCount, hEntries⟩ := h
  refine ⟨entries, hInv, hCount, ?_⟩
  intro id bp
  rw [hEntries]
  constructor
  · rintro ⟨hLess, hRest⟩
    rw [hPipes _ hLess]
    exact ⟨hLess, hRest⟩
  · rintro ⟨hLess, hRest⟩
    rw [hPipes _ hLess] at hRest
    exact ⟨hLess, hRest⟩

/-- The pipe behind those that are known is added. -/
theorem Table.add (h : Table head mine other self known table)
    (hMine : mine (head.pipes known) = self) (hSign : 0 ≤ other (head.pipes known))
    (hNew : ∀ i, i < known → mine (head.pipes i) = self →
      other (head.pipes i) ≠ other (head.pipes known))
    (hOthers : ∀ ids : List Int, ids.Nodup → (∀ id, id ∈ ids → ∃ i, i < known ∧
      mine (head.pipes i) = self ∧ other (head.pipes i) = id) → ids.length < busMaxTerminalCount) :
    ∃ table', idtableAdd table (other (head.pipes known))
        (some ⟨known, (head.pipes known).key⟩) = some (0, table') ∧
      Table head mine other self (known + 1) table' := by
  obtain ⟨entries, hInv, hCount, hEntries⟩ := h
  have hFree : entries (other (head.pipes known)) = none := by
    cases hEntry : entries (other (head.pipes known)) with
    | none => rfl
    | some bp =>
        obtain ⟨hLess, hEnd, hOther, -⟩ := hEntries.mp hEntry
        exact absurd hOther (hNew _ hLess hEnd)
  cases hInv.add hSign hFree ⟨known, (head.pipes known).key⟩ with
  | inr hFull =>
      obtain ⟨-, ids, hNodup, hLength, hSome⟩ := hFull
      have hLess := hOthers ids hNodup (by
        intro id hMem
        obtain ⟨bp, hEntry⟩ := Option.isSome_iff_exists.mp (hSome id hMem)
        obtain ⟨hLess, hEnd, hOther, -⟩ := hEntries.mp hEntry
        exact ⟨bp.head, hLess, hEnd, hOther⟩)
      omega
  | inl hAdded =>
      obtain ⟨i, hAdd, hInv'⟩ := hAdded
      refine ⟨_, hAdd, _, hInv', hCount, ?_⟩
      intro id bp
      by_cases hId : id = other (head.pipes known)
      · subst hId
        rw [Function.update_self]
        constructor
        · intro hEq
          cases hEq
          exact ⟨Nat.lt_succ_self known, hMine, rfl, rfl⟩
        · rintro ⟨hLess, hEnd, hOther, hKey⟩
          have hLast : bp.head = known := by
            by_contra hNot
            exact hNew bp.head (by omega) hEnd hOther
          rw [← hLast, ← hKey]
      · rw [Function.update_of_ne hId, hEntries]
        constructor
        · rintro ⟨hLess, hRest⟩
          exact ⟨by omega, hRest⟩
        · rintro ⟨hLess, hEnd, hOther, hKey⟩
          refine ⟨?_, hEnd, hOther, hKey⟩
          have hNe : bp.head ≠ known := by
            intro hEq
            rw [hEq] at hOther
            exact hId hOther.symm
          omega

end

/-! ## The rings of the pipes -/

/-- A segment after `rbuffer_attach`. -/
def SegmentT.attach (segment : SegmentT) : SegmentT :=
  { segment with
    ring := { size := 65536, readPos := 0, writePos := 0, buffer := segment.ring.buffer } }

section

variable {shm : Shm} {segment : SegmentT} {i : Nat}

/-- A ring that is attached to is empty. -/
theorem attach_repr (segment : SegmentT) : Repr segment.attach.ring [] :=
  Repr.empty ⟨16, by decide, by decide, rfl⟩ (by decide : 0 < 2 ^ 32) rfl

private theorem rbufferAttach_default (buffer : Nat → UInt8) :
    rbufferAttach (some buffer) (busPipeDefaultSize + rbufferHeadSize) =
      some { size := 65536, readPos := 0, writePos := 0, buffer := buffer } := by
  rfl

/-- A pipe that exists is attached to. -/
theorem busPipeCreate_attach {phead : HeadT} (hSize : phead.size = busPipeDefaultSize)
    (hSegment : shm.segments phead.key = some segment) (hFits : segment.size = pipeSegmentSize) :
    busPipeCreate shm i phead 1 =
      some (some ⟨i, phead.key⟩, shm.set phead.key segment.attach) := by
  have hHas : shm.has phead.key = true := by
    rw [Shm.has, hSegment]
    simp
  have hSame : ¬ toInt (shm.sizeOf phead.key) ≠
      (roundup2 (busPipeDefaultSize + rbufferHeadSize) pageSize : Nat) := by
    rw [Shm.sizeOf, hSegment]
    show ¬ toInt segment.size ≠ _
    rw [hFits]
    decide
  rw [busPipeCreate, shmCreate, hSize, if_pos hHas, if_pos (by decide), if_neg hSame]
  simp only [hSegment, rbufferAttach_default, Option.bind_eq_bind, Option.bind_some]
  rfl

/-- A pipe is created if there is no segment with its key. -/
theorem busPipeCreate_new {phead : HeadT} (hSize : phead.size = busPipeDefaultSize)
    (hFree : shm.has phead.key = false) :
    busPipeCreate shm i phead 0 = some (some ⟨i, phead.key⟩,
      shm.set phead.key (SegmentT.attach ⟨pipeSegmentSize, zeros⟩)) := by
  have hNot : ¬ shm.has phead.key = true := by
    rw [hFree]
    decide
  rw [busPipeCreate, shmCreate, hSize, if_neg hNot]
  simp only [Shm.set, Function.update_self, rbufferAttach_default, Option.bind_eq_bind,
    Option.bind_some, Function.update_idem]
  rfl

/-- No pipe is created if there is a segment with its key. -/
theorem busPipeCreate_exists {phead : HeadT} (hHas : shm.has phead.key = true) :
    busPipeCreate shm i phead 0 = some (none, shm) := by
  rw [busPipeCreate, shmCreate, if_pos hHas]
  rfl

end

/-! ## A look at all pipes -/

/-- The terminal is at one end of the pipe. -/
def Own (head : BusHead) (self : Int) (i : Nat) : Prop :=
  (head.pipes i).fromAddr = self ∨ (head.pipes i).toAddr = self

/-- A look at the first pipes attaches to one with this key, if those before `known` are known. -/
def Attaches (head : BusHead) (self : Int) (known count : Nat) (key : Int) : Prop :=
  ∃ i, known ≤ i ∧ i < count ∧ Own head self i ∧ (head.pipes i).key = key

/-- After a look at the first pipes. -/
structure Looked (head : BusHead) (bt : BusT) (shm : Shm) (known count : Nat)
    (s : BusT × Shm) : Prop where
  bt_eq : s.1 = { bt with opipes := s.1.opipes, ipipes := s.1.ipipes }
  shm_eq : s.2 = { shm with segments := s.2.segments }
  opipes : Table head HeadT.fromAddr HeadT.toAddr bt.self (max known count) s.1.opipes
  ipipes : Table head HeadT.toAddr HeadT.fromAddr bt.self (max known count) s.1.ipipes
  attached : ∀ {key}, Attaches head bt.self known count key →
    s.2.segments key = (shm.segments key).map SegmentT.attach
  kept : ∀ {key}, ¬ Attaches head bt.self known count key → s.2.segments key = shm.segments key

section

variable {shm : Shm} {head : BusHead} {queues : Nat → List (List UInt8)} {bt : BusT}
variable {known count : Nat} {self key : Int} {s : BusT × Shm}

private theorem attaches_succ (hNot : ¬ (known ≤ count ∧ Own head self count)) :
    Attaches head self known (count + 1) key ↔ Attaches head self known count key := by
  constructor
  · rintro ⟨i, hKnown, hLess, hOwn, hKey⟩
    have hNe : i ≠ count := by
      rintro rfl
      exact hNot ⟨hKnown, hOwn⟩
    exact ⟨i, hKnown, by omega, hOwn, hKey⟩
  · rintro ⟨i, hKnown, hLess, hRest⟩
    exact ⟨i, hKnown, by omega, hRest⟩

/-- The pipe is none of the terminal's, or is known. -/
theorem Looked.skip (h : Looked head bt shm known count s)
    (hNot : ¬ (known ≤ count ∧ Own head bt.self count)) :
    Looked head bt shm known (count + 1) s where
  bt_eq := h.bt_eq
  shm_eq := h.shm_eq
  opipes := by
    by_cases hKnown : known ≤ count
    · have hTable := h.opipes
      rw [max_eq_right hKnown] at hTable
      rw [max_eq_right (by omega)]
      exact hTable.skip fun hFrom => hNot ⟨hKnown, Or.inl hFrom⟩
    · have hSame : max known (count + 1) = max known count := by
        omega
      rw [hSame]
      exact h.opipes
  ipipes := by
    by_cases hKnown : known ≤ count
    · have hTable := h.ipipes
      rw [max_eq_right hKnown] at hTable
      rw [max_eq_right (by omega)]
      exact hTable.skip fun hTo => hNot ⟨hKnown, Or.inr hTo⟩
    · have hSame : max known (count + 1) = max known count := by
        omega
      rw [hSame]
      exact h.ipipes
  attached := fun hAttaches => h.attached ((attaches_succ hNot).mp hAttaches)
  kept := fun hKept => h.kept fun hAttaches => hKept ((attaches_succ hNot).mpr hAttaches)

/-- The pipe is attached to, and enters one of the tables. -/
theorem Looked.attach (h : Looked head bt shm known count s) (hHead : HeadRepr shm head queues)
    (hKnown : known ≤ count) (hLess : count < head.pcount) (hOwn : Own head bt.self count)
    {opipes ipipes : IdtableT PipeT}
    (hOut : Table head HeadT.fromAddr HeadT.toAddr bt.self (count + 1) opipes)
    (hIn : Table head HeadT.toAddr HeadT.fromAddr bt.self (count + 1) ipipes) :
    ∃ segment, s.2.segments (head.pipes count).key = some segment ∧
      segment.size = pipeSegmentSize ∧
      Looked head bt shm known (count + 1)
        ({ s.1 with opipes := opipes, ipipes := ipipes },
          s.2.set (head.pipes count).key segment.attach) := by
  obtain ⟨segment, hSegment, hSize, -⟩ := hHead.ring hLess
  have hBefore : ¬ Attaches head bt.self known count (head.pipes count).key := by
    rintro ⟨i, -, hi, -, hKey⟩
    have hSame := hHead.keys (by omega) hLess hKey
    omega
  have hSame := h.kept hBefore
  rw [hSegment] at hSame
  refine ⟨segment, hSame, hSize, ?_⟩
  have hMax : max known (count + 1) = count + 1 := by
    omega
  exact {
    bt_eq := by
      show BusT.mk _ _ _ _ _ _ _ = _
      rw [h.bt_eq]
    shm_eq := by
      rw [h.shm_eq]
      rfl
    opipes := by
      rw [hMax]
      exact hOut
    ipipes := by
      rw [hMax]
      exact hIn
    attached := by
      intro key hAttaches
      show Function.update _ _ _ key = _
      by_cases hHere : key = (head.pipes count).key
      · rw [hHere, Function.update_self, hSegment]
        rfl
      · rw [Function.update_of_ne hHere]
        apply h.attached
        obtain ⟨i, hi, hLast, hEnd, hKey⟩ := hAttaches
        have hNe : i ≠ count := by
          rintro rfl
          exact hHere hKey.symm
        exact ⟨i, hi, by omega, hEnd, hKey⟩
    kept := by
      intro key hNot
      have hHere : key ≠ (head.pipes count).key := by
        rintro rfl
        exact hNot ⟨count, hKnown, by omega, hOwn, rfl⟩
      show Function.update _ _ _ key = _
      rw [Function.update_of_ne hHere]
      apply h.kept
      rintro ⟨i, hi, hLast, hEnd, hKey⟩
      exact hNot ⟨i, hi, by omega, hEnd, hKey⟩ }

/-- The other ends of the pipes of a terminal are fewer than the nodes of a table. -/
theorem HeadRepr.ends_lt (h : HeadRepr shm head queues) (hSelf : Registered head self)
    {mine other : HeadT → Int} {n : Nat}
    (hEnds : ∀ i, i < n → mine (head.pipes i) = self →
      Registered head (other (head.pipes i)) ∧ other (head.pipes i) ≠ self)
    (ids : List Int) (hNodup : ids.Nodup)
    (hIds : ∀ id, id ∈ ids → ∃ i, i < n ∧ mine (head.pipes i) = self ∧
      other (head.pipes i) = id) : ids.length < busMaxTerminalCount := by
  apply h.others_lt hSelf hNodup
  intro id hMem
  obtain ⟨i, hi, hMine, rfl⟩ := hIds id hMem
  exact hEnds i hi hMine

/-- A pipe that the terminal sends to enters its table. -/
theorem HeadRepr.add_opipe (h : HeadRepr shm head queues) (hSelf : Registered head self)
    (hLess : count < head.pcount) (hFrom : (head.pipes count).fromAddr = self)
    {table : IdtableT PipeT}
    (hTable : Table head HeadT.fromAddr HeadT.toAddr self count table) :
    ∃ table', idtableAdd table (head.pipes count).toAddr
        (some ⟨count, (head.pipes count).key⟩) = some (0, table') ∧
      Table head HeadT.fromAddr HeadT.toAddr self (count + 1) table' := by
  apply hTable.add hFrom (h.nonneg (h.toAddr hLess))
  · intro i hi hMine hOther
    have hSame := h.pairs (by omega) hLess (hMine.trans hFrom.symm) hOther
    omega
  · apply h.ends_lt hSelf
    rintro i hi rfl
    exact ⟨h.toAddr (by omega), fun hSame => h.apart (by omega : i < head.pcount) hSame.symm⟩

/-- A pipe that the terminal receives from enters its table. -/
theorem HeadRepr.add_ipipe (h : HeadRepr shm head queues) (hSelf : Registered head self)
    (hLess : count < head.pcount) (hTo : (head.pipes count).toAddr = self)
    {table : IdtableT PipeT}
    (hTable : Table head HeadT.toAddr HeadT.fromAddr self count table) :
    ∃ table', idtableAdd table (head.pipes count).fromAddr
        (some ⟨count, (head.pipes count).key⟩) = some (0, table') ∧
      Table head HeadT.toAddr HeadT.fromAddr self (count + 1) table' := by
  apply hTable.add hTo (h.nonneg (h.fromAddr hLess))
  · intro i hi hMine hOther
    have hSame := h.pairs (by omega) hLess hOther (hMine.trans hTo.symm)
    omega
  · apply h.ends_lt hSelf
    rintro i hi rfl
    exact ⟨h.fromAddr (by omega), h.apart (by omega : i < head.pcount)⟩

/-- A turn of the loop. -/
theorem Looked.turn (h : Looked head bt shm known count s) (hHead : HeadRepr shm head queues)
    (hSelf : Registered head bt.self) (hKnown : known ≤ head.pcount) (hLess : count < head.pcount) :
    ∃ s', busUpdatePipe head s count = some s' ∧ Looked head bt shm known (count + 1) s' := by
  have hSame : s.1.self = bt.self := by
    rw [h.bt_eq]
  have hApart := hHead.apart hLess
  obtain ⟨opipe, hOut, hNoOut⟩ := h.opipes.lookup (head.pipes count).toAddr
  obtain ⟨ipipe, hIn, hNoIn⟩ := h.ipipes.lookup (head.pipes count).fromAddr
  have hOutCases : (head.pipes count).fromAddr = bt.self → (opipe = none ↔ known ≤ count) := by
    intro hFrom
    rw [hNoOut]
    exact unknown_iff hFrom fun i hi => hHead.pairs (by omega) hLess
  have hInCases : (head.pipes count).toAddr = bt.self → (ipipe = none ↔ known ≤ count) := by
    intro hTo
    rw [hNoIn]
    exact unknown_iff hTo fun i hi hTo' hFrom => hHead.pairs (by omega) hLess hFrom hTo'
  simp only [busUpdatePipe, hOut, hIn, Option.bind_eq_bind, Option.bind_some, hSame,
    Option.isNone_iff_eq_none]
  by_cases hFrom : (head.pipes count).fromAddr = bt.self ∧ opipe = none
  · -- a pipe of an earlier terminal with this address
    have hNew := (hOutCases hFrom.1).mp hFrom.2
    have hTable := h.opipes
    have hOther := h.ipipes
    rw [max_eq_right hNew] at hTable hOther
    obtain ⟨opipes, hAdd, hAdded⟩ := hHead.add_opipe hSelf hLess hFrom.1 hTable
    obtain ⟨segment, hSegment, hSize, hLooked⟩ := h.attach hHead hNew hLess (Or.inl hFrom.1)
      hAdded (hOther.skip fun hTo => hApart (hFrom.1.trans hTo.symm))
    refine ⟨_, ?_, hLooked⟩
    simp only [if_pos hFrom, busPipeCreate_attach (hHead.pipeSize hLess) hSegment hSize,
      Option.bind_some, reduceCtorEq, if_false, hAdd, if_true]
    rw [← hSame]
    rfl
  · rw [if_neg hFrom]
    by_cases hTo : (head.pipes count).toAddr = bt.self ∧ ipipe = none
    · -- a pipe of another terminal
      have hNew := (hInCases hTo.1).mp hTo.2
      have hTable := h.ipipes
      have hOther := h.opipes
      rw [max_eq_right hNew] at hTable hOther
      obtain ⟨ipipes, hAdd, hAdded⟩ := hHead.add_ipipe hSelf hLess hTo.1 hTable
      obtain ⟨segment, hSegment, hSize, hLooked⟩ := h.attach hHead hNew hLess (Or.inr hTo.1)
        (hOther.skip fun hFrom => hApart (hFrom.trans hTo.1.symm)) hAdded
      refine ⟨_, ?_, hLooked⟩
      simp only [if_pos hTo, busPipeCreate_attach (hHead.pipeSize hLess) hSegment hSize,
        Option.bind_some, reduceCtorEq, if_false, hAdd, if_true]
      rw [← hSame]
      rfl
    · refine ⟨s, ?_, h.skip ?_⟩
      · rw [if_neg hTo]
        rfl
      · rintro ⟨hNew, hOwn⟩
        cases hOwn with
        | inl hEnd => exact hFrom ⟨hEnd, (hOutCases hEnd).mpr hNew⟩
        | inr hEnd => exact hTo ⟨hEnd, (hInCases hEnd).mpr hNew⟩

/-- `_bus_update_pipes` -/
theorem busUpdatePipes_spec (hHead : HeadRepr shm head queues) (hSelf : Registered head bt.self)
    (hKnown : known ≤ head.pcount)
    (hOut : Table head HeadT.fromAddr HeadT.toAddr bt.self known bt.opipes)
    (hIn : Table head HeadT.toAddr HeadT.fromAddr bt.self known bt.ipipes) :
    ∃ s, busUpdatePipes head bt shm = some s ∧
      Looked head { bt with pver := head.pver } shm known head.pcount s := by
  have hStart : Looked head { bt with pver := head.pver } shm known 0
      ({ bt with pver := head.pver }, shm) := by
    refine ⟨rfl, rfl, ?_, ?_, ?_, fun _ => rfl⟩
    · rw [Nat.max_zero]
      exact hOut
    · rw [Nat.max_zero]
      exact hIn
    · rintro key ⟨i, -, hLess, -⟩
      exact absurd hLess (Nat.not_lt_zero i)
  exact foldlM_range (fun i s => Looked head { bt with pver := head.pver } shm known i s) hStart
    fun i s hi h => h.turn hHead hSelf hKnown hi

end

/-! ## What a look at all pipes changes -/

/-- The pipes of a terminal that it did not know have been attached to. -/
structure Attached (head : BusHead) (addr : Int) (known : Nat) (shm shm' : Shm) : Prop where
  shm_eq : shm' = { shm with segments := shm'.segments }
  reset : ∀ {key : Int}, Attaches head addr known head.pcount key →
    shm'.segments key = (shm.segments key).map SegmentT.attach
  kept : ∀ {key : Int}, ¬ Attaches head addr known head.pcount key →
    shm'.segments key = shm.segments key

/-- The messages in the pipes after that. -/
def queuesAfter (head : BusHead) (self : Int) (known : Nat) (queues : Nat → List (List UInt8))
    (i : Nat) : List (List UInt8) :=
  if known ≤ i ∧ ((head.pipes i).fromAddr = self ∨ (head.pipes i).toAddr = self) then []
  else queues i

section

variable {shm shm' : Shm} {head : BusHead} {queues : Nat → List (List UInt8)} {self : Int}
variable {known : Nat}

/-- Nothing changes for a terminal that knows all pipes. -/
theorem attached_refl (head : BusHead) (self : Int) (shm : Shm) :
    Attached head self head.pcount shm shm := by
  refine ⟨rfl, ?_, fun _ => rfl⟩
  rintro key ⟨i, hLow, hHigh, -⟩
  omega

theorem Attached.has (h : Attached head self known shm shm') (key : Int) :
    shm'.has key = shm.has key := by
  have hSegments : (shm'.segments key).isSome = (shm.segments key).isSome := by
    by_cases hAttaches : Attaches head self known head.pcount key
    · rw [h.reset hAttaches, Option.isSome_map]
    · rw [h.kept hAttaches]
  rw [Shm.has, Shm.has, hSegments, h.shm_eq]

theorem HeadRepr.attached (h : HeadRepr shm head queues)
    (hAttached : Attached head self known shm shm') :
    HeadRepr shm' head (queuesAfter head self known queues) := by
  have hShm := hAttached.shm_eq
  exact { h with
    head_eq := by
      rw [hShm]
      exact h.head_eq
    headKey := by
      have hKey : shm'.headKey = shm.headKey := by
        rw [hShm]
      have hNot : ¬ Attaches head self known head.pcount shm.headKey := by
        rintro ⟨i, -, hi, -, hEq⟩
        obtain ⟨segment, hSegment, -⟩ := h.ring hi
        rw [hEq, h.headKey] at hSegment
        cases hSegment
      rw [hKey, hAttached.kept hNot, h.headKey]
    key := by
      rw [hShm]
      exact h.key
    ring := by
      intro i hi
      obtain ⟨segment, hSegment, hSize, hRing⟩ := h.ring hi
      by_cases hOwn : known ≤ i ∧ ((head.pipes i).fromAddr = self ∨ (head.pipes i).toAddr = self)
      · refine ⟨segment.attach, ?_, hSize, ?_⟩
        · rw [hAttached.reset ⟨i, hOwn.1, hi, hOwn.2, rfl⟩, hSegment]
          rfl
        · rw [queuesAfter, if_pos hOwn]
          exact attach_repr segment
      · refine ⟨segment, ?_, hSize, ?_⟩
        · rw [hAttached.kept, hSegment]
          rintro ⟨j, hKnown, hj, hEnd, hKey⟩
          have hSame := h.keys hj hi hKey
          subst hSame
          exact hOwn ⟨hKnown, hEnd⟩
        · rw [queuesAfter, if_neg hOwn]
          exact hRing }

/-- The messages in one pipe change. -/
theorem HeadRepr.set (h : HeadRepr shm head queues) {i : Nat} (hi : i < head.pcount)
    {segment : SegmentT} (hSegment : shm.segments (head.pipes i).key = some segment)
    {r : RbufferT} {queue : List (List UInt8)} (hRing : Repr r queue) :
    HeadRepr (shm.set (head.pipes i).key { segment with ring := r }) head
      (Function.update queues i queue) := by
  have hSize : segment.size = pipeSegmentSize := by
    obtain ⟨segment', hSegment', hSize, -⟩ := h.ring hi
    rw [hSegment] at hSegment'
    cases hSegment'
    exact hSize
  exact { h with
    head_eq := h.head_eq
    headKey := by
      have hNe : shm.headKey ≠ (head.pipes i).key := by
        intro hEq
        rw [← hEq, h.headKey] at hSegment
        cases hSegment
      have hKept := Function.update_of_ne hNe (some { segment with ring := r }) shm.segments
      rw [h.headKey] at hKept
      exact hKept
    key := h.key
    ring := by
      intro j hj
      by_cases hSame : j = i
      · subst hSame
        refine ⟨_, Function.update_self _ _ _, hSize, ?_⟩
        rw [Function.update_self]
        exact hRing
      · obtain ⟨segment', hSegment', hRest⟩ := h.ring hj
        refine ⟨segment', ?_, ?_⟩
        · show Function.update _ _ _ _ = _
          rw [Function.update_of_ne (fun hEq => hSame (h.keys hj hi hEq)), hSegment']
        · rwa [Function.update_of_ne hSame] }

end

/-! ## A terminal -/

/-- The head has more entries, and those that there were. -/
structure Grows (head head' : BusHead) : Prop where
  tcount_le : head.tcount ≤ head'.tcount
  terms : ∀ {i}, i < head.tcount → head'.terms i = head.terms i
  pcount_le : head.pcount ≤ head'.pcount
  pipes : ∀ {i}, i < head.pcount → head'.pipes i = head.pipes i

/-- A terminal has a part of the tables of the head, and knows the pipes in it. -/
structure TermRepr (head : BusHead) (addr : Int) (known : Nat) (bt : BusT) : Prop where
  self : bt.self = addr
  registered : Registered head addr
  tver : bt.tver = bt.tcount
  tcount : bt.tcount ≤ head.tcount
  terms : ∀ {i}, i < bt.tcount → bt.terms i = head.terms i
  pver : bt.pver = known + 1
  known_le : known ≤ head.pcount
  own : ∀ {i}, i < head.pcount → (head.pipes i).fromAddr = addr → i < known
  opipes : Table head HeadT.fromAddr HeadT.toAddr addr known bt.opipes
  ipipes : Table head HeadT.toAddr HeadT.fromAddr addr known bt.ipipes

section

variable {shm shm' : Shm} {head head' : BusHead} {queues : Nat → List (List UInt8)}
variable {addr dest : Int} {known : Nat} {bt : BusT}

theorem Grows.refl (head : BusHead) : Grows head head :=
  ⟨le_rfl, fun _ => rfl, le_rfl, fun _ => rfl⟩

theorem Grows.registered (h : Grows head head') (hReg : Registered head addr) :
    Registered head' addr := by
  obtain ⟨i, hi, rfl⟩ := hReg
  exact ⟨i, by have hLe := h.tcount_le; omega, h.terms hi⟩

/-- A terminal does not see what is added to the head by others. -/
theorem TermRepr.mono (h : TermRepr head addr known bt) (hGrows : Grows head head')
    (hOthers : ∀ {i}, head.pcount ≤ i → i < head'.pcount → (head'.pipes i).fromAddr ≠ addr) :
    TermRepr head' addr known bt where
  self := h.self
  registered := hGrows.registered h.registered
  tver := h.tver
  tcount := h.tcount.trans hGrows.tcount_le
  terms := by
    intro i hi
    rw [hGrows.terms (by have hLe := h.tcount; omega), h.terms hi]
  pver := h.pver
  known_le := h.known_le.trans hGrows.pcount_le
  own := by
    intro i hi hFrom
    have hOld : i < head.pcount := by
      by_contra hNot
      exact hOthers (by omega) hi hFrom
    rw [hGrows.pipes hOld] at hFrom
    exact h.own hOld hFrom
  opipes := h.opipes.congr fun i hi => hGrows.pipes (by have hLe := h.known_le; omega)
  ipipes := h.ipipes.congr fun i hi => hGrows.pipes (by have hLe := h.known_le; omega)

/-- After a look at all pipes, the terminal knows them. -/
theorem Looked.term (hHead : HeadRepr shm head queues) {self : BusT} {s : BusT × Shm}
    (h : Looked head { self with pver := head.pver } shm known head.pcount s)
    (hSelf : self.self = addr) (hReg : Registered head addr) (hTver : self.tver = self.tcount)
    (hTcount : self.tcount ≤ head.tcount)
    (hTerms : ∀ {i}, i < self.tcount → self.terms i = head.terms i)
    (hKnown : known ≤ head.pcount) :
    TermRepr head addr head.pcount s.1 ∧ Attached head addr known shm s.2 := by
  subst hSelf
  have hMax : max known head.pcount = head.pcount := by
    omega
  have hOut := h.opipes
  have hIn := h.ipipes
  rw [hMax] at hOut hIn
  constructor
  · refine ⟨?_, hReg, ?_, ?_, ?_, ?_, le_rfl, fun hi _ => hi, hOut, hIn⟩
    · rw [h.bt_eq]
    · rw [h.bt_eq]
      exact hTver
    · rw [h.bt_eq]
      exact hTcount
    · intro i hi
      rw [h.bt_eq] at hi ⊢
      exact hTerms hi
    · rw [h.bt_eq]
      exact hHead.pver
  · exact ⟨h.shm_eq, h.attached, h.kept⟩

end

end Gbase.Logic.Bus
