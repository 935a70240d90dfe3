import Gbase.Base.Rbuffer

/-!
# The capacity of a ring

`rbuffer_create` and `rbuffer_attach` round the capacity to a power of two.  From four bytes on the
positions never drift further apart than the capacity, and a write does not touch what was not
read.  With less than four bytes `size - 4` wraps around, so that the ring passes for an almost
endless one, and the first message written goes past its end.

## Main results

* `rbufferCreate_size`, `rbufferAttach_size`: the capacities a ring can have.
* `Tiny.write_undefined`: a message written to a ring that cannot hold a length.
* `rbuffer_within_iff`: a ring stays within its capacity all along a run if and only if it can
  hold a length, or nothing that passes for fitting is written.
-/

namespace Gbase.Base.Rbuffer

open Gbase.Core.OsDef
open Gbase.Lib.Bytes
open Gbase.Lib.Ring
open Gbase.Lib.Run

/-! ## The capacities -/

/-- The test for a power of two. -/
theorem pow_of_and_eq_zero {size : Nat} (hSize : size < 2 ^ 32)
    (hAnd : size &&& toUint32 ((size : Int) - 1) = 0) : size = 0 ∨ ∃ k, size = 2 ^ k := by
  by_cases hZero : size = 0
  · exact Or.inl hZero
  · right
    have hMask : toUint32 ((size : Int) - 1) = size - 1 := by
      rw [toUint32]
      omega
    rw [hMask] at hAnd
    exact (Nat.and_sub_one_eq_zero_iff_isPowerOfTwo hZero).mp hAnd

private theorem toUint32_pow {k : Nat} (hk : k < 32) : toUint32 (2 ^ k) = 2 ^ k := by
  have hPow : 2 ^ k < 2 ^ 32 := Nat.pow_lt_pow_right (by decide) hk
  have hCast : ((2 : Int) ^ k) = ((2 ^ k : Nat) : Int) := by push_cast; rfl
  rw [hCast]
  generalize 2 ^ k = pow at hPow
  rw [toUint32]
  omega

private theorem toUint32_oneShl_top : toUint32 (oneShl 31) = 2 ^ 31 := rfl

/-- No capacity, or a power of two. -/
def Rounded (size : Nat) : Prop := size = 0 ∨ ∃ k, k ≤ 30 ∧ size = 2 ^ k

theorem Rounded.of_pow {size : Nat} (hLe : size ≤ 2 ^ 30) (h : size = 0 ∨ ∃ k, size = 2 ^ k) :
    Rounded size := by
  rcases h with hZero | ⟨k, rfl⟩
  · exact Or.inl hZero
  · exact Or.inr ⟨k, (Nat.pow_le_pow_iff_right (by decide)).mp hLe, rfl⟩

theorem rbufferCreate_size {size : Nat} (hSize : size ≤ 2 ^ 30)
    {memory : Option (Nat → UInt8)} {r : RbufferT} (hCreate : rbufferCreate size memory = some r) :
    Rounded r.size ∧ r.readPos = 0 ∧ r.writePos = 0 := by
  rw [rbufferCreate, Option.map_eq_some_iff] at hCreate
  obtain ⟨buffer, -, rfl⟩ := hCreate
  refine ⟨?_, rfl, rfl⟩
  change Rounded
    (if size &&& toUint32 ((size : Int) - 1) ≠ 0 then toUint32 (roundup size) else size)
  split
  · next hAnd =>
      have hPos : 1 ≤ size := by
        by_contra hNot
        apply hAnd
        rw [(by omega : size = 0), Nat.zero_and]
      obtain ⟨k, hk, hRound, -, -⟩ := roundup_spec hPos hSize
      rw [hRound, toUint32_pow (by omega)]
      exact Or.inr ⟨k, hk, rfl⟩
  · next hAnd =>
      rw [ne_eq, not_not] at hAnd
      exact Rounded.of_pow hSize (pow_of_and_eq_zero (by omega) hAnd)

theorem rbufferAttach_size {mem : Option (Nat → UInt8)} {memSize : Nat} {r : RbufferT}
    (hAttach : rbufferAttach mem memSize = some r) (hLe : r.size ≤ 2 ^ 30) :
    Rounded r.size ∧ r.readPos = 0 ∧ r.writePos = 0 := by
  cases mem with
  | none => cases hAttach
  | some buffer =>
      rw [rbufferAttach] at hAttach
      split at hAttach
      · cases hAttach
      · generalize hBytes : toUint32 ((memSize : Int) - rbufferHeadSize) = size at hAttach
        have hSize : size < 2 ^ 32 := by
          rw [← hBytes, toUint32]
          omega
        simp only at hAttach
        split at hAttach
        · next hAnd =>
            split at hAttach
            · cases hAttach
            · rw [Option.some.injEq] at hAttach
              subst hAttach
              refine ⟨?_, rfl, rfl⟩
              have hPos : size ≠ 0 := by
                rintro rfl
                exact hAnd (Nat.zero_and _)
              have hLog : Nat.log 2 size < 32 := Nat.log_lt_of_lt_pow hPos hSize
              have hIlog : ilog2 size = Nat.log 2 size :=
                ilog2_eq (Nat.pow_log_le_self 2 hPos) (Nat.lt_pow_succ_log_self (by decide) size)
                  (by omega)
              simp only [rounddown, hIlog] at hLe ⊢
              by_cases hTop : Nat.log 2 size = 31
              · rw [hTop, toUint32_oneShl_top] at hLe
                exact absurd hLe (by decide)
              · have hShl : toUint32 (oneShl (Nat.log 2 size)) = 2 ^ Nat.log 2 size := by
                  rw [oneShl_eq (by omega), toUint32_pow hLog]
                rw [hShl] at hLe ⊢
                exact Rounded.of_pow hLe (Or.inr ⟨_, rfl⟩)
        · next hAnd =>
            split at hAttach
            · cases hAttach
            · cases hAttach
              rw [ne_eq, not_not] at hAnd
              exact ⟨Rounded.of_pow hLe (pow_of_and_eq_zero hSize hAnd), rfl, rfl⟩

/-- From four bytes on, the other results about rings apply. -/
theorem Rounded.sized {r : RbufferT} (h : Rounded r.size) (hFour : lenSize ≤ r.size) : r.Sized := by
  rcases h with hZero | ⟨k, hk, hSize⟩
  · rw [hZero] at hFour
    exact absurd hFour (by decide)
  · refine ⟨k, ?_, hk, hSize⟩
    by_contra hNot
    have hPow : 2 ^ k ≤ 2 ^ 1 := Nat.pow_le_pow_right (by decide) (by omega)
    rw [lenSize] at hFour
    omega

theorem Rounded.tiny {size : Nat} (h : Rounded size) (hFour : ¬ lenSize ≤ size) :
    size = 0 ∨ size = 1 ∨ size = 2 := by
  rcases h with hZero | ⟨k, hk, rfl⟩
  · exact Or.inl hZero
  · have hk : k < 2 := by
      by_contra hNot
      have hPow : 2 ^ 2 ≤ 2 ^ k := Nat.pow_le_pow_right (by decide) (by omega)
      exact hFour hPow
    obtain rfl | rfl : k = 0 ∨ k = 1 := by omega
    · exact Or.inr (Or.inl rfl)
    · exact Or.inr (Or.inr rfl)

/-! ## Within the capacity -/

/-- Whatever the ring holds, a write stores nothing in the bytes that were not read. -/
def KeepsUnread (r : RbufferT) (buf : Option (List UInt8)) : Prop :=
  ∀ (buffer : Nat → UInt8) code r', rbufferWrite { r with buffer := buffer } buf = some (code, r') →
    ∀ j < r.used, r'.buffer (r.index (toUint32 (r.readPos + j))) =
      buffer (r.index (toUint32 (r.readPos + j)))

/-- After a call, no more bytes are in use than the ring has; a write keeps what was not read, and
the other calls store nothing. -/
def Within (s : State) (op : RbufferOp) (_ : RbufferResult) (s' : State) : Prop :=
  s'.ring.size = s.ring.size ∧ s'.ring.used ≤ s'.ring.size ∧
    match op with
    | .write buf => KeepsUnread s.ring buf
    | _ => s'.ring.buffer = s.ring.buffer

/-- What is written goes into a ring that can hold a length, or is refused as too long. -/
def HoldsLength (s : State) : RbufferOp → Prop
  | .write (some buf) =>
      buf = [] ∨ lenSize ≤ s.ring.size ∨ toUint32 (s.ring.size - lenSize) < buf.length
  | _ => True

instance (s : State) (op : RbufferOp) : Decidable (HoldsLength s op) := by
  unfold HoldsLength
  split <;> infer_instance

section Large

variable {r : RbufferT} {queue : List (List UInt8)}

/-- A call on a ring that holds messages leaves one, of the same size. -/
theorem Repr.used_le (h : Repr r queue) : r.used ≤ r.size := by
  rw [h.used_eq]
  exact h.fits

/-- What a write leaves, whatever the ring holds: what was there, or one message more. -/
theorem rbufferWrite_cases (h : Repr r queue) {buf : Option (List UInt8)} {buffer : Nat → UInt8}
    {code : Int} {r' : RbufferT}
    (hWrite : rbufferWrite { r with buffer := buffer } buf = some (code, r')) :
    r' = { r with buffer := buffer } ∨
      ∃ message writePos, r.used + (frame message).length ≤ r.size ∧
        r' = { r with buffer := put r.size buffer r.writePos (frame message),
                      writePos := writePos } := by
  cases buf with
  | none =>
      cases hWrite
      exact Or.inl rfl
  | some message =>
      by_cases hNil : message = []
      · subst hNil
        cases hWrite
        exact Or.inl rfl
      · have hPos : 0 < message.length := List.length_pos_of_ne_nil hNil
        by_cases hFull : rbufferWriteBytes r < message.length
        · have hFull' : rbufferWriteBytes { r with buffer := buffer } < message.length := hFull
          rw [rbufferWrite] at hWrite
          simp only [if_neg (by omega : ¬ 0 = message.length), if_pos hFull'] at hWrite
          cases hWrite
          exact Or.inl rfl
        · have hRoom : message.length + lenSize + r.used ≤ r.size :=
            Nat.le_of_not_lt fun hLess => hFull ((rbufferWriteBytes_lt h hNil).mpr hLess)
          have hFrame : (frame message).length = lenSize + message.length := length_frame
          have hSized : RbufferT.Sized { r with buffer := buffer } := h.sized
          have hFits : (frame message).length ≤ r.size := by omega
          rw [rbufferWrite_eq hSized hFits hNil hFull] at hWrite
          cases hWrite
          exact Or.inr ⟨message, _, by omega, rfl⟩

private theorem rbufferWrite_keepsUnread (h : Repr r queue) (buf : Option (List UInt8)) :
    KeepsUnread r buf := by
  intro buffer code r' hWrite j hj
  rcases rbufferWrite_cases h hWrite with rfl | ⟨message, writePos, hFits, rfl⟩
  · rfl
  · change put r.size buffer r.writePos (frame message) _ = buffer _
    have hPlace : put r.size buffer r.writePos (frame message) =
        put r.size buffer (r.readPos + r.used) (frame message) := by
      apply put_congr
      rw [h.write, h.used_eq, Nat.mod_mod_of_dvd _ h.sized.dvd]
    have hWindow := @window_put_before _ r.size r.readPos r.used buffer (frame message) hFits
    rw [← hPlace, window, window, List.map_inj_left] at hWindow
    rw [h.sized.index, h.sized.wrap]
    exact hWindow j (List.mem_range.mpr hj)

/-- A read moves `read_pos` only. -/
theorem rbufferRead_frame {bufSize : Option Nat} {bytes : Option (List UInt8)} {r' : RbufferT}
    (hRead : rbufferRead r bufSize = some (bytes, r')) :
    r'.size = r.size ∧ r'.buffer = r.buffer := by
  rw [rbufferRead, Option.bind_eq_bind, Option.bind_eq_some_iff] at hRead
  obtain ⟨result, -, hRead⟩ := hRead
  cases result with
  | none =>
      cases hRead
      exact ⟨rfl, rfl⟩
  | some bytes =>
      cases hRead
      exact ⟨rfl, rfl⟩

/-- One call on a ring that holds messages stays within the capacity. -/
theorem rbufferStep_within {s : State} (hInv : Inv s) (op : RbufferOp) :
    Does rbufferStep (fun s op result s' => Within s op result s' ∧ Inv s') s op := by
  obtain ⟨result, s', hStep, -, hInv'⟩ := rbufferStep_spec hInv op
  refine ⟨result, s', hStep, ?_, hInv'⟩
  obtain ⟨queue, -, hRepr⟩ := hInv
  obtain ⟨queue', -, hRepr'⟩ := hInv'
  have hUsed := hRepr'.used_le
  cases op with
  | write buf =>
      rw [rbufferStep, Option.map_eq_some_iff] at hStep
      obtain ⟨⟨code, r'⟩, hWrite, hEnd⟩ := hStep
      cases hEnd
      have hSize : r'.size = s.ring.size := by
        rcases rbufferWrite_cases hRepr hWrite with rfl | ⟨_, _, -, rfl⟩ <;> rfl
      exact ⟨hSize, hUsed, rbufferWrite_keepsUnread hRepr buf⟩
  | read bufSize =>
      rw [rbufferStep, Option.map_eq_some_iff] at hStep
      obtain ⟨⟨bytes, r'⟩, hRead, hEnd⟩ := hStep
      cases hEnd
      obtain ⟨hSize, hBuffer⟩ := rbufferRead_frame hRead
      exact ⟨hSize, hUsed, hBuffer⟩
  | peek bufSize =>
      rw [rbufferStep, rbufferPeek_spec hRepr] at hStep
      cases hStep
      exact ⟨rfl, hUsed, rfl⟩

end Large

/-! ## Less than a length -/

section Tiny

variable {r : RbufferT}

/-- A ring that cannot hold a length, before anything was written. -/
structure Tiny (r : RbufferT) : Prop where
  size : r.size = 0 ∨ r.size = 1 ∨ r.size = 2
  read : r.readPos = 0
  write : r.writePos = 0

theorem Tiny.used (h : Tiny r) : r.used = 0 := by
  rw [RbufferT.used, h.read, h.write]
  rfl

/-- It passes for a ring with almost `2 ^ 32` bytes. -/
theorem Tiny.writeBytes (h : Tiny r) :
    rbufferWriteBytes r = toUint32 ((r.size : Int) - lenSize) := by
  rw [rbufferWriteBytes, h.used]
  have hSize := h.size
  have hWrapped : ¬ 0 ≥ toUint32 ((r.size : Int) - lenSize) := by
    rw [toUint32, lenSize]
    omega
  rw [if_neg hWrapped]
  congr 1
  omega

/-- A message that is not refused goes past the end: behind the end come the last bytes of the
length or the first of the message. -/
theorem Tiny.write_undefined (h : Tiny r) {message : List UInt8} (hNil : message ≠ [])
    (hShort : ¬ toUint32 ((r.size : Int) - lenSize) < message.length) :
    rbufferWrite r (some message) = none := by
  have hPos : 0 < message.length := List.length_pos_of_ne_nil hNil
  have hIndex : r.index r.writePos = 0 := by
    rw [RbufferT.index, h.write, Nat.zero_and]
  have hTail : toUint32 ((r.size : Int) - (0 : Nat)) = r.size := by
    have hSize := h.size
    rw [toUint32]
    omega
  have hFull : ¬ rbufferWriteBytes r < message.length := by
    rwa [h.writeBytes]
  simp only [rbufferWrite, if_neg (by omega : ¬ 0 = message.length), if_neg hFull, hIndex, hTail]
  rcases h.size with hSize | hSize | hSize
  · simp [RbufferT.store, hSize, lenSize]
  · simp [RbufferT.store, hSize, lenSize]
  · simp [RbufferT.store, hSize, hNil, lenSize]

theorem Tiny.peek (h : Tiny r) (bufSize : Option Nat) : rbufferPeek r bufSize = some none := by
  cases bufSize with
  | none => rfl
  | some bufSize =>
      have hNone : 0 = rbufferReadBytes r := by
        rw [rbufferReadBytes, h.used]
        rfl
      rw [rbufferPeek, if_pos hNone]

theorem Tiny.read_none (h : Tiny r) (bufSize : Option Nat) :
    rbufferRead r bufSize = some (none, r) := by
  rw [rbufferRead, h.peek bufSize]
  rfl

/-- What is refused leaves the ring as it was. -/
theorem Tiny.write_refused (h : Tiny r) {buf : Option (List UInt8)}
    (hRefused : ∀ message, buf = some message → message ≠ [] →
      toUint32 ((r.size : Int) - lenSize) < message.length) :
    ∃ code, rbufferWrite r buf = some (code, r) := by
  cases buf with
  | none => exact ⟨-1, rfl⟩
  | some message =>
      by_cases hNil : message = []
      · subst hNil
        exact ⟨0, rfl⟩
      · have hPos : 0 < message.length := List.length_pos_of_ne_nil hNil
        have hFull := hRefused message rfl hNil
        rw [← h.writeBytes] at hFull
        refine ⟨-1, ?_⟩
        simp only [rbufferWrite, if_neg (by omega : ¬ 0 = message.length), if_pos hFull]

/-- A call that changes nothing stays within the capacity. -/
theorem Tiny.within {s s' : State} (h : Tiny s.ring) (hSame : s'.ring = s.ring) (op : RbufferOp)
    (result : RbufferResult) : Within s op result s' := by
  refine ⟨congrArg RbufferT.size hSame, ?_, ?_⟩
  · rw [hSame, h.used]
    exact Nat.zero_le _
  · cases op with
    | write buf =>
        intro buffer code r' _ j hj
        rw [h.used] at hj
        exact absurd hj (Nat.not_lt_zero j)
    | read bufSize => exact congrArg RbufferT.buffer hSame
    | peek bufSize => exact congrArg RbufferT.buffer hSame

/-- A call on a ring that cannot hold a length changes nothing, or writes what passes for fitting
and goes past the end. -/
theorem rbufferStep_tiny {s : State} (h : Tiny s.ring) (op : RbufferOp) :
    (HoldsLength s op ∧
        ∃ result s', rbufferStep s op = some (result, s') ∧ s'.ring = s.ring) ∨
      ¬ HoldsLength s op ∧ rbufferStep s op = none := by
  cases op with
  | write buf =>
      by_cases hHolds : HoldsLength s (.write buf)
      · left
        have hNotFour : ¬ lenSize ≤ s.ring.size := by
          have hSize := h.size
          rw [lenSize]
          omega
        obtain ⟨code, hWrite⟩ : ∃ code, rbufferWrite s.ring buf = some (code, s.ring) := by
          apply h.write_refused
          rintro message rfl hNil
          exact (hHolds.resolve_left hNil).resolve_left hNotFour
        refine ⟨hHolds, .status code, { s with sent := s.sent ++ accepted code buf }, ?_, rfl⟩
        rw [rbufferStep, hWrite]
        rfl
      · right
        refine ⟨hHolds, ?_⟩
        cases buf with
        | none => exact absurd trivial hHolds
        | some message =>
            rw [HoldsLength, not_or, not_or] at hHolds
            obtain ⟨hNil, -, hShort⟩ := hHolds
            rw [rbufferStep, h.write_undefined hNil hShort]
            rfl
  | read bufSize =>
      refine Or.inl ⟨trivial, .message none, { s with got := s.got ++ [] }, ?_, rfl⟩
      rw [rbufferStep, h.read_none bufSize]
      rfl
  | peek bufSize =>
      refine Or.inl ⟨trivial, .message none, s, ?_, rfl⟩
      rw [rbufferStep, h.peek bufSize]
      rfl

end Tiny

/-! ## Runs -/

/-- A ring from `rbuffer_create` with a size up to `2 ^ 30`, or from `rbuffer_attach` with a
capacity up to that. -/
def Made (r : RbufferT) : Prop :=
  (∃ size memory, size ≤ 2 ^ 30 ∧ rbufferCreate size memory = some r) ∨
    ∃ mem memSize, rbufferAttach mem memSize = some r ∧ r.size ≤ 2 ^ 30

/-- It holds messages, or cannot hold any. -/
theorem Made.repr_or_tiny {r : RbufferT} (h : Made r) : Repr r [] ∨ Tiny r := by
  obtain ⟨hRounded, hRead, hWrite⟩ : Rounded r.size ∧ r.readPos = 0 ∧ r.writePos = 0 := by
    rcases h with ⟨size, memory, hSize, hCreate⟩ | ⟨mem, memSize, hAttach, hSize⟩
    · exact rbufferCreate_size hSize hCreate
    · exact rbufferAttach_size hAttach hSize
  by_cases hFour : lenSize ≤ r.size
  · left
    apply Repr.empty (hRounded.sized hFour)
    · rw [hRead]
      decide
    · rw [hRead, hWrite]
  · exact Or.inr ⟨hRounded.tiny hFour, hRead, hWrite⟩

/-- A ring that can hold a length meets the condition. -/
theorem Repr.holdsLength {s : State} {queue : List (List UInt8)} (h : Repr s.ring queue)
    (op : RbufferOp) : HoldsLength s op := by
  cases op with
  | write buf =>
      cases buf with
      | none => trivial
      | some message => exact Or.inr (Or.inl h.sized.le.1)
  | read bufSize => trivial
  | peek bufSize => trivial

/-- Along a run the positions never drift further apart than the capacity, no byte outside of it
is touched and nothing unread is overwritten, if and only if the ring can hold a length or nothing
that passes for fitting is written. -/
theorem rbuffer_within_iff {r : RbufferT} (hMade : Made r) (ops : List RbufferOp) :
    Along rbufferStep (Does rbufferStep Within) ⟨r, [], []⟩ ops ↔
      Along rbufferStep HoldsLength ⟨r, [], []⟩ ops := by
  have hIff : ∀ s op, Inv s ∨ Tiny s.ring → True →
      (Does rbufferStep Within s op ↔ HoldsLength s op) := by
    intro s op hInv _
    rcases hInv with hInv | hTiny
    · obtain ⟨result, s', hStep, hWithin, -⟩ := rbufferStep_within hInv op
      obtain ⟨queue, -, hRepr⟩ := hInv
      exact ⟨fun _ => hRepr.holdsLength op, fun _ => ⟨result, s', hStep, hWithin⟩⟩
    · rcases rbufferStep_tiny hTiny op with ⟨hHolds, result, s', hStep, hSame⟩ | ⟨hNot, hNone⟩
      · exact iff_of_true ⟨result, s', hStep, hTiny.within hSame op result⟩ hHolds
      · exact iff_of_false (not_does hNone) hNot
  have hKeep : ∀ s op result s', Inv s ∨ Tiny s.ring → True → Does rbufferStep Within s op →
      rbufferStep s op = some (result, s') → Inv s' ∨ Tiny s'.ring := by
    intro s op result s' hInv _ _ hStep
    rcases hInv with hInv | hTiny
    · obtain ⟨result', t, hStep', -, hInv'⟩ := rbufferStep_within hInv op
      rw [hStep] at hStep'
      cases hStep'
      exact Or.inl hInv'
    · right
      rcases rbufferStep_tiny hTiny op with ⟨-, result', t, hStep', hSame⟩ | ⟨-, hNone⟩
      · rw [hStep] at hStep'
        cases hStep'
        rwa [hSame]
      · rw [hNone] at hStep
        cases hStep
  have hStart : Inv ⟨r, [], []⟩ ∨ Tiny r := by
    rcases hMade.repr_or_tiny with hRepr | hTiny
    · exact Or.inl ⟨[], rfl, hRepr⟩
    · exact Or.inr hTiny
  exact along_iff_of_inv (fun s => Inv s ∨ Tiny s.ring) hIff hKeep hStart (along_true _ ops)

/-- A new ring, in memory that holds zeros. -/
def ringOf (size : Nat) : RbufferT :=
  { size := size, readPos := 0, writePos := 0, buffer := fun _ => 0 }

/-- In eight bytes a message of three fits, and a second one does not. -/
theorem rbuffer_within_eight :
    Along rbufferStep (Does rbufferStep Within) ⟨ringOf 8, [], []⟩
      [.write (some [1, 2, 3]), .write (some [4]), .read (some 8), .write (some [4, 5, 6, 7])] :=
  (rbuffer_within_iff (Or.inl ⟨8, some fun _ => 0, by decide, rfl⟩) _).mpr (by decide)

/-- In two bytes the first message goes past the end. -/
theorem rbuffer_within_two :
    rbufferCreate 2 (some fun _ => 0) = some (ringOf 2) ∧
      ¬ Along rbufferStep (Does rbufferStep Within) ⟨ringOf 2, [], []⟩ [.write (some [1])] := by
  refine ⟨rfl, fun hAlong => ?_⟩
  obtain ⟨result, s', hStep, -⟩ := hAlong.head
  have hNone : rbufferStep ⟨ringOf 2, [], []⟩ (.write (some [1])) = none := rfl
  rw [hNone] at hStep
  cases hStep

end Gbase.Base.Rbuffer
