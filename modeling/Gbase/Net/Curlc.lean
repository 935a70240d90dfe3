import Gbase.Lib.CString
import Gbase.Lib.Run

/-!
# Responses of an HTTP client (`net/curlc.c`)

The library hands over a response in chunks.  Memory is a list of bytes, and reading behind its end
is undefined, `none`: behind a chunk, and behind the array of the response.  The client and the
chunk are not null.

A chunk is bytes without an end mark, and the client appends it with functions for strings.  How
much of it is kept depends on its bytes of zero, on the room that is left, and on how the response
was cut.

## Main results

* `writeRun_spec`: what a run of calls leaves in the array.
* `curlc_response_iff`: which responses are kept whole, however they are cut.
-/

namespace Gbase.Net.Curlc

open Gbase.Lib.CString
open Gbase.Lib.Run

/-- `CURL_MAX_RESPONSE_LEN` -/
def curlMaxResponseLen : Nat := 4096

/-- `curl_client_t`, as far as the response goes. -/
structure CurlcT where
  res : List UInt8

/-- `memset` in `curlc_create` and `curlc_raw_create` -/
def curlcRawCreate : CurlcT where
  res := List.replicate curlMaxResponseLen 0

/-- `curlc_finish` -/
def curlcFinish (cc : CurlcT) : CurlcT := { cc with res := cc.res.set 0 0 }

/-- `curlc_append_res` -/
def curlcAppendRes (cc : CurlcT) (data : List UInt8) : Option CurlcT := do
  let held ← cString cc.res 0
  let nres := held.length
  let text ← cString data 0
  return { cc with res := cc.res.take nres ++ snprintf (cc.res.drop nres) text }

/-- What the library hands over in one call. -/
structure Chunk where
  bytes : List UInt8
  sz : Nat
  nitems : Nat
  size : bytes.length = sz * nitems

/-- `curlc_write_cb` -/
def curlcWriteCb : Step CurlcT Chunk Nat := fun cc chunk => do
  let cc ← curlcAppendRes cc chunk.bytes
  return (chunk.sz * chunk.nitems, cc)

/-! ## One call -/

/-- A string in the array, and behind it what was there before. -/
def stored (old s : List UInt8) : List UInt8 := s ++ 0 :: old.drop (s.length + 1)

/-- The bytes of a chunk before its first zero. -/
def Chunk.text (chunk : Chunk) : List UInt8 := chunk.bytes.takeWhile (· ≠ 0)

section

variable {old s data : List UInt8}

private theorem take_append_take {α : Type} (xs ys : List α) (n : Nat) :
    (xs.take n ++ ys).take n = (xs ++ ys).take n := by
  by_cases hLe : xs.length ≤ n
  · rw [List.take_of_length_le hLe]
  · rw [List.take_append_of_le_length (by rw [List.length_take]; omega), List.take_take,
      Nat.min_self, List.take_append_of_le_length (by omega)]

/-- A string that ends in its memory. -/
theorem cString_some (hZero : 0 ∈ data) : cString data 0 = some (data.takeWhile (· ≠ 0)) := by
  have hLen : (data.takeWhile (· ≠ 0)).length < data.length := by
    have hSplit := congrArg List.length (split_first hZero)
    rw [List.length_append, List.length_cons] at hSplit
    omega
  rw [cString, List.drop_zero, Nat.zero_add, if_pos hLen]

/-- A string that does not. -/
theorem cString_none (hZero : 0 ∉ data) : cString data 0 = none := by
  have hAll : data.takeWhile (· ≠ 0) = data :=
    List.takeWhile_eq_self_iff.mpr fun x hx => decide_eq_true fun hEq => hZero (hEq ▸ hx)
  rw [cString, List.drop_zero, Nat.zero_add, hAll, if_neg (Nat.lt_irrefl _)]

private theorem cString_stored (hText : ∀ x, x ∈ s → x ≠ 0) : cString (stored old s) 0 = some s :=
  @cString_eq [] s (old.drop (s.length + 1)) hText

/-- A call appends the bytes before the first zero, as far as they fit. -/
theorem curlcAppendRes_stored (hText : ∀ x, x ∈ s → x ≠ 0)
    (hLen : s.length ≤ curlMaxResponseLen - 1) (hOld : old.length = curlMaxResponseLen)
    (hZero : 0 ∈ data) :
    curlcAppendRes ⟨stored old s⟩ data =
      some ⟨stored old ((s ++ data.takeWhile (· ≠ 0)).take (curlMaxResponseLen - 1))⟩ := by
  have hMax : curlMaxResponseLen = 4096 := rfl
  have hDrop : (stored old s).drop s.length = 0 :: old.drop (s.length + 1) := List.drop_left
  have hTake : (stored old s).take s.length = s := List.take_left
  have hRoom : (0 :: old.drop (s.length + 1)).length - 1 = curlMaxResponseLen - 1 - s.length := by
    rw [List.length_cons, List.length_drop]
    omega
  rw [curlcAppendRes, cString_stored hText, cString_some hZero]
  simp only [Option.bind_eq_bind, Option.bind_some, hDrop, hTake, snprintf, hRoom]
  rw [List.take_append, List.take_of_length_le hLen]
  generalize (data.takeWhile (· ≠ 0)).take (curlMaxResponseLen - 1 - s.length) = cut
  rw [stored, List.drop_succ_cons, List.drop_drop, List.length_append, List.append_assoc,
    Nat.add_right_comm]
  rfl

end

/-! ## Runs -/

/-- The response. -/
def received (chunks : List Chunk) : List UInt8 := chunks.flatMap Chunk.bytes

/-- The bytes of it that are to be kept: the array holds them and a zero. -/
def kept (chunks : List Chunk) : List UInt8 := (received chunks).take (curlMaxResponseLen - 1)

/-- A client before its response. -/
def Fresh (cc : CurlcT) : Prop := cc.res.length = curlMaxResponseLen ∧ cc.res.head? = some 0

/-- Cut in either of two ways, a response is read inside its chunks only, the array holds the bytes
of it that are to be kept, and both ways leave the same. -/
def Exact (cc : CurlcT) (cut other : List Chunk) : Prop :=
  ∃ sizes sizes' cc', run curlcWriteCb cc cut = some (sizes, cc') ∧
    run curlcWriteCb cc other = some (sizes', cc') ∧ kept cut ++ [0] <+: cc'.res

/-- Every chunk holds a zero; and the first one fills the array before its first zero, or the later
ones start with a zero and the array holds already what follows the first zero. -/
def Good (cc : CurlcT) : List Chunk → Prop
  | [] => True
  | first :: later =>
      (∀ chunk, chunk ∈ first :: later → 0 ∈ chunk.bytes) ∧
        (curlMaxResponseLen - 1 ≤ first.text.length ∨
          (∀ chunk, chunk ∈ later → chunk.text = []) ∧
            (kept (first :: later) ++ [0]).drop (first.text.length + 1) <+:
              cc.res.drop (first.text.length + 1))

section

variable {cc : CurlcT} {chunk first : Chunk} {chunks later cut other : List Chunk}
  {old s : List UInt8}

private theorem fresh_create : Fresh curlcRawCreate := ⟨List.length_replicate, rfl⟩

/-- The empty string is stored in a new client. -/
theorem Fresh.stored (hFresh : Fresh cc) : cc = ⟨stored cc.res []⟩ := by
  obtain ⟨res⟩ := cc
  obtain ⟨-, hHead⟩ := hFresh
  cases res with
  | nil => cases hHead
  | cons c rest =>
      cases hHead
      rfl

theorem Chunk.text_ne (chunk : Chunk) : ∀ x, x ∈ chunk.text → x ≠ 0 := by
  intro x hx
  have hTest := List.mem_takeWhile_imp (p := fun x => decide (x ≠ 0)) hx
  exact of_decide_eq_true hTest

/-- A run is defined only if every chunk holds a zero. -/
theorem writeRun_zero {r : List Nat × CurlcT} (hRun : run curlcWriteCb cc chunks = some r) :
    ∀ chunk, chunk ∈ chunks → 0 ∈ chunk.bytes := by
  induction chunks generalizing cc r with
  | nil => simp
  | cons first later ih =>
      obtain ⟨size, cc', sizes, hStep, hRest, -⟩ := run_cons_split hRun
      have hFirst : 0 ∈ first.bytes := by
        by_contra hZero
        have hNone : curlcWriteCb cc first = none := by
          rw [curlcWriteCb, curlcAppendRes, cString_none hZero]
          cases cString cc.res 0 <;> rfl
        rw [hNone] at hStep
        cases hStep
      intro chunk hIn
      rcases List.mem_cons.mp hIn with rfl | hLater
      · exact hFirst
      · exact ih hRest chunk hLater

/-- What a run leaves in the array: the bytes before the first zeros. -/
theorem writeRun_spec (hText : ∀ x, x ∈ s → x ≠ 0) (hLen : s.length ≤ curlMaxResponseLen - 1)
    (hOld : old.length = curlMaxResponseLen) (hZero : ∀ chunk, chunk ∈ chunks → 0 ∈ chunk.bytes) :
    ∃ sizes, run curlcWriteCb ⟨stored old s⟩ chunks =
      some (sizes, ⟨stored old ((s ++ chunks.flatMap Chunk.text).take
        (curlMaxResponseLen - 1))⟩) := by
  induction chunks generalizing s with
  | nil =>
      refine ⟨[], ?_⟩
      rw [List.flatMap_nil, List.append_nil, List.take_of_length_le hLen]
      rfl
  | cons first later ih =>
      have hAppend := curlcAppendRes_stored hText hLen hOld (hZero first List.mem_cons_self)
      have hStep : curlcWriteCb ⟨stored old s⟩ first = some (first.sz * first.nitems,
          ⟨stored old ((s ++ first.text).take (curlMaxResponseLen - 1))⟩) := by
        rw [curlcWriteCb, hAppend]
        rfl
      have hNext : ∀ x, x ∈ (s ++ first.text).take (curlMaxResponseLen - 1) → x ≠ 0 := by
        intro x hx
        rcases List.mem_append.mp (List.mem_of_mem_take hx) with hOf | hOf
        · exact hText x hOf
        · exact first.text_ne x hOf
      obtain ⟨sizes, hRun⟩ := @ih _ hNext (List.length_take_le _ _)
        fun chunk hIn => hZero chunk (List.mem_cons_of_mem _ hIn)
      rw [take_append_take, List.append_assoc, ← List.flatMap_cons] at hRun
      exact ⟨_, run_cons hStep hRun⟩

/-- The bytes behind the first zero of a response. -/
theorem received_cons (hZero : 0 ∈ first.bytes) :
    ∃ rest, received (first :: later) = first.text ++ 0 :: rest :=
  ⟨(first.bytes.dropWhile (· ≠ 0)).tail ++ received later, by
    rw [received, List.flatMap_cons, ← received]
    conv => lhs; rw [split_first hZero]
    rw [List.append_assoc]
    rfl⟩

/-- The array holds what is to be kept, on a run of chunks that hold a zero. -/
theorem kept_iff (hZero : 0 ∈ first.bytes) :
    kept (first :: later) ++ [0] <+:
        stored cc.res (((first :: later).flatMap Chunk.text).take (curlMaxResponseLen - 1)) ↔
      curlMaxResponseLen - 1 ≤ first.text.length ∨
        (∀ chunk, chunk ∈ later → chunk.text = []) ∧
          (kept (first :: later) ++ [0]).drop (first.text.length + 1) <+:
            cc.res.drop (first.text.length + 1) := by
  obtain ⟨rest, hReceived⟩ := @received_cons first later hZero
  have hText := first.text_ne
  rw [kept, hReceived, List.flatMap_cons]
  generalize first.text = text at hText
  by_cases hFull : curlMaxResponseLen - 1 ≤ text.length
  · -- the first text fills the array
    refine iff_of_true ?_ (Or.inl hFull)
    rw [List.take_append_of_le_length hFull, List.take_append_of_le_length hFull, stored]
    exact (List.prefix_append_right_inj _).mpr ⟨_, rfl⟩
  · -- a zero is to be kept behind the first text
    obtain ⟨n, hn⟩ : ∃ n, curlMaxResponseLen - 1 - text.length = n + 1 :=
      ⟨curlMaxResponseLen - 1 - text.length - 1, by omega⟩
    have hShort : text.take (curlMaxResponseLen - 1) = text := List.take_of_length_le (by omega)
    have hDrop : ∀ ys, (text ++ 0 :: ys).drop (text.length + 1) = ys := fun ys => by simp
    rw [List.take_append, List.take_append, hShort, hn, List.take_succ_cons, or_iff_right hFull,
      stored, List.append_assoc, List.append_assoc, List.prefix_append_right_inj, List.cons_append,
      hDrop]
    by_cases hLater : ∀ chunk, chunk ∈ later → chunk.text = []
    · have hNone : later.flatMap Chunk.text = [] := List.flatMap_eq_nil_iff.mpr hLater
      rw [hNone, List.take_nil, List.append_nil, List.nil_append, List.cons_prefix_cons]
      exact ⟨fun h => ⟨hLater, h.2⟩, fun h => ⟨rfl, h.2⟩⟩
    · -- another byte stands there
      refine iff_of_false ?_ fun h => hLater h.1
      obtain ⟨c, cs, hSome⟩ := List.exists_cons_of_ne_nil
        fun hNil => hLater (List.flatMap_eq_nil_iff.mp hNil)
      obtain ⟨chunk, -, hIn⟩ := List.mem_flatMap.mp (hSome ▸ List.mem_cons_self :
        c ∈ later.flatMap Chunk.text)
      rw [hSome, List.take_succ_cons, List.cons_append, List.cons_prefix_cons]
      exact fun h => chunk.text_ne c hIn h.1.symm

/-- What a client holds after a run of chunks that hold a zero. -/
theorem fresh_run (hFresh : Fresh cc) (hZero : ∀ chunk, chunk ∈ chunks → 0 ∈ chunk.bytes) :
    ∃ sizes, run curlcWriteCb cc chunks = some (sizes,
      ⟨stored cc.res ((chunks.flatMap Chunk.text).take (curlMaxResponseLen - 1))⟩) := by
  obtain ⟨sizes, hRun⟩ := @writeRun_spec chunks cc.res [] (by simp) (Nat.zero_le _) hFresh.1 hZero
  rw [← hFresh.stored, List.nil_append] at hRun
  exact ⟨sizes, hRun⟩

/-- A run keeps the response exactly if the chunks are good. -/
theorem keeps_iff (hFresh : Fresh cc) :
    (∃ sizes cc', run curlcWriteCb cc chunks = some (sizes, cc') ∧
      kept chunks ++ [0] <+: cc'.res) ↔ Good cc chunks := by
  cases chunks with
  | nil =>
      refine iff_of_true ⟨[], cc, rfl, ?_⟩ trivial
      rw [hFresh.stored]
      exact ⟨_, rfl⟩
  | cons first later =>
      constructor
      · rintro ⟨sizes, cc', hRun, hKept⟩
        have hZero := writeRun_zero hRun
        obtain ⟨sizes', hRun'⟩ := fresh_run hFresh hZero
        rw [hRun'] at hRun
        cases hRun
        exact ⟨hZero, (kept_iff (hZero first List.mem_cons_self)).mp hKept⟩
      · rintro ⟨hZero, hGood⟩
        obtain ⟨sizes, hRun⟩ := fresh_run hFresh hZero
        exact ⟨sizes, _, hRun, (kept_iff (hZero first List.mem_cons_self)).mpr hGood⟩

/-- What good chunks leave depends on the response alone. -/
theorem Good.text_eq (hGood : Good cc chunks) :
    (chunks.flatMap Chunk.text).take (curlMaxResponseLen - 1) =
      ((received chunks).takeWhile (· ≠ 0)).take (curlMaxResponseLen - 1) := by
  cases chunks with
  | nil => rfl
  | cons first later =>
      obtain ⟨hZero, hRest⟩ := hGood
      obtain ⟨rest, hReceived⟩ := @received_cons first later (hZero first List.mem_cons_self)
      have hStop : (first.text ++ 0 :: rest).takeWhile (· ≠ 0) = first.text :=
        takeWhile_stop (fun x hx => decide_eq_true (first.text_ne x hx))
          (fun y hy => by cases hy; rfl)
      rw [hReceived, hStop, List.flatMap_cons]
      rcases hRest with hFull | ⟨hLater, -⟩
      · rw [List.take_append_of_le_length hFull]
      · rw [List.flatMap_eq_nil_iff.mpr hLater, List.append_nil]

end

/-- A response is kept as it is, whichever of two ways it is cut, exactly if the chunks of both
ways are good. -/
theorem curlc_response_iff {cc : CurlcT} {cut other : List Chunk} (hFresh : Fresh cc)
    (hSame : received cut = received other) :
    Exact cc cut other ↔ Good cc cut ∧ Good cc other := by
  have hKept : kept cut = kept other := congrArg (List.take _) hSame
  constructor
  · rintro ⟨sizes, sizes', cc', hCut, hOther, hPrefix⟩
    refine ⟨(keeps_iff hFresh).mp ⟨sizes, cc', hCut, hPrefix⟩, ?_⟩
    rw [hKept] at hPrefix
    exact (keeps_iff hFresh).mp ⟨sizes', cc', hOther, hPrefix⟩
  · rintro ⟨hCut, hOther⟩
    obtain ⟨sizes, cc', hRun, hPrefix⟩ := (keeps_iff hFresh).mpr hCut
    obtain ⟨sizes', cc'', hRun', -⟩ := (keeps_iff hFresh).mpr hOther
    obtain ⟨_, hLeft⟩ := fresh_run hFresh (writeRun_zero hRun)
    obtain ⟨_, hLeft'⟩ := fresh_run hFresh (writeRun_zero hRun')
    rw [hRun, hCut.text_eq] at hLeft
    rw [hRun', hOther.text_eq, ← hSame] at hLeft'
    have hEq : cc' = cc'' := by
      rw [(Prod.mk.inj (Option.some.inj hLeft)).2, (Prod.mk.inj (Option.some.inj hLeft')).2]
    rw [← hEq] at hRun'
    exact ⟨sizes, sizes', cc', hRun, hRun', hPrefix⟩

/-- A chunk of given bytes, as one item. -/
def chunkOf (bytes : List UInt8) : Chunk := ⟨bytes, 1, bytes.length, (Nat.one_mul _).symm⟩

/-- A text and two zeros, in one piece or with the last zero on its own. -/
theorem curlc_response_string :
    Exact curlcRawCreate [chunkOf [0x61, 0x62, 0, 0]] [chunkOf [0x61, 0x62, 0], chunkOf [0]] := by
  have hZeros : [0, 0] <+: curlcRawCreate.res.drop 3 := by
    rw [curlcRawCreate, List.drop_replicate]
    exact ⟨List.replicate 4091 0, rfl⟩
  have hOne : Good curlcRawCreate [chunkOf [0x61, 0x62, 0, 0]] :=
    ⟨by simp [chunkOf], Or.inr ⟨by simp, hZeros⟩⟩
  have hTwo : Good curlcRawCreate [chunkOf [0x61, 0x62, 0], chunkOf [0]] :=
    ⟨by simp [chunkOf], Or.inr ⟨by simp [chunkOf, Chunk.text], hZeros⟩⟩
  have hSame : received [chunkOf [0x61, 0x62, 0, 0]] =
      received [chunkOf [0x61, 0x62, 0], chunkOf [0]] := rfl
  exact (curlc_response_iff fresh_create hSame).mpr ⟨hOne, hTwo⟩

/-- A chunk without a zero is read behind its end, and of two chunks with a zero the second one goes
where the first zero was. -/
theorem curlc_response_lost :
    run curlcWriteCb curlcRawCreate [chunkOf [0x61]] = none ∧
      ¬ Exact curlcRawCreate [chunkOf [0x61]] [chunkOf [0x61]] ∧
      ¬ Exact curlcRawCreate [chunkOf [0x61, 0], chunkOf [0x62, 0]]
        [chunkOf [0x61, 0, 0x62, 0]] := by
  have hNone : run curlcWriteCb curlcRawCreate [chunkOf [0x61]] = none := by
    cases hRun : run curlcWriteCb curlcRawCreate [chunkOf [0x61]] with
    | none => rfl
    | some r => exact absurd (writeRun_zero hRun _ List.mem_cons_self) (by simp [chunkOf])
  refine ⟨hNone, ?_, ?_⟩
  · rintro ⟨sizes, sizes', cc', hRun, -⟩
    rw [hNone] at hRun
    cases hRun
  · rintro ⟨sizes, sizes', cc', hRun, -, hKept⟩
    have hGood := (keeps_iff fresh_create).mp ⟨sizes, cc', hRun, hKept⟩
    rcases hGood.2 with hFull | ⟨hLater, -⟩
    · exact absurd hFull (by decide)
    · exact absurd (hLater (chunkOf [0x62, 0]) List.mem_cons_self) (by decide)

end Gbase.Net.Curlc
