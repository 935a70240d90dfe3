import Gbase.Net.WsParse
import Mathlib.Data.Nat.Bitwise

/-!
# Which handshake is answered (`net/wsconn.c`)

Every header that the parser knows sets a bit, and the bits choose one of three answers.  The header
of the second key sets the bit of the first one.

The condition compares the flags with the names on the lines of a request, where upper and lower
case are the same; it is about every request that the parser takes.

## Main results

* `parseFields_flags`: the bits that a loop over the lines sets.
* `wsconnParseRequest_flags_iff`: the requests for which the bits tell which headers are there.
-/

namespace Gbase.Net.Wsconn

open Gbase.Lib.CString

/-- The lines behind the first one, as far as the string in the array goes. -/
def headerLines (data : List UInt8) : List (List UInt8) :=
  (tokens lineDelim (data.takeWhile (· ≠ 0))).tail

/-- The header of some name is there. -/
def hasField (data : List UInt8) (field : String) : Bool :=
  (headerLines data).any fun line => isField line field

/-- The bit that each header has. -/
def fieldFlags : List (String × Nat) :=
  [("connection", wsFlagConnection), ("upgrade", wsFlagUpgrade), ("host", wsFlagHost),
    ("origin", wsFlagOrigin), ("sec-websocket-origin", wsFlagSecOrigin),
    ("sec-websocket-key", wsFlagSecKey), ("sec-websocket-version", wsFlagSecVersion),
    ("sec-websocket-key1", wsFlagSecKey1), ("sec-websocket-key2", wsFlagSecKey2),
    ("sec-websocket-protocol", wsFlagSecProtocol)]

/-- The headers of `WS_MD5`. -/
def md5Fields : List String :=
  ["host", "connection", "sec-websocket-key1", "sec-websocket-key2", "upgrade", "origin",
    "sec-websocket-protocol"]

/-- The headers of `WS_SHA1`. -/
def sha1Fields : List String :=
  ["upgrade", "connection", "host", "sec-websocket-origin", "sec-websocket-key",
    "sec-websocket-version"]

/-- The headers of `WS_SHA1_EX`. -/
def sha1ExFields : List String :=
  ["upgrade", "connection", "host", "origin", "sec-websocket-key", "sec-websocket-version"]

/-- The headers of `WS_FLASH`. -/
def flashFields : List String := ["upgrade", "connection", "host", "origin"]

/-- Every bit tells whether its header is there. -/
def FlagsRight (data : List UInt8) (request : RequestT) : Prop :=
  ∀ e, e ∈ fieldFlags → (request.flag &&& e.2 ≠ 0 ↔ hasField data e.1 = true)

/-- The answer is chosen by the headers that are there. -/
def VariantRight (data : List UInt8) (request : RequestT) : Prop :=
  ∀ (α : Type) (env : HandshakeEnv) (con : WsconnT α),
    wsconnProcReq env con request =
      if md5Fields.all (hasField data) then wsconnProcMd5Req env con request
      else if sha1Fields.all (hasField data) ∨ sha1ExFields.all (hasField data) then
        wsconnProcSha1Req env con request
      else if flashFields.all (hasField data) then wsconnProcFlashReq con request
      else some (-1, con)

/-! ## One header -/

/-- The bits that the parser sets, in the order of its tests. -/
def setFlags : List (String × Nat) :=
  [("connection", wsFlagConnection), ("upgrade", wsFlagUpgrade), ("host", wsFlagHost),
    ("origin", wsFlagOrigin), ("sec-websocket-origin", wsFlagSecOrigin),
    ("sec-websocket-key", wsFlagSecKey), ("sec-websocket-version", wsFlagSecVersion),
    ("sec-websocket-key1", wsFlagSecKey1), ("sec-websocket-key2", wsFlagSecKey1),
    ("sec-websocket-protocol", wsFlagSecProtocol)]

section

variable {request filled : RequestT} {name value text line : List UInt8} {flag : Nat}

/-- What the header of a name sets. -/
def flagOf (name : List UInt8) : Nat :=
  setFlags.foldr (fun e rest => if strcaseeq name (ascii e.1) then e.2 else rest) 0

private theorem setField_flag :
    (setField request name value text).2.flag = request.flag ||| flagOf name := by
  simp only [setField, flagOf, setFlags, List.foldr_cons, List.foldr_nil, apply_ite Prod.snd,
    apply_ite RequestT.flag, apply_ite (request.flag ||| ·), Nat.or_zero]

/-- The first entry whose name matches, if there is one. -/
theorem flagOf_cases (name : List UInt8) (table : List (String × Nat)) :
    (∃ e, e ∈ table ∧ strcaseeq name (ascii e.1) = true ∧
        table.foldr (fun e rest => if strcaseeq name (ascii e.1) then e.2 else rest) 0 = e.2) ∨
      ((∀ e, e ∈ table → ¬ strcaseeq name (ascii e.1) = true) ∧
        table.foldr (fun e rest => if strcaseeq name (ascii e.1) then e.2 else rest) 0 = 0) := by
  induction table with
  | nil => exact Or.inr ⟨fun e h => (List.not_mem_nil h).elim, rfl⟩
  | cons first table ih =>
      rw [List.foldr_cons]
      by_cases hFirst : strcaseeq name (ascii first.1) = true
      · exact Or.inl ⟨first, List.mem_cons_self, hFirst, if_pos hFirst⟩
      · rw [if_neg hFirst]
        cases ih with
        | inl hFound =>
            obtain ⟨e, hIn, hName, hEq⟩ := hFound
            exact Or.inl ⟨e, List.mem_cons_of_mem first hIn, hName, hEq⟩
        | inr hNone =>
            refine Or.inr ⟨?_, hNone.2⟩
            intro e hIn
            cases List.mem_cons.mp hIn with
            | inl hEq => rw [hEq]; exact hFirst
            | inr hRest => exact hNone.1 e hRest

/-- No two of the names are equal. -/
theorem setFlags_distinct : ∀ e, e ∈ setFlags → ∀ e', e' ∈ setFlags →
    strcaseeq (ascii e.1) (ascii e'.1) = true → e = e' := by
  decide

private theorem setFlags_disjoint : ∀ e, e ∈ setFlags → ∀ e', e' ∈ fieldFlags →
    (e.2 &&& e'.2 ≠ 0 ↔ e.2 = e'.2) := by
  decide

/-- The headers that set a bit. -/
theorem flagOf_iff {e : String × Nat} (he : e ∈ fieldFlags) :
    flagOf name &&& e.2 ≠ 0 ↔
      ∃ e', e' ∈ setFlags ∧ e'.2 = e.2 ∧ strcaseeq name (ascii e'.1) = true := by
  rw [flagOf]
  constructor
  · intro hBit
    obtain ⟨e', hIn, hName, hEq⟩ | ⟨-, hEq⟩ := flagOf_cases name setFlags
    · rw [hEq] at hBit
      exact ⟨e', hIn, (setFlags_disjoint e' hIn e he).mp hBit, hName⟩
    · rw [hEq, Nat.zero_and] at hBit
      exact absurd rfl hBit
  · rintro ⟨e', hIn, hSame, hName⟩
    obtain ⟨first, hFirst, hFirstName, hEq⟩ | ⟨hNone, -⟩ := flagOf_cases name setFlags
    · have hIs := setFlags_distinct first hFirst e' hIn (strcaseeq_trans hFirstName hName)
      rw [hEq, hIs]
      exact (setFlags_disjoint e' hIn e he).mpr hSame
    · exact absurd hName (hNone e' hIn)

end

/-! ## All lines -/

section

variable {request filled : RequestT} {text pre rest data : List UInt8} {n : Nat}

/-- A string that ends in a zero is delimiters only, or its first token is cut off. -/
theorem cut_cases (hText : ∀ x, x ∈ text → x ≠ 0) :
    (∀ x, x ∈ text → x ∈ lineDelim) ∨
      ∃ seps line c behind next, Cut (text ++ [0]) seps line c behind ∧
        goOn c behind = next ++ [0] ∧ (∀ x, x ∈ next → x ≠ 0) ∧
        tokens lineDelim text = line :: tokens lineDelim next := by
  cases text_cases lineDelim text with
  | inl hSeps => exact Or.inl hSeps
  | inr hLine =>
      obtain ⟨seps, line, rest, rfl, hSeps, hLine, hToken, hStop⟩ := hLine
      have hBoth : ∀ x, x ∈ line → x ≠ 0 ∧ x ∉ lineDelim :=
        fun x hx => ⟨hText x (by simp [hx]), hToken x hx⟩
      cases rest with
      | nil =>
          refine Or.inr ⟨seps, line, 0, [], [], ?_, rfl, by simp, ?_⟩
          · exact {
              eq := by rw [List.append_nil]
              delims := hSeps
              nonempty := hLine
              token := hBoth
              stop := Or.inl rfl }
          · rw [List.append_nil, tokens_seps hSeps, tokens_last hLine hToken]
            rfl
      | cons c rest =>
          have hIn : c ∈ lineDelim := hStop c rfl
          have hNe : c ≠ 0 := hText c (by simp)
          refine Or.inr ⟨seps, line, c, rest ++ [0], rest, ?_, if_neg hNe, ?_, ?_⟩
          · exact {
              eq := by simp [List.append_assoc]
              delims := hSeps
              nonempty := hLine
              token := hBoth
              stop := Or.inr hIn }
          · exact fun x hx => hText x (by simp [hx])
          · rw [List.append_assoc, tokens_seps hSeps, tokens_line hLine hToken hIn]

/-- The bits that are set behind a loop over some lines. -/
theorem parseFields_flags (hText : ∀ x, x ∈ text → x ≠ 0)
    (hRun : parseFields n request (pre ++ (text ++ [0]) ++ rest) pre.length = some (0, filled))
    {e : String × Nat} (he : e ∈ fieldFlags) :
    filled.flag &&& e.2 ≠ 0 ↔
      request.flag &&& e.2 ≠ 0 ∨
        ∃ line, line ∈ tokens lineDelim text ∧
          ∃ e', e' ∈ setFlags ∧ e'.2 = e.2 ∧ isField line e'.1 = true := by
  induction n generalizing request text pre with
  | zero => cases hRun
  | succ n ih =>
      cases cut_cases hText with
      | inl hSeps =>
          rw [parseFields_stop hSeps] at hRun
          cases hRun
          simp [tokens_none hSeps]
      | inr hCut =>
          obtain ⟨seps, line, c, behind, next, hCut, hNext, hZero, hTokens⟩ := hCut
          obtain ⟨pre', hLine⟩ := parseFields_line hCut n request pre rest
          rw [hLine, hNext] at hRun
          simp only [hTokens, List.exists_mem_cons_iff]
          by_cases hColon : fieldDelim ∈ line
          · have hIs : ∀ field, isField line field =
                strcaseeq (headerName line) (ascii field) := by
              intro field
              simp [isField, hColon]
            rw [if_pos hColon] at hRun
            split at hRun
            · cases hRun
            · rw [ih hZero hRun, setField_flag, Nat.and_or_distrib_right, Ne, Nat.or_eq_zero_iff,
                not_and_or, ← Ne, ← Ne, flagOf_iff he, or_assoc]
              simp only [hIs]
          · rw [if_neg hColon] at hRun
            have hNot : ∀ field, isField line field = false := by
              intro field
              simp [isField, hColon]
            split at hRun
            · cases hRun
            · rw [ih hZero hRun]
              simp only [hNot, Bool.false_eq_true, and_false, exists_false, false_or]

/-- The string in the array, when zeros are behind the request. -/
theorem array_split (hSize : data.length < wsHandshakeMaxSize) :
    ∃ rest, data ++ (List.replicate wsHandshakeMaxSize 0).drop data.length =
      (data.takeWhile (· ≠ 0) ++ [0]) ++ rest := by
  by_cases hIn : 0 ∈ data
  · have hSplit := split_first hIn
    generalize (List.replicate wsHandshakeMaxSize (0 : UInt8)).drop data.length = zeros
    refine ⟨(data.dropWhile (· ≠ 0)).tail ++ zeros, ?_⟩
    conv_lhs => rw [hSplit]
    simp [List.append_assoc]
  · have hAll : data.takeWhile (· ≠ 0) = data := by
      rw [List.takeWhile_eq_self_iff]
      intro x hx
      exact decide_eq_true fun hEq => hIn (hEq ▸ hx)
    obtain ⟨k, hk⟩ : ∃ k, wsHandshakeMaxSize - data.length = k + 1 :=
      ⟨wsHandshakeMaxSize - data.length - 1, by omega⟩
    refine ⟨List.replicate k 0, ?_⟩
    rw [hAll, List.drop_replicate, hk, List.replicate_succ, List.append_assoc,
      List.singleton_append]

/-- The bits of a request that is accepted. -/
theorem wsconnParseRequest_flags (hSize : data.length < wsHandshakeMaxSize)
    (hRun : wsconnParseRequest request (List.replicate wsHandshakeMaxSize 0) data =
      some (0, filled)) {e : String × Nat} (he : e ∈ fieldFlags) :
    filled.flag &&& e.2 ≠ 0 ↔
      ∃ line, line ∈ headerLines data ∧
        ∃ e', e' ∈ setFlags ∧ e'.2 = e.2 ∧ isField line e'.1 = true := by
  have hStack : (List.replicate wsHandshakeMaxSize (0 : UInt8)).length = wsHandshakeMaxSize :=
    List.length_replicate
  have hText : ∀ x, x ∈ data.takeWhile (· ≠ 0) → x ≠ 0 :=
    fun x hx => by simpa using List.mem_takeWhile_imp hx
  obtain ⟨rest, hMem⟩ := array_split hSize
  rw [headerLines]
  generalize data.takeWhile (· ≠ 0) = text at hText hMem
  cases cut_cases hText with
  | inl hSeps =>
      have hToken : strtok (data ++ (List.replicate wsHandshakeMaxSize 0).drop data.length) 0
          [0x0d, 0x0a] = some none := by
        rw [hMem, List.append_assoc, List.singleton_append]
        exact @strtok_end [] rest [0x0d, 0x0a] text hSeps (by decide)
      simp only [wsconnParseRequest, hStack,
        if_neg (by omega : ¬ wsHandshakeMaxSize < data.length),
        if_neg (by omega : ¬ data.length ≥ wsHandshakeMaxSize), hToken, Option.bind_eq_bind,
        Option.bind_some] at hRun
      cases hRun
  | inr hCut =>
      obtain ⟨seps, line, c, behind, next, hCut, hNext, hZero, hTokens⟩ := hCut
      obtain ⟨pre', hParse⟩ := @wsconnParseRequest_cut _ _ _ _ rest _ request _ _ hCut hMem hSize
        hStack
      rw [hParse, hNext] at hRun
      split at hRun
      · obtain ⟨copied, -, hFields⟩ := Option.bind_eq_some_iff.mp hRun
        rw [parseFields_flags hZero hFields he, hTokens, List.tail_cons]
        simp [emptyRequest]
      · cases hRun

end

/-! ## The choice -/

section

variable {data : List UInt8} {filled : RequestT} {flag : Nat}

/-- All the bits of two masks. -/
theorem and_or_eq_iff (flag a b : Nat) :
    flag &&& (a ||| b) = a ||| b ↔ flag &&& a = a ∧ flag &&& b = b := by
  constructor
  · intro h
    have hBit : ∀ i, (flag.testBit i && (a.testBit i || b.testBit i)) =
        (a.testBit i || b.testBit i) := by
      intro i
      rw [← Nat.testBit_or, ← Nat.testBit_and, h]
    constructor
    · apply Nat.eq_of_testBit_eq
      intro i
      have hAt := hBit i
      rw [Nat.testBit_and]
      cases ha : a.testBit i <;> simp_all
    · apply Nat.eq_of_testBit_eq
      intro i
      have hAt := hBit i
      rw [Nat.testBit_and]
      cases hb : b.testBit i <;> simp_all
  · rintro ⟨hLeft, hRight⟩
    rw [Nat.and_or_distrib_left, hLeft, hRight]

/-- A mask of one bit. -/
theorem and_bit_iff (flag i : Nat) : flag &&& 2 ^ i = 2 ^ i ↔ flag &&& 2 ^ i ≠ 0 := by
  have hPos := Nat.two_pow_pos i
  rw [Nat.and_two_pow]
  cases flag.testBit i with
  | false => simp; omega
  | true => simp

/-- Every bit of its own. -/
theorem fieldFlags_bit : ∀ e, e ∈ fieldFlags → ∃ i, i < 10 ∧ e.2 = 2 ^ i := by
  decide

theorem FlagsRight.bit (h : FlagsRight data filled) (field : String) (flag : Nat)
    (he : (field, flag) ∈ fieldFlags) :
    filled.flag &&& flag = flag ↔ hasField data field = true := by
  obtain ⟨i, -, hBit⟩ := fieldFlags_bit (field, flag) he
  have hIs := h (field, flag) he
  simp only at hBit hIs
  rw [hBit] at hIs ⊢
  rw [and_bit_iff, hIs]

/-- A mask is there when all its headers are. -/
theorem FlagsRight.mask (h : FlagsRight data filled) (es : List (String × Nat))
    (hIn : ∀ e, e ∈ es → e ∈ fieldFlags) {mask : Nat}
    (hMask : es.foldr (fun e rest => e.2 ||| rest) 0 = mask) :
    filled.flag &&& mask = mask ↔ (es.map Prod.fst).all (hasField data) = true := by
  subst hMask
  induction es with
  | nil => exact iff_of_true (Nat.and_zero _) rfl
  | cons e es ih =>
    rw [List.foldr_cons, and_or_eq_iff, List.map_cons, List.all_cons, Bool.and_eq_true,
      h.bit e.1 e.2 (hIn e List.mem_cons_self),
      ih fun e' he' => hIn e' (List.mem_cons_of_mem e he')]

/-- When the bits are right, the masks choose by the headers. -/
theorem FlagsRight.variant (h : FlagsRight data filled) : VariantRight data filled := by
  intro α env con
  have hMd5 : filled.flag &&& wsMd5 = wsMd5 ↔ md5Fields.all (hasField data) = true :=
    h.mask [("host", wsFlagHost), ("connection", wsFlagConnection),
      ("sec-websocket-key1", wsFlagSecKey1), ("sec-websocket-key2", wsFlagSecKey2),
      ("upgrade", wsFlagUpgrade), ("origin", wsFlagOrigin),
      ("sec-websocket-protocol", wsFlagSecProtocol)] (by decide) rfl
  have hSha1 : filled.flag &&& wsSha1 = wsSha1 ↔ sha1Fields.all (hasField data) = true :=
    h.mask [("upgrade", wsFlagUpgrade), ("connection", wsFlagConnection), ("host", wsFlagHost),
      ("sec-websocket-origin", wsFlagSecOrigin), ("sec-websocket-key", wsFlagSecKey),
      ("sec-websocket-version", wsFlagSecVersion)] (by decide) rfl
  have hSha1Ex : filled.flag &&& wsSha1Ex = wsSha1Ex ↔
      sha1ExFields.all (hasField data) = true :=
    h.mask [("upgrade", wsFlagUpgrade), ("connection", wsFlagConnection), ("host", wsFlagHost),
      ("origin", wsFlagOrigin), ("sec-websocket-key", wsFlagSecKey),
      ("sec-websocket-version", wsFlagSecVersion)] (by decide) rfl
  have hFlash : filled.flag &&& wsFlash = wsFlash ↔
      flashFields.all (hasField data) = true :=
    h.mask [("upgrade", wsFlagUpgrade), ("connection", wsFlagConnection), ("host", wsFlagHost),
      ("origin", wsFlagOrigin)] (by decide) rfl
  simp only [wsconnProcReq, hMd5, hSha1, hSha1Ex, hFlash]

/-- The tables differ in one header. -/
theorem setFlags_named : ∀ e, e ∈ fieldFlags → ∀ e', e' ∈ setFlags → e'.2 = e.2 →
    e'.1 = e.1 ∨ e'.1 = "sec-websocket-key2" := by
  decide

private theorem setFlags_has : ∀ e, e ∈ fieldFlags → e.1 ≠ "sec-websocket-key2" → e ∈ setFlags := by
  decide

private theorem setFlags_key2 : ∀ e, e ∈ setFlags → e.2 ≠ wsFlagSecKey2 := by
  decide

private theorem hasField_iff {field : String} : hasField data field = true ↔
    ∃ line, line ∈ headerLines data ∧ isField line field = true := List.any_eq_true

end

/-- The bits of an accepted request, and the answer that they choose, are right if and only if the
request has no second key. -/
theorem wsconnParseRequest_flags_iff {request filled : RequestT} {data : List UInt8}
    (hSize : data.length < 1024)
    (hRun : wsconnParseRequest request (List.replicate 1024 0) data = some (0, filled)) :
    FlagsRight data filled ∧ VariantRight data filled ↔
      hasField data "sec-websocket-key2" = false := by
  constructor
  · rintro ⟨hFlags, -⟩
    have hIs := hFlags ("sec-websocket-key2", wsFlagSecKey2) (by decide)
    rw [← Bool.not_eq_true, ← hIs, wsconnParseRequest_flags hSize hRun (by decide)]
    rintro ⟨-, -, e', hIn, hSame, -⟩
    exact setFlags_key2 e' hIn hSame
  · intro hNone
    have hNot : ∀ line, line ∈ headerLines data → ¬ isField line "sec-websocket-key2" = true := by
      intro line hLine hIs
      have hHas := hasField_iff.mpr ⟨line, hLine, hIs⟩
      rw [hNone] at hHas
      cases hHas
    have hFlags : FlagsRight data filled := by
      intro e he
      rw [wsconnParseRequest_flags hSize hRun he, hasField_iff]
      constructor
      · rintro ⟨line, hLine, e', hIn, hSame, hIs⟩
        cases setFlags_named e he e' hIn hSame with
        | inl hEq => exact ⟨line, hLine, hEq ▸ hIs⟩
        | inr hEq => exact absurd (hEq ▸ hIs) (hNot line hLine)
      · rintro ⟨line, hLine, hIs⟩
        have hOther : e.1 ≠ "sec-websocket-key2" := fun hEq => hNot line hLine (hEq ▸ hIs)
        exact ⟨line, hLine, e, setFlags_has e he hOther, rfl, hIs⟩
    exact ⟨hFlags, hFlags.variant⟩

theorem wsconnParseRequest_flags_host : ∃ filled,
    wsconnParseRequest emptyRequest (List.replicate 1024 0) hostRequest = some (0, filled) ∧
      (FlagsRight hostRequest filled ∧ VariantRight hostRequest filled ↔
        hasField hostRequest "sec-websocket-key2" = false) := by
  have hAccepted : (wsconnParseRequest emptyRequest (List.replicate 1024 0) hostRequest).map
      Prod.fst = some 0 := by
    decide +kernel
  obtain ⟨⟨ret, filled⟩, hRun, hRet⟩ := Option.map_eq_some_iff.mp hAccepted
  cases hRet
  exact ⟨filled, hRun, wsconnParseRequest_flags_iff (by decide +kernel) hRun⟩

/-- A request with both keys. -/
def keysRequest : List UInt8 :=
  ascii "GET / HTTP/1.1\r\nSec-WebSocket-Key1: 1 2\r\nSec-WebSocket-Key2: 3 4\r\n\r\n"

/-- The bit of the second key is not set although its header is there. -/
theorem wsconnParseRequest_key2 : ∃ filled,
    wsconnParseRequest emptyRequest (List.replicate 1024 0) keysRequest = some (0, filled) ∧
      ¬ FlagsRight keysRequest filled := by
  have hAccepted : (wsconnParseRequest emptyRequest (List.replicate 1024 0) keysRequest).map
      (fun r => (r.1, r.2.flag)) = some (0, wsFlagSecKey1) := by
    decide +kernel
  obtain ⟨⟨ret, filled⟩, hRun, hBoth⟩ := Option.map_eq_some_iff.mp hAccepted
  obtain ⟨rfl, hFlag⟩ := Prod.mk.inj hBoth
  refine ⟨filled, hRun, fun hFlags => ?_⟩
  have hIs := hFlags ("sec-websocket-key2", wsFlagSecKey2) (by decide)
  have hThere : hasField keysRequest "sec-websocket-key2" = true := by decide +kernel
  have hNot : ¬ filled.flag &&& wsFlagSecKey2 ≠ 0 := by
    rw [show filled.flag = wsFlagSecKey1 from hFlag]
    decide
  exact hNot (hIs.mpr hThere)

end Gbase.Net.Wsconn
