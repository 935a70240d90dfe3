import Gbase.Net.WsHandshake

/-!
# What the request parser reads (`net/wsconn.c`)

`_wsconn_parse_request` cuts its array into lines with `strtok` and goes on until the string in the
array ends.  It copies the bytes of the request to the array but no zero behind them.  So unless the
request itself brings the parser to an end, the lines of what the array held before are parsed as
well.  The location is copied up to a blank or to the end of its field, wherever the request ends.

## Main results

* `parseFields_ends`: when the parser comes to an end inside the request, the rest of the array does
  not matter.
* `parseFields_runs_on`: otherwise it reads the rest of the array.
* `wsconnParseRequest_determined_iff`: the requests whose result does not depend on the array.
-/

namespace Gbase.Net.Wsconn

open Gbase.Lib.CString

/-- The delimiters of lines. -/
def lineDelim : List UInt8 := [0x0d, 0x0a]

/-- A byte inside a line. -/
def lineByte (c : UInt8) : Bool := c ≠ 0 ∧ c ∉ lineDelim

/-- What is before the first colon of a line. -/
def headerName (line : List UInt8) : List UInt8 := line.takeWhile (· ≠ fieldDelim)

/-- What is behind the first colon of a line. -/
def headerText (line : List UInt8) : List UInt8 := (line.dropWhile (· ≠ fieldDelim)).tail

/-- What is behind the first colon of a line and the blanks there. -/
def headerValue (line : List UInt8) : List UInt8 := (headerText line).dropWhile (· = headDelim)

/-- The line is the header of some name. -/
def isField (line : List UInt8) (field : String) : Bool :=
  fieldDelim ∈ line ∧ strcaseeq (headerName line) (ascii field)

/-- The parser refuses the request at this line. -/
def rejects (line : List UInt8) : Bool :=
  if isField line "connection" then !strcaseeq (headerValue line) (ascii "upgrade")
  else isField line "upgrade" && !strcaseeq (headerValue line) (ascii "websocket")

/-- Whether the key is still empty behind this line. -/
def noKeyAfter (noKey : Bool) (line : List UInt8) : Bool :=
  if isField line "sec-websocket-key" then headerValue line = [] else noKey

/-- The parser comes to an end in these bytes, the key being empty so far or not: it reaches a zero
or refuses a line, and meets no line without a colon as long as the key is empty. -/
def endsInside : Nat → Bool → List UInt8 → Bool
  | 0, _, _ => false
  | fuel + 1, noKey, unread =>
      match unread.dropWhile (· ∈ lineDelim) with
      | [] => false
      | c :: text =>
          if c = 0 then true
          else
            let line := (c :: text).takeWhile lineByte
            let behind := (c :: text).dropWhile lineByte
            if fieldDelim ∈ line then rejects line || endsInside fuel (noKeyAfter noKey line) behind
            else !noKey && endsInside fuel noKey behind

/-- The location ends in the request, or its field is full before the array ends. -/
def locationInside (size : Nat) (text : List UInt8) : Bool :=
  let location := (text.dropWhile (· ≠ headDelim)).tail
  headDelim ∈ location.take emptyRequest.location.length ∨
    size - location.length + emptyRequest.location.length ≤ wsHandshakeMaxSize

/-- The parser comes to an end in the request, and the location does not leave the array. -/
def determined (data : List UInt8) : Bool :=
  match data.dropWhile (· ∈ lineDelim) with
  | [] => false
  | c :: text =>
      if c = 0 then true
      else if headDelim ∈ (c :: text).takeWhile lineByte then
        locationInside data.length (c :: text) &&
          endsInside data.length true ((c :: text).dropWhile lineByte)
      else true

/-- Two requests are the same except for the location. -/
def Same (request request' : RequestT) : Prop :=
  ∃ location, request' = { request with location := location }

/-- The result does not depend on what the array held before. -/
def NonInterfering (data : List UInt8) : Prop :=
  ∀ request stack stack', stack.length = wsHandshakeMaxSize → stack'.length = wsHandshakeMaxSize →
    ∃ ret filled filled', wsconnParseRequest request stack data = some (ret, filled) ∧
      wsconnParseRequest request stack' data = some (ret, filled') ∧ Same filled filled'

/-! ## Headers -/

section

variable {request request' : RequestT} {line name value text : List UInt8}

/-- The result of a header, with another location. -/
def withLocation (location : List UInt8) (result : Int × RequestT) : Int × RequestT :=
  (result.1, { result.2 with location := location })

/-- A header sets the same in requests that differ in the location. -/
theorem setField_location (request : RequestT) (location name value text : List UInt8) :
    setField { request with location := location } name value text =
      withLocation location (setField request name value text) := by
  simp only [setField, apply_ite (withLocation location)]
  rfl

theorem Same.setField (h : Same request request') (name value text : List UInt8) :
    (Wsconn.setField request' name value text).1 = (Wsconn.setField request name value text).1 ∧
      Same (Wsconn.setField request name value text).2
        (Wsconn.setField request' name value text).2 := by
  obtain ⟨location, rfl⟩ := h
  rw [setField_location]
  exact ⟨rfl, location, rfl⟩

theorem Same.key (h : Same request request') : request'.key = request.key := by
  obtain ⟨location, rfl⟩ := h
  rfl

/-- Names that a name is equal to are equal. -/
theorem strcaseeq_trans {s t u : List UInt8} (h : strcaseeq s t = true)
    (h' : strcaseeq s u = true) : strcaseeq t u = true := by
  simp only [strcaseeq, decide_eq_true_eq] at *
  rw [← h, h']

/-- A header refuses the request only if it is one of two. -/
theorem setField_ret : (setField request name value text).1 < 0 ↔
    if strcaseeq name (ascii "connection") then ¬ strcaseeq value (ascii "upgrade")
    else strcaseeq name (ascii "upgrade") ∧ ¬ strcaseeq value (ascii "websocket") := by
  -- what is returned but for these two is zero
  simp only [setField, apply_ite Prod.fst, ite_self]
  by_cases hConnection : strcaseeq name (ascii "connection") = true
  · rw [if_pos hConnection, if_pos hConnection]
    by_cases hValue : strcaseeq value (ascii "upgrade") = true <;> simp [hValue]
  · rw [if_neg hConnection, if_neg hConnection]
    by_cases hUpgrade : strcaseeq name (ascii "upgrade") = true
    · by_cases hValue : strcaseeq value (ascii "websocket") = true <;> simp [hUpgrade, hValue]
    · simp [hUpgrade]

/-- Only one header changes the key. -/
theorem setField_key : (setField request name value text).2.key =
    if strcaseeq name (ascii "sec-websocket-key") then snprintf request.key value
    else request.key := by
  by_cases hKey : strcaseeq name (ascii "sec-websocket-key") = true
  · have hOther : ∀ field, strcaseeq (ascii field) (ascii "sec-websocket-key") = false →
        ¬ strcaseeq name (ascii field) = true := by
      intro field hApart hIs
      rw [strcaseeq_trans hIs hKey] at hApart
      cases hApart
    have hConnection := hOther "connection" (by decide +kernel)
    have hUpgrade := hOther "upgrade" (by decide +kernel)
    have hHost := hOther "host" (by decide +kernel)
    have hOrigin := hOther "origin" (by decide +kernel)
    have hSecOrigin := hOther "sec-websocket-origin" (by decide +kernel)
    simp only [setField, if_neg hConnection, if_neg hUpgrade, if_neg hHost, if_neg hOrigin,
      if_neg hSecOrigin, if_pos hKey]
  · simp only [setField, if_neg hKey, apply_ite Prod.snd, apply_ite RequestT.key, ite_self]

/-- A request whose key is empty or not. -/
structure KeyIs (request : RequestT) (noKey : Bool) : Prop where
  length : request.key.length = 32
  head : request.key.head? = some 0 ↔ noKey = true

theorem length_snprintf {dst : List UInt8} (hPos : 0 < dst.length) :
    (snprintf dst text).length = dst.length := by
  simp only [snprintf, List.length_append, List.length_cons, List.length_drop, List.length_take]
  omega

theorem head_snprintf {dst : List UInt8} (hLong : 1 < dst.length) (hText : ∀ c, c ∈ text → c ≠ 0) :
    (snprintf dst text).head? = some 0 ↔ text = [] := by
  rw [snprintf]
  cases text with
  | nil => simp
  | cons c text =>
      have hPos : dst.length - 1 ≠ 0 := by omega
      obtain ⟨n, hn⟩ := Nat.exists_eq_succ_of_ne_zero hPos
      simp only [hn, List.take_succ_cons, List.cons_append, List.head?_cons, Option.some.injEq,
        reduceCtorEq, iff_false]
      exact hText c List.mem_cons_self

theorem KeyIs.start (location : List UInt8) :
    KeyIs { emptyRequest with location := location } true where
  length := rfl
  head := by simp [emptyRequest]

private theorem headerText_mem {c : UInt8} (h : c ∈ headerText line) : c ∈ line :=
  (List.dropWhile_sublist _).subset (List.mem_of_mem_tail h)

private theorem headerValue_mem {c : UInt8} (h : c ∈ headerValue line) : c ∈ line :=
  headerText_mem ((List.dropWhile_sublist _).subset h)

/-- What a header does to the key. -/
theorem KeyIs.field {noKey : Bool} (h : KeyIs request noKey) (hColon : fieldDelim ∈ line)
    (hLine : ∀ c, c ∈ line → c ≠ 0) :
    KeyIs (setField request (headerName line) (headerValue line) (headerText line)).2
      (noKeyAfter noKey line) := by
  have hIs : isField line "sec-websocket-key" =
      strcaseeq (headerName line) (ascii "sec-websocket-key") := by
    simp [isField, hColon]
  have hLength := h.length
  have hKey := @setField_key request (headerName line) (headerValue line) (headerText line)
  rw [noKeyAfter, hIs]
  split at hKey
  · rename_i hName
    rw [if_pos hName]
    exact {
      length := by rw [hKey, length_snprintf (by omega), hLength]
      head := by
        rw [hKey, head_snprintf (by omega) fun c hc => hLine c (headerValue_mem hc),
          decide_eq_true_iff] }
  · rename_i hName
    rw [if_neg hName]
    exact {
      length := by rw [hKey, hLength]
      head := by rw [hKey, h.head] }

theorem rejects_iff (hColon : fieldDelim ∈ line) :
    (setField request (headerName line) (headerValue line) (headerText line)).1 < 0 ↔
      rejects line = true := by
  rw [setField_ret, rejects]
  have hIs : ∀ field, isField line field = strcaseeq (headerName line) (ascii field) := by
    intro field
    simp [isField, hColon]
  rw [hIs, hIs]
  split
  · simp
  · simp

/-- A line with a colon falls into its name, the colon and the text behind it. -/
theorem headerLine_split (hColon : fieldDelim ∈ line) :
    line = headerName line ++ fieldDelim :: headerText line := split_first hColon

/-- The colon of a line that stands in an array becomes a zero. -/
theorem headerLine_set (hColon : fieldDelim ∈ line) (pre post : List UInt8) :
    (pre ++ line ++ 0 :: post).set (pre.length + (headerName line).length) 0 =
      pre ++ headerName line ++ 0 :: headerText line ++ 0 :: post := by
  have hMem : pre ++ line ++ 0 :: post =
      pre ++ headerName line ++ (fieldDelim :: headerText line ++ 0 :: post) := by
    conv_lhs => rw [headerLine_split hColon]
    simp [List.append_assoc]
  rw [hMem, ← List.length_append, List.set_append_right _ _ le_rfl, Nat.sub_self]
  simp [List.append_assoc]

theorem headerLine_length (hColon : fieldDelim ∈ line) :
    line.length = (headerName line).length + 1 + (headerText line).length := by
  conv_lhs => rw [headerLine_split hColon]
  simp only [List.length_append, List.length_cons]
  omega

/-- `parse_field` on a line that stands in an array, with a zero in the place of the colon and
another one behind it. -/
theorem parseField_eq {pre post : List UInt8} (hLine : ∀ c, c ∈ line → c ≠ 0) :
    parseField request (pre ++ headerName line ++ 0 :: headerText line ++ 0 :: post) pre.length
        (pre.length + (headerName line).length) =
      some (setField request (headerName line) (headerValue line) (headerText line)) := by
  have hNameZero : ∀ c, c ∈ headerName line → c ≠ 0 :=
    fun c hc => hLine c ((List.takeWhile_sublist _).subset hc)
  have hTextZero : ∀ c, c ∈ headerText line → c ≠ 0 := fun c hc => hLine c (headerText_mem hc)
  -- the array, cut where the name ends and where the text starts
  have hCut : pre ++ headerName line ++ 0 :: headerText line ++ 0 :: post =
      pre ++ headerName line ++ 0 :: (headerText line ++ 0 :: post) := by
    rw [List.append_assoc (pre ++ headerName line), List.cons_append]
  have hBehind : pre ++ headerName line ++ 0 :: headerText line ++ 0 :: post =
      (pre ++ headerName line ++ [0]) ++ headerText line ++ 0 :: post := by
    simp
  have hLength : (pre ++ headerName line ++ [0]).length =
      pre.length + (headerName line).length + 1 := by
    simp only [List.length_append, List.length_singleton]
  have hName : cString (pre ++ headerName line ++ 0 :: headerText line ++ 0 :: post) pre.length =
      some (headerName line) := by
    rw [hCut, cString_eq hNameZero]
  have hText : cString (pre ++ headerName line ++ 0 :: headerText line ++ 0 :: post)
      (pre.length + (headerName line).length + 1) = some (headerText line) := by
    rw [hBehind, ← hLength, cString_eq hTextZero]
  -- the value: the text without the blanks at its start
  have hSplit : headerText line =
      (headerText line).takeWhile (· = headDelim) ++ headerValue line :=
    List.takeWhile_append_dropWhile.symm
  have hBlanks : ∀ b, b ∈ (headerText line).takeWhile (· = headDelim) → b = headDelim :=
    fun b hb => by simpa using List.mem_takeWhile_imp hb
  have hValueZero : ∀ c, c ∈ headerValue line → c ≠ 0 := fun c hc => hLine c (headerValue_mem hc)
  generalize hBlank : (headerText line).takeWhile (· = headDelim) = blanks at *
  have hWhole : pre ++ headerName line ++ 0 :: headerText line ++ 0 :: post =
      (pre ++ headerName line ++ [0]) ++ blanks ++ (headerValue line ++ 0 :: post) := by
    rw [hBehind, hSplit]
    simp [List.append_assoc]
  have hSkip : skip (pre ++ headerName line ++ 0 :: headerText line ++ 0 :: post)
      (pre.length + (headerName line).length + 1) headDelim =
      some (pre.length + (headerName line).length + 1 + blanks.length) := by
    rw [hWhole, ← hLength]
    cases hValue : headerValue line with
    | nil => exact skip_eq hBlanks (by decide)
    | cons c rest =>
        have hHead := List.head?_dropWhile_not (fun c => decide (c = headDelim)) (headerText line)
        rw [headerValue] at hValue
        rw [hValue] at hHead
        exact skip_eq hBlanks (by simpa using hHead)
  have hValue : cString (pre ++ headerName line ++ 0 :: headerText line ++ 0 :: post)
      (pre.length + (headerName line).length + 1 + blanks.length) = some (headerValue line) := by
    rw [hWhole, ← hLength, ← List.length_append, ← List.append_assoc, cString_eq hValueZero]
  simp only [parseField, hName, hText, hSkip, hValue, Option.bind_eq_bind, Option.bind_some]
  rfl

end

/-! ## The bytes that are not parsed yet -/

/-- The end of a request, of which some is parsed. -/
def Closed (unread : List UInt8) : Prop := unread = [] ∨ ∃ front, unread = front ++ [0x0a]

/-- Where `strtok` goes on behind the byte that ended a line. -/
def goOn (c : UInt8) (behind : List UInt8) : List UInt8 := if c = 0 then 0 :: behind else behind

/-- Delimiters, a line and the byte that ends it. -/
structure Cut (unread seps line : List UInt8) (c : UInt8) (behind : List UInt8) : Prop where
  eq : unread = seps ++ line ++ c :: behind
  delims : ∀ x, x ∈ seps → x ∈ lineDelim
  nonempty : line ≠ []
  token : ∀ x, x ∈ line → x ≠ 0 ∧ x ∉ lineDelim
  stop : c = 0 ∨ c ∈ lineDelim

section

variable {unread seps line behind text pre rest : List UInt8} {c : UInt8} {request : RequestT}
  {noKey : Bool} {fuel n : Nat}

theorem Closed.last {xs ys : List UInt8} (h : Closed (xs ++ ys)) : Closed ys := by
  cases h with
  | inl hNil => exact Or.inl (List.append_eq_nil_iff.mp hNil).2
  | inr hLast =>
      obtain ⟨front, hEq⟩ := hLast
      cases List.eq_nil_or_concat ys with
      | inl hNil => exact Or.inl hNil
      | inr hConcat =>
          obtain ⟨init, last, rfl⟩ := hConcat
          rw [List.concat_eq_append, ← List.append_assoc] at hEq
          obtain ⟨-, hSame⟩ := List.append_inj' hEq rfl
          rw [List.concat_eq_append, hSame]
          exact Or.inr ⟨init, rfl⟩

/-- The end of a request is delimiters only, or it holds a zero behind them, or a line. -/
theorem Closed.cases (h : Closed unread) :
    (∀ x, x ∈ unread → x ∈ lineDelim) ∨
    (∃ seps text, unread = seps ++ 0 :: text ∧ ∀ x, x ∈ seps → x ∈ lineDelim) ∨
    ∃ seps line c behind, Cut unread seps line c behind := by
  have hAll := @List.takeWhile_append_dropWhile _ (fun x => decide (x ∈ lineDelim)) unread
  have hSeps : ∀ x, x ∈ unread.takeWhile (fun x => decide (x ∈ lineDelim)) → x ∈ lineDelim :=
    fun x hx => by simpa using List.mem_takeWhile_imp hx
  generalize unread.takeWhile (fun x => decide (x ∈ lineDelim)) = seps at hAll hSeps
  cases hDrop : unread.dropWhile (fun x => decide (x ∈ lineDelim)) with
  | nil =>
      rw [hDrop, List.append_nil] at hAll
      exact Or.inl (hAll ▸ hSeps)
  | cons first text =>
      have hFirst := List.head?_dropWhile_not (fun x => decide (x ∈ lineDelim)) unread
      rw [hDrop] at hFirst hAll
      have hNot : first ∉ lineDelim := by simpa using hFirst
      by_cases hZero : first = 0
      · subst hZero
        exact Or.inr (Or.inl ⟨seps, text, hAll.symm, hSeps⟩)
      · have hLine := @List.takeWhile_append_dropWhile _ lineByte (first :: text)
        have hToken : ∀ x, x ∈ (first :: text).takeWhile lineByte → x ≠ 0 ∧ x ∉ lineDelim :=
          fun x hx => by simpa [lineByte] using List.mem_takeWhile_imp hx
        have hNe : (first :: text).takeWhile lineByte ≠ [] := by
          rw [List.takeWhile_cons_of_pos (by simp [lineByte, hZero, hNot])]
          exact List.cons_ne_nil _ _
        cases hBehind : (first :: text).dropWhile lineByte with
        | nil =>
            -- the last byte of a request is a delimiter
            rw [hBehind, List.append_nil] at hLine
            rw [hLine] at hToken
            rw [← hAll] at h
            cases h.last with
            | inl hNil => cases hNil
            | inr hLast =>
                obtain ⟨front, hEq⟩ := hLast
                have hLast := hToken 0x0a (by rw [hEq]; simp)
                exact absurd (by decide) hLast.2
        | cons c behind =>
            have hStop := List.head?_dropWhile_not lineByte (first :: text)
            rw [hBehind] at hStop hLine
            refine Or.inr (Or.inr ⟨seps, _, c, behind, ?_, hSeps, hNe, hToken, ?_⟩)
            · rw [← hAll, List.append_assoc, hLine]
            · have hByte : lineByte c = false := by simpa using hStop
              by_contra hNeither
              rw [not_or] at hNeither
              simp [lineByte, hNeither.1, hNeither.2] at hByte

theorem Cut.goOn (h : Cut unread seps line c behind) (hClosed : Closed unread) :
    Closed (Wsconn.goOn c behind) := by
  rw [h.eq] at hClosed
  rw [Wsconn.goOn]
  split
  · rename_i hZero
    rw [← hZero]
    exact hClosed.last
  · rw [List.append_cons] at hClosed
    exact hClosed.last

theorem Cut.shorter (h : Cut unread seps line c behind) :
    (Wsconn.goOn c behind).length < unread.length := by
  have hPos := List.length_pos_of_ne_nil h.nonempty
  rw [h.eq, Wsconn.goOn]
  split
  · simp only [List.length_append, List.length_cons]
    omega
  · simp only [List.length_append, List.length_cons]
    omega

theorem dropWhile_seps {xs : List UInt8} (hSeps : ∀ x, x ∈ seps → x ∈ lineDelim) :
    (seps ++ xs).dropWhile (fun x => decide (x ∈ lineDelim)) =
      xs.dropWhile (fun x => decide (x ∈ lineDelim)) := by
  rw [List.dropWhile_append_of_pos fun x hx => decide_eq_true (hSeps x hx)]

private theorem endsInside_out (hSeps : ∀ x, x ∈ unread → x ∈ lineDelim) :
    endsInside fuel noKey unread = false := by
  cases fuel with
  | zero => rfl
  | succ fuel =>
      have hDrop : unread.dropWhile (fun x => decide (x ∈ lineDelim)) = [] :=
        List.dropWhile_eq_nil_iff.mpr fun x hx => decide_eq_true (hSeps x hx)
      simp only [endsInside, hDrop]

private theorem endsInside_stop (hSeps : ∀ x, x ∈ seps → x ∈ lineDelim) :
    endsInside (fuel + 1) noKey (seps ++ 0 :: text) = true := by
  have hDrop : (seps ++ 0 :: text).dropWhile (fun x => decide (x ∈ lineDelim)) = 0 :: text := by
    rw [dropWhile_seps hSeps, List.dropWhile_cons_of_neg (by decide)]
  simp only [endsInside, hDrop, if_true]

private theorem endsInside_goOn (hStop : c = 0 ∨ c ∈ lineDelim) :
    endsInside fuel noKey (c :: behind) = endsInside fuel noKey (goOn c behind) := by
  rw [goOn]
  split
  · rename_i hZero
    rw [hZero]
  · rename_i hNot
    cases fuel with
    | zero => rfl
    | succ fuel =>
        have hDrop : (c :: behind).dropWhile (fun x => decide (x ∈ lineDelim)) =
            behind.dropWhile (fun x => decide (x ∈ lineDelim)) :=
          List.dropWhile_cons_of_pos (decide_eq_true (hStop.resolve_left hNot))
        simp only [endsInside, hDrop]

/-- The first line of a cut, found behind the delimiters. -/
theorem Cut.found (h : Cut unread seps line c behind) : ∃ first text,
    unread.dropWhile (fun x => decide (x ∈ lineDelim)) = first :: text ∧ first ≠ 0 ∧
      first :: text = line ++ c :: behind ∧ (first :: text).takeWhile lineByte = line ∧
      (first :: text).dropWhile lineByte = c :: behind := by
  obtain ⟨first, more, hEq⟩ := List.exists_cons_of_ne_nil h.nonempty
  have hFirst := h.token first (by rw [hEq]; exact List.mem_cons_self)
  have hDrop : unread.dropWhile (fun x => decide (x ∈ lineDelim)) = line ++ c :: behind := by
    rw [h.eq, List.append_assoc, dropWhile_seps h.delims, hEq, List.cons_append,
      List.dropWhile_cons_of_neg (by simpa using hFirst.2)]
  have hByte : ∀ x, x ∈ line → lineByte x = true := by
    intro x hx
    simpa [lineByte] using h.token x hx
  have hStop : ¬ lineByte c = true := by
    intro hIs
    have hBoth : c ≠ 0 ∧ c ∉ lineDelim := by simpa [lineByte] using hIs
    exact h.stop.elim hBoth.1 hBoth.2
  refine ⟨first, more ++ c :: behind, ?_, hFirst.1, ?_, ?_, ?_⟩
  · rw [hDrop, hEq]
    rfl
  · rw [hEq]
    rfl
  · rw [← List.cons_append, ← hEq, List.takeWhile_append_of_pos hByte,
      List.takeWhile_cons_of_neg hStop, List.append_nil]
  · rw [← List.cons_append, ← hEq, List.dropWhile_append_of_pos hByte,
      List.dropWhile_cons_of_neg hStop]

private theorem endsInside_line (h : Cut unread seps line c behind) :
    endsInside (fuel + 1) noKey unread =
      if fieldDelim ∈ line then
        rejects line || endsInside fuel (noKeyAfter noKey line) (goOn c behind)
      else !noKey && endsInside fuel noKey (goOn c behind) := by
  obtain ⟨first, text, hDrop, hFirst, -, hTake, hBehind⟩ := h.found
  simp only [endsInside, hDrop, if_neg hFirst, hTake, hBehind, endsInside_goOn h.stop]

/-! ## The loop over the lines -/

theorem parseFields_stop (hSeps : ∀ x, x ∈ seps → x ∈ lineDelim) :
    parseFields (n + 1) request (pre ++ (seps ++ 0 :: text) ++ rest) pre.length =
      some (0, request) := by
  have hToken : strtok (pre ++ (seps ++ 0 :: text) ++ rest) pre.length [0x0d, 0x0a] =
      some none := by
    rw [← List.append_assoc, List.append_assoc (pre ++ seps), List.cons_append]
    exact strtok_end hSeps (by decide)
  simp only [parseFields, hToken, Option.bind_eq_bind, Option.bind_some]
  rfl

/-- The line of a cut as `strtok` gives it: a zero stands behind it. -/
theorem Cut.token_eq (h : Cut unread seps line c behind) :
    strtok (pre ++ unread ++ rest) pre.length [0x0d, 0x0a] =
      some (some ((pre ++ seps).length, pre ++ seps ++ line ++ 0 :: (behind ++ rest),
        (pre ++ seps ++ line).length + if c = 0 then 0 else 1)) := by
  have hToken := @strtok_token pre (behind ++ rest) line c lineDelim seps h.delims h.nonempty
    h.token h.stop
  have hMem : pre ++ unread ++ rest = pre ++ seps ++ line ++ c :: (behind ++ rest) := by
    rw [h.eq]
    simp [List.append_assoc]
  rw [← lineDelim, hMem, hToken, List.length_append, List.length_append, List.length_append]
  by_cases hZero : c = 0
  · simp [hZero]
  · simp [hZero]

/-- What is left behind a line, which ends in a zero now. -/
theorem goOn_left (c : UInt8) (behind rest front : List UInt8) :
    ∃ pre', pre'.length = front.length + (if c = 0 then 0 else 1) ∧
      front ++ 0 :: (behind ++ rest) = pre' ++ Wsconn.goOn c behind ++ rest := by
  by_cases hZero : c = 0
  · refine ⟨front, by rw [if_pos hZero, Nat.add_zero], ?_⟩
    rw [Wsconn.goOn, if_pos hZero]
    simp [List.append_assoc]
  · refine ⟨front ++ [0], by rw [if_neg hZero, List.length_append, List.length_singleton], ?_⟩
    rw [Wsconn.goOn, if_neg hZero]
    simp [List.append_assoc]

/-- One turn of the loop: a header is set, or a line without a colon is passed over. -/
theorem parseFields_line (h : Cut unread seps line c behind) (n : Nat) (request : RequestT)
    (pre rest : List UInt8) :
    ∃ pre', parseFields (n + 1) request (pre ++ unread ++ rest) pre.length =
      if fieldDelim ∈ line then
        if (setField request (headerName line) (headerValue line) (headerText line)).1 < 0 then
          some (-1, (setField request (headerName line) (headerValue line) (headerText line)).2)
        else
          parseFields n (setField request (headerName line) (headerValue line) (headerText line)).2
            (pre' ++ goOn c behind ++ rest) pre'.length
      else if request.key.head? = some 0 then none
      else parseFields n request (pre' ++ goOn c behind ++ rest) pre'.length := by
  have hToken := @Cut.token_eq unread seps line behind pre rest c h
  have hZero : ∀ x, x ∈ line → x ≠ 0 := fun x hx => (h.token x hx).1
  have hColon := @strstr_eq (pre ++ seps) line (behind ++ rest) hZero fieldDelim
  by_cases hIn : fieldDelim ∈ line
  · have hFind : line.findIdx? (· = fieldDelim) = some (headerName line).length :=
      findIdx_takeWhile hIn
    have hSet := headerLine_set hIn (pre ++ seps) (behind ++ rest)
    have hField := @parseField_eq request line (pre ++ seps) (behind ++ rest) hZero
    obtain ⟨pre', hLength, hLeft⟩ := goOn_left c behind rest
      (pre ++ seps ++ headerName line ++ 0 :: headerText line)
    have hSame : (pre ++ seps ++ line).length =
        (pre ++ seps ++ headerName line ++ 0 :: headerText line).length := by
      have hLine := headerLine_length hIn
      simp only [List.length_append, List.length_cons]
      omega
    have hNext : (pre ++ seps ++ line).length + (if c = 0 then 0 else 1) = pre'.length := by
      rw [hLength, hSame]
    refine ⟨pre', ?_⟩
    simp only [parseFields, hToken, Option.bind_eq_bind, Option.bind_some, hColon, hFind,
      Option.map_some, hSet, hField, if_pos hIn]
    rw [hLeft, hNext]
    rfl
  · obtain ⟨pre', hLength, hLeft⟩ := goOn_left c behind rest
      (pre ++ seps ++ line)
    refine ⟨pre', ?_⟩
    simp only [parseFields, hToken, Option.bind_eq_bind, Option.bind_some, hColon,
      findIdx_none hIn, Option.map_none, if_neg hIn]
    rw [hLeft, ← hLength]

/-- If the parser comes to an end in the request, neither what the array holds before and behind it
nor the location matters. -/
theorem parseFields_ends {request' : RequestT} {pre' rest' : List UInt8} (hClosed : Closed unread)
    (hEnds : endsInside fuel noKey unread = true) (hFuel : fuel ≤ n)
    (hSame : Same request request') (hKey : KeyIs request noKey) :
    ∃ ret filled filled', parseFields n request (pre ++ unread ++ rest) pre.length =
        some (ret, filled) ∧
      parseFields n request' (pre' ++ unread ++ rest') pre'.length = some (ret, filled') ∧
      Same filled filled' := by
  induction fuel generalizing n noKey unread request request' pre pre' with
  | zero => cases hEnds
  | succ fuel ih =>
      obtain ⟨m, rfl⟩ := Nat.exists_eq_succ_of_ne_zero (by omega : n ≠ 0)
      obtain hOut | ⟨seps, text, rfl, hSeps⟩ | ⟨seps, line, c, behind, hCut⟩ := hClosed.cases
      · rw [endsInside_out hOut] at hEnds
        cases hEnds
      · exact ⟨0, request, request', parseFields_stop hSeps, parseFields_stop hSeps, hSame⟩
      · obtain ⟨next, hRun⟩ := parseFields_line hCut m request pre rest
        obtain ⟨next', hRun'⟩ := parseFields_line hCut m request' pre' rest'
        have hNext := hCut.goOn hClosed
        have hZero : ∀ x, x ∈ line → x ≠ 0 := fun x hx => (hCut.token x hx).1
        rw [endsInside_line hCut] at hEnds
        rw [hRun, hRun']
        by_cases hColon : fieldDelim ∈ line
        · obtain ⟨hRet, hField⟩ :=
            hSame.setField (headerName line) (headerValue line) (headerText line)
          rw [if_pos hColon, Bool.or_eq_true] at hEnds
          rw [if_pos hColon, if_pos hColon, hRet]
          by_cases hReject : rejects line = true
          · have hNeg := (@rejects_iff request line hColon).mpr hReject
            exact ⟨-1, _, _, if_pos hNeg, if_pos hNeg, hField⟩
          · have hFine := (@rejects_iff request line hColon).not.mpr hReject
            rw [if_neg hFine, if_neg hFine]
            exact ih hNext (hEnds.resolve_left hReject) (by omega) hField (hKey.field hColon hZero)
        · rw [if_neg hColon, Bool.and_eq_true, Bool.not_eq_true'] at hEnds
          have hNoKey : ¬ request.key.head? = some 0 := by
            rw [hKey.head, hEnds.1]
            decide
          rw [if_neg hColon, if_neg hColon, hSame.key, if_neg hNoKey, if_neg hNoKey]
          exact ih hNext hEnds.2 (by omega) hSame hKey

/-- Otherwise the parser goes on in the rest of the array, and out of it if there is no end. -/
theorem parseFields_runs_on {k : Nat} (hClosed : Closed unread)
    (hNot : endsInside fuel noKey unread = false) (hFuel : unread.length < fuel)
    (hKey : KeyIs request noKey) :
    parseFields n request (pre ++ unread ++ List.replicate k 0x61) pre.length = none := by
  induction n generalizing fuel noKey unread request pre with
  | zero => rfl
  | succ m ih =>
      obtain ⟨fuel, rfl⟩ := Nat.exists_eq_succ_of_ne_zero (by omega : fuel ≠ 0)
      obtain hOut | ⟨seps, text, rfl, hSeps⟩ | ⟨seps, line, c, behind, hCut⟩ := hClosed.cases
      · have hToken : strtok (pre ++ unread ++ List.replicate k 0x61) pre.length [0x0d, 0x0a] =
            none := by
          apply strtok_none hOut
          intro x hx
          rw [List.eq_of_mem_replicate hx]
          decide
        simp only [parseFields, hToken, Option.bind_eq_bind, Option.bind_none]
      · rw [endsInside_stop hSeps] at hNot
        cases hNot
      · obtain ⟨next, hRun⟩ := parseFields_line hCut m request pre (List.replicate k 0x61)
        have hNext := hCut.goOn hClosed
        have hShorter := hCut.shorter
        have hZero : ∀ x, x ∈ line → x ≠ 0 := fun x hx => (hCut.token x hx).1
        rw [endsInside_line hCut] at hNot
        rw [hRun]
        by_cases hColon : fieldDelim ∈ line
        · rw [if_pos hColon, Bool.or_eq_false_iff] at hNot
          have hFine : ¬ (setField request (headerName line) (headerValue line)
              (headerText line)).1 < 0 := by
            rw [rejects_iff hColon, hNot.1]
            decide
          rw [if_pos hColon, if_neg hFine]
          exact ih hNext hNot.2 (by omega) (hKey.field hColon hZero)
        · rw [if_neg hColon] at hNot ⊢
          by_cases hEmpty : request.key.head? = some 0
          · exact if_pos hEmpty
          · have hSome : noKey = false := by
              rw [hKey.head] at hEmpty
              exact Bool.not_eq_true _ ▸ hEmpty
            rw [hSome, Bool.not_false, Bool.true_and] at hNot
            rw [if_neg hEmpty]
            rw [hSome] at hKey
            exact ih hNext hNot (by omega) hKey

/-! ## The whole request -/

/-- The location can be copied if a blank ends it or its field is full before the array ends. -/
theorem copyLocation_isSome {mem : List UInt8} (left q : Nat) (copied : List UInt8) :
    (copyLocation mem left q copied).isSome = true ↔
      headDelim ∈ (mem.drop q).take left ∨ q + left ≤ mem.length ∨ left = 0 := by
  induction left generalizing q copied with
  | zero => simp [copyLocation]
  | succ left ih =>
      rw [copyLocation]
      cases hAt : mem[q]? with
      | none =>
          have hOut := List.getElem?_eq_none_iff.mp hAt
          rw [List.drop_eq_nil_of_le hOut]
          simp
          omega
      | some c =>
          obtain ⟨hIn, hEq⟩ := List.getElem?_eq_some_iff.mp hAt
          rw [List.drop_eq_getElem_cons hIn, hEq, List.take_succ_cons, List.mem_cons]
          by_cases hBlank : c = headDelim
          · simp [hBlank]
          · have hNe : ¬ headDelim = c := Ne.symm hBlank
            have hRoom : (q + 1 + left ≤ mem.length ∨ left = 0) ↔
                (q + (left + 1) ≤ mem.length ∨ left + 1 = 0) := by
              omega
            simp only [if_neg hBlank, ih, hNe, false_or, hRoom]

/-- The zero in the place of a delimiter is no blank either, and what is behind does not take a
blank away. -/
theorem blank_mem_take {xs : List UInt8} (hStop : c = 0 ∨ c ∈ lineDelim) :
    headDelim ∈ (xs ++ 0 :: (behind ++ rest)).take n ↔
      headDelim ∈ (xs ++ c :: behind).take n ∨
        headDelim ∈ rest.take (n - (xs ++ c :: behind).length) := by
  have hSame : headDelim ∈ (xs ++ 0 :: behind).take n ↔ headDelim ∈ (xs ++ c :: behind).take n := by
    have hNot : headDelim ≠ c := by
      intro hEq
      rw [← hEq] at hStop
      exact absurd hStop (by decide)
    have hZero : headDelim ≠ 0 := by decide
    rw [List.take_append, List.take_append, List.mem_append, List.mem_append]
    cases n - xs.length with
    | zero => simp
    | succ m => simp [hNot, hZero]
  have hLength : (xs ++ 0 :: behind).length = (xs ++ c :: behind).length := by
    simp only [List.length_append, List.length_cons]
  rw [← List.cons_append, ← List.append_assoc, List.take_append, List.mem_append, hSame, hLength]

/-- The parser up to the fields, for an array that starts with a line. -/
theorem wsconnParseRequest_cut {data stack : List UInt8} (h : Cut unread seps line c behind)
    (hMem : data ++ stack.drop data.length = unread ++ rest)
    (hSize : data.length < wsHandshakeMaxSize) (hStack : stack.length = wsHandshakeMaxSize) :
    ∃ pre', wsconnParseRequest request stack data =
      if headDelim ∈ line then
        (copyLocation (seps ++ line ++ 0 :: (behind ++ rest)) 64
            (seps.length + (line.takeWhile (· ≠ headDelim)).length + 1) []).bind fun copied =>
          parseFields wsHandshakeMaxSize
            { emptyRequest with location := locationField emptyRequest.location copied }
            (pre' ++ goOn c behind ++ rest) pre'.length
      else some (-1, emptyRequest) := by
  have hToken := @Cut.token_eq unread seps line behind [] rest c h
  rw [List.nil_append, List.nil_append, ← hMem] at hToken
  have hZero : ∀ x, x ∈ line → x ≠ 0 := fun x hx => (h.token x hx).1
  have hBlank := @strstr_eq seps line (behind ++ rest) hZero headDelim
  have hTotal : (unread ++ rest).length = wsHandshakeMaxSize := by
    rw [← hMem, List.length_append, List.length_drop]
    omega
  obtain ⟨pre', hLength, hLeft⟩ := goOn_left c behind rest (seps ++ line)
  refine ⟨pre', ?_⟩
  simp only [wsconnParseRequest, if_neg (by omega : ¬ stack.length < data.length),
    if_neg (by omega : ¬ data.length ≥ wsHandshakeMaxSize), Option.bind_eq_bind]
  simp only [List.length_nil] at hToken
  simp only [hToken, Option.bind_some, hBlank]
  by_cases hIn : headDelim ∈ line
  · have hMemLength : (seps ++ line ++ 0 :: (behind ++ rest)).length = wsHandshakeMaxSize := by
      rw [← hTotal, h.eq]
      simp only [List.length_append, List.length_cons]
      omega
    simp only [findIdx_takeWhile hIn, Option.map_some, if_pos hIn, hMemLength]
    rw [hLeft, hLength]
    rfl
  · simp only [findIdx_none hIn, Option.map_none, if_neg hIn]
    rfl

/-- The parser up to the fields, for a request that starts with a line. -/
theorem wsconnParseRequest_line {data stack : List UInt8} (h : Cut data seps line c behind)
    (hSize : data.length < wsHandshakeMaxSize) (hStack : stack.length = wsHandshakeMaxSize) :
    ∃ pre', wsconnParseRequest request stack data =
      if headDelim ∈ line then
        (copyLocation (seps ++ line ++ 0 :: (behind ++ stack.drop data.length)) 64
            (seps.length + (line.takeWhile (· ≠ headDelim)).length + 1) []).bind fun copied =>
          parseFields wsHandshakeMaxSize
            { emptyRequest with location := locationField emptyRequest.location copied }
            (pre' ++ goOn c behind ++ stack.drop data.length) pre'.length
      else some (-1, emptyRequest) :=
  wsconnParseRequest_cut h rfl hSize hStack

private theorem determined_line {data : List UInt8} (h : Cut data seps line c behind) :
    determined data =
      if headDelim ∈ line then
        locationInside data.length (line ++ c :: behind) &&
          endsInside data.length true (goOn c behind)
      else true := by
  obtain ⟨first, text, hDrop, hFirst, hText, hTake, hBehind⟩ := h.found
  simp only [determined, hDrop, if_neg hFirst, hTake, hBehind, endsInside_goOn h.stop]
  rw [hText]

/-- When the location can be copied, by what the rest of the array holds. -/
theorem copyLocation_line {data : List UInt8} (h : Cut data seps line c behind)
    (hBlank : headDelim ∈ line) (hTotal : data.length + rest.length = wsHandshakeMaxSize) :
    ∃ count, (copyLocation (seps ++ line ++ 0 :: (behind ++ rest)) 64
        (seps.length + (line.takeWhile (· ≠ headDelim)).length + 1) []).isSome = true ↔
      locationInside data.length (line ++ c :: behind) = true ∨ headDelim ∈ rest.take count := by
  have hSplit := split_first hBlank
  generalize (line.dropWhile (· ≠ headDelim)).tail = more at hSplit
  generalize hFront : line.takeWhile (· ≠ headDelim) = front at hSplit
  have hNot : ∀ x, x ∈ front → (fun x => decide (x ≠ headDelim)) x = true := by
    intro x hx
    rw [← hFront] at hx
    simpa using List.mem_takeWhile_imp hx
  have hLocation : ((line ++ c :: behind).dropWhile (· ≠ headDelim)).tail =
      more ++ c :: behind := by
    rw [hSplit, List.append_assoc, List.dropWhile_append_of_pos hNot, List.cons_append,
      List.dropWhile_cons_of_neg (by simp), List.tail_cons]
  have hDrop : (seps ++ line ++ 0 :: (behind ++ rest)).drop (seps.length + front.length + 1) =
      more ++ 0 :: (behind ++ rest) := by
    have hMem : seps ++ line ++ 0 :: (behind ++ rest) =
        (seps ++ front ++ [headDelim]) ++ (more ++ 0 :: (behind ++ rest)) := by
      rw [hSplit]
      simp [List.append_assoc]
    have hLength : seps.length + front.length + 1 = (seps ++ front ++ [headDelim]).length := by
      simp only [List.length_append, List.length_singleton]
    rw [hMem, hLength, List.drop_left]
  have hSize : data.length = seps.length + front.length + 1 + (more ++ c :: behind).length := by
    rw [h.eq, hSplit]
    simp only [List.length_append, List.length_cons]
    omega
  have hMemLength : (seps ++ line ++ 0 :: (behind ++ rest)).length = wsHandshakeMaxSize := by
    rw [← hTotal, h.eq]
    simp only [List.length_append, List.length_cons]
    omega
  have hField : emptyRequest.location.length = 64 := rfl
  refine ⟨64 - (more ++ c :: behind).length, ?_⟩
  rw [copyLocation_isSome, hDrop, blank_mem_take h.stop, hMemLength]
  simp only [locationInside, hLocation, hField, hSize, Nat.add_sub_cancel, decide_eq_true_eq]
  tauto

theorem determined_out (hSeps : ∀ x, x ∈ unread → x ∈ lineDelim) : determined unread = false := by
  have hDrop : unread.dropWhile (fun x => decide (x ∈ lineDelim)) = [] :=
    List.dropWhile_eq_nil_iff.mpr fun x hx => decide_eq_true (hSeps x hx)
  simp only [determined, hDrop]

private theorem determined_stop (hSeps : ∀ x, x ∈ seps → x ∈ lineDelim) :
    determined (seps ++ 0 :: text) = true := by
  have hDrop : (seps ++ 0 :: text).dropWhile (fun x => decide (x ∈ lineDelim)) = 0 :: text := by
    rw [dropWhile_seps hSeps, List.dropWhile_cons_of_neg (by decide)]
  simp only [determined, hDrop, if_true]

/-- A zero before any line ends the parser. -/
theorem wsconnParseRequest_stop {stack : List UInt8} (hSeps : ∀ x, x ∈ seps → x ∈ lineDelim)
    (hSize : (seps ++ 0 :: text).length < wsHandshakeMaxSize)
    (hStack : stack.length = wsHandshakeMaxSize) :
    wsconnParseRequest request stack (seps ++ 0 :: text) = some (-1, emptyRequest) := by
  have hToken : strtok (seps ++ 0 :: text ++ stack.drop (seps ++ 0 :: text).length) 0
      [0x0d, 0x0a] = some none := by
    rw [List.append_assoc, List.cons_append]
    exact @strtok_end [] _ [0x0d, 0x0a] seps hSeps (by decide)
  simp only [wsconnParseRequest, if_neg (by omega : ¬ stack.length < (seps ++ 0 :: text).length),
    if_neg (by omega : ¬ (seps ++ 0 :: text).length ≥ wsHandshakeMaxSize), hToken,
    Option.bind_eq_bind, Option.bind_some]
  rfl

/-- With no zero and no blank behind the request, the parser runs out of the array unless it comes
to an end inside the request. -/
theorem wsconnParseRequest_runs_on {data : List UInt8} (hClosed : Closed data)
    (hSize : data.length < wsHandshakeMaxSize) (hNot : determined data = false) :
    wsconnParseRequest request (List.replicate wsHandshakeMaxSize 0x61) data = none := by
  have hStack : (List.replicate wsHandshakeMaxSize (0x61 : UInt8)).length = wsHandshakeMaxSize :=
    List.length_replicate
  obtain hOut | ⟨seps, text, rfl, hSeps⟩ | ⟨seps, line, c, behind, hCut⟩ := hClosed.cases
  · have hToken : strtok (data ++ (List.replicate wsHandshakeMaxSize 0x61).drop data.length) 0
        [0x0d, 0x0a] = none := by
      rw [List.drop_replicate]
      refine @strtok_none [] _ [0x0d, 0x0a] data hOut ?_
      intro x hx
      rw [List.eq_of_mem_replicate hx]
      decide
    simp only [wsconnParseRequest, hStack, if_neg (by omega : ¬ wsHandshakeMaxSize < data.length),
      if_neg (by omega : ¬ data.length ≥ wsHandshakeMaxSize), hToken, Option.bind_eq_bind,
      Option.bind_none]
  · rw [determined_stop hSeps] at hNot
    cases hNot
  · obtain ⟨next, hRun⟩ := @wsconnParseRequest_line seps line behind c request data _ hCut hSize
      hStack
    rw [determined_line hCut] at hNot
    rw [hRun, List.drop_replicate]
    by_cases hBlank : headDelim ∈ line
    · rw [if_pos hBlank] at hNot ⊢
      obtain ⟨count, hCopy⟩ := @copyLocation_line seps line behind
        (List.replicate (wsHandshakeMaxSize - data.length) 0x61) c data hCut hBlank
        (by rw [List.length_replicate]; omega)
      have hNoBlank : headDelim ∉
          (List.replicate (wsHandshakeMaxSize - data.length) (0x61 : UInt8)).take count := by
        intro hMem
        have hEq := List.eq_of_mem_replicate (List.mem_of_mem_take hMem)
        exact absurd hEq (by decide)
      by_cases hInside : locationInside data.length (line ++ c :: behind) = true
      · obtain ⟨copied, hSome⟩ := Option.isSome_iff_exists.mp (hCopy.mpr (Or.inl hInside))
        rw [hInside, Bool.true_and] at hNot
        rw [hSome, Option.bind_some]
        exact parseFields_runs_on (hCut.goOn hClosed) hNot hCut.shorter (KeyIs.start _)
      · have hNone := hCopy.not.mpr (not_or.mpr ⟨hInside, hNoBlank⟩)
        rw [Option.not_isSome_iff_eq_none.mp hNone, Option.bind_none]
    · rw [if_neg hBlank] at hNot
      cases hNot

/-- If it comes to an end inside, what the array holds does not matter. -/
theorem wsconnParseRequest_ends {data : List UInt8} (hClosed : Closed data)
    (hSize : data.length < wsHandshakeMaxSize) (hDetermined : determined data = true) :
    NonInterfering data := by
  intro request stack stack' hStack hStack'
  obtain hOut | ⟨seps, text, rfl, hSeps⟩ | ⟨seps, line, c, behind, hCut⟩ := hClosed.cases
  · rw [determined_out hOut] at hDetermined
    cases hDetermined
  · exact ⟨-1, _, _, wsconnParseRequest_stop hSeps hSize hStack,
      wsconnParseRequest_stop hSeps hSize hStack', emptyRequest.location, rfl⟩
  · obtain ⟨next, hRun⟩ := @wsconnParseRequest_line seps line behind c request data _ hCut hSize
      hStack
    obtain ⟨next', hRun'⟩ := @wsconnParseRequest_line seps line behind c request data _ hCut hSize
      hStack'
    rw [determined_line hCut] at hDetermined
    rw [hRun, hRun']
    by_cases hBlank : headDelim ∈ line
    · rw [if_pos hBlank, Bool.and_eq_true] at hDetermined
      have hCopies : ∀ rest : List UInt8, data.length + rest.length = wsHandshakeMaxSize →
          ∃ copied, copyLocation (seps ++ line ++ 0 :: (behind ++ rest)) 64
            (seps.length + (line.takeWhile (· ≠ headDelim)).length + 1) [] = some copied := by
        intro rest hTotal
        obtain ⟨count, hCopy⟩ := copyLocation_line hCut hBlank hTotal
        exact Option.isSome_iff_exists.mp (hCopy.mpr (Or.inl hDetermined.1))
      obtain ⟨copied, hSome⟩ := hCopies (stack.drop data.length)
        (by rw [List.length_drop]; omega)
      obtain ⟨copied', hSome'⟩ := hCopies (stack'.drop data.length)
        (by rw [List.length_drop]; omega)
      rw [if_pos hBlank, if_pos hBlank, hSome, hSome', Option.bind_some, Option.bind_some]
      exact parseFields_ends (hCut.goOn hClosed) hDetermined.2 (by omega)
        ⟨locationField emptyRequest.location copied', rfl⟩ (KeyIs.start _)
    · rw [if_neg hBlank, if_neg hBlank]
      exact ⟨-1, _, _, rfl, rfl, emptyRequest.location, rfl⟩

end

/-- A request that ends as requests do is parsed with the same result whatever the array held
before, if and only if the parser comes to an end inside it and the location does not leave the
array. -/
theorem wsconnParseRequest_determined_iff {data : List UInt8} (hSize : data.length < 1024)
    (hEnd : ascii "\r\n\r\n" <:+ data) : NonInterfering data ↔ determined data = true := by
  have hClosed : Closed data := by
    obtain ⟨front, rfl⟩ := hEnd
    exact Or.inr ⟨front ++ [0x0d, 0x0a, 0x0d], by simp [ascii]⟩
  constructor
  · intro hNon
    by_contra hNot
    obtain ⟨ret, filled, -, hRun, -⟩ :=
      hNon emptyRequest (List.replicate wsHandshakeMaxSize 0x61)
        (List.replicate wsHandshakeMaxSize 0x61) List.length_replicate List.length_replicate
    rw [wsconnParseRequest_runs_on hClosed hSize (Bool.not_eq_true _ ▸ hNot)] at hRun
    cases hRun
  · exact wsconnParseRequest_ends hClosed hSize

/-- A request with one header. -/
def hostRequest : List UInt8 := ascii "GET / HTTP/1.1\r\nHost: a\r\n\r\n"

/-- A first line without a blank, which the parser refuses. -/
def blankless : List UInt8 := ascii "GET\r\nHost: a\r\n\r\n"

theorem wsconnParseRequest_determined_host :
    (NonInterfering hostRequest ↔ determined hostRequest = true) ∧ NonInterfering blankless :=
  ⟨wsconnParseRequest_determined_iff (by decide +kernel) (by decide +kernel),
    (wsconnParseRequest_determined_iff (by decide +kernel) (by decide +kernel)).mpr
      (by decide +kernel)⟩

/-- What an earlier request left behind it. -/
def leftover : List UInt8 :=
  List.replicate hostRequest.length 0 ++ ascii "Host: b\r\n" ++
    List.replicate (wsHandshakeMaxSize - hostRequest.length - 9) 0

/-- The host is taken from there, and from the request if the array holds zeros. -/
theorem wsconnParseRequest_interferes : ¬ NonInterfering hostRequest := by
  intro hNon
  have hZeros :
      (wsconnParseRequest emptyRequest (List.replicate wsHandshakeMaxSize 0) hostRequest).map
        (fun r => (r.1, r.2.host.take 2)) = some (0, [0x61, 0]) := by
    decide +kernel
  have hLeftover : (wsconnParseRequest emptyRequest leftover hostRequest).map
      (fun r => (r.1, r.2.host.take 2)) = some (0, [0x62, 0]) := by
    decide +kernel
  obtain ⟨ret, filled, filled', hRun, hRun', location, rfl⟩ :=
    hNon emptyRequest (List.replicate wsHandshakeMaxSize 0) leftover
      (by decide +kernel) (by decide +kernel)
  rw [hRun, Option.map_some] at hZeros
  rw [hRun', Option.map_some] at hLeftover
  have hSame := hZeros.symm.trans hLeftover
  cases hSame

end Gbase.Net.Wsconn
