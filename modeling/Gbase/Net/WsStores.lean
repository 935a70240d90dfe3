import Gbase.Net.WsVariant

/-!
# What the request parser stores (`net/wsconn.c`)

`_wsconn_parse_request` copies the request to its array, ends lines and names with a zero there and
copies values to the fields of a structure.  Here every store is kept with the array it is meant
for and its index, also where a run is undefined later.  Behind the array other memory lies, where
the functions on strings go on when no zero stops them.

## Main results

* `parseStores_ret`: with nothing behind the array, the result is that of the parser.
* `wsconnParseRequest_stores_iff`: the requests that are stored inside the arrays.
-/

namespace Gbase.Net.Wsconn

open Gbase.Lib.CString

/-- The arrays that are stored to. -/
inductive ParseArray where
  | requestData
  | key
  | key1
  | key2
  | origin
  | protocol
  | host
  | location
  deriving DecidableEq, Repr

/-- `sizeof` -/
def ParseArray.size : ParseArray → Nat
  | .requestData => wsHandshakeMaxSize
  | .key | .key1 | .key2 => 32
  | .origin | .protocol | .host | .location => 64

/-- Bytes that are stored, by array and index. -/
abbrev Stores : Type := List (ParseArray × Nat)

/-- The first bytes of an array. -/
def firstBytes (array : ParseArray) (count : Nat) : Stores :=
  (List.range count).map fun i => (array, i)

/-- The zeros that `strtok` stores. -/
def cutStores (mem : List UInt8) (start : Nat) : Stores :=
  (strtokStores mem start lineDelim).map fun i => (.requestData, i)

/-- `snprintf` to a field. -/
def fieldStores (array : ParseArray) (text : List UInt8) : Stores :=
  firstBytes array (min text.length (array.size - 1) + 1)

/-- The field that the header of a name is copied to. -/
def headerArray (name : List UInt8) : Option ParseArray :=
  let known (field : String) : Bool := strcaseeq name (ascii field)
  if known "connection" then none
  else if known "upgrade" then none
  else if known "host" then some .host
  else if known "origin" then some .origin
  else if known "sec-websocket-origin" then some .origin
  else if known "sec-websocket-key" then some .key
  else if known "sec-websocket-version" then none
  else if known "sec-websocket-key1" then some .key1
  else if known "sec-websocket-key2" then some .key2
  else if known "sec-websocket-protocol" then some .protocol
  else none

/-- One header with a colon at `q`, which is a zero now. -/
def headerStores (mem : List UInt8) (p q : Nat) : Stores :=
  match cString mem p, (skip mem (q + 1) headDelim).bind (cString mem) with
  | some name, some value => ((headerArray name).map fun array => fieldStores array value).getD []
  | _, _ => []

/-- The loop that copies the location, as `copyLocation`. -/
def locationStores (mem : List UInt8) : Nat → Nat → Nat → Stores
  | 0, _, _ => []
  | left + 1, q, i =>
      match mem[q]? with
      | none => []
      | some c =>
          (.location, i) :: if c = headDelim then [] else locationStores mem left (q + 1) (i + 1)

/-- Stores, and then those of what goes on. -/
def andThen {β : Type} (stores : Stores) (later : Stores × Option β) : Stores × Option β :=
  (stores ++ later.1, later.2)

/-- The loop over the lines, as `parseFields`.  The text is what printing a null pointer gives, if
it is defined. -/
def parseFieldsStores (nullText : Option (List UInt8)) :
    Nat → RequestT → List UInt8 → Nat → Stores × Option (Int × RequestT)
  | 0, _, _, _ => ([], none)
  | fuel + 1, request, mem, next =>
      let cut := cutStores mem next
      match strtok mem next [0x0d, 0x0a] with
      | none => (cut, none)
      | some none => (cut, some (0, request))
      | some (some (p, mem, next)) =>
          match strstr mem p fieldDelim with
          | none => (cut, none)
          | some (some q) =>
              let mem := mem.set q 0
              let stores := cut ++ (.requestData, q) :: headerStores mem p q
              match parseField request mem p q with
              | none => (stores, none)
              | some (ret, request) =>
                  if ret < 0 then (stores, some (-1, request))
                  else andThen stores (parseFieldsStores nullText fuel request mem next)
          | some none =>
              if request.key.head? = some 0 then
                match nullText with
                | none => (cut, none)
                | some text =>
                    andThen (cut ++ fieldStores .key text)
                      (parseFieldsStores nullText fuel
                        { request with key := snprintf request.key text } mem next)
              else andThen cut (parseFieldsStores nullText fuel request mem next)

/-- `memset` of the structure. -/
def clearStores : Stores :=
  [.key, .key1, .key2, .origin, .protocol, .host, .location].flatMap
    fun array => firstBytes array array.size

/-- The array of the function, with what it held before and what lies behind it. -/
def parseMemory (stack beyond data : List UInt8) : List UInt8 :=
  data ++ stack.drop data.length ++ beyond

/-- `_wsconn_parse_request` behind the second copy. -/
def parseLinesStores (nullText : Option (List UInt8)) (mem : List UInt8) :
    Stores × Option (Int × RequestT) :=
  let cut := cutStores mem 0
  match strtok mem 0 [0x0d, 0x0a] with
  | none => (cut, none)
  | some none => (cut, some (-1, emptyRequest))
  | some (some (p, mem, next)) =>
      match strstr mem p headDelim with
      | none => (cut, none)
      | some none => (cut, some (-1, emptyRequest))
      | some (some q) =>
          let size := emptyRequest.location.length
          let stores := cut ++ locationStores mem size (q + 1) 0
          match copyLocation mem size (q + 1) [] with
          | none => (stores, none)
          | some copied =>
              let request :=
                { emptyRequest with location := locationField emptyRequest.location copied }
              andThen (stores ++ [(.location, copied.length - 1)])
                (parseFieldsStores nullText mem.length request mem next)

/-- `_wsconn_parse_request` with its stores. -/
def wsconnParseRequestStores (nullText : Option (List UInt8)) (request : RequestT)
    (stack beyond data : List UInt8) : Stores × Option (Int × RequestT) :=
  let copied := firstBytes .requestData data.length
  if data.length ≥ wsHandshakeMaxSize then (copied, some (-1, request))
  else
    andThen (copied ++ copied ++ clearStores)
      (parseLinesStores nullText (parseMemory stack beyond data))

/-- Every store is inside its array. -/
def Inside (stores : Stores) : Prop := ∀ s, s ∈ stores → s.2 < s.1.size

/-- Nothing is stored outside the arrays, whatever they held before and whatever lies behind, and a
request that is too long is refused. -/
def StaysInside (data : List UInt8) : Prop :=
  ∀ nullText request stack beyond, stack.length = wsHandshakeMaxSize →
    Inside (wsconnParseRequestStores nullText request stack beyond data).1 ∧
      (data.length ≥ wsHandshakeMaxSize →
        (wsconnParseRequestStores nullText request stack beyond data).2 = some (-1, request))

/-- The parser stops in some lines: at a zero or at a header that it refuses. -/
def StopsInside (unread : List UInt8) : Prop :=
  0 ∈ unread ∨ ∃ line, line ∈ tokens lineDelim unread ∧ rejects line = true

/-- The parser stops in the request: it comes to a zero, finds no blank in the first line or refuses
a header. -/
def RequestStops (data : List UInt8) : Prop :=
  0 ∈ data ∨ ∃ first rest, tokens lineDelim data = first :: rest ∧
    (headDelim ∉ first ∨ ∃ line, line ∈ rest ∧ rejects line = true)

/-! ## The results -/

section

variable {request : RequestT} {stack data : List UInt8} {stores : Stores}

theorem parseFieldsStores_ret (n : Nat) (request : RequestT) (mem : List UInt8) (next : Nat) :
    (parseFieldsStores none n request mem next).2 = parseFields n request mem next := by
  induction n generalizing request mem next with
  | zero => rfl
  | succ n ih =>
      simp only [parseFieldsStores, parseFields, Option.bind_eq_bind]
      cases strtok mem next [0x0d, 0x0a] with
      | none => rfl
      | some token =>
          obtain _ | ⟨p, mem, next⟩ := token
          · rfl
          · simp only [Option.bind_some]
            cases strstr mem p fieldDelim with
            | none => rfl
            | some colon =>
                cases colon with
                | none =>
                    simp only [Option.bind_some]
                    split
                    · rfl
                    · exact ih request mem next
                | some q =>
                    simp only [Option.bind_some]
                    cases parseField request (mem.set q 0) p q with
                    | none => rfl
                    | some result =>
                        simp only [Option.bind_some]
                        split
                        · rfl
                        · exact ih result.2 (mem.set q 0) next

/-- With nothing behind the array, the result is that of the parser. -/
theorem parseStores_ret (hSize : data.length ≤ stack.length) :
    (wsconnParseRequestStores none request stack [] data).2 =
      wsconnParseRequest request stack data := by
  simp only [wsconnParseRequestStores, wsconnParseRequest,
    if_neg (by omega : ¬ stack.length < data.length), Option.bind_eq_bind]
  split
  · rfl
  · simp only [andThen, parseLinesStores, parseMemory, List.append_nil]
    cases strtok (data ++ stack.drop data.length) 0 [0x0d, 0x0a] with
    | none => rfl
    | some token =>
        obtain _ | ⟨p, mem, next⟩ := token
        · rfl
        · simp only [Option.bind_some]
          cases strstr mem p headDelim with
          | none => rfl
          | some blank =>
              cases blank with
              | none => rfl
              | some q =>
                  simp only [Option.bind_some]
                  cases copyLocation mem emptyRequest.location.length (q + 1) [] with
                  | none => rfl
                  | some copied => exact parseFieldsStores_ret _ _ _ _

end

/-! ## Stores inside the arrays -/

/-- Every store is inside its array, or in the array of the function below some index. -/
def Below (limit : Nat) (stores : Stores) : Prop :=
  ∀ s, s ∈ stores → s.2 < s.1.size ∨ s.1 = .requestData ∧ s.2 < limit

section

variable {stores later : Stores} {limit : Nat} {array : ParseArray} {text mem : List UInt8}

theorem Below.inside (h : Below limit stores) (hLimit : limit ≤ wsHandshakeMaxSize) :
    Inside stores := by
  intro s hs
  cases h s hs with
  | inl hIn => exact hIn
  | inr hLow =>
      rw [hLow.1]
      exact Nat.lt_of_lt_of_le hLow.2 hLimit

theorem Inside.below (h : Inside stores) : Below limit stores := fun s hs => Or.inl (h s hs)

theorem Inside.append (h : Inside stores) (h' : Inside later) : Inside (stores ++ later) := by
  intro s hs
  cases List.mem_append.mp hs with
  | inl hLeft => exact h s hLeft
  | inr hRight => exact h' s hRight

theorem Below.append (h : Below limit stores) (h' : Below limit later) :
    Below limit (stores ++ later) := by
  intro s hs
  cases List.mem_append.mp hs with
  | inl hLeft => exact h s hLeft
  | inr hRight => exact h' s hRight

theorem Below.cons {i : Nat} (hi : i < limit) (h : Below limit stores) :
    Below limit ((.requestData, i) :: stores) := by
  intro s hs
  cases List.mem_cons.mp hs with
  | inl hFirst => rw [hFirst]; exact Or.inr ⟨rfl, hi⟩
  | inr hRest => exact h s hRest

theorem inside_nil : Inside [] := fun _ hs => (List.not_mem_nil hs).elim

theorem inside_firstBytes {count : Nat} (h : count ≤ array.size) :
    Inside (firstBytes array count) := by
  intro s hs
  obtain ⟨i, hi, rfl⟩ := List.mem_map.mp hs
  exact Nat.lt_of_lt_of_le (List.mem_range.mp hi) h

theorem size_pos (array : ParseArray) : 0 < array.size := by
  cases array <;> decide

private theorem inside_fieldStores (array : ParseArray) (text : List UInt8) :
    Inside (fieldStores array text) := by
  have hPos := size_pos array
  exact inside_firstBytes (by omega)

theorem inside_headerStores (mem : List UInt8) (p q : Nat) : Inside (headerStores mem p q) := by
  rw [headerStores]
  split
  · rename_i name value _ _
    cases headerArray name with
    | none => exact inside_nil
    | some array => exact inside_fieldStores array value
  · exact inside_nil

private theorem inside_clearStores : Inside clearStores := by
  intro s hs
  obtain ⟨array, -, hIn⟩ := List.mem_flatMap.mp hs
  exact inside_firstBytes le_rfl s hIn

private theorem inside_locationStores (mem : List UInt8) (left q i : Nat) (h : i + left ≤ 64) :
    Inside (locationStores mem left q i) := by
  induction left generalizing q i with
  | zero => exact inside_nil
  | succ left ih =>
      rw [locationStores]
      split
      · exact inside_nil
      · intro s hs
        cases List.mem_cons.mp hs with
        | inl hFirst =>
            rw [hFirst]
            show i < 64
            omega
        | inr hRest =>
            split at hRest
            · exact (List.not_mem_nil hRest).elim
            · exact ih (q + 1) (i + 1) (by omega) s hRest

end

/-! ## The loop over the lines -/

section

variable {unread seps line behind pre rest text : List UInt8} {c : UInt8} {request : RequestT}
  {n : Nat} {nullText : Option (List UInt8)}

theorem Cut.cutStores_eq (h : Cut unread seps line c behind) :
    cutStores (pre ++ unread ++ rest) pre.length =
      if c = 0 then [] else [(.requestData, pre.length + seps.length + line.length)] := by
  have hMem : pre ++ unread ++ rest = pre ++ seps ++ line ++ c :: (behind ++ rest) := by
    rw [h.eq]
    simp [List.append_assoc]
  rw [cutStores, hMem, strtokStores_token h.delims h.nonempty h.token h.stop]
  split <;> rfl

theorem Cut.cutStores_below (h : Cut unread seps line c behind) :
    Below (pre.length + unread.length) (cutStores (pre ++ unread ++ rest) pre.length) := by
  rw [h.cutStores_eq]
  split
  · exact inside_nil.below
  · refine Below.cons ?_ inside_nil.below
    rw [h.eq]
    simp only [List.length_append, List.length_cons]
    omega

/-- One turn of the loop: it ends at a header that is refused or at a null pointer, or goes on. -/
theorem parseFieldsStores_line (h : Cut unread seps line c behind)
    (nullText : Option (List UInt8)) (n : Nat) (request : RequestT) (pre rest : List UInt8) :
    ∃ stores pre', Below (pre.length + unread.length) stores ∧
      pre'.length + (goOn c behind).length = pre.length + unread.length ∧
      ((rejects line = true ∧ ∃ result,
          parseFieldsStores nullText (n + 1) request (pre ++ unread ++ rest) pre.length =
            (stores, result)) ∨
        (nullText = none ∧ ∃ result,
          parseFieldsStores nullText (n + 1) request (pre ++ unread ++ rest) pre.length =
            (stores, result)) ∨
        (rejects line = false ∧ ∃ request',
          parseFieldsStores nullText (n + 1) request (pre ++ unread ++ rest) pre.length =
            andThen stores
              (parseFieldsStores nullText n request' (pre' ++ goOn c behind ++ rest)
                pre'.length))) := by
  have hToken := @Cut.token_eq unread seps line behind pre rest c h
  have hCutStores := @Cut.cutStores_below unread seps line behind pre rest c h
  have hZero : ∀ x, x ∈ line → x ≠ 0 := fun x hx => (h.token x hx).1
  have hColon := @strstr_eq (pre ++ seps) line (behind ++ rest) hZero fieldDelim
  have hUnread := congrArg List.length h.eq
  have hGoOn : (if c = 0 then 0 else 1) + (goOn c behind).length = 1 + behind.length := by
    rw [goOn]
    split
    · rw [List.length_cons]
      omega
    · rfl
  simp only [List.length_append, List.length_cons] at hUnread
  by_cases hIn : fieldDelim ∈ line
  · have hFind : line.findIdx? (· = fieldDelim) = some (headerName line).length :=
      findIdx_takeWhile hIn
    have hSet := headerLine_set hIn (pre ++ seps) (behind ++ rest)
    have hField := @parseField_eq request line (pre ++ seps) (behind ++ rest) hZero
    have hLine := headerLine_length hIn
    obtain ⟨pre', hLength, hLeft⟩ := goOn_left c behind rest
      (pre ++ seps ++ headerName line ++ 0 :: headerText line)
    have hNext : (pre ++ seps ++ line).length + (if c = 0 then 0 else 1) = pre'.length := by
      rw [hLength]
      simp only [List.length_append, List.length_cons]
      omega
    have hIndex : (pre ++ seps).length + (headerName line).length <
        pre.length + unread.length := by
      rw [List.length_append]
      omega
    have hStores := Below.cons hIndex (inside_headerStores
      (pre ++ seps ++ headerName line ++ 0 :: headerText line ++ 0 :: (behind ++ rest))
      (pre ++ seps).length ((pre ++ seps).length + (headerName line).length)).below
    refine ⟨_, pre', hCutStores.append hStores, ?_, ?_⟩
    · rw [← hNext]
      simp only [List.length_append]
      omega
    · simp only [parseFieldsStores, hToken, hColon, hFind, Option.map_some, hSet, hField]
      cases hRejects : rejects line with
      | true =>
          rw [if_pos ((rejects_iff hIn).mpr hRejects)]
          exact Or.inl ⟨rfl, _, rfl⟩
      | false =>
          rw [if_neg ((rejects_iff hIn).not.mpr (by rw [hRejects]; decide)), hLeft, hNext]
          exact Or.inr (Or.inr ⟨rfl, _, rfl⟩)
  · obtain ⟨pre', hLength, hLeft⟩ := goOn_left c behind rest (pre ++ seps ++ line)
    have hNot : rejects line = false := by
      simp [rejects, isField, hIn]
    have hPos : pre'.length + (goOn c behind).length = pre.length + unread.length := by
      rw [hLength]
      simp only [List.length_append]
      omega
    have hRun := @hColon
    simp only [findIdx_none hIn, Option.map_none] at hRun
    by_cases hKey : request.key.head? = some 0
    · cases hNull : nullText with
      | none =>
          refine ⟨_, pre', hCutStores, hPos, Or.inr (Or.inl ⟨rfl, none, ?_⟩)⟩
          simp only [parseFieldsStores, hToken, hRun, if_pos hKey]
      | some text =>
          refine ⟨_, pre', hCutStores.append (inside_fieldStores .key text).below, hPos,
            Or.inr (Or.inr ⟨hNot, { request with key := snprintf request.key text }, ?_⟩)⟩
          simp only [parseFieldsStores, hToken, hRun, if_pos hKey]
          rw [hLeft, ← hLength]
    · refine ⟨_, pre', hCutStores, hPos, Or.inr (Or.inr ⟨hNot, request, ?_⟩)⟩
      simp only [parseFieldsStores, hToken, hRun, if_neg hKey]
      rw [hLeft, ← hLength]

theorem Cut.zero_mem (h : Cut unread seps line c behind) :
    0 ∈ unread ↔ 0 ∈ Wsconn.goOn c behind := by
  have hSeps : 0 ∉ seps := fun hIn => absurd (h.delims 0 hIn) (by decide)
  have hLine : 0 ∉ line := fun hIn => (h.token 0 hIn).1 rfl
  rw [h.eq, Wsconn.goOn, List.mem_append, List.mem_append, List.mem_cons]
  by_cases hZero : c = 0
  · simp [hZero]
  · simp [hSeps, hLine, hZero, Ne.symm hZero]

theorem Cut.tokens_eq (h : Cut unread seps line c behind) (hZero : c ≠ 0) :
    tokens lineDelim unread = line :: tokens lineDelim (Wsconn.goOn c behind) := by
  rw [h.eq, Wsconn.goOn, if_neg hZero, List.append_assoc, tokens_seps h.delims,
    tokens_line h.nonempty (fun x hx => (h.token x hx).2) (h.stop.resolve_left hZero)]

theorem Cut.zero_of_stop (_ : Cut unread seps line c behind) (hZero : c = 0) :
    0 ∈ Wsconn.goOn c behind := by
  rw [Wsconn.goOn, if_pos hZero]
  exact List.mem_cons_self

/-- The parser stops at this line or behind it. -/
theorem Cut.stops_iff (h : Cut unread seps line c behind) :
    StopsInside unread ↔ rejects line = true ∨ StopsInside (Wsconn.goOn c behind) := by
  by_cases hZero : c = 0
  · have hIn := h.zero_of_stop hZero
    exact iff_of_true (Or.inl (h.zero_mem.mpr hIn)) (Or.inr (Or.inl hIn))
  · rw [StopsInside, StopsInside, h.zero_mem, h.tokens_eq hZero]
    simp only [List.exists_mem_cons_iff]
    tauto

/-- If the parser stops in the lines, it stores no zero behind them. -/
theorem parseFieldsStores_below (hClosed : Closed unread) (hStops : StopsInside unread) :
    Below (pre.length + unread.length)
      (parseFieldsStores nullText n request (pre ++ unread ++ rest) pre.length).1 := by
  induction n generalizing unread pre request with
  | zero => exact inside_nil.below
  | succ n ih =>
      obtain hOut | ⟨seps, text, rfl, hSeps⟩ | ⟨seps, line, c, behind, hCut⟩ := hClosed.cases
      · exfalso
        cases hStops with
        | inl hZero => exact absurd (hOut 0 hZero) (by decide)
        | inr hLine =>
            rw [tokens_none hOut] at hLine
            obtain ⟨line, hIn, -⟩ := hLine
            exact List.not_mem_nil hIn
      · have hMem : pre ++ (seps ++ 0 :: text) ++ rest = pre ++ seps ++ 0 :: (text ++ rest) := by
          simp [List.append_assoc]
        have hNone : cutStores (pre ++ (seps ++ 0 :: text) ++ rest) pre.length = [] := by
          rw [cutStores, hMem, strtokStores_end hSeps (by decide)]
          rfl
        have hToken : strtok (pre ++ (seps ++ 0 :: text) ++ rest) pre.length [0x0d, 0x0a] =
            some none := by
          rw [hMem]
          exact strtok_end hSeps (by decide)
        simp only [parseFieldsStores, hToken, hNone]
        exact inside_nil.below
      · obtain ⟨stores, pre', hBelow, hLength, hTurn⟩ :=
          parseFieldsStores_line hCut nullText n request pre rest
        obtain ⟨-, result, hRun⟩ | ⟨-, result, hRun⟩ | ⟨hFine, request', hRun⟩ := hTurn
        · rw [hRun]
          exact hBelow
        · rw [hRun]
          exact hBelow
        · have hNext := (hCut.stops_iff.mp hStops).resolve_left (by rw [hFine]; decide)
          have hLater := @ih (goOn c behind) pre' request' (hCut.goOn hClosed) hNext
          rw [hLength] at hLater
          rw [hRun]
          exact hBelow.append hLater

private theorem cutStores_subset {mem : List UInt8} {next : Nat} {s : ParseArray × Nat}
    (hs : s ∈ cutStores mem next) :
    s ∈ (parseFieldsStores nullText (n + 1) request mem next).1 := by
  rw [parseFieldsStores]
  cases strtok mem next [0x0d, 0x0a] with
  | none => exact hs
  | some token =>
      obtain _ | ⟨p, mem', next'⟩ := token
      · exact hs
      · simp only
        cases strstr mem' p fieldDelim with
        | none => exact hs
        | some colon =>
            cases colon with
            | none =>
                simp only
                split
                · cases nullText with
                  | none => exact hs
                  | some text => simp [andThen, hs]
                · simp [andThen, hs]
            | some q =>
                simp only
                cases parseField request (mem'.set q 0) p q with
                | none => simp [hs]
                | some result =>
                    simp only
                    split
                    · simp [hs]
                    · simp [andThen, hs]

/-- Otherwise it stores one behind what follows them. -/
theorem parseFieldsStores_outside {k : Nat} (hClosed : Closed unread)
    (hNot : ¬ StopsInside unread) (hFuel : unread.length < n) (hPos : 0 < k)
    (more : List UInt8) :
    (.requestData, pre.length + unread.length + k) ∈
      (parseFieldsStores (some text) n request
        (pre ++ unread ++ (List.replicate k 0x61 ++ 0x0d :: more)) pre.length).1 := by
  induction n generalizing unread pre request with
  | zero => omega
  | succ n ih =>
      obtain hOut | ⟨seps, text, rfl, hSeps⟩ | ⟨seps, line, c, behind, hCut⟩ := hClosed.cases
      · apply cutStores_subset
        have hToken := @strtokStores_token pre more (List.replicate k 0x61) 0x0d lineDelim unread
          hOut (by simp; omega) (fun x hx => by rw [List.eq_of_mem_replicate hx]; decide)
          (Or.inr (by decide))
        rw [List.length_replicate, if_neg (by decide)] at hToken
        rw [cutStores, ← List.append_assoc, hToken]
        exact List.mem_singleton_self _
      · exact absurd (Or.inl (by simp)) hNot
      · obtain ⟨stores, pre', -, hLength, hTurn⟩ :=
          parseFieldsStores_line hCut (some text) n request pre
            (List.replicate k 0x61 ++ 0x0d :: more)
        have hBoth := not_or.mp (hCut.stops_iff.not.mp hNot)
        have hShorter := hCut.shorter
        obtain ⟨hRejects, -⟩ | ⟨hNull, -⟩ | ⟨-, request', hRun⟩ := hTurn
        · exact absurd hRejects hBoth.1
        · cases hNull
        · have hLater := @ih (goOn c behind) pre' request' (hCut.goOn hClosed) hBoth.2 (by omega)
          rw [hRun, ← hLength]
          exact List.mem_append_right stores hLater

end

/-! ## The whole request -/

section

variable {data seps line behind tail text stack beyond : List UInt8} {c : UInt8}
  {request : RequestT} {nullText : Option (List UInt8)}

private theorem length_copyLocation {mem copied result : List UInt8} {left q : Nat}
    (h : copyLocation mem left q copied = some result) : result.length ≤ copied.length + left := by
  induction left generalizing q copied with
  | zero =>
      cases h
      exact le_rfl
  | succ left ih =>
      rw [copyLocation] at h
      cases hAt : mem[q]? with
      | none =>
          rw [hAt] at h
          cases h
      | some c =>
          rw [hAt] at h
          simp only at h
          split at h
          · cases h
            rw [List.length_append, List.length_singleton]
            omega
          · have hLater := ih h
            rw [List.length_append, List.length_singleton] at hLater
            omega

/-- The first line: it has no blank, the location leaves the memory, or the loop follows. -/
theorem parseLinesStores_line (h : Cut data seps line c behind)
    (nullText : Option (List UInt8)) (tail : List UInt8) :
    ∃ stores pre', Below data.length stores ∧
      pre'.length + (goOn c behind).length = data.length ∧
      ((headDelim ∉ line ∧ ∃ result,
          parseLinesStores nullText (data ++ tail) = (stores, result)) ∨
        (tail.length < 64 ∧ ∃ result,
          parseLinesStores nullText (data ++ tail) = (stores, result)) ∨
        (headDelim ∈ line ∧ ∃ request',
          parseLinesStores nullText (data ++ tail) =
            andThen stores
              (parseFieldsStores nullText (data ++ tail).length request'
                (pre' ++ goOn c behind ++ tail) pre'.length))) := by
  have hToken := @Cut.token_eq data seps line behind [] tail c h
  have hCutStores := @Cut.cutStores_below data seps line behind [] tail c h
  have hZero : ∀ x, x ∈ line → x ≠ 0 := fun x hx => (h.token x hx).1
  have hBlank := @strstr_eq seps line (behind ++ tail) hZero headDelim
  have hData := congrArg List.length h.eq
  have hGoOn : (if c = 0 then 0 else 1) + (goOn c behind).length = 1 + behind.length := by
    rw [goOn]
    split
    · rw [List.length_cons]
      omega
    · rfl
  simp only [List.nil_append, List.length_nil, Nat.zero_add] at hToken hCutStores
  simp only [List.length_append, List.length_cons] at hData
  obtain ⟨pre', hLength, hLeft⟩ := goOn_left c behind tail (seps ++ line)
  have hPos : pre'.length + (goOn c behind).length = data.length := by
    rw [hLength]
    simp only [List.length_append]
    omega
  by_cases hIn : headDelim ∈ line
  · have hTake : (line.takeWhile (· ≠ headDelim)).length < line.length := by
      have hSplit := congrArg List.length (split_first hIn)
      simp only [List.length_append, List.length_cons] at hSplit
      omega
    have hSize : emptyRequest.location.length = 64 := rfl
    have hLocation := inside_locationStores (seps ++ line ++ 0 :: (behind ++ tail)) 64
      (seps.length + (line.takeWhile (· ≠ headDelim)).length + 1) 0 (by decide)
    have hMem : (seps ++ line ++ 0 :: (behind ++ tail)).length = (data ++ tail).length := by
      simp only [List.length_append, List.length_cons]
      omega
    cases hCopy : copyLocation (seps ++ line ++ 0 :: (behind ++ tail)) 64
        (seps.length + (line.takeWhile (· ≠ headDelim)).length + 1) [] with
    | none =>
        have hShort : tail.length < 64 := by
          by_contra hLong
          have hSome := (@copyLocation_isSome (seps ++ line ++ 0 :: (behind ++ tail)) 64
            (seps.length + (line.takeWhile (· ≠ headDelim)).length + 1) []).mpr
              (Or.inr (Or.inl (by rw [hMem, List.length_append]; omega)))
          rw [hCopy] at hSome
          cases hSome
        refine ⟨_, pre', hCutStores.append hLocation.below, hPos, ?_⟩
        refine Or.inr (Or.inl ⟨hShort, none, ?_⟩)
        simp only [parseLinesStores, hToken, hBlank, findIdx_takeWhile hIn, Option.map_some, hSize,
          hCopy]
    | some copied =>
        have hCount := length_copyLocation hCopy
        have hLast : Below data.length [(ParseArray.location, copied.length - 1)] := by
          intro s hs
          rw [List.mem_singleton.mp hs]
          rw [List.length_nil] at hCount
          refine Or.inl (?_ : copied.length - 1 < 64)
          omega
        refine ⟨_, pre', (hCutStores.append hLocation.below).append hLast, hPos,
          Or.inr (Or.inr ⟨hIn,
            { emptyRequest with location := locationField emptyRequest.location copied }, ?_⟩)⟩
        simp only [parseLinesStores, hToken, hBlank, findIdx_takeWhile hIn, Option.map_some, hSize,
          hCopy, hMem]
        rw [hLeft, ← hLength]
  · refine ⟨_, pre', hCutStores, hPos, Or.inl ⟨hIn, some (-1, emptyRequest), ?_⟩⟩
    simp only [parseLinesStores, hToken, hBlank, findIdx_none hIn, Option.map_none]

theorem Cut.requestStops_iff (h : Cut data seps line c behind) :
    RequestStops data ↔ headDelim ∉ line ∨ StopsInside (Wsconn.goOn c behind) := by
  by_cases hZero : c = 0
  · have hIn := h.zero_of_stop hZero
    exact iff_of_true (Or.inl (h.zero_mem.mpr hIn)) (Or.inr (Or.inl hIn))
  · rw [RequestStops, StopsInside, h.zero_mem, h.tokens_eq hZero]
    constructor
    · rintro (hIn | ⟨first, rest, hCons, hEnd⟩)
      · exact Or.inr (Or.inl hIn)
      · obtain ⟨rfl, rfl⟩ := List.cons.inj hCons
        exact hEnd.imp id Or.inr
    · rintro (hBlank | hIn | hLine)
      · exact Or.inr ⟨line, _, rfl, Or.inl hBlank⟩
      · exact Or.inl hIn
      · exact Or.inr ⟨line, _, rfl, Or.inr hLine⟩

/-- A request that fits and makes the parser stop is stored inside the arrays. -/
theorem parseLinesStores_inside (hClosed : Closed data) (hSize : data.length < wsHandshakeMaxSize)
    (hStops : RequestStops data) (tail : List UInt8) :
    Inside (parseLinesStores nullText (data ++ tail)).1 := by
  obtain hOut | ⟨seps, text, rfl, hSeps⟩ | ⟨seps, line, c, behind, hCut⟩ := hClosed.cases
  · exfalso
    obtain hZero | ⟨first, rest, hTokens, -⟩ := hStops
    · exact absurd (hOut 0 hZero) (by decide)
    · rw [tokens_none hOut] at hTokens
      cases hTokens
  · have hMem : seps ++ 0 :: text ++ tail = [] ++ seps ++ 0 :: (text ++ tail) := by
      simp [List.append_assoc]
    have hNone : cutStores (seps ++ 0 :: text ++ tail) 0 = [] := by
      rw [cutStores, hMem]
      exact congrArg _ (@strtokStores_end [] _ _ seps hSeps (by decide))
    have hToken : strtok (seps ++ 0 :: text ++ tail) 0 [0x0d, 0x0a] = some none := by
      rw [hMem]
      exact @strtok_end [] _ _ seps hSeps (by decide)
    simp only [parseLinesStores, hToken, hNone]
    exact inside_nil
  · obtain ⟨stores, pre', hBelow, hLength, hTurn⟩ := parseLinesStores_line hCut nullText tail
    obtain ⟨-, result, hRun⟩ | ⟨-, result, hRun⟩ | ⟨hBlank, request', hRun⟩ := hTurn
    · rw [hRun]
      exact hBelow.inside (by omega)
    · rw [hRun]
      exact hBelow.inside (by omega)
    · have hNext := (hCut.requestStops_iff.mp hStops).resolve_left (not_not_intro hBlank)
      have hLater := @parseFieldsStores_below (goOn c behind) pre' tail request'
        (data ++ tail).length nullText (hCut.goOn hClosed) hNext
      rw [hLength] at hLater
      rw [hRun]
      exact (hBelow.append hLater).inside (by omega)

private theorem cutStores_subset_lines {mem : List UInt8} {s : ParseArray × Nat}
    (hs : s ∈ cutStores mem 0) : s ∈ (parseLinesStores nullText mem).1 := by
  rw [parseLinesStores]
  cases strtok mem 0 [0x0d, 0x0a] with
  | none => exact hs
  | some token =>
      obtain _ | ⟨p, mem', next'⟩ := token
      · exact hs
      · simp only
        cases strstr mem' p headDelim with
        | none => exact hs
        | some blank =>
            cases blank with
            | none => exact hs
            | some q =>
                simp only
                cases copyLocation mem' emptyRequest.location.length (q + 1) [] with
                | none => simp [hs]
                | some copied => simp [andThen, hs]

/-- Otherwise some array and some memory behind it make the parser store a zero there. -/
theorem parseLinesStores_outside (hClosed : Closed data) (hSize : data.length < wsHandshakeMaxSize)
    (hNot : ¬ RequestStops data) :
    (.requestData, wsHandshakeMaxSize) ∈
      (parseLinesStores (some []) (data ++
        (List.replicate (wsHandshakeMaxSize - data.length) 0x61 ++
          0x0d :: List.replicate 64 0x61))).1 := by
  obtain hOut | ⟨seps, text, rfl, hSeps⟩ | ⟨seps, line, c, behind, hCut⟩ := hClosed.cases
  · apply cutStores_subset_lines
    have hToken := @strtokStores_token [] (List.replicate 64 0x61)
      (List.replicate (wsHandshakeMaxSize - data.length) 0x61) 0x0d lineDelim data hOut
      (by simp; omega) (fun x hx => by rw [List.eq_of_mem_replicate hx]; decide)
      (Or.inr (by decide))
    rw [List.length_replicate, if_neg (by decide), List.nil_append, List.append_assoc,
      List.length_nil] at hToken
    rw [cutStores, hToken, Nat.zero_add, Nat.add_sub_cancel' (by omega)]
    exact List.mem_singleton_self _
  · exact absurd (Or.inl (by simp)) hNot
  · obtain ⟨stores, pre', -, hLength, hTurn⟩ := parseLinesStores_line hCut (some [])
      (List.replicate (wsHandshakeMaxSize - data.length) 0x61 ++ 0x0d :: List.replicate 64 0x61)
    have hBoth := not_or.mp (hCut.requestStops_iff.not.mp hNot)
    have hShorter := hCut.shorter
    obtain ⟨hBlank, -⟩ | ⟨hShort, -⟩ | ⟨-, request', hRun⟩ := hTurn
    · exact absurd hBlank hBoth.1
    · rw [List.length_append, List.length_cons, List.length_replicate, List.length_replicate]
        at hShort
      omega
    · have hLater := @parseFieldsStores_outside (goOn c behind) pre' [] request'
        (data ++ (List.replicate (wsHandshakeMaxSize - data.length) 0x61 ++
          0x0d :: List.replicate 64 0x61)).length (wsHandshakeMaxSize - data.length)
        (hCut.goOn hClosed) hBoth.2 (by rw [List.length_append]; omega) (by omega)
        (List.replicate 64 0x61)
      rw [hLength, Nat.add_sub_cancel' (by omega)] at hLater
      rw [hRun]
      exact List.mem_append_right stores hLater

/-- A request that is too long is copied beyond the array before its size is looked at. -/
theorem overflow_not_inside (hSize : wsHandshakeMaxSize < data.length) : ¬ StaysInside data := by
  intro hStays
  obtain ⟨hInside, -⟩ := hStays none emptyRequest (List.replicate wsHandshakeMaxSize 0) []
    List.length_replicate
  have hIn : (ParseArray.requestData, wsHandshakeMaxSize) ∈
      (wsconnParseRequestStores none emptyRequest (List.replicate wsHandshakeMaxSize 0) []
        data).1 := by
    rw [wsconnParseRequestStores, if_pos (by omega)]
    exact List.mem_map.mpr ⟨wsHandshakeMaxSize, List.mem_range.mpr hSize, rfl⟩
  exact absurd (hInside _ hIn) (lt_irrefl _)

end

theorem closed_of_end {data : List UInt8} (hEnd : ascii "\r\n\r\n" <:+ data) : Closed data := by
  obtain ⟨front, rfl⟩ := hEnd
  exact Or.inr ⟨front ++ [0x0d, 0x0a, 0x0d], by simp [ascii]⟩

/-- A request that the parser does not stop at leads it behind the array. -/
theorem not_staysInside_of_runs {data : List UInt8} (hClosed : Closed data)
    (hSize : data.length < wsHandshakeMaxSize) (hRuns : ¬ RequestStops data) :
    ¬ StaysInside data := by
  intro hStays
  obtain ⟨hInside, -⟩ := hStays (some []) emptyRequest
    (List.replicate wsHandshakeMaxSize 0x61) (0x0d :: List.replicate 64 0x61)
    List.length_replicate
  have hIn : (ParseArray.requestData, wsHandshakeMaxSize) ∈
      (wsconnParseRequestStores (some []) emptyRequest
        (List.replicate wsHandshakeMaxSize 0x61) (0x0d :: List.replicate 64 0x61) data).1 := by
    rw [wsconnParseRequestStores, if_neg (by omega), parseMemory, List.drop_replicate,
      List.append_assoc data]
    exact List.mem_append_right _ (parseLinesStores_outside hClosed hSize hRuns)
  exact absurd (hInside _ hIn) (lt_irrefl _)

/-- A request that fills the array is copied and refused. -/
theorem staysInside_of_full {data : List UInt8} (hFull : data.length = 1024) :
    StaysInside data := by
  intro nullText request stack beyond _
  have hGe : data.length ≥ wsHandshakeMaxSize := hFull.ge
  rw [wsconnParseRequestStores, if_pos hGe]
  exact ⟨inside_firstBytes hFull.le, fun _ => rfl⟩

/-- A shorter request that the parser stops at is cleared, copied and parsed inside the arrays. -/
theorem staysInside_of_stops {data : List UInt8} (hClosed : Closed data)
    (hSize : data.length < wsHandshakeMaxSize) (hStops : RequestStops data) :
    StaysInside data := by
  intro nullText request stack beyond _
  have hCopied : Inside (firstBytes .requestData data.length) := inside_firstBytes hSize.le
  have hLess : ¬ data.length ≥ wsHandshakeMaxSize := Nat.not_le.mpr hSize
  rw [wsconnParseRequestStores, if_neg hLess]
  refine ⟨?_, fun hGe => absurd hGe hLess⟩
  rw [parseMemory, List.append_assoc data]
  exact ((hCopied.append hCopied).append inside_clearStores).append
    (parseLinesStores_inside hClosed hSize hStops _)

/-- A request that ends as requests do is stored inside the arrays, whatever they held before, if
and only if it fills the array, or is shorter and makes the parser stop. -/
theorem wsconnParseRequest_stores_iff {data : List UInt8} (hEnd : ascii "\r\n\r\n" <:+ data) :
    StaysInside data ↔ data.length = 1024 ∨ data.length < 1024 ∧ RequestStops data := by
  have hClosed := closed_of_end hEnd
  constructor
  · intro hStays
    by_contra hNot
    obtain ⟨hFull, hShort⟩ := not_or.mp hNot
    rcases Nat.lt_or_ge 1024 data.length with hLong | hLess
    · exact overflow_not_inside hLong hStays
    · have hSize : data.length < wsHandshakeMaxSize := Nat.lt_of_le_of_ne hLess hFull
      have hRuns : ¬ RequestStops data := fun hStops => hShort ⟨hSize, hStops⟩
      exact not_staysInside_of_runs hClosed hSize hRuns hStays
  · rintro (hFull | ⟨hSize, hStops⟩)
    · exact staysInside_of_full hFull
    · exact staysInside_of_stops hClosed hSize hStops

/-- A request with a header that is refused. -/
def refusedRequest : List UInt8 := ascii "GET / HTTP/1.1\r\nUpgrade: x\r\n\r\n"

theorem wsconnParseRequest_stores_refused : StaysInside refusedRequest :=
  (wsconnParseRequest_stores_iff (by decide +kernel)).mpr <| Or.inr ⟨by decide +kernel,
    Or.inr ⟨ascii "GET / HTTP/1.1", [ascii "Upgrade: x"], by decide +kernel,
      Or.inr ⟨ascii "Upgrade: x", List.mem_cons_self, by decide +kernel⟩⟩⟩

/-- A request of 1025 bytes. -/
def longRequest : List UInt8 := List.replicate 1021 0x61 ++ ascii "\r\n\r\n"

theorem wsconnParseRequest_stores_long : ¬ StaysInside longRequest := by
  apply overflow_not_inside
  rw [longRequest, List.length_append, List.length_replicate]
  decide +kernel

end Gbase.Net.Wsconn
