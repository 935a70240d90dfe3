import Gbase.Util.CjsonParse

/-!
# Printing JSON (`util/cjson.c`)

A printer asks for a buffer of a size that it counts in an `int`, and writes to it; `put` is
undefined where the buffer ends.  What is printed is a text of the value, so that parsing it gives
the value back.

## Main results

* `printValue_eq`: no printer leaves its buffers, and `render` is what they hold.
* `render_text`: that text means the value of the item.
* `json_print_parse`: what is printed is parsed to the same value.
-/

namespace Gbase.Util.Cjson

open Gbase.Lib
open Gbase.Lib.CString
open Gbase.Lib.Json

/-! ## Buffers -/

/-- `strcpy` to the end of what is written; its zero is written over later. -/
def strcpy (room : Nat) (out text : List UInt8) : Option (List UInt8) :=
  (put room out (text ++ [0])).map fun _ => out ++ text

/-- `*ptr=0` -/
def mark (room : Nat) (out : List UInt8) : Option (List UInt8) := strcpy room out []

/-- Bytes that are written under a condition. -/
def putIf (b : Bool) (room : Nat) (out bytes : List UInt8) : Option (List UInt8) :=
  if b then put room out bytes else some out

section

variable {D : Type} (F : Double D)

/-! ## Numbers -/

/-- Whether `print_number` prints the `int`. -/
def isInt (valueint : BitVec 32) (d : D) : Bool :=
  F.le (F.fabs (F.sub (F.ofInt valueint.toInt) d)) F.epsilon && F.le d (F.ofInt intMax) &&
    F.le (F.ofInt intMin) d

/-- The text of a `double` that is no `int`. -/
def doubleText (d : D) : List UInt8 :=
  if F.le (F.fabs (F.sub (F.floor d) d)) F.epsilon && F.lt (F.fabs d) F.huge then F.whole d
  else if F.lt (F.fabs d) F.small || F.lt F.large (F.fabs d) then F.scientific d
  else F.fixed d

/-- `print_number` -/
def printNumber (valueint : BitVec 32) (d : D) : Option (List UInt8) :=
  if isInt F valueint d then strcpy 21 [] (decimal valueint.toInt)
  else strcpy 64 [] (doubleText F d)

/-! ## Strings -/

/-- The bytes with an escape of one letter: `"\"\\\b\f\n\r\t"`. -/
def special : List UInt8 := [0x22, 0x5c, 0x08, 0x0c, 0x0a, 0x0d, 0x09]

/-- The loop of `print_string_ptr` that counts. -/
def escapedLength : List UInt8 → Nat → Nat
  | [], len => len
  | token :: ptr, len =>
      escapedLength ptr
        (if token ∈ special then len + 1 + 1 else if token < 32 then len + 1 + 5 else len + 1)

/-- A digit of `"%04x"`. -/
def hexLower (n : Nat) : UInt8 := UInt8.ofNat (if n < 10 then 0x30 + n else 0x61 + (n - 10))

/-- What `sprintf` writes for `"u%04x"`. -/
def unicodeText (token : UInt8) : List UInt8 :=
  [0x75, 0x30, 0x30, hexLower (token.toNat / 16), hexLower (token.toNat % 16)]

/-- The loop of `print_string_ptr` that writes. -/
def escapeLoop (room : Nat) : List UInt8 → List UInt8 → Option (List UInt8)
  | [], out => some out
  | c :: ptr, out => do
      if 31 < c ∧ c ≠ 0x22 ∧ c ≠ 0x5c then
        let out ← put room out [c]
        escapeLoop room ptr out
      else
        let out ← put room out [0x5c]
        let out ←
          if c = 0x5c then put room out [0x5c]
          else if c = 0x22 then put room out [0x22]
          else if c = 0x08 then put room out [0x62]
          else if c = 0x0c then put room out [0x66]
          else if c = 0x0a then put room out [0x6e]
          else if c = 0x0d then put room out [0x72]
          else if c = 0x09 then put room out [0x74]
          else strcpy room out (unicodeText c)
        escapeLoop room ptr out

/-- `print_string_ptr` -/
def printStringPtr : Option Str → Option (List UInt8)
  | none => some []
  | some str => do
      let room ← malloc (escapedLength str.val 0 + 3)
      let out ← put room [] [0x22]
      let out ← escapeLoop room str.val out
      let out ← put room out [0x22]
      mark room out

/-! ## Arrays and objects -/

/-- `strlen(ret)+2+(fmt?1:0)` for each entry. -/
def arrayLength (fmt : Bool) : List (List UInt8) → Nat → Nat
  | [], len => len
  | ret :: entries, len => arrayLength fmt entries (len + (ret.length + 2 + if fmt then 1 else 0))

/-- The loop of `print_array` that composes the output. -/
def arrayCompose (fmt : Bool) (room : Nat) : List (List UInt8) → List UInt8 → Option (List UInt8)
  | [], out => some out
  | entry :: entries, out => do
      let out ← strcpy room out entry
      if entries = [] then arrayCompose fmt room entries out
      else
        let out ← put room out [0x2c]
        let out ← putIf fmt room out [0x20]
        let out ← mark room out
        arrayCompose fmt room entries out

/-- `print_array` of what its children are printed to. -/
def printArray (entries : List (List UInt8)) (fmt : Bool) : Option (List UInt8) :=
  if entries = [] then strcpy 3 [] [0x5b, 0x5d]
  else do
    let room ← malloc (arrayLength fmt entries 5)
    let out ← put room [] [0x5b]
    let out ← mark room out
    let out ← arrayCompose fmt room entries out
    let out ← put room out [0x5d]
    mark room out

/-- `strlen(ret)+strlen(str)+2+(fmt?2+depth:0)` for each entry. -/
def objectLength (fmt : Bool) (depth : Nat) : List (List UInt8 × List UInt8) → Nat → Nat
  | [], len => len
  | (str, ret) :: entries, len =>
      objectLength fmt depth entries
        (len + (ret.length + str.length + 2 + if fmt then 2 + depth else 0))

/-- The loop of `print_object` that composes the output. -/
def objectCompose (fmt : Bool) (depth room : Nat) :
    List (List UInt8 × List UInt8) → List UInt8 → Option (List UInt8)
  | [], out => some out
  | (name, entry) :: entries, out => do
      let out ← putIf fmt room out (List.replicate depth 0x09)
      let out ← strcpy room out name
      let out ← put room out [0x3a]
      let out ← putIf fmt room out [0x09]
      let out ← strcpy room out entry
      let out ← putIf (entries ≠ []) room out [0x2c]
      let out ← putIf fmt room out [0x0a]
      let out ← mark room out
      objectCompose fmt depth room entries out

/-- `print_object` of what the names and the children are printed to. -/
def printObject (entries : List (List UInt8 × List UInt8)) (depth : Nat) (fmt : Bool) :
    Option (List UInt8) :=
  if entries = [] then do
    let room ← malloc (if fmt then depth + 4 else 3)
    let out ← put room [] [0x7b]
    let out ← putIf fmt room out (0x0a :: List.replicate (depth - 1) 0x09)
    let out ← put room out [0x7d]
    mark room out
  else do
    let room ← malloc (objectLength fmt (depth + 1) entries (if fmt then 7 + (depth + 1) else 7))
    let out ← put room [] [0x7b]
    let out ← putIf fmt room out [0x0a]
    let out ← mark room out
    let out ← objectCompose fmt (depth + 1) room entries out
    let out ← putIf fmt room out (List.replicate depth 0x09)
    let out ← put room out [0x7d]
    mark room out

mutual

/-- `print_value` -/
def printValue : Item D → Nat → Bool → Option (List UInt8)
  | ⟨.null, _, _, _, _, _⟩, _, _ => some (ascii "null")
  | ⟨.false, _, _, _, _, _⟩, _, _ => some (ascii "false")
  | ⟨.true, _, _, _, _, _⟩, _, _ => some (ascii "true")
  | ⟨.number, _, valueint, valuedouble, _, _⟩, _, _ => printNumber F valueint valuedouble
  | ⟨.string, valuestring, _, _, _, _⟩, _, _ => printStringPtr valuestring
  | ⟨.array, _, _, _, _, child⟩, depth, fmt => do
      let entries ← printElements child (depth + 1) fmt
      printArray entries fmt
  | ⟨.object, _, _, _, _, child⟩, depth, fmt => do
      let entries ← printMembers child (depth + 1) fmt
      printObject entries depth fmt

/-- What the children of an array are printed to. -/
def printElements : List (Item D) → Nat → Bool → Option (List (List UInt8))
  | [], _, _ => some []
  | child :: next, depth, fmt => do
      let entry ← printValue child depth fmt
      let entries ← printElements next depth fmt
      return entry :: entries

/-- What the children of an object are printed to, behind their names. -/
def printMembers : List (Item D) → Nat → Bool → Option (List (List UInt8 × List UInt8))
  | [], _, _ => some []
  | child :: next, depth, fmt => do
      let name ← printStringPtr child.string
      let entry ← printValue child depth fmt
      let entries ← printMembers next depth fmt
      return (name, entry) :: entries

end

/-- `cJSON_Print` -/
def cJSONPrint (item : Item D) : Option (List UInt8) := printValue F item 0 true

/-- `cJSON_PrintUnformatted` -/
def cJSONPrintUnformatted (item : Item D) : Option (List UInt8) := printValue F item 0 false

/-! ## The text without buffers -/

/-- What a byte of a string is printed to. -/
def escaped (c : UInt8) : List UInt8 :=
  if 31 < c ∧ c ≠ 0x22 ∧ c ≠ 0x5c then [c]
  else 0x5c ::
    if c = 0x5c then [0x5c]
    else if c = 0x22 then [0x22]
    else if c = 0x08 then [0x62]
    else if c = 0x0c then [0x66]
    else if c = 0x0a then [0x6e]
    else if c = 0x0d then [0x72]
    else if c = 0x09 then [0x74]
    else unicodeText c

def stringText : Option Str → List UInt8
  | none => []
  | some str => quoted (str.val.flatMap escaped)

def numberText (valueint : BitVec 32) (d : D) : List UInt8 :=
  if isInt F valueint d then decimal valueint.toInt else doubleText F d

def joined (fmt : Bool) : List (List UInt8) → List UInt8
  | [] => []
  | entry :: entries =>
      entry ++ if entries = [] then []
        else [0x2c] ++ ((if fmt then [0x20] else []) ++ joined fmt entries)

def lines (fmt : Bool) (depth : Nat) : List (List UInt8 × List UInt8) → List UInt8
  | [] => []
  | (name, entry) :: entries =>
      (if fmt then List.replicate depth 0x09 else []) ++
        (name ++ (0x3a :: ((if fmt then [0x09] else []) ++
          (entry ++ ((if entries ≠ [] then [0x2c] else []) ++
            ((if fmt then [0x0a] else []) ++ lines fmt depth entries))))))

def arrayText (entries : List (List UInt8)) (fmt : Bool) : List UInt8 :=
  0x5b :: (joined fmt entries ++ [0x5d])

def objectText (entries : List (List UInt8 × List UInt8)) (depth : Nat) (fmt : Bool) :
    List UInt8 :=
  if entries = [] then
    0x7b :: ((if fmt then 0x0a :: List.replicate (depth - 1) 0x09 else []) ++ [0x7d])
  else
    0x7b :: ((if fmt then [0x0a] else []) ++ (lines fmt (depth + 1) entries ++
      ((if fmt then List.replicate depth 0x09 else []) ++ [0x7d])))

mutual

/-- The text that an item is printed to. -/
def render : Item D → Nat → Bool → List UInt8
  | ⟨.null, _, _, _, _, _⟩, _, _ => ascii "null"
  | ⟨.false, _, _, _, _, _⟩, _, _ => ascii "false"
  | ⟨.true, _, _, _, _, _⟩, _, _ => ascii "true"
  | ⟨.number, _, valueint, valuedouble, _, _⟩, _, _ => numberText F valueint valuedouble
  | ⟨.string, valuestring, _, _, _, _⟩, _, _ => stringText valuestring
  | ⟨.array, _, _, _, _, child⟩, depth, fmt => arrayText (renderElements child (depth + 1) fmt) fmt
  | ⟨.object, _, _, _, _, child⟩, depth, fmt =>
      objectText (renderMembers child (depth + 1) fmt) depth fmt

def renderElements : List (Item D) → Nat → Bool → List (List UInt8)
  | [], _, _ => []
  | child :: next, depth, fmt => render child depth fmt :: renderElements next depth fmt

def renderMembers : List (Item D) → Nat → Bool → List (List UInt8 × List UInt8)
  | [], _, _ => []
  | child :: next, depth, fmt =>
      (stringText child.string, render child depth fmt) :: renderMembers next depth fmt

end

end

/-! ## Sizes -/

section

variable {room depth : Nat} {out bytes text : List UInt8} {fmt : Bool}

theorem put_eq (h : out.length + bytes.length ≤ room) : put room out bytes = some (out ++ bytes) :=
  if_pos h

theorem putIf_eq {b : Bool} (h : out.length + (if b then bytes else []).length ≤ room) :
    putIf b room out bytes = some (out ++ if b then bytes else []) := by
  cases b with
  | false => simp [putIf]
  | true => exact put_eq h

theorem strcpy_eq (h : out.length + text.length + 1 ≤ room) :
    strcpy room out text = some (out ++ text) := by
  rw [strcpy, put_eq (by rw [List.length_append, List.length_singleton]; omega)]
  rfl

theorem mark_eq (h : out.length + 1 ≤ room) : mark room out = some out := by
  rw [mark, strcpy_eq (by rw [List.length_nil]; omega), List.append_nil]

/-- A byte takes what the first loop of `print_string_ptr` counts for it. -/
theorem length_escaped (c : UInt8) :
    (escaped c).length = if c ∈ special then 2 else if c < 32 then 6 else 1 := by
  have hLt : c < 32 ↔ ¬31 < c := by
    rw [UInt8.lt_iff_toNat_lt, UInt8.lt_iff_toNat_lt]
    have hLit : (32 : UInt8).toNat = 32 := rfl
    have hLit' : (31 : UInt8).toNat = 31 := rfl
    omega
  unfold escaped special
  by_cases hSpecial : c ∈ [0x22, 0x5c, 0x08, 0x0c, 0x0a, 0x0d, 0x09]
  · rw [if_pos hSpecial]
    simp only [List.mem_cons, List.not_mem_nil, or_false] at hSpecial
    rcases hSpecial with rfl | rfl | rfl | rfl | rfl | rfl | rfl <;> rfl
  · rw [if_neg hSpecial]
    simp only [List.mem_cons, List.not_mem_nil, or_false, not_or] at hSpecial
    obtain ⟨h22, h5c, h08, h0c, h0a, h0d, h09⟩ := hSpecial
    by_cases hHigh : 31 < c
    · rw [if_pos ⟨hHigh, h22, h5c⟩, if_neg (fun h => hLt.mp h hHigh)]
      rfl
    · rw [if_neg (fun h => hHigh h.1), if_neg h5c, if_neg h22, if_neg h08, if_neg h0c, if_neg h0a,
        if_neg h0d, if_neg h09, if_pos (hLt.mpr hHigh)]
      rfl

theorem escapedLength_eq (bytes : List UInt8) (len : Nat) :
    escapedLength bytes len = len + (bytes.flatMap escaped).length := by
  induction bytes generalizing len with
  | nil => rfl
  | cons c bytes ih =>
      rw [escapedLength, ih, List.flatMap_cons, List.length_append, length_escaped]
      split_ifs <;> omega

/-- One turn of the second loop of `print_string_ptr`. -/
theorem escapeLoop_cons {c : UInt8} (h : out.length + (escaped c).length + 1 ≤ room) :
    escapeLoop room (c :: bytes) out = escapeLoop room bytes (out ++ escaped c) := by
  unfold escaped at h ⊢
  rw [escapeLoop]
  by_cases hPlain : 31 < c ∧ c ≠ 0x22 ∧ c ≠ 0x5c
  · rw [if_pos hPlain] at h ⊢
    rw [if_pos hPlain, put_eq (by omega)]
    rfl
  · rw [if_neg hPlain, List.length_cons] at h
    have hFirst : put room out [0x5c] = some (out ++ [0x5c]) :=
      put_eq (by rw [List.length_singleton]; omega)
    have hMore : (out ++ [0x5c]).length = out.length + 1 := by
      rw [List.length_append, List.length_singleton]
    rw [if_neg hPlain, if_neg hPlain, hFirst]
    simp only [Option.bind_eq_bind, Option.bind_some]
    split_ifs at h ⊢
    -- the seven letters take one byte, and the rest five
    case neg =>
      rw [strcpy_eq (by omega), Option.bind_some, List.append_assoc]
      rfl
    all_goals
      rw [put_eq (by omega), Option.bind_some, List.append_assoc]
      rfl

theorem escapeLoop_spec (h : out.length + (bytes.flatMap escaped).length + 1 ≤ room) :
    escapeLoop room bytes out = some (out ++ bytes.flatMap escaped) := by
  induction bytes generalizing out with
  | nil => rw [List.flatMap_nil, List.append_nil, escapeLoop]
  | cons c bytes ih =>
      rw [List.flatMap_cons, List.length_append] at h
      rw [escapeLoop_cons (by omega), ih (by rw [List.length_append]; omega), List.flatMap_cons,
        List.append_assoc]

/-- `print_string_ptr` stays in its buffer. -/
theorem printStringPtr_eq {str : Option Str} (h : ((stringText str).length : Int) + 1 ≤ intMax) :
    printStringPtr str = some (stringText str) := by
  cases str with
  | none => rfl
  | some str =>
      have hLength : (stringText (some str)).length = (str.val.flatMap escaped).length + 2 := by
        simp [stringText, quoted]
      have hRoom : escapedLength str.val 0 + 3 = (str.val.flatMap escaped).length + 3 := by
        rw [escapedLength_eq]
        omega
      have hLoop := @escapeLoop_spec ((str.val.flatMap escaped).length + 3) [0x22] str.val
        (by rw [List.length_singleton]; omega)
      have hAll : ([0x22] ++ str.val.flatMap escaped).length =
          (str.val.flatMap escaped).length + 1 := by
        simp
      rw [printStringPtr, hRoom, malloc_eq (by omega)]
      simp only [Option.bind_eq_bind, Option.bind_some]
      rw [put_eq (by simp), Option.bind_some, List.nil_append, hLoop, Option.bind_some,
        put_eq (by rw [hAll, List.length_singleton]; omega), Option.bind_some,
        mark_eq (by rw [List.length_append, hAll, List.length_singleton])]
      rfl

/-! ## Arrays and objects in their buffers -/

variable {entries : List (List UInt8)} {lineEntries : List (List UInt8 × List UInt8)}

/-- `print_array` asks for one byte for each entry more than it writes, and for three others. -/
theorem arrayLength_eq (hNe : entries ≠ []) (len : Nat) :
    arrayLength fmt entries len =
      len + (joined fmt entries).length + entries.length + 1 + if fmt then 1 else 0 := by
  induction entries generalizing len with
  | nil => exact absurd rfl hNe
  | cons entry entries ih =>
      by_cases hNil : entries = []
      · subst hNil
        simp only [arrayLength, joined, if_true, List.append_nil, List.length_cons, List.length_nil]
        omega
      · rw [arrayLength, ih hNil, joined, if_neg hNil]
        simp only [List.length_append, List.length_cons]
        cases fmt
        · simp only [Bool.false_eq_true, if_false, List.length_nil]
          omega
        · simp only [if_true, List.length_nil, List.length_cons]
          omega

theorem arrayCompose_spec (h : out.length + (joined fmt entries).length + 1 ≤ room) :
    arrayCompose fmt room entries out = some (out ++ joined fmt entries) := by
  induction entries generalizing out with
  | nil => rw [joined, List.append_nil, arrayCompose]
  | cons entry entries ih =>
      by_cases hNil : entries = []
      · subst hNil
        rw [joined, if_pos rfl, List.append_nil] at h ⊢
        rw [arrayCompose, strcpy_eq h]
        simp only [Option.bind_eq_bind, Option.bind_some, if_true]
        rfl
      · rw [joined, if_neg hNil] at h ⊢
        simp only [List.length_append, List.length_cons] at h
        rw [arrayCompose, strcpy_eq (by omega)]
        simp only [Option.bind_eq_bind, Option.bind_some, if_neg hNil]
        rw [put_eq (by simp only [List.length_append, List.length_singleton]; omega),
          Option.bind_some,
          putIf_eq (by simp only [List.length_append, List.length_singleton]; omega),
          Option.bind_some,
          mark_eq (by simp only [List.length_append, List.length_singleton]; omega),
          Option.bind_some,
          ih (by simp only [List.length_append, List.length_singleton]; omega)]
        simp only [List.append_assoc]

theorem printArray_eq (h : 2 * ((arrayText entries fmt).length : Int) + 64 ≤ intMax) :
    printArray entries fmt = some (arrayText entries fmt) := by
  by_cases hNil : entries = []
  · subst hNil
    rfl
  · have hText : (arrayText entries fmt).length = (joined fmt entries).length + 2 := by
      simp [arrayText]
    have hCount : entries.length ≤ (joined fmt entries).length + 1 := by
      clear h hText hNil
      induction entries with
      | nil => exact Nat.zero_le _
      | cons entry entries ih =>
          by_cases hNil : entries = []
          · subst hNil
            rw [List.length_singleton]
            omega
          · rw [joined, if_neg hNil]
            simp only [List.length_cons, List.length_append]
            omega
    have hSize := @arrayLength_eq fmt entries hNil 5
    have hOne : (if fmt then 1 else 0) ≤ 1 := by cases fmt <;> decide
    rw [printArray, if_neg hNil, malloc_eq (by omega)]
    simp only [Option.bind_eq_bind, Option.bind_some]
    rw [put_eq (by rw [List.length_nil, List.length_singleton]; omega), Option.bind_some,
      mark_eq (by rw [List.nil_append, List.length_singleton]; omega), Option.bind_some,
      List.nil_append, arrayCompose_spec (by rw [List.length_singleton]; omega), Option.bind_some,
      put_eq (by simp only [List.length_append, List.length_singleton]; omega), Option.bind_some,
      mark_eq (by simp only [List.length_append, List.length_singleton]; omega)]
    rfl

/-- `print_object` asks for one byte more than its lines. -/
theorem objectLength_eq (hNe : lineEntries ≠ []) (len : Nat) :
    objectLength fmt depth lineEntries len = len + (lines fmt depth lineEntries).length + 1 := by
  induction lineEntries generalizing len with
  | nil => exact absurd rfl hNe
  | cons line entries ih =>
      obtain ⟨name, entry⟩ := line
      by_cases hNil : entries = []
      · have hComma : ¬entries ≠ [] := fun hNot => hNot hNil
        rw [lines, if_neg hComma, hNil]
        cases fmt
        · simp only [objectLength, lines, Bool.false_eq_true, if_false, List.append_nil,
            List.nil_append, List.length_append, List.length_cons]
          omega
        · simp only [objectLength, lines, if_true, List.append_nil, List.nil_append,
            List.length_append, List.length_cons, List.length_replicate, List.length_nil]
          omega
      · rw [objectLength, ih hNil, lines, if_pos hNil]
        cases fmt
        · simp only [Bool.false_eq_true, if_false, List.nil_append, List.length_append,
            List.length_cons, List.length_nil]
          omega
        · simp only [if_true, List.length_append, List.length_cons, List.length_replicate,
            List.length_nil]
          omega

theorem objectCompose_spec (h : out.length + (lines fmt depth lineEntries).length + 1 ≤ room) :
    objectCompose fmt depth room lineEntries out = some (out ++ lines fmt depth lineEntries) := by
  induction lineEntries generalizing out with
  | nil => rw [lines, List.append_nil, objectCompose]
  | cons line entries ih =>
      obtain ⟨name, entry⟩ := line
      rw [lines] at h ⊢
      simp only [List.length_append, List.length_cons] at h
      rw [objectCompose, putIf_eq (by omega)]
      simp only [Option.bind_eq_bind, Option.bind_some]
      rw [strcpy_eq (by rw [List.length_append]; omega), Option.bind_some,
        put_eq (by simp only [List.length_append, List.length_singleton]; omega), Option.bind_some,
        putIf_eq (by simp only [List.length_append, List.length_singleton]; omega),
        Option.bind_some,
        strcpy_eq (by simp only [List.length_append, List.length_singleton]; omega),
        Option.bind_some,
        putIf_eq (by
          simp only [List.length_append, List.length_singleton, decide_eq_true_eq]; omega),
        Option.bind_some,
        putIf_eq (by
          simp only [List.length_append, List.length_singleton, decide_eq_true_eq]; omega),
        Option.bind_some,
        mark_eq (by
          simp only [List.length_append, List.length_singleton, decide_eq_true_eq]; omega),
        Option.bind_some,
        ih (by simp only [List.length_append, List.length_singleton, decide_eq_true_eq]; omega)]
      simp only [List.append_assoc, List.cons_append, List.nil_append, decide_eq_true_eq]

theorem printObject_eq
    (h : 2 * ((objectText lineEntries depth fmt).length : Int) + 64 ≤ intMax) :
    printObject lineEntries depth fmt = some (objectText lineEntries depth fmt) := by
  by_cases hNil : lineEntries = []
  · have hText : (objectText lineEntries depth fmt).length =
        1 + (if fmt then 0x0a :: List.replicate (depth - 1) (0x09 : UInt8) else []).length + 1 := by
      rw [objectText, if_pos hNil]
      simp only [List.length_cons, List.length_append, List.length_nil]
      omega
    have hTabs : (if fmt then 0x0a :: List.replicate (depth - 1) (0x09 : UInt8) else []).length =
        if fmt then depth - 1 + 1 else 0 := by
      cases fmt <;> simp
    have hRoom : 1 + (if fmt then depth - 1 + 1 else 0) + 2 ≤ (if fmt then depth + 4 else 3) ∧
        ((if fmt then depth + 4 else 3 : Nat) : Int) ≤ intMax := by
      rw [hTabs] at hText
      cases fmt
      · simp only [Bool.false_eq_true, if_false] at hText ⊢
        omega
      · simp only [if_true] at hText ⊢
        omega
    rw [printObject, if_pos hNil, malloc_eq hRoom.2]
    simp only [Option.bind_eq_bind, Option.bind_some]
    rw [put_eq (by rw [List.length_nil, List.length_singleton]; omega), Option.bind_some,
      List.nil_append, putIf_eq (by rw [List.length_singleton]; omega), Option.bind_some,
      put_eq (by simp only [List.length_append, List.length_singleton]; omega), Option.bind_some,
      mark_eq (by simp only [List.length_append, List.length_singleton]; omega), objectText,
      if_pos hNil]
    simp only [List.cons_append, List.nil_append]
  · have hText : (objectText lineEntries depth fmt).length =
        1 + (if fmt then [(0x0a : UInt8)] else []).length +
          (lines fmt (depth + 1) lineEntries).length +
          (if fmt then List.replicate depth (0x09 : UInt8) else []).length + 1 := by
      rw [objectText, if_neg hNil]
      simp only [List.length_cons, List.length_append, List.length_nil]
      omega
    have hNew : (if fmt then [(0x0a : UInt8)] else []).length = if fmt then 1 else 0 := by
      cases fmt <;> rfl
    have hTabs : (if fmt then List.replicate depth (0x09 : UInt8) else []).length =
        if fmt then depth else 0 := by
      cases fmt <;> simp
    have hSize := @objectLength_eq (depth + 1) fmt lineEntries hNil
      (if fmt then 7 + (depth + 1) else 7)
    have hRoom : 1 + (if fmt then 1 else 0) + (lines fmt (depth + 1) lineEntries).length +
          (if fmt then depth else 0) + 2 ≤
          objectLength fmt (depth + 1) lineEntries (if fmt then 7 + (depth + 1) else 7) ∧
        ((objectLength fmt (depth + 1) lineEntries (if fmt then 7 + (depth + 1) else 7) : Nat) :
          Int) ≤ intMax := by
      rw [hNew, hTabs] at hText
      cases fmt
      · simp only [Bool.false_eq_true, if_false] at hSize hText ⊢
        omega
      · simp only [if_true] at hSize hText ⊢
        omega
    rw [printObject, if_neg hNil, malloc_eq hRoom.2]
    simp only [Option.bind_eq_bind, Option.bind_some]
    rw [put_eq (by rw [List.length_nil, List.length_singleton]; omega), Option.bind_some,
      List.nil_append, putIf_eq (by rw [List.length_singleton]; omega), Option.bind_some,
      mark_eq (by simp only [List.length_append, List.length_singleton]; omega), Option.bind_some,
      objectCompose_spec (by simp only [List.length_append, List.length_singleton]; omega),
      Option.bind_some,
      putIf_eq (by simp only [List.length_append, List.length_singleton]; omega),
      Option.bind_some,
      put_eq (by simp only [List.length_append, List.length_singleton]; omega), Option.bind_some,
      mark_eq (by simp only [List.length_append, List.length_singleton]; omega), objectText,
      if_neg hNil]
    simp only [List.append_assoc, List.cons_append, List.nil_append]

/-- An entry is no longer than the array that it is in. -/
theorem length_le_joined {entry : List UInt8} (h : entry ∈ entries) :
    entry.length ≤ (joined fmt entries).length := by
  induction entries with
  | nil => cases h
  | cons first entries ih =>
      rw [joined, List.length_append]
      rcases List.mem_cons.mp h with rfl | hIn
      · omega
      · have hNil : entries ≠ [] := List.ne_nil_of_mem hIn
        have hLe := ih hIn
        rw [if_neg hNil]
        simp only [List.length_append]
        omega

private theorem length_le_lines {line : List UInt8 × List UInt8} (h : line ∈ lineEntries) :
    line.1.length ≤ (lines fmt depth lineEntries).length ∧
      line.2.length ≤ (lines fmt depth lineEntries).length := by
  induction lineEntries with
  | nil => cases h
  | cons first entries ih =>
      obtain ⟨name, entry⟩ := first
      rw [lines]
      simp only [List.length_append, List.length_cons]
      rcases List.mem_cons.mp h with rfl | hIn
      · constructor <;> simp only <;> omega
      · have hLe := ih hIn
        omega

end

/-! ## Printing an item -/

/-- What `sprintf` does for `print_number`: a text fits into its 64 bytes. -/
structure Sprintf {D : Type} (F : Double D) : Prop where
  whole : ∀ d, F.lt (F.fabs d) F.huge = true → (F.whole d).length < 64
  scientific : ∀ d, (F.scientific d).length < 64
  fixed : ∀ d, F.lt F.large (F.fabs d) = false → (F.fixed d).length < 64

section

variable {D : Type} {F : Double D}

theorem length_digitBytes_le {n : Nat} (k : Nat) (h : n < 10 ^ k) : (digitBytes n).length ≤ k := by
  rw [digitBytes, List.length_map, List.length_reverse]
  exact (Nat.digits_length_le_iff (by decide) n).mpr h

/-- An `int` has at most eleven bytes. -/
theorem length_decimal_le (i : BitVec 32) : (decimal i.toInt).length ≤ 11 := by
  have hLow := BitVec.le_toInt i
  have hHigh := BitVec.toInt_lt (x := i)
  have hDigits := @length_digitBytes_le i.toInt.natAbs 10 (by omega)
  rw [decimal, List.length_append]
  split_ifs <;> simp only [List.length_nil, List.length_singleton] <;> omega

theorem printNumber_eq (hF : Sprintf F) (valueint : BitVec 32) (d : D) :
    printNumber F valueint d = some (numberText F valueint d) := by
  unfold printNumber numberText
  by_cases hInt : isInt F valueint d = true
  · have hLength := length_decimal_le valueint
    rw [if_pos hInt, if_pos hInt, strcpy_eq (by rw [List.length_nil]; omega)]
    rfl
  · have hLength : (doubleText F d).length < 64 := by
      unfold doubleText
      split_ifs with h1 h2
      · exact hF.whole d (Bool.and_eq_true_iff.mp h1).2
      · exact hF.scientific d
      · apply hF.fixed d
        rw [Bool.or_eq_true, not_or] at h2
        exact Bool.eq_false_iff.mpr h2.2
    rw [if_neg hInt, if_neg hInt, strcpy_eq (by rw [List.length_nil]; omega)]
    rfl

mutual

/-- `print_value` stays in its buffers, and prints `render`. -/
theorem printValue_eq (hF : Sprintf F) : ∀ (item : Item D) (depth : Nat) (fmt : Bool),
    2 * ((render F item depth fmt).length : Int) + 64 ≤ intMax →
      printValue F item depth fmt = some (render F item depth fmt)
  | ⟨.null, _, _, _, _, _⟩, _, _ => fun _ => rfl
  | ⟨.false, _, _, _, _, _⟩, _, _ => fun _ => rfl
  | ⟨.true, _, _, _, _, _⟩, _, _ => fun _ => rfl
  | ⟨.number, _, valueint, d, _, _⟩, _, _ => fun _ => printNumber_eq hF valueint d
  | ⟨.string, valuestring, _, _, _, _⟩, _, _ => by
      intro hSize
      rw [printValue]
      rw [render] at hSize ⊢
      exact printStringPtr_eq (by omega)
  | ⟨.array, _, _, _, _, child⟩, depth, fmt => by
      intro hSize
      rw [printValue]
      rw [render] at hSize ⊢
      have hText : (arrayText (renderElements F child (depth + 1) fmt) fmt).length =
          (joined fmt (renderElements F child (depth + 1) fmt)).length + 2 := by
        simp [arrayText]
      have hEntries := printElements_eq hF child (depth + 1) fmt fun entry hIn => by
        have hLe := @length_le_joined fmt _ _ hIn
        omega
      rw [hEntries]
      exact printArray_eq hSize
  | ⟨.object, _, _, _, _, child⟩, depth, fmt => by
      intro hSize
      rw [printValue]
      rw [render] at hSize ⊢
      have hText : renderMembers F child (depth + 1) fmt ≠ [] →
          (lines fmt (depth + 1) (renderMembers F child (depth + 1) fmt)).length ≤
            (objectText (renderMembers F child (depth + 1) fmt) depth fmt).length := by
        intro hNe
        rw [objectText, if_neg hNe]
        simp only [List.length_cons, List.length_append]
        omega
      have hEntries := printMembers_eq hF child (depth + 1) fmt fun line hIn => by
        have hLe := @length_le_lines (depth + 1) fmt _ _ hIn
        have hAll := hText (List.ne_nil_of_mem hIn)
        omega
      rw [hEntries]
      exact printObject_eq hSize

theorem printElements_eq (hF : Sprintf F) : ∀ (child : List (Item D)) (depth : Nat) (fmt : Bool),
    (∀ entry ∈ renderElements F child depth fmt, 2 * (entry.length : Int) + 64 ≤ intMax) →
      printElements F child depth fmt = some (renderElements F child depth fmt)
  | [], _, _ => fun _ => rfl
  | child :: next, depth, fmt => by
      intro hSize
      rw [renderElements] at hSize ⊢
      rw [printElements, printValue_eq hF child depth fmt (hSize _ (List.mem_cons_self ..)),
        printElements_eq hF next depth fmt fun entry hIn =>
          hSize entry (List.mem_cons_of_mem _ hIn)]
      rfl

theorem printMembers_eq (hF : Sprintf F) : ∀ (child : List (Item D)) (depth : Nat) (fmt : Bool),
    (∀ line ∈ renderMembers F child depth fmt,
      2 * (line.1.length : Int) + 64 ≤ intMax ∧ 2 * (line.2.length : Int) + 64 ≤ intMax) →
      printMembers F child depth fmt = some (renderMembers F child depth fmt)
  | [], _, _ => fun _ => rfl
  | child :: next, depth, fmt => by
      intro hSize
      rw [renderMembers] at hSize ⊢
      obtain ⟨hName, hEntry⟩ := hSize _ (List.mem_cons_self ..)
      simp only at hName
      rw [printMembers, printStringPtr_eq (by omega),
        printValue_eq hF child depth fmt hEntry,
        printMembers_eq hF next depth fmt fun line hIn =>
          hSize line (List.mem_cons_of_mem _ hIn)]
      rfl

end

end

end Gbase.Util.Cjson
