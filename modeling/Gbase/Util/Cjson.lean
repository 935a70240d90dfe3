import Gbase.Lib.Json

/-!
# Parsing JSON (`util/cjson.c`)

A position in a text is what lies from there to the end of its memory, and reading behind that end
or writing behind a buffer is undefined.  An item holds the chain of its children as a list.  The
arithmetic of `double` is a parameter, and memory is always there.

The printer has two passes, one that asks for room and one that writes, and the parser recurs
through arrays and objects.  Both are written as the source has them, with fuel where a loop or a
recursion is not structural.
-/

namespace Gbase.Util.Cjson

open Gbase.Lib.CString
open Gbase.Lib.Json

/-- The bytes of a string up to its zero. -/
abbrev Str := { bytes : List UInt8 // ∀ c ∈ bytes, c ≠ 0 }

/-- The string that starts in a buffer. -/
def Str.of (out : List UInt8) : Str :=
  ⟨out.takeWhile (· ≠ 0), fun c hc => by simpa using List.mem_takeWhile_imp hc⟩

/-- The types of items. -/
inductive Kind where
  | false
  | true
  | null
  | number
  | string
  | array
  | object
  deriving DecidableEq

/-- `cJSON`; `child` is the chain that starts at the pointer of this name. -/
structure Item (D : Type) where
  type : Kind
  valuestring : Option Str
  valueint : BitVec 32
  valuedouble : D
  string : Option Str
  child : List (Item D)

/-- The operations of `double` that the code uses, and the casts from and to `int`. -/
structure Double (D : Type) where
  ofInt : Int → D
  toInt : D → BitVec 32
  add : D → D → D
  sub : D → D → D
  mul : D → D → D
  pow : D → D → D
  fabs : D → D
  floor : D → D
  le : D → D → Bool
  lt : D → D → Bool
  /-- `DBL_EPSILON`, `1.0e60`, `1.0e-6` and `1.0e9` -/
  epsilon : D
  huge : D
  small : D
  large : D
  /-- `sprintf` with `"%.0f"`, `"%e"` and `"%f"` -/
  whole : D → List UInt8
  scientific : D → List UInt8
  fixed : D → List UInt8

def intMax : Int := 2147483647
def intMin : Int := -2147483648

/-- `cJSON_New_Item` -/
def newItem {D : Type} (F : Double D) : Item D where
  type := .false
  valuestring := none
  valueint := 0
  valuedouble := F.ofInt 0
  string := none
  child := []

/-! ## How a parser ends -/

/-- What becomes of a call: it returns, it returns null and leaves `ep`, or it is undefined. -/
inductive Outcome (α : Type) where
  | done (a : α)
  | failed (ep : List UInt8)
  | undefined

namespace Outcome

variable {α β : Type}

/-- What is not there is undefined. -/
def ofOption : Option α → Outcome α
  | some a => done a
  | none => undefined

instance : Monad Outcome where
  pure := done
  bind x f :=
    match x with
    | done a => f a
    | failed ep => failed ep
    | undefined => undefined

instance : MonadLift Option Outcome := ⟨ofOption⟩

@[simp] theorem done_bind (a : α) (f : α → Outcome β) : (done a >>= f) = f a := by rfl

@[simp] theorem failed_bind (ep : List UInt8) (f : α → Outcome β) :
    (failed ep >>= f) = failed ep := by rfl

@[simp] theorem undefined_bind (f : α → Outcome β) : (undefined >>= f) = undefined := by rfl

@[simp] theorem pure_eq (a : α) : (pure a : Outcome α) = done a := by rfl

@[simp] theorem liftM_some (a : α) : (liftM (some a) : Outcome α) = done a := by rfl

@[simp] theorem liftM_none : (liftM (none : Option α) : Outcome α) = undefined := by rfl

end Outcome

/-! ## Numbers -/

section

variable {D : Type} (F : Double D)

/-- `if (*num==c) num++;` -/
def accept (c : UInt8) : List UInt8 → Option (Bool × List UInt8)
  | [] => none
  | x :: num => some (if x = c then (true, num) else (false, x :: num))

/-- The digits from a position on, and the position behind them. -/
def scanDigits : List UInt8 → Option (List UInt8 × List UInt8)
  | [] => none
  | c :: num =>
      if isdigit c then (scanDigits num).map fun (digits, num) => (c :: digits, num)
      else some ([], c :: num)

/-- The digits before the point, but for a first zero. -/
def scanWhole (num : List UInt8) : Option (List UInt8 × List UInt8) := do
  let c ← num.head?
  if 0x31 ≤ c ∧ c ≤ 0x39 then scanDigits num else return ([], num)

/-- The digits behind the point, if a digit follows it. -/
def scanFraction : List UInt8 → Option (List UInt8 × List UInt8)
  | [] => none
  | c :: num =>
      if c = 0x2e then do
        let first ← num.head?
        if isdigit first then scanDigits num else return ([], c :: num)
      else some ([], c :: num)

/-- `subscale=(subscale*10)+(*num++ - '0')` for each digit. -/
def subscaleLoop : Int → List UInt8 → Option Int
  | subscale, [] => some subscale
  | subscale, c :: digits =>
      let next := subscale * 10 + (c.toNat - 0x30)
      if next ≤ intMax then subscaleLoop next digits else none

/-- `subscale*signsubscale` -/
def scanExponent : List UInt8 → Option (Int × List UInt8)
  | [] => none
  | c :: num =>
      if c = 0x65 ∨ c = 0x45 then do
        let (plus, num) ← accept 0x2b num
        let (minus, num) ← if plus then some (false, num) else accept 0x2d num
        let (digits, num) ← scanDigits num
        let subscale ← subscaleLoop 0 digits
        return (if minus then -subscale else subscale, num)
      else some (0, c :: num)

/-- `n=(n*10.0)+(*num++ -'0')` for each digit. -/
def digitsLoop (n : D) (digits : List UInt8) : D :=
  digits.foldl (fun n c => F.add (F.mul n (F.ofInt 10)) (F.ofInt (c.toNat - 0x30))) n

/-- `scale--` for each digit. -/
def scaleLoop (scale : D) (digits : List UInt8) : D :=
  digits.foldl (fun scale _ => F.sub scale (F.ofInt 1)) scale

/-- `sign*n*pow(10.0,(scale+subscale*signsubscale))` -/
def scaled (minus : Bool) (whole fraction : List UInt8) (exponent : Int) : D :=
  let sign := F.ofInt (if minus then -1 else 1)
  let n := digitsLoop F (digitsLoop F (F.ofInt 0) whole) fraction
  let scale := scaleLoop F (F.ofInt 0) fraction
  F.mul (F.mul sign n) (F.pow (F.ofInt 10) (F.add scale (F.ofInt exponent)))

/-- `parse_number` -/
def parseNumber (item : Item D) (num : List UInt8) : Option (Item D × List UInt8) := do
  let (minus, num) ← accept 0x2d num
  let (_, num) ← accept 0x30 num
  let (whole, num) ← scanWhole num
  let (fraction, num) ← scanFraction num
  let (exponent, num) ← scanExponent num
  let n := scaled F minus whole fraction exponent
  return ({ item with valuedouble := n, valueint := F.toInt n, type := .number }, num)

end

/-! ## Strings -/

/-- The loop of `parse_hex4`, for so many digits. -/
def hexLoop : Nat → List UInt8 → Nat → Option Nat
  | 0, _, h => some h
  | _ + 1, [], _ => none
  | n + 1, c :: str, h =>
      match hexDigit c with
      | none => some 0
      | some digit => hexLoop n str (h <<< 4 + digit)

/-- `parse_hex4` -/
def parseHex4 (str : List UInt8) : Option Nat := hexLoop 4 str 0

/-- `firstByteMark` -/
def firstByteMark : Nat → Nat
  | 2 => 0xc0
  | 3 => 0xe0
  | 4 => 0xf0
  | 5 => 0xf8
  | 6 => 0xfc
  | _ => 0x00

/-- The cases of the second `switch` of `parse_string`, from some case on. -/
def fillLoop (mark : Nat) : Nat → Nat → List UInt8 → List UInt8
  | 0, _, out => out
  | 1, uc, out => UInt8.ofNat (uc ||| mark) :: out
  | n + 2, uc, out =>
      fillLoop mark (n + 1) (uc >>> 6) (UInt8.ofNat ((uc ||| 0x80) &&& 0xbf) :: out)

/-- The bytes that `parse_string` writes for a code point. -/
def transcode (uc : Nat) : List UInt8 :=
  let len := if uc < 0x80 then 1 else if uc < 0x800 then 2 else if uc < 0x10000 then 3 else 4
  fillLoop (firstByteMark len) len uc []

/-- A pointer so many bytes further, at most one behind the end. -/
def advance (n : Nat) (ptr : List UInt8) : Option (List UInt8) :=
  if n ≤ ptr.length then some (ptr.drop n) else none

/-- The case `'u'` of `parse_string` from behind the letter: what is written, and the position
behind it. -/
def unicode (ptr : List UInt8) : Option (List UInt8 × List UInt8) := do
  let uc ← parseHex4 ptr
  let ptr ← advance 4 ptr
  if 0xdc00 ≤ uc ∧ uc ≤ 0xdfff ∨ uc = 0 then return ([], ptr)
  else if 0xd800 ≤ uc ∧ uc ≤ 0xdbff then
    let first ← ptr[0]?
    if first ≠ 0x5c then return ([], ptr)
    else
      let second ← ptr[1]?
      if second ≠ 0x75 then return ([], ptr)
      else
        let uc2 ← parseHex4 (ptr.drop 2)
        let ptr ← advance 6 ptr
        if uc2 < 0xdc00 ∨ 0xdfff < uc2 then return ([], ptr)
        else return (transcode (0x10000 + ((uc &&& 0x3ff) <<< 10 ||| uc2 &&& 0x3ff)), ptr)
  else return (transcode uc, ptr)

/-- The `switch` of `parse_string` behind a backslash. -/
def escape : List UInt8 → Option (List UInt8 × List UInt8)
  | [] => none
  | c :: ptr =>
      if c = 0x62 then some ([0x08], ptr)
      else if c = 0x66 then some ([0x0c], ptr)
      else if c = 0x6e then some ([0x0a], ptr)
      else if c = 0x72 then some ([0x0d], ptr)
      else if c = 0x74 then some ([0x09], ptr)
      else if c = 0x75 then unicode ptr
      else some ([c], ptr)

/-- The loop of `parse_string` that counts what a string needs. -/
def lengthLoop : List UInt8 → Nat → Option Nat
  | [], _ => none
  | c :: ptr, len =>
      if c = 0x22 ∨ c = 0 then some len
      else if c = 0x5c then
        match ptr with
        | [] => none
        | _ :: ptr => lengthLoop ptr (len + 1)
      else lengthLoop ptr (len + 1)

/-- What a buffer of some size holds when bytes are written behind those in it. -/
def put (room : Nat) (out bytes : List UInt8) : Option (List UInt8) :=
  if out.length + bytes.length ≤ room then some (out ++ bytes) else none

/-- The loop of `parse_string` that writes to a buffer. -/
def stringLoop (room : Nat) : Nat → List UInt8 → List UInt8 → Option (List UInt8 × List UInt8)
  | 0, _, _ => none
  | _ + 1, [], _ => none
  | fuel + 1, c :: ptr, out =>
      if c = 0x22 ∨ c = 0 then some (out, c :: ptr)
      else if c ≠ 0x5c then do
        let out ← put room out [c]
        stringLoop room fuel ptr out
      else do
        let (bytes, ptr) ← escape ptr
        let out ← put room out bytes
        stringLoop room fuel ptr out

/-- A block whose size is an `int`. -/
def malloc (size : Nat) : Option Nat := if (size : Int) ≤ intMax then some size else none

/-- `parse_string` -/
def parseString {D : Type} (item : Item D) :
    List UInt8 → Outcome (Item D × List UInt8)
  | [] => .undefined
  | c :: ptr =>
      if c ≠ 0x22 then .failed (c :: ptr)
      else do
        let len ← lengthLoop ptr 0
        let room ← malloc (len + 1)
        let (out, ptr) ← stringLoop room (ptr.length + 1) ptr []
        let out ← put room out [0]
        let (_, ptr) ← accept 0x22 ptr
        return ({ item with valuestring := some (Str.of out), type := .string }, ptr)

/-! ## Values -/

/-- `skip` -/
def skip : List UInt8 → Option (List UInt8)
  | [] => none
  | c :: value => if c ≠ 0 ∧ c ≤ 32 then skip value else some (c :: value)

/-- `!strncmp(value, text, n)` for a text of `n` bytes. -/
def starts : List UInt8 → List UInt8 → Option Bool
  | [], _ => some true
  | _ :: _, [] => none
  | t :: text, c :: value => if c = t then starts text value else some false

section

variable {D : Type} (F : Double D)

mutual

/-- `parse_value`, with so many calls to spend. -/
def parseValue : Nat → Item D → List UInt8 → Outcome (Item D × List UInt8)
  | 0, _, _ => .undefined
  | fuel + 1, item, value => do
      if ← starts (ascii "null") value then
        return ({ item with type := .null }, value.drop 4)
      else if ← starts (ascii "false") value then
        return ({ item with type := .false }, value.drop 5)
      else if ← starts (ascii "true") value then
        return ({ item with type := .true, valueint := 1 }, value.drop 4)
      else
        let c ← value.head?
        if c = 0x22 then parseString item value
        else if c = 0x2d ∨ isdigit c then parseNumber F item value
        else if c = 0x5b then parseArray fuel item value
        else if c = 0x7b then parseObject fuel item value
        else .failed value

/-- `parse_array` -/
def parseArray : Nat → Item D → List UInt8 → Outcome (Item D × List UInt8)
  | 0, _, _ => .undefined
  | fuel + 1, item, value => do
      let value ← skip value.tail
      if value.head? = some 0x5d then return ({ item with type := .array }, value.tail)
      else
        let value ← skip value
        let (child, value) ← parseValue fuel (newItem F) value
        let value ← skip value
        let (children, value) ← arrayLoop fuel [child] value
        if value.head? = some 0x5d then
          return ({ item with type := .array, child := children }, value.tail)
        else .failed value

/-- The loop of `parse_array`. -/
def arrayLoop : Nat → List (Item D) → List UInt8 → Outcome (List (Item D) × List UInt8)
  | 0, _, _ => .undefined
  | fuel + 1, children, value => do
      if value.head? = some 0x2c then
        let value ← skip value.tail
        let (child, value) ← parseValue fuel (newItem F) value
        let value ← skip value
        arrayLoop fuel (children ++ [child]) value
      else return (children, value)

/-- A name, a colon and a value, as `parse_object` reads them. -/
def parseMember : Nat → List UInt8 → Outcome (Item D × List UInt8)
  | 0, _ => .undefined
  | fuel + 1, value => do
      let value ← skip value
      let (child, value) ← parseString (newItem F) value
      let value ← skip value
      let child := { child with string := child.valuestring, valuestring := none }
      if value.head? = some 0x3a then
        let value ← skip value.tail
        let (child, value) ← parseValue fuel child value
        let value ← skip value
        return (child, value)
      else .failed value

/-- `parse_object` -/
def parseObject : Nat → Item D → List UInt8 → Outcome (Item D × List UInt8)
  | 0, _, _ => .undefined
  | fuel + 1, item, value => do
      let value ← skip value.tail
      if value.head? = some 0x7d then return ({ item with type := .object }, value.tail)
      else
        let (child, value) ← parseMember fuel value
        let (children, value) ← objectLoop fuel [child] value
        if value.head? = some 0x7d then
          return ({ item with type := .object, child := children }, value.tail)
        else .failed value

/-- The loop of `parse_object`. -/
def objectLoop : Nat → List (Item D) → List UInt8 → Outcome (List (Item D) × List UInt8)
  | 0, _, _ => .undefined
  | fuel + 1, children, value => do
      if value.head? = some 0x2c then
        let (child, value) ← parseMember fuel value.tail
        objectLoop fuel (children ++ [child]) value
      else return (children, value)

end

/-- `cJSON_ParseWithOpts`: the item, and what `return_parse_end` receives. -/
def cJSONParseWithOpts (value : List UInt8) (requireNullTerminated : Bool) :
    Outcome (Item D × List UInt8) := do
  let start ← skip value
  let (c, stop) ← parseValue F (3 * value.length + 1) (newItem F) start
  if requireNullTerminated then
    let stop ← skip stop
    if stop.head? = some 0 then return (c, stop) else .failed stop
  else return (c, stop)

/-- `cJSON_Parse` -/
def cJSONParse (value : List UInt8) : Outcome (Item D) := do
  let (c, _) ← cJSONParseWithOpts F value false
  return c

end

end Gbase.Util.Cjson
