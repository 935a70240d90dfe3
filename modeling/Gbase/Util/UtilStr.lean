import Mathlib.Algebra.Group.Int.Defs
import Mathlib.Algebra.Group.Nat.Defs
import Mathlib.Data.List.TakeWhile
import Mathlib.Data.Nat.Init

/-!
# Numbers in strings (`util/util_str.c`)

`util_str2int` goes through the array that holds a key of a request.  Its loop tests behind its
body, so that a byte is looked at before anybody knows whether the string has ended.  Reading
outside of an array is undefined, `none`.
-/

namespace Gbase.Util.UtilStr

/-- `isdigit` -/
def isDigit (c : UInt8) : Bool := 0x30 ≤ c && c ≤ 0x39

/-- The loop of `util_str2int` from some byte of the key on, with the digits in `res_decimals` and
the blanks counted so far; a key without an end and digits that do not fit are undefined. -/
def str2intLoop : List UInt8 → List UInt8 → Nat → Option (List UInt8 × Nat)
  | [], _, _ => none
  | c :: rest, digits, spaces =>
      let digits := if isDigit c then digits ++ [c] else digits
      let spaces := if c = 0x20 then (spaces + 1) % 256 else spaces
      if 14 < digits.length then none
      else
        match rest with
        | [] => none
        | next :: _ => if next = 0 then some (digits, spaces) else str2intLoop rest digits spaces

/-- `strtoul` of digits. -/
def decimal (digits : List UInt8) : Nat := digits.foldl (fun n c => 10 * n + (c.toNat - 0x30)) 0

/-- `util_str2int` -/
def utilStr2int (key : List UInt8) : Option Nat := do
  let (digits, spaces) ← str2intLoop key [] 0
  if spaces = 0 then none else return decimal digits % 2 ^ 32 / spaces

/-! ## What is read of a key -/

/-- The bytes that `util_str2int` looks at: the first one, whatever it is, and those behind it up to
a byte of zero. -/
def scanned : List UInt8 → List UInt8
  | [] => []
  | c :: rest => c :: rest.takeWhile (· ≠ 0)

section

variable {c : UInt8} {rest digits key : List UInt8} {spaces : Nat}

private theorem scanned_cons (hNext : c ≠ 0) (first : UInt8) (rest : List UInt8) :
    scanned (first :: c :: rest) = first :: scanned (c :: rest) := by
  simp [scanned, hNext]

/-- The loop on a key with a byte of zero behind the first one. -/
theorem str2intLoop_spec (hEnd : 0 ∈ rest) (hDigits : digits.length ≤ 14) (hSpaces : spaces < 256) :
    str2intLoop (c :: rest) digits spaces =
      if 14 < (digits ++ (scanned (c :: rest)).filter isDigit).length then none
      else some (digits ++ (scanned (c :: rest)).filter isDigit,
        (spaces + (scanned (c :: rest)).count 0x20) % 256) := by
  induction rest generalizing c digits spaces with
  | nil => cases hEnd
  | cons next rest ih =>
      have hThis : (if isDigit c then digits ++ [c] else digits) =
          digits ++ [c].filter isDigit := by
        cases hDigit : isDigit c <;> simp [hDigit]
      have hBlank : (if c = 0x20 then (spaces + 1) % 256 else spaces) =
          (spaces + [c].count 0x20) % 256 := by
        by_cases hEq : c = 0x20
        · simp [hEq]
        · simp [hEq, Nat.mod_eq_of_lt hSpaces]
      rw [str2intLoop]
      simp only [hThis, hBlank]
      by_cases hNext : next = 0
      · have hOne : scanned (c :: next :: rest) = [c] := by simp [scanned, hNext]
        simp only [hOne, if_pos hNext]
      · have hMore : 0 ∈ rest := (List.mem_cons.mp hEnd).resolve_left (Ne.symm hNext)
        have hAll : digits ++ (scanned (c :: next :: rest)).filter isDigit =
            digits ++ [c].filter isDigit ++ (scanned (next :: rest)).filter isDigit := by
          rw [scanned_cons hNext, List.append_assoc, ← List.filter_append]
          rfl
        have hCount : (scanned (c :: next :: rest)).count 0x20 =
            [c].count 0x20 + (scanned (next :: rest)).count 0x20 := by
          rw [scanned_cons hNext, ← List.count_append]
          rfl
        rw [if_neg hNext, hAll, hCount]
        by_cases hFull : 14 < (digits ++ [c].filter isDigit).length
        · have hMany : 14 < (digits ++ [c].filter isDigit ++
              (scanned (next :: rest)).filter isDigit).length := by
            rw [List.length_append]
            omega
          rw [if_pos hFull, if_pos hMany]
        · rw [if_neg hFull, ih hMore (Nat.le_of_not_lt hFull) (Nat.mod_lt _ (by decide)),
            Nat.mod_add_mod, Nat.add_assoc]

/-- `util_str2int` of a key of less than 256 bytes that ends. -/
theorem utilStr2int_spec (hEnd : 0 ∈ key.tail) (hLength : key.length < 256) :
    utilStr2int key =
      if 14 < ((scanned key).filter isDigit).length ∨ (scanned key).count 0x20 = 0 then none
      else some (decimal ((scanned key).filter isDigit) % 2 ^ 32 / (scanned key).count 0x20) := by
  cases key with
  | nil => cases hEnd
  | cons c rest =>
      have hRead : (scanned (c :: rest)).length ≤ (c :: rest).length :=
        Nat.succ_le_succ (List.takeWhile_sublist _).length_le
      have hCount : (scanned (c :: rest)).count 0x20 < 256 :=
        Nat.lt_of_le_of_lt (Nat.le_trans List.count_le_length hRead) hLength
      rw [utilStr2int, @str2intLoop_spec c rest [] 0 hEnd (by decide) (by decide), List.nil_append,
        Nat.zero_add, Nat.mod_eq_of_lt hCount]
      by_cases hFull : 14 < ((scanned (c :: rest)).filter isDigit).length
      · rw [if_pos hFull, if_pos (Or.inl hFull)]
        rfl
      · rw [if_neg hFull]
        simp only [hFull, false_or, Option.bind_eq_bind, Option.bind_some, Option.pure_def]

end

end Gbase.Util.UtilStr
