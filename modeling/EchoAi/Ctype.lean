import Mathlib.Data.UInt

/-!
# Characters of C

* `isSpace`, `isAlnum`, `isDigit`, `toLower`: the classes of bytes in the C locale.
* `sameIgnoringCase`, `startsIgnoringCase`: comparisons without case.
* `strtolWhole`: the number of a whole text.
-/

namespace EchoAi

/-- `isspace` in the C locale. -/
def isSpace (c : UInt8) : Bool := c = 32 ∨ (9 ≤ c ∧ c ≤ 13)

/-- `isalnum` in the C locale. -/
def isAlnum (c : UInt8) : Bool := (48 ≤ c ∧ c ≤ 57) ∨ (65 ≤ c ∧ c ≤ 90) ∨ (97 ≤ c ∧ c ≤ 122)

/-- `tolower` in the C locale. -/
def toLower (c : UInt8) : UInt8 := if 65 ≤ c ∧ c ≤ 90 then c + 32 else c

/-- `strcasecmp` finds no difference. -/
def sameIgnoringCase (a b : List UInt8) : Bool := a.map toLower == b.map toLower

/-- `strncasecmp` finds no difference on the length of the second text. -/
def startsIgnoringCase (a pre : List UInt8) : Bool :=
  (pre.map toLower).isPrefixOf (a.map toLower)

/-- A decimal digit. -/
def isDigit (c : UInt8) : Bool := 48 ≤ c ∧ c ≤ 57

/-- `strtol` of a whole text; absent when there are no digits or something stands behind them. -/
def strtolWhole (val : List UInt8) : Option Int :=
  let text := val.dropWhile isSpace
  let (negative, digits) :=
    match text with
    | 45 :: rest => (true, rest)
    | 43 :: rest => (false, rest)
    | _ => (false, text)
  if digits ≠ [] ∧ digits.all isDigit then
    let n : Nat := digits.foldl (fun n c => n * 10 + (c.toNat - 48)) 0
    some (if negative then -n else n)
  else none

end EchoAi
