import Stepwise.Binary64
import Stepwise.Text.Letters
import Stepwise.Text.Numeral

/-!
# Reading a decimal number

A number is an optional sign and then `inf`, `infinity`, `nan` in any case of letters, or digits
with at most one point, at least one digit in all, and an optional exponent. It is read as the
nearest double-precision number.
-/

namespace Stepwise.Binary64

open Text (digitsValue foldCase)

/-- The number nearest to `digits * 10 ^ exponent`. Beyond these bounds on the place of the first
digit the answer is infinite or zero whatever the digits are. -/
def ofDecimal (negative : Bool) (digits : Nat) (exponent : Int) : Binary64 :=
  let place := (Nat.toDigits 10 digits).length + exponent
  if digits = 0 ∨ place < -330 then ofFields negative 0
  else if 330 < place then infinity negative
  else if exponent < 0 then ofRatio negative digits (Nat.pow 10 exponent.natAbs)
  else ofRatio negative (digits * Nat.pow 10 exponent.natAbs) 1

/-- A sign, or none, and what follows it. -/
def readSign : List Char → Bool × List Char
  | '-' :: rest => (true, rest)
  | '+' :: rest => (false, rest)
  | rest => (false, rest)

/-- An exponent part is empty, or `e` with an optional sign and at least one digit. -/
def readExponent : List Char → Option Int
  | [] => some 0
  | c :: rest =>
    if c = 'e' ∨ c = 'E' then
      let (negative, digits) := readSign rest
      if digits.isEmpty ∨ !digits.all Char.isDigit then none
      else some (if negative then -(digitsValue digits : Int) else digitsValue digits)
    else none

/-- An unsigned decimal number: its digits without the point, and its power of ten. -/
def readDecimal (cs : List Char) : Option (Nat × Int) := do
  let whole := cs.takeWhile Char.isDigit
  let rest := cs.dropWhile Char.isDigit
  let (fraction, rest) :=
    match rest with
    | '.' :: rest => (rest.takeWhile Char.isDigit, rest.dropWhile Char.isDigit)
    | rest => ([], rest)
  if whole.isEmpty ∧ fraction.isEmpty then none
  let exponent ← readExponent rest
  return (digitsValue (whole ++ fraction), exponent - fraction.length)

def read (text : String) : Option Binary64 :=
  let (negative, rest) := readSign text.toList
  let word := foldCase rest
  if word = "inf" ∨ word = "infinity" then some (infinity negative)
  else if word = "nan" then some nan
  else (readDecimal rest).map fun (digits, exponent) => ofDecimal negative digits exponent

end Stepwise.Binary64
