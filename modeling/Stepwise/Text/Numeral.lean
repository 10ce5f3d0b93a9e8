/-!
# Unsigned numerals

A numeral is an optional plus sign and decimal digits, with a value below a bound. Written numerals
have no sign; `padded` adds zeros in front up to a width.
-/

namespace Stepwise.Text

def digitsValue (digits : List Char) : Nat :=
  digits.foldl (fun n c => 10 * n + (c.toNat - '0'.toNat)) 0

def dropPlus : List Char → List Char
  | '+' :: rest => rest
  | rest => rest

/-- The value of a numeral below `bound`. -/
def readNumeral (bound : Nat) (cs : List Char) : Option Nat :=
  let digits := dropPlus cs
  if digits.isEmpty ∨ !digits.all Char.isDigit then none
  else if digitsValue digits < bound then some (digitsValue digits)
  else none

def padLeft (width : Nat) (fill : Char) (s : String) : String :=
  String.ofList (List.replicate (width - s.length) fill) ++ s

def padRight (width : Nat) (s : String) : String :=
  s ++ String.ofList (List.replicate (width - s.length) ' ')

/-- A number with at least two digits. -/
def twoDigits (n : Nat) : String := padLeft 2 '0' (toString n)

end Stepwise.Text
