/-!
# Double-precision numbers

A number is its 64 bits: a sign, eleven exponent bits and 52 fraction bits. All arithmetic here is
exact integer arithmetic on the decoded parts, so every statement about a number is a statement
about integers. Rounding is to the nearest number, a tie going to the even significand.
-/

namespace Stepwise

structure Binary64 where
  bits : UInt64
  deriving DecidableEq, Repr

namespace Binary64

/-- A finite number is `significand * 2 ^ exponent`, negated if `negative`. -/
inductive Shape where
  | nan
  | infinite (negative : Bool)
  | finite (negative : Bool) (significand : Nat) (exponent : Int)
  deriving DecidableEq, Repr

def fractionSize : Nat := Nat.pow 2 52

def signSize : Nat := Nat.pow 2 63

def leastExponent : Int := -1074

def exponentField (x : Binary64) : Nat := x.bits.toNat / fractionSize % 2048

def fractionField (x : Binary64) : Nat := x.bits.toNat % fractionSize

def signField (x : Binary64) : Bool := decide (signSize ≤ x.bits.toNat)

def shape (x : Binary64) : Shape :=
  if x.exponentField = 2047 then
    if x.fractionField = 0 then .infinite x.signField else .nan
  else if x.exponentField = 0 then .finite x.signField x.fractionField leastExponent
  else .finite x.signField (fractionSize + x.fractionField) (leastExponent + x.exponentField - 1)

def ofFields (negative : Bool) (magnitude : Nat) : Binary64 :=
  ⟨.ofNat (magnitude + if negative then signSize else 0)⟩

/-- The magnitude bits of an infinity. -/
def infiniteMagnitude : Nat := 2047 * fractionSize

def infinity (negative : Bool) : Binary64 := ofFields negative infiniteMagnitude

def nan : Binary64 := ofFields false (infiniteMagnitude + fractionSize / 2)

def zero : Binary64 := ⟨0⟩

def isNan (x : Binary64) : Bool := x.shape = .nan

def isFinite (x : Binary64) : Bool := x.exponentField ≠ 2047

/-- The quotient rounded to the nearest integer, a tie going to the even one. -/
def roundHalfEven (num den : Nat) : Nat :=
  let quotient := num / den
  let twice := 2 * (num % den)
  if den < twice ∨ twice = den ∧ quotient % 2 = 1 then quotient + 1 else quotient

/-- `num / den` as a multiple of `2 ^ exponent`: a quotient with the same value. -/
def scaled (num den : Nat) (exponent : Int) : Nat × Nat :=
  if exponent < 0 then (num * Nat.pow 2 exponent.natAbs, den)
  else (num, den * Nat.pow 2 exponent.natAbs)

/-- The exponent at which the whole part of `num / den` has 53 binary digits, or fewer at the
least exponent. -/
def exponentFor (num den : Nat) : Int :=
  let low := max ((num.log2 : Int) - den.log2 - 53) leastExponent
  let (n, d) := scaled num den low
  if 2 * fractionSize ≤ n / d then low + 1 else low

/-- Adding the rounded significand to the exponent's bits carries into the exponent when rounding
reaches the next power of two. -/
def roundedMagnitude (num den : Nat) : Nat :=
  if num = 0 then 0
  else
    let exponent := exponentFor num den
    let (n, d) := scaled num den exponent
    min ((exponent - leastExponent).toNat * fractionSize + roundHalfEven n d) infiniteMagnitude

/-- The number nearest to a quotient of naturals. -/
def ofRatio (negative : Bool) (num den : Nat) : Binary64 :=
  ofFields negative (roundedMagnitude num den)

def ofInt (i : Int) : Binary64 := ofRatio (decide (i < 0)) i.natAbs 1

/-- Greater than zero; a number that is not comparable is not. -/
def isPositive (x : Binary64) : Bool :=
  match x.shape with
  | .nan => false
  | .infinite negative => !negative
  | .finite negative significand _ => !negative && decide (0 < significand)

def greatestInt64 : Nat := Int64.maxValue.toInt.toNat

/-- The whole part of a positive number, held at the largest signed 64-bit integer; zero for all
other numbers. -/
def wholePart (x : Binary64) : Nat :=
  match x.shape with
  | .nan => 0
  | .infinite negative => if negative then 0 else greatestInt64
  | .finite true _ _ => 0
  | .finite false significand exponent =>
    let (n, d) := scaled significand 1 (-exponent)
    min (n / d) greatestInt64

/-- The bits as sixteen hexadecimal digits, the most significant first. -/
def hexText (x : Binary64) : String :=
  String.ofList ((List.range 16).reverse.map fun place =>
    Nat.digitChar (x.bits.toNat / Nat.pow 16 place % 16))

end Binary64

end Stepwise
