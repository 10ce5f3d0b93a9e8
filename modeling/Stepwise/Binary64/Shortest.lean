import Stepwise.Binary64

/-!
# Shortest decimal text

The text of a number has the fewest digits that read back as the same number and, of those, the
ones nearest to it. A number reads back from a decimal that lies between its two halfway points to
its neighbours, the halfway points included when the significand is even.
-/

namespace Stepwise.Binary64

/-- A positive decimal `digits * 10 ^ exponent`. -/
structure Decimal where
  digits : Nat
  exponent : Int
  deriving DecidableEq, Repr

/-- A value with the bounds of its interval, all three over one denominator. -/
structure Interval where
  low : Nat
  value : Nat
  high : Nat
  den : Nat
  closed : Bool

/-- The decimals that read back as `significand * 2 ^ exponent`. Below a power of two the
neighbour is only half as far away. -/
def interval (significand : Nat) (exponent : Int) : Interval :=
  let up := if exponent < 0 then 1 else Nat.pow 2 exponent.natAbs
  let down := if exponent < 0 then Nat.pow 2 exponent.natAbs else 1
  let gap := if significand = fractionSize ∧ leastExponent < exponent then 1 else 2
  { low := (4 * significand - gap) * up
    value := 4 * significand * up
    high := (4 * significand + 2) * up
    den := 4 * down
    closed := significand % 2 = 0 }

/-- The interval in units of `10 ^ exponent`. -/
def Interval.inUnits (i : Interval) (exponent : Int) : Interval :=
  let up := if exponent < 0 then Nat.pow 10 exponent.natAbs else 1
  let down := if exponent < 0 then 1 else Nat.pow 10 exponent.natAbs
  { i with low := i.low * up, value := i.value * up, high := i.high * up, den := i.den * down }

def Interval.contains (i : Interval) (n : Nat) : Bool :=
  if i.closed then i.low ≤ n * i.den && n * i.den ≤ i.high
  else i.low < n * i.den && n * i.den < i.high

/-- The multiple of the unit in the interval that is nearest to the value; a tie goes up. -/
def Interval.nearest? (i : Interval) : Option Nat :=
  let below := i.value / i.den
  let nearer := if 2 * (i.value % i.den) < i.den then below else below + 1
  let other := if nearer = below then below + 1 else below
  if 0 < nearer ∧ i.contains nearer then some nearer
  else if 0 < other ∧ i.contains other then some other
  else none

/-- The power of ten of the first digit of a positive quotient. -/
def leadingPower (num den : Nat) : Int :=
  let guess := ((Nat.toDigits 10 num).length : Int) - (Nat.toDigits 10 den).length
  let power := Nat.pow 10 guess.natAbs
  let above := if guess < 0 then den ≤ num * power else den * power ≤ num
  if above then guess else guess - 1

/-- Seventeen digits always read back, so the search over one to seventeen digits succeeds. -/
def shortest (significand : Nat) (exponent : Int) : Decimal :=
  let i := interval significand exponent
  let leading := leadingPower i.value i.den
  let candidate (count : Nat) : Option Decimal :=
    (i.inUnits (leading - count)).nearest?.map (⟨·, leading - count⟩)
  ((List.range 17).findSome? candidate).getD ⟨significand, exponent⟩

def dropTrailingZeros (digits : List Char) : List Char :=
  (digits.reverse.dropWhile (· = '0')).reverse

def fractionText (digits : List Char) : String :=
  if digits.isEmpty then "0" else String.ofList digits

/-- Positional from `0.0001` up to `10 ^ 16`, with a fraction always shown; otherwise one digit
before the point, a fraction only if there are more digits, and a power of ten. -/
def Decimal.text (d : Decimal) : String :=
  let written := Nat.toDigits 10 d.digits
  let power := written.length + d.exponent - 1
  let digits := dropTrailingZeros written
  if power < -4 ∨ 16 ≤ power then
    let fraction := digits.drop 1
    let point := if fraction.isEmpty then "" else "." ++ String.ofList fraction
    String.ofList (digits.take 1) ++ point ++ "e" ++ toString power
  else if power < 0 then
    "0." ++ String.ofList (List.replicate (power.natAbs - 1) '0' ++ digits)
  else
    let places := power.toNat + 1
    let zeros := List.replicate (places - digits.length) '0'
    String.ofList (digits.take places ++ zeros) ++ "." ++ fractionText (digits.drop places)

def text (x : Binary64) : String :=
  let sign (negative : Bool) := if negative then "-" else ""
  match x.shape with
  | .nan => "NaN"
  | .infinite negative => sign negative ++ "inf"
  | .finite negative 0 _ => sign negative ++ "0.0"
  | .finite negative significand exponent => sign negative ++ (shortest significand exponent).text

end Stepwise.Binary64
