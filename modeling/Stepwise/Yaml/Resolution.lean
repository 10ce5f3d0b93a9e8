import Stepwise.Binary64.Reading
import Stepwise.Text.Numeral
import Stepwise.Value
import Stepwise.Yaml.Node

/-!
# Plain scalars

What a plain scalar stands for: nothing, a truth value, an integer, a number or else its text.
Integers may be written to base sixteen, eight or two; digits after a leading zero are a text.
-/

namespace Stepwise.Yaml

def isNullText (s : String) : Bool := s = "null" || s = "Null" || s = "NULL" || s = "~"

def boolOfText? (s : String) : Option Bool :=
  if s = "true" ∨ s = "True" ∨ s = "TRUE" then some true
  else if s = "false" ∨ s = "False" ∨ s = "FALSE" then some false
  else none

def digitValue? (base : Nat) (c : Char) : Option Nat :=
  let n :=
    if c.isDigit then c.toNat - '0'.toNat
    else if 'a' ≤ c ∧ c ≤ 'f' then c.toNat - 'a'.toNat + 10
    else if 'A' ≤ c ∧ c ≤ 'F' then c.toNat - 'A'.toNat + 10
    else base
  if n < base then some n else none

/-- The value of digits, of which there is at least one. -/
def digits? (base : Nat) (cs : List Char) : Option Nat :=
  if cs.isEmpty then none else cs.foldlM (fun n c => (digitValue? base c).map (base * n + ·)) 0

/-- A base mark and the digits after it. -/
def basedDigits? : List Char → Option Nat
  | '0' :: 'x' :: rest => digits? 16 rest
  | '0' :: 'o' :: rest => digits? 8 rest
  | '0' :: 'b' :: rest => digits? 2 rest
  | _ => none

def dropSign : List Char → List Char
  | '+' :: rest => rest
  | '-' :: rest => rest
  | rest => rest

/-- Digits only, of which the first of several is zero. -/
def isZeroPadded (cs : List Char) : Bool :=
  let digits := dropSign cs
  1 < digits.length && digits.head? = some '0' && digits.all Char.isDigit

def unsigned? (cs : List Char) : Option Nat :=
  let digits := Text.dropPlus cs
  (basedDigits? digits).or (if isZeroPadded cs then none else digits? 10 digits)

def signed? : List Char → Option Int
  | '-' :: rest =>
    ((basedDigits? rest).or (if isZeroPadded rest then none else digits? 10 rest)).map fun n =>
      -(n : Int)
  | cs => (unsigned? cs).map Int.ofNat

/-- A number that is finite, or one of the words for those that are not. -/
def real? (s : String) : Option Binary64 :=
  let unsigned :=
    match s.toList with
    | '+' :: rest => if rest.head? = some '+' ∨ rest.head? = some '-' then none else some rest
    | cs => some cs
  unsigned.bind fun cs =>
    let word := String.ofList cs
    if word = ".inf" ∨ word = ".Inf" ∨ word = ".INF" then some (.infinity false)
    else if s = "-.inf" ∨ s = "-.Inf" ∨ s = "-.INF" then some (.infinity true)
    else if s = ".nan" ∨ s = ".NaN" ∨ s = ".NAN" then some .nan
    else (Binary64.read word).filter Binary64.isFinite

/-- The integers that a value can hold. -/
def isWide (i : Int) : Bool := i < Int64.minValue.toInt || UInt64.size ≤ i

/-- The integers of 128 bits, with a sign or without. -/
def fitsTwoWords (i : Int) : Bool :=
  -(Nat.pow 2 127 : Int) ≤ i && i < (Nat.pow 2 128 : Int)

/-- The value of an integer that is written so. -/
def integerValue (s : String) (i : Int) : Value :=
  if i = 0 && s.toList.head? = some '-' then .minusZero else .int i

/-- The value of a plain scalar. An integer that is too large for a value is an error, up to the
size of 128 bits; beyond that it is a number like others. -/
def plainValue? (s : String) : Option Value :=
  if s.isEmpty || isNullText s then some .null
  else
    match boolOfText? s, signed? s.toList with
    | some b, _ => some (.bool b)
    | none, some i =>
      if !isWide i then some (integerValue s i)
      else if fitsTwoWords i then none
      else some (((real? s).map Value.real).getD (.str s))
    | none, none =>
      if isZeroPadded s.toList then some (.str s)
      else some (((real? s).map Value.real).getD (.str s))

/-- The integer of a scalar, if it is written as one. -/
def Scalar.integer? (s : Scalar) : Option Value :=
  (signed? s.text.toList).bind fun i => if isWide i then none else some (integerValue s.text i)

def Scalar.untagged? (s : Scalar) : Option Value :=
  if s.style = .plain then plainValue? s.text else some (.str s.text)

/-- The value of a scalar. A tag for a type of value demands that type; one of the document's own
has no value, but says nothing if its name is no text. -/
def Scalar.value? (s : Scalar) : Option Value :=
  match s.tag with
  | none => s.untagged?
  | some tag =>
    if tag.ownName?.isSome then none
    else if tag.isOwn then s.untagged?
    else if tag = .core "bool" then (boolOfText? s.text).map .bool
    else if tag = .core "int" then s.integer?
    else if tag = .core "float" then (real? s.text).map .real
    else if tag = .core "null" then if isNullText s.text then some .null else none
    else some (.str s.text)

/-- Whether a collection is named, and so has no value. -/
def isNamed (tag : Option Tag) : Bool := tag.any fun tag => tag.ownName?.isSome

mutual

/-- The value of a node without aliases. -/
def Node.value? : Node → Option Value
  | .scalar s => s.value?
  | .list tag items =>
    if isNamed tag then none else (nodeValues? items).map .list
  | .map tag entries =>
    if isNamed tag then none else (entryValues? entries).map .map
  | .alias _ => none

def nodeValues? : List Node → Option (List Value)
  | [] => some []
  | n :: rest => do return (← n.value?) :: (← nodeValues? rest)

def entryValues? : List (Node × Node) → Option (List (Value × Value))
  | [] => some []
  | (key, value) :: rest => do return (← key.value?, ← value.value?) :: (← entryValues? rest)

end

end Stepwise.Yaml
