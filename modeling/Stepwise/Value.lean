import Stepwise.Binary64

/-!
# Values

A tree that describes itself: what a document holds before anything is known about its meaning.
-/

namespace Stepwise

inductive Value where
  | null
  | bool (b : Bool)
  | int (i : Int)
  /-- The integer zero with a minus sign, which is no position. -/
  | minusZero
  | real (x : Binary64)
  | str (s : String)
  | list (items : List Value)
  | map (entries : List (Value × Value))
  deriving Inhabited

namespace Value

/-- A map whose keys are texts. -/
def fields (entries : List (String × Value)) : Value :=
  .map (entries.map fun (key, value) => (.str key, value))

/-- An entry that is left out when there is nothing to say. -/
def field? (key : String) (value : Option Value) : List (String × Value) :=
  value.toList.map (key, ·)

def ofNat (n : Nat) : Value := .int n

end Value

end Stepwise
