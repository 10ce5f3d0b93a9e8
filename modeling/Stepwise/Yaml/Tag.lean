/-!
# Tags

A tag says what a node is. It is given by bytes, since a percent sign may stand for bytes that are
no text, and it ends before the first zero byte.
-/

namespace Stepwise.Yaml

structure Tag where
  bytes : List UInt8
  deriving DecidableEq, Repr

namespace Tag

def ofBytes (bytes : List UInt8) : Tag := ⟨bytes.takeWhile (· ≠ 0)⟩

def ofString (s : String) : Tag := .ofBytes s.toUTF8.data.toList

/-- An exclamation mark alone, which is a tag of the document's own without a name. -/
def mark : Tag := .ofString "!"

/-- A tag for a type of value that every document knows. -/
def core (name : String) : Tag := .ofString ("tag:yaml.org,2002:" ++ name)

instance : Append Tag := ⟨fun a b => ⟨a.bytes ++ b.bytes⟩⟩

def isEmpty (t : Tag) : Bool := t.bytes.isEmpty

/-- What follows the exclamation mark in a tag of the document's own. -/
def ownBytes? (t : Tag) : Option (List UInt8) :=
  match t.bytes with
  | 0x21 :: name => some name
  | _ => none

def isOwn (t : Tag) : Bool := t.ownBytes?.isSome

/-- The name in a tag of the document's own, if it is a text. -/
def ownName? (t : Tag) : Option String :=
  t.ownBytes?.bind fun name => String.fromUTF8? ⟨name.toArray⟩

end Tag

end Stepwise.Yaml
