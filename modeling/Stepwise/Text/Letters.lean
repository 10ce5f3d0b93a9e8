/-!
# Letters

The capitals from A to Z can be written small. Other characters have no other form.
-/

namespace Stepwise.Text

/-- The characters with small letters in the place of capitals. -/
def foldCase (cs : List Char) : String := String.ofList (cs.map Char.toLower)

end Stepwise.Text
