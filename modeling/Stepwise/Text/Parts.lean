/-!
# Parts of a text

A text is split at each separator; there is always at least one part. A text may be made of
characters or of bytes.
-/

namespace Stepwise.Text

variable {α : Type} [DecidableEq α]

def parts (separator : α) : List α → List (List α)
  | [] => [[]]
  | c :: rest =>
    match parts separator rest with
    | [] => [[c]]
    | part :: others => if c = separator then [] :: part :: others else (c :: part) :: others

theorem parts_ne_nil (separator : α) (cs : List α) : parts separator cs ≠ [] := by
  cases cs with
  | nil => simp [parts]
  | cons c rest =>
    rw [parts]
    split
    · simp
    · split <;> simp

end Stepwise.Text
