/-!
# Painted text

Styles of a terminal. A text is put between the sequences that start and end a style; where it ends
a style itself, the one around it starts again.
-/

namespace Stepwise

/-- Whether styles are shown. -/
structure Paint where
  shown : Bool
  deriving DecidableEq, Repr

namespace Paint

def none : Paint := ⟨false⟩

def ending : String := "\x1b[0m"

def styled (code : String) (p : Paint) (text : String) : String :=
  if p.shown then
    let start := "\x1b[" ++ code ++ "m"
    start ++ text.replace ending (ending ++ start) ++ ending
  else text

def bold : Paint → String → String := styled "1"

def dim : Paint → String → String := styled "2"

def green : Paint → String → String := styled "32"

def boldGreen : Paint → String → String := styled "1;32"

def yellow : Paint → String → String := styled "33"

def cyan : Paint → String → String := styled "36"

/-- Styles can be asked for, forbidden, or given up; else they are shown on a terminal. A setting of
zero counts as not asked for, and one that forbids counts whatever it is. -/
def chosen (forced forbidden allowed : Option String) (terminal : Bool) : Paint :=
  if forced.any (· ≠ "0") then ⟨true⟩
  else if forbidden.isSome then ⟨false⟩
  else ⟨allowed.all (· ≠ "0") && terminal⟩

end Paint

end Stepwise
