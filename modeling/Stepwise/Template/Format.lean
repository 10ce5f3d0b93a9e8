import Stepwise.Loading
import Stepwise.Template.Decoding
import Stepwise.Template.Encoding

/-!
# Formats

A workflow is saved as a text in some format and loaded from it. The format says how the text of a
value is written, how a text is taken apart, and what its parts show.
-/

namespace Stepwise

/-- A way to write values and to read what is written. Both may fail. -/
structure Format where
  /-- A part of a text that has been taken apart, or all of it. -/
  Part : Type
  reading : Reading Part
  write : Value → Option String
  parse : String → Option Part

namespace Format

variable (f : Format)

/-- The text in which a workflow is saved. -/
def document? (w : Workflow) : Option String := f.write w.encode

/-- Reads a workflow. -/
def read? (text : String) : Option Workflow := do f.reading.workflow (← f.parse text)

/-- Reads and checks a workflow, with the cautions given. -/
def load (text : String) : Except WorkflowError Workflow × List Caution :=
  match f.read? text with
  | none => (.error .unreadable, [])
  | some w =>
    let verdict := w.validate
    match verdict.fault with
    | none => (.ok w, verdict.cautions)
    | some fault => (.error (.invalid fault), verdict.cautions)

end Format

end Stepwise
