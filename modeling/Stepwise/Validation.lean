import Stepwise.Template
import Stepwise.Text.Blank

/-!
# Validation

A workflow is valid when no two of its templates have the same number and all reminders have a
positive interval. Shapes that are odd but can still be run only give a caution. Templates are
checked in the order of `Workflow.walk` and the first fault ends the check.
-/

namespace Stepwise

inductive Fault where
  | duplicateId (id : UInt32)
  | badInterval (owner : String) (interval : Int64)
  deriving DecidableEq, Repr

def Fault.message : Fault → String
  | .duplicateId id => s!"Duplicate block ID: {id}"
  | .badInterval owner interval =>
    s!"Reminder of '{owner}' must have a positive interval, got {interval}"

inductive Caution where
  | frequentReminder (owner : String) (seconds : Int64)
  | choosesTooMany (text : String) (choose : UInt64) (branches : Nat)
  | choosesNone (text : String)
  | negativeCount (times : Int64)
  | emptyText (id : Option UInt32)
  deriving DecidableEq, Repr

/-- Reminders that fire more often are accepted with a caution. -/
def leastReminderSeconds : Int64 := 4

def Caution.message : Caution → String
  | .frequentReminder owner seconds =>
    s!"Reminder of '{owner}' fires every {seconds} s, below the {leastReminderSeconds} s floor"
  | .choosesTooMany text choose branches =>
    s!"Parallel block '{text}' chooses {choose} of only {branches} branches; " ++
      "it ends when all are done"
  | .choosesNone text => s!"Parallel block '{text}' chooses 0 branches; it ends when all are done"
  | .negativeCount times => s!"Repeat count {times} is negative; the body never runs"
  | .emptyText none => "Block with empty text (id None)"
  | .emptyText (some id) => s!"Block with empty text (id Some({id}))"

/-- The outcome of a check: the cautions given, in order, and the fault that ended it, if any. -/
structure Verdict where
  cautions : List Caution
  fault : Option Fault
  deriving DecidableEq, Repr

namespace Verdict

def fine : Verdict := ⟨[], none⟩

/-- Goes on with another check unless a fault was found. -/
def andThen (v : Verdict) (next : Verdict) : Verdict :=
  match v.fault with
  | some _ => v
  | none => ⟨v.cautions ++ next.cautions, next.fault⟩

end Verdict

namespace Reminder

def isValid (r : Reminder) : Bool := decide (0 < r.interval)

def check (owner : String) (r : Reminder) : Verdict :=
  if !r.isValid then ⟨[], some (.badInterval owner r.interval)⟩
  else if r.seconds < leastReminderSeconds then ⟨[.frequentReminder owner r.seconds], none⟩
  else .fine

end Reminder

def checkReminder (owner : String) : Option Reminder → Verdict
  | none => .fine
  | some r => r.check owner

namespace Template

def shapeCautions (t : Template) : List Caution :=
  match t.kind with
  | .parallel text choose branches =>
    let tooMany := Caution.choosesTooMany text choose branches.length
    (if branches.length < choose.toNat then [tooMany] else []) ++
      if choose = 0 then [.choosesNone text] else []
  | .counted times _ => if times < 0 then [.negativeCount times] else []
  | _ => []

def textCautions (t : Template) : List Caution :=
  match t.kind with
  | .counted _ _ => []
  | _ => if Text.isBlankText t.label then [.emptyText t.id] else []

def cautions (t : Template) : List Caution := t.shapeCautions ++ t.textCautions

/-- Checks a template whose number must differ from those seen before. -/
def check (seen : List UInt32) (t : Template) : Verdict :=
  let unique : Verdict :=
    match t.id with
    | none => .fine
    | some id => if id ∈ seen then ⟨[], some (.duplicateId id)⟩ else .fine
  (unique.andThen (checkReminder t.label t.reminder)).andThen ⟨t.cautions, none⟩

end Template

def checkTemplates (seen : List UInt32) : List Template → Verdict
  | [] => .fine
  | t :: rest => (t.check seen).andThen (checkTemplates (t.id.toList ++ seen) rest)

def Workflow.validate (w : Workflow) : Verdict :=
  (checkReminder w.description w.reminder).andThen (checkTemplates [] w.walk)

end Stepwise
