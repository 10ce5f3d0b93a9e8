import Stepwise.Text.Numeral

/-!
# Timelines

A timeline records when blocks are entered and left, in microseconds since its start. A visit of a
block is a leaving, paired with the latest event at the same index before it if that is an entering.
-/

namespace Stepwise

inductive Mark where
  | entered
  | left
  | finished
  deriving DecidableEq, Repr

structure TimedEvent where
  index : Nat
  label : String
  mark : Mark
  time : Int
  deriving DecidableEq, Repr

structure Visit where
  index : Nat
  label : String
  duration : Int
  deriving DecidableEq, Repr

/-- The events of a run, the earliest recorded first. -/
abbrev Timeline := List TimedEvent

namespace Timeline

def isFinished (t : Timeline) : Bool := t.any (·.mark = .finished)

/-- The time of the event recorded last. -/
def elapsed (t : Timeline) : Int := (t.getLast?.map (·.time)).getD 0

/-- The entry times of blocks that have been entered and not left, by index. -/
abbrev Open := List (Nat × Int)

def visitsFrom (entries : Open) : Timeline → List Visit
  | [] => []
  | event :: rest =>
    let others := entries.filter (·.1 ≠ event.index)
    match event.mark with
    | .entered => visitsFrom ((event.index, event.time) :: others) rest
    | .left =>
      match entries.find? (·.1 = event.index) with
      | some (_, start) =>
        ⟨event.index, event.label, event.time - start⟩ :: visitsFrom others rest
      | none => visitsFrom entries rest
    | .finished => visitsFrom entries rest

def visits (t : Timeline) : List Visit := visitsFrom [] t

end Timeline

/-- Hours, minutes and seconds from a minute on, else milliseconds; all cut toward zero, and nothing
is below zero. -/
def durationText (microseconds : Int) : String :=
  let total := (microseconds.tdiv 1000000).toNat
  let seconds := Text.twoDigits (total % 60) ++ "s"
  if 3600 ≤ total then
    s!"{total / 3600}h " ++ Text.twoDigits (total % 3600 / 60) ++ "m " ++ seconds
  else if 60 ≤ total then s!"{total / 60}m " ++ seconds
  else s!"{(microseconds.tdiv 1000).toNat} ms"

/-- At most `width` characters, of which the last three are dots if the text is longer. -/
def cutText (width : Nat) (s : String) : String :=
  if s.length ≤ width then s else String.ofList (s.toList.take (width - 3)) ++ "..."

def labelWidth : Nat := 24

def Visit.line (v : Visit) : String :=
  Text.padLeft 4 ' ' (toString v.index) ++ "  " ++
    Text.padRight labelWidth (cutText labelWidth v.label) ++ " " ++ durationText v.duration ++ "\n"

def Timeline.report (t : Timeline) : String :=
  "\nExecution Timeline:\n\n" ++ String.join (t.visits.map Visit.line) ++
    "\nTotal: " ++ durationText t.elapsed ++ "\n"

end Stepwise
