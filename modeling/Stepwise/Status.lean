import Stepwise.Snapshot

/-!
# Status text

A snapshot as an indented tree: a line for the current block, its countdown, what comes next, and
then each thread under its path.
-/

namespace Stepwise

/-- A path of branch numbers as it is written after an at sign. -/
def pathText (path : List Nat) : String := "/".intercalate (path.map toString)

def BlockView.describe (b : BlockView) : String :=
  let tally :=
    match b.todo, b.remaining with
    | some todo, some remaining => s!" ({todo} of {remaining} to do)"
    | _, _ => ""
  s!"[{b.index}] " ++ b.text ++ tally

def Preview.text : Preview → String
  | .unknown => "???"
  | .block text => text
  | .final => "END"

mutual

/-- The lines of a snapshot, each behind `indent`. -/
def Snapshot.lines (indent : String) : Snapshot → List String
  | ⟨_, _, _, none, _, _⟩ => [indent ++ "(finished)"]
  | ⟨_, _, _, some current, next, threads⟩ =>
    [indent ++ current.describe] ++
      (current.countdown.toList.map fun text => indent ++ "  " ++ text) ++
      (next.toList.map fun next => indent ++ "  next: " ++ next.text) ++
      threadLines indent threads

def threadLines (indent : String) : List ThreadView → List String
  | [] => []
  | ⟨_, execution⟩ :: rest =>
    (indent ++ "  @" ++ pathText execution.address ++ ":") ::
      (execution.lines (indent ++ "    ") ++ threadLines indent rest)

end

def Snapshot.status (s : Snapshot) : String := String.join ((s.lines "").map (· ++ "\n"))

end Stepwise
