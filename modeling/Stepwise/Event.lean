import Stepwise.Binary64.Shortest

/-!
# Events

What a host reports to a block, and the notices given when an event is passed over.
-/

namespace Stepwise

inductive Event where
  | done
  | yes
  | no
  | skip
  /-- Countdown progress, in seconds that remain. -/
  | tick (remaining : Binary64)
  | elapsed
  deriving DecidableEq, Repr

def Event.text : Event → String
  | .done => "Done"
  | .yes => "SelectYes"
  | .no => "SelectNo"
  | .skip => "ForceFinish"
  | .tick remaining => "CountdownTick(" ++ remaining.text ++ ")"
  | .elapsed => "CountdownElapsed"

/-- How a block is shown. The codes are fixed; `final` marks the end of a sequence. -/
inductive BlockType where
  | simple
  | conditional
  | timer
  | parallel
  | final
  | loop
  deriving DecidableEq, Repr

namespace BlockType

def code : BlockType → Nat
  | .simple => 1
  | .conditional => 2
  | .timer => 3
  | .parallel => 4
  | .final => 5
  | .loop => 6

def name : BlockType → String
  | .simple => "simple"
  | .conditional => "conditional"
  | .timer => "timer"
  | .parallel => "parallel"
  | .final => "end"
  | .loop => "repeat"

def title : BlockType → String
  | .simple => "Simple"
  | .conditional => "Conditional"
  | .timer => "Timer"
  | .parallel => "Parallel"
  | .final => "End"
  | .loop => "Repeat"

end BlockType

/-- Why an event was passed over. -/
inductive Notice where
  | notRunning (event : Event)
  | noBlock (event : Event)
  | notParallel (event : Event) (branch : Nat) (text : String)
  | noThread (branch : Nat) (event : Event)
  | notApplicable (event : Event) (type : BlockType) (text : String)
  deriving DecidableEq, Repr

def Notice.message : Notice → String
  | .notRunning event => "Ignoring " ++ event.text ++ ": execution is not running"
  | .noBlock event => "Ignoring " ++ event.text ++ ": no current block"
  | .notParallel event branch text =>
    "Ignoring " ++ event.text ++ s!" for thread {branch}: current block '{text}' is not parallel"
  | .noThread branch event =>
    s!"No running thread for branch {branch}, ignoring " ++ event.text
  | .notApplicable event type text =>
    "Ignoring " ++ event.text ++ " for " ++ type.title ++ s!" block '{text}'"

end Stepwise
