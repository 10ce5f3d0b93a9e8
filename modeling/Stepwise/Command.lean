import Stepwise.Binary64.Reading
import Stepwise.Event
import Stepwise.Text.Blank
import Stepwise.Text.Letters
import Stepwise.Text.Parts

/-!
# Commands

A command is a line of words. An event command may have an address in front, an at sign with branch
numbers between slashes; the other commands take none. Letters of a command may have either case,
and words after a complete command are passed over.
-/

namespace Stepwise

inductive Command where
  | event (path : List Nat) (event : Event)
  /-- Lets the running countdown run out. -/
  | wait
  | pause
  | resume
  | status
  | help
  | quit
  deriving DecidableEq, Repr

inductive CommandError where
  | empty
  | unknown (word : String)
  | invalidPath (text : String)
  | missingArgument (command : String)
  | invalidNumber (text : String)
  | unexpectedPath (word : String)
  deriving DecidableEq, Repr

def CommandError.message : CommandError → String
  | .empty => "empty command"
  | .unknown word => s!"unknown command '{word}'"
  | .invalidPath text => s!"invalid thread path '{text}'"
  | .missingArgument command => s!"'{command}' needs an argument"
  | .invalidNumber text => s!"invalid number '{text}'"
  | .unexpectedPath word => s!"'{word}' does not take a thread path"

namespace Command

/-- Branch numbers are 64-bit. -/
def branchBound : Nat := UInt64.size

def readPath (text : List Char) : Except CommandError (List Nat) :=
  if text.isEmpty then .ok []
  else
    match (Text.parts '/' text).mapM (Text.readNumeral branchBound) with
    | some path => .ok path
    | none => .error (.invalidPath (String.ofList text))

/-- The event that a word stands for by itself. -/
def plainEvent? (word : String) : Option Event :=
  if word = "done" ∨ word = "d" then some .done
  else if word = "yes" ∨ word = "y" then some .yes
  else if word = "no" ∨ word = "n" then some .no
  else if word = "skip" then some .skip
  else none

def control? (word : String) : Option Command :=
  if word = "wait" ∨ word = "w" then some .wait
  else if word = "pause" then some .pause
  else if word = "resume" then some .resume
  else if word = "status" ∨ word = "s" then some .status
  else if word = "help" ∨ word = "?" then some .help
  else if word = "quit" ∨ word = "q" ∨ word = "exit" then some .quit
  else none

def readTick : List (List Char) → Except CommandError Event
  | [] => .error (.missingArgument "tick")
  | number :: _ =>
    match Binary64.read (String.ofList number) with
    | some seconds => .ok (.tick seconds)
    | none => .error (.invalidNumber (String.ofList number))

/-- Reads the words of a command after its address, if it has one. -/
def readWords (path : Option (List Nat)) : List (List Char) → Except CommandError Command
  | [] => .error .empty
  | first :: rest =>
    let word := Text.foldCase first
    match plainEvent? word with
    | some found => .ok (.event (path.getD []) found)
    | none =>
      if word = "tick" then (readTick rest).map (.event (path.getD []))
      else if path.isSome then .error (.unexpectedPath word)
      else
        match control? word with
        | some command => .ok command
        | none => .error (.unknown word)

def read (line : String) : Except CommandError Command :=
  match Text.words line.toList with
  | ('@' :: address) :: rest => do
    let path ← readPath address
    readWords (some path) rest
  | words => readWords none words

def helpText : String :=
  "Commands:
  [@PATH] done       confirm the current task (d)
  [@PATH] yes | no   answer the current question (y, n)
  [@PATH] skip       end a running sleep early
  [@PATH] tick SECS  report countdown progress
  wait               let the running countdown elapse (w)
  pause | resume     hold or release reminder notifications
  status             show where the workflow stands (s)
  help               show this list (?)
  quit               stop the run (q)

PATH selects a parallel thread, e.g. @0 or @1/2"

end Command

end Stepwise
