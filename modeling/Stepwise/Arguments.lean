import Stepwise.Command

/-!
# Arguments

Arguments are read from the left. The word after `--script` is its value, whatever it looks like;
any other word that starts with a dash is an option, and at most one word names the workflow. Help
and version are given as soon as they are asked for.
-/

namespace Stepwise

structure Options where
  workflow : String
  script : Option String
  skipSleep : Bool
  json : Bool
  validateOnly : Bool
  verbose : Bool
  deriving DecidableEq, Repr

/-- Commands are read from the terminal unless there is a script. -/
def Options.isInteractive (o : Options) : Bool := o.script.isNone

inductive Invocation where
  | help
  | version
  | run (options : Options)
  deriving DecidableEq, Repr

inductive ArgumentError where
  | missingScript
  | unknownOption (word : String)
  | unexpected (word : String)
  deriving DecidableEq, Repr

def ArgumentError.message : ArgumentError → String
  | .missingScript => "--script requires a path argument"
  | .unknownOption word => "Unknown option: " ++ word
  | .unexpected word => "Unexpected argument: " ++ word

namespace Options

def default : Options := ⟨"workflow.yaml", none, false, false, false, false⟩

/-- The options with a flag set. -/
def setFlag? (word : String) (o : Options) : Option Options :=
  if word = "--skip-sleep" then some { o with skipSleep := true }
  else if word = "--json" then some { o with json := true }
  else if word = "--validate" then some { o with validateOnly := true }
  else if word = "--verbose" ∨ word = "-v" then some { o with verbose := true }
  else none

end Options

namespace Invocation

def startsWithDash (word : String) : Bool := word.toList.head? = some '-'

/-- Reads on from options; `named` tells whether the workflow has been named. -/
def readFrom (o : Options) (named : Bool) : List String → Except ArgumentError Invocation
  | [] => .ok (.run o)
  | word :: rest =>
    if word = "--help" ∨ word = "-h" then .ok .help
    else if word = "--version" ∨ word = "-V" then .ok .version
    else if word = "--script" then
      match rest with
      | [] => .error .missingScript
      | path :: rest => readFrom { o with script := some path } named rest
    else
      match o.setFlag? word with
      | some o => readFrom o named rest
      | none =>
        if startsWithDash word then .error (.unknownOption word)
        else if named then .error (.unexpected word)
        else readFrom { o with workflow := word } true rest

def read (words : List String) : Except ArgumentError Invocation := readFrom .default false words

def usage : String :=
  "Usage: flowrunner [OPTIONS] <WORKFLOW_FILE>

Arguments:
  <WORKFLOW_FILE>     Path to workflow YAML file

Options:
  --script PATH       Read commands from a file instead of stdin
  --skip-sleep        Allow 'skip' to end timed waits early
  --json              Print a JSON snapshot after every command
  --validate          Load and validate the workflow, then exit
  --verbose           Enable debug logging
  --help              Show this help message
  --version           Show version information

" ++ Command.helpText

end Invocation

end Stepwise
