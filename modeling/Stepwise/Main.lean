import Stepwise.Program

/-!
# The command line

Carries out the steps of the program on the terminal and on files.
-/

namespace Stepwise.Terminal

def write : Output → IO Unit
  | .shown text => do
    let out ← IO.getStdout
    out.putStr text
    out.flush
  | .reported text => do (← IO.getStderr).putStr text

def perform {α : Type} (step : Step α) (next : α → IO UInt32) : IO UInt32 := do
  step.output.forM write
  match step.next with
  | .ok a => next a
  | .error code => return code

/-- The system's number of an error, which may come with a sign. -/
def errorNumber (code : UInt32) : UInt32 := min code (0 - code)

def fileError (e : IO.Error) : FileError :=
  match e with
  | .noFileOrDirectory _ _ _ => .notFound
  | .inappropriateType _ code _ | .invalidArgument _ code _ =>
    match errorNumber code with
    | 20 => .notDirectory
    | 21 => .isDirectory
    | 36 => .nameTooLong
    | _ => .other (toString e)
  | _ => .other (toString e)

def attempt {α : Type} (action : IO α) : IO (Except FileError α) :=
  try return .ok (← action)
  catch e => return .error (fileError e)

/-- The bytes up to the end of a line. -/
partial def readBytes (read : USize → IO ByteArray) (found : ByteArray) : IO ByteArray := do
  let next ← read 1
  if next.isEmpty then return found
  else if next.toList = [10] then return found ++ next
  else readBytes read (found ++ next)

/-- The next line, or none at the end of the input. -/
def readLine (read : USize → IO ByteArray) : IO (Option InputLine) := do
  match ← attempt (readBytes read .empty) with
  | .error e => return some (.error e)
  | .ok bytes => return (Script.lines bytes).head?

/-- Microseconds since a moment in nanoseconds. -/
def elapsed (since : Nat) : IO Int := do return ((← IO.monoNanosNow) - since : Int) / 1000

partial def converse (read : USize → IO ByteArray) (since : Nat) (session : Session) :
    IO UInt32 := do
  match ← readLine read with
  | none => perform (Program.close session) fun () => return 0
  | some line =>
    let now ← elapsed since
    perform (Program.receive now line session) (converse read since)

def chosenPaint : IO Paint := do
  let terminal ← (← IO.getStdout).isTty
  return .chosen (← IO.getEnv "CLICOLOR_FORCE") (← IO.getEnv "NO_COLOR") (← IO.getEnv "CLICOLOR")
    terminal

def openInput (options : Options) : IO (Step (USize → IO ByteArray)) := do
  match options.script with
  | none => return pure (← IO.getStdin).read
  | some path =>
    let handle ← attempt (IO.FS.Handle.mk path .read)
    return Program.openScript path (handle.map fun h => h.read)

end Stepwise.Terminal

open Stepwise Terminal in
def main (arguments : List String) : IO UInt32 := do
  let paint ← chosenPaint
  perform (Program.start paint arguments) fun options => do
    let content ← attempt (IO.FS.readBinFile options.workflow)
    perform (Program.load paint options content) fun session => do
      perform (← openInput options) fun read => do
        let since ← IO.monoNanosNow
        perform (Program.begin 0 session) (converse read since)
