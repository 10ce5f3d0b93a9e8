import Stepwise.About
import Stepwise.Script
import Stepwise.Session
import Stepwise.Template.File

/-!
# The program

From its arguments to its exit code, in steps between which something is wanted from outside: the
content of the workflow file, the script, or a line of input.
-/

namespace Stepwise

/-- What is written, and then a value to go on with, or the code with which the program ends. -/
structure Step (α : Type) where
  output : List Output
  next : Except UInt32 α

namespace Step

variable {α β : Type}

instance : Monad Step where
  pure a := ⟨[], .ok a⟩
  bind s f :=
    match s.next with
    | .ok a => ⟨s.output ++ (f a).output, (f a).next⟩
    | .error code => ⟨s.output, .error code⟩

def write (output : List Output) : Step Unit := ⟨output, .ok ()⟩

def finish (output : List Output) : Step α := ⟨output, .error 0⟩

def fail (output : List Output) (reason : String) : Step α := ⟨output ++ [.fatal reason], .error 1⟩

end Step

namespace Program

def banner (paint : Paint) : Output :=
  .line ("\n" ++ paint.bold About.name ++ " v" ++ About.version ++ "\n" ++ About.summary ++ "\n")

def start (paint : Paint) (arguments : List String) : Step Options :=
  match Invocation.read arguments with
  | .error e =>
    .fail [.reported ("Error: " ++ e.message ++ "\n\n"), .line Invocation.usage] e.message
  | .ok .help => .finish [.line Invocation.usage]
  | .ok .version => .finish [.line (About.name ++ " " ++ About.version)]
  | .ok (.run options) =>
    ⟨[banner paint, .reported s!"Loading workflow: {options.workflow}\n"], .ok options⟩

def loadedMessage (w : Workflow) : String :=
  s!"Workflow '{w.description}' loaded: {w.blocks.length} top-level blocks, " ++
    s!"{w.walk.length} in total\n"

/-- Goes on with the content of the workflow file. -/
def load (paint : Paint) (options : Options) (content : Except FileError ByteArray) :
    Step Session :=
  let (answer, cautions) := Workflow.loadFile options.workflow content
  let warnings := cautions.map fun caution => Output.warning caution.message
  match answer with
  | .error e =>
    .fail (warnings ++ [.failure ("Failed to load workflow: " ++ e.message)])
      (s!"Could not load workflow from '{options.workflow}': " ++ e.message)
  | .ok w =>
    let output := warnings ++ [.reported (loadedMessage w)]
    if options.validateOnly then .finish (output ++ [.line (paint.green "Workflow is valid")])
    else ⟨output, .ok (.ofWorkflow options paint w)⟩

/-- Goes on with a script, or what stands for it while it is read. -/
def openScript {α : Type} (path : String) : Except FileError α → Step α
  | .ok script => ⟨[.reported s!"Reading commands from: {path}\n"], .ok script⟩
  | .error e => .fail [] (s!"Could not open script '{path}': " ++ e.message)

/-- Ends the program after its session, with the report of its timeline. -/
def close {α : Type} (session : Session) : Step α :=
  let closing := session.finish
  match closing.result with
  | .ok () => .finish (closing.output ++ [.line closing.session.timeline.report])
  | .error e => .fail closing.output e.message

def afterTurn (turn : Turn) : Step Session :=
  match turn.result with
  | .error e => .fail turn.output e.message
  | .ok true => ⟨turn.output, .ok turn.session⟩
  | .ok false => do
    Step.write turn.output
    close turn.session

def begin (now : Int) (session : Session) : Step Session := afterTurn (session.start now)

/-- Goes on with a line of input. -/
def receive (now : Int) (line : InputLine) (session : Session) : Step Session :=
  match line with
  | .error e => .fail [] e.message
  | .ok text => afterTurn (session.line text now)

def receiveAll (now : Int) : List InputLine → Session → Step Unit
  | [], session => close session
  | line :: rest, session => do
    let session ← receive now line session
    receiveAll now rest session

/-- The whole program, with the files that it finds and its input. No time passes in it. -/
def replay (paint : Paint) (arguments : List String) (folder : Folder) (input : ByteArray) :
    Step Unit := do
  let options ← start paint arguments
  let session ← load paint options (folder.read options.workflow)
  let lines ←
    match options.script with
    | none => pure (Script.lines input)
    | some path => openScript path (Script.opened (folder.read path))
  let session ← begin 0 session
  receiveAll 0 lines session

end Program

end Stepwise
