import Stepwise.Arguments
import Stepwise.Paint
import Stepwise.Run
import Stepwise.Run.Timeline
import Stepwise.Services.InMemory
import Stepwise.Status
import Stepwise.Value.Json

/-!
# Sessions

A session carries out commands on a run with services in memory, and shows what comes of them. Each
turn is given the time since the session began, which all events in it bear.
-/

namespace Stepwise

/-- What is written for the user, and what is reported beside it. -/
inductive Output where
  | shown (text : String)
  | reported (text : String)
  deriving DecidableEq, Repr

namespace Output

def line (text : String) : Output := .shown (text ++ "\n")

def warning (text : String) : Output := .reported ("[WARN] " ++ text ++ "\n")

def failure (text : String) : Output := .reported ("[ERROR] " ++ text ++ "\n")

/-- The reason why the program ends. -/
def fatal (text : String) : Output := .reported ("\nError: " ++ text ++ "\n")

end Output

structure Session where
  run : Run InMemory
  /-- The pauses that are held, the latest first. -/
  tokens : List Nat
  timeline : Timeline
  options : Options
  paint : Paint

/-- What a turn writes, and whether the session goes on after it. -/
structure Turn where
  output : List Output
  session : Session
  result : Except RunError Bool

/-- What ending a session writes, and the session as it is then. -/
structure Closing where
  output : List Output
  session : Session
  result : Except RunError Unit

namespace Session

def services : Services InMemory := InMemory.services

def ofWorkflow (o : Options) (paint : Paint) (w : Workflow) : Session :=
  ⟨.ofWorkflow w .empty, [], [], o, paint⟩

def entryOutput? (paint : Paint) : Entry → Option Output
  | .entered [] _ text => some (.line (paint.cyan "->" ++ " " ++ paint.bold text))
  | .passedOver notice => some (.warning notice.message)
  | _ => none

/-- Where the run stands. -/
def statusOutput (s : Session) : List Output :=
  let snapshot := s.run.root.snapshot
  let host := s.run.world.host
  if s.options.json then [.line (snapshot.encode.indented 0)]
  else
    [if snapshot.finished then .line (s.paint.boldGreen "Workflow finished")
      else .shown snapshot.status] ++
    (if host.reminders.paused then [.line (s.paint.dim "(reminders paused)")] else []) ++
    host.countdown.running.toList.map fun c =>
      .line (s.paint.yellow s!"(countdown: {c.seconds.toInt} s, 'wait' to finish)")

def promptOutput (s : Session) : List Output :=
  if s.options.isInteractive then [.shown "> "] else []

/-- The session with its run gone on, and what is to be said about the way. -/
def follow (now : Int) (run : Run InMemory) (s : Session) : List Output × Session :=
  let known := s.run.world.journal.length
  let entries := (run.world.journal.take (run.world.journal.length - known)).reverse
  (entries.filterMap (entryOutput? s.paint),
    { s with run, timeline := s.timeline ++ entries.filterMap (Entry.timed? now) })

/-- Ends a turn with the status, unless there was an error. -/
def turn (output : List Output) (answer : Except RunError Unit) (s : Session) : Turn :=
  match answer with
  | .ok () => ⟨output ++ s.statusOutput, s, .ok (!s.run.root.finished)⟩
  | .error e => ⟨output, s, .error e⟩

def passOver (output : List Output) (s : Session) : Turn := ⟨output, s, .ok true⟩

def call (now : Int) (answer : Except RunError Unit × Run InMemory) (s : Session) : Turn :=
  let (output, s) := s.follow now answer.2
  s.turn output answer.1

def start (now : Int) (s : Session) : Turn :=
  let turn := s.call now (s.run.start services)
  match turn.result with
  | .ok true => { turn with output := turn.output ++ s.promptOutput }
  | _ => turn

def wait (now : Int) (s : Session) : Turn :=
  let (route, countdown) := s.run.world.host.countdown.elapse
  match route with
  | none => s.passOver [.warning "No countdown is running"]
  | some route =>
    let run := s.run.changeHost fun host => { host with countdown }
    s.call now (run.dispatch services route .elapsed)

def pause (s : Session) : Turn :=
  match s.run.requestPause services with
  | (.ok token, run) => ({ s with run, tokens := token :: s.tokens }).turn [] (.ok ())
  | (.error e, run) => ({ s with run }).turn [] (.error e)

def resume (s : Session) : Turn :=
  match s.tokens with
  | [] => s.turn [.warning "Reminders are not paused"] (.ok ())
  | token :: tokens =>
    let (answer, run) := s.run.releasePause services token
    ({ s with run, tokens }).turn [] answer

def apply (command : Command) (now : Int) (s : Session) : Turn :=
  match command with
  | .quit => ⟨[], s, .ok false⟩
  | .help => s.passOver [.line Command.helpText]
  | .status => s.turn [] (.ok ())
  | .pause => s.pause
  | .resume => s.resume
  | .wait => s.wait now
  | .event path event =>
    if event = .skip ∧ !s.options.skipSleep then
      s.passOver [.warning "Skipping waits is disabled; start with --skip-sleep"]
    else s.call now (s.run.dispatch services path event)

/-- A line that is neither empty nor a comment. -/
def command (text : String) (now : Int) (s : Session) : Turn :=
  let echo := if s.options.isInteractive then [] else [Output.line ("> " ++ text)]
  let turn :=
    match Command.read text with
    | .ok command => s.apply command now
    | .error e => s.passOver [.warning (e.message ++ " (type 'help' for commands)")]
  { turn with output := echo ++ turn.output }

/-- Carries out a line of input and asks for the next one. -/
def line (text : String) (now : Int) (s : Session) : Turn :=
  let words := Text.trim text.toList
  let turn :=
    if words.isEmpty ∨ words.head? = some '#' then s.passOver []
    else s.command (String.ofList words) now
  match turn.result with
  | .ok true => { turn with output := turn.output ++ s.promptOutput }
  | _ => turn

/-- Gives back pauses, the latest first, up to one that is refused. What is left is kept. -/
def releaseAll : List Nat → Run InMemory → Except RunError Unit × List Nat × Run InMemory
  | [], run => (.ok (), [], run)
  | token :: rest, run =>
    match run.releasePause services token with
    | (.ok (), run) => releaseAll rest run
    | (.error e, run) => (.error e, rest, run)

/-- Gives back all pauses, and says where the run has stopped if it has not finished. -/
def finish (s : Session) : Closing :=
  let (answer, tokens, run) := releaseAll s.tokens s.run
  let stopped :=
    if run.root.finished then []
    else [Output.warning s!"Stopped at block {run.root.cursor + 1} of {run.root.length}"]
  match answer with
  | .ok () => ⟨stopped, { s with run, tokens }, .ok ()⟩
  | .error e => ⟨[], { s with run, tokens }, .error e⟩

end Session

end Stepwise
