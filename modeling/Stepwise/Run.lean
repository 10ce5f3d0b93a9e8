import Stepwise.Execution.Dispatch

/-!
# Runs

A run is a root execution with its world. The host starts it, delivers events to it, may add blocks
to it at any time and may hold reminders back. After an error the run can go on from where it then
stands.
-/

namespace Stepwise

inductive RunError where
  | alreadyStarted
  | service (error : ServiceError)
  deriving DecidableEq, Repr

def RunError.message : RunError → String
  | .alreadyStarted => "execution has already been started"
  | .service error => error.message

structure Run (σ : Type) where
  root : Execution
  world : World σ

namespace Run

variable {σ : Type}

def create (root : Execution) (host : σ) : Run σ := ⟨root, ⟨host, .empty, []⟩⟩

/-- A run of a workflow that is yet to be started. -/
def ofWorkflow (w : Workflow) (host : σ) : Run σ :=
  let run := create (.ofWorkflow w) host
  { run with
    world := (run.world.note (.opened (some w.description) w.reminder)).noteBuilt w.blocks }

def ofOutcome (o : Outcome σ Execution Unit) : Except RunError Unit × Run σ :=
  (o.result.mapError .service, ⟨o.part, o.world⟩)

variable (services : Services σ)

/-- Starts the reminder of a described sequence and then enters its first block. -/
def begin (e : Execution) (w : World σ) : Outcome σ Execution Unit :=
  let e := { e with started := true }
  match e.reminder, e.description with
  | some reminder, some description =>
    match w.addReminder services description reminder with
    | (.error error, w) => ⟨.error error, e, w⟩
    | (.ok id, w) => Execution.enter services { e with handle := some id } w
  | _, _ => Execution.enter services e w

def start (r : Run σ) : Except RunError Unit × Run σ :=
  if r.root.started then (.error .alreadyStarted, r)
  else ofOutcome (begin services r.root r.world)

def dispatch (path : List Nat) (event : Event) (r : Run σ) : Except RunError Unit × Run σ :=
  ofOutcome (r.root.dispatch services event path r.world)

def requestPause (r : Run σ) : Except RunError Nat × Run σ :=
  let (answer, world) := r.world.requestPause services
  (answer.mapError .service, { r with world })

def releasePause (token : Nat) (r : Run σ) : Except RunError Unit × Run σ :=
  let (answer, world) := r.world.releasePause services token
  (answer.mapError .service, { r with world })

/-- The pause requests of the execution at a path of branch numbers. -/
def pauseRequests? (r : Run σ) : List Nat → Option PauseRequests
  | [] => some r.world.pause
  | path => (r.root.thread? path).map (·.pause)

/-- Makes blocks for the host to add. -/
def build (templates : List Template) (r : Run σ) : List Block × Run σ :=
  (templates.map Block.ofTemplate, { r with world := r.world.noteBuilt templates })

def push (block : Block) (r : Run σ) : Run σ :=
  { r with root := { r.root with toSequence := r.root.toSequence.push block } }

def splice (blocks : List Block) (r : Run σ) : Run σ :=
  { r with root := { r.root with toSequence := r.root.toSequence.splice blocks } }

def changeHost (change : σ → σ) (r : Run σ) : Run σ :=
  { r with world := { r.world with host := change r.world.host } }

end Run

end Stepwise
