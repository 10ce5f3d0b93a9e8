import Stepwise.Event
import Stepwise.Pause
import Stepwise.Template

/-!
# The world of a run

Outside its tree of blocks a run has the host's state, the pause requests and a journal of all that
happened. An operation on a part of the tree ends with an answer or an error, and in both cases with
the part and the world as it left them.
-/

namespace Stepwise

/-- A request other than for a new reminder; a hook is a callback attached to a block. -/
inductive Request where
  | removeReminder (id : Nat)
  | setPaused (paused : Bool)
  | startCountdown (value : Int64) (unit : TimeUnit) (route : List Nat)
  | forceFinish
  | cancelCountdown (route : List Nat)
  | hook (name : String)
  deriving DecidableEq, Repr

/-- What a journal records. A sequence is referred to by its address, a block by its index. -/
inductive Entry where
  | added (label : String) (reminder : Reminder) (answer : Except ServiceError Nat)
  | asked (request : Request) (answer : Except ServiceError Unit)
  /-- A pause request was made, with this token. -/
  | pauseRequested (token : Nat)
  /-- A block was made from a template. -/
  | built (template : Template)
  /-- A sequence was made. -/
  | opened (description : Option String) (reminder : Option Reminder)
  | entered (address : List Nat) (index : Nat) (text : String)
  | left (address : List Nat) (index : Nat) (text : String)
  | finished (address : List Nat)
  | passedOver (notice : Notice)

namespace Entry

/-- The error with which a request was answered. -/
def failure? : Entry → Option ServiceError
  | .added _ _ (.error e) => some e
  | .asked _ (.error e) => some e
  | _ => none

def notice? : Entry → Option Notice
  | .passedOver notice => some notice
  | _ => none

end Entry

structure World (σ : Type) where
  host : σ
  pause : PauseRequests
  /-- The latest entry first. -/
  journal : List Entry

structure Outcome (σ τ α : Type) where
  result : Except ServiceError α
  part : τ
  world : World σ

namespace Outcome

variable {σ τ υ α β : Type}

/-- Goes on after an answer; an error ends the operation with the part as `wrap` puts it back. -/
def bind (o : Outcome σ τ α) (wrap : τ → υ) (next : α → τ → World σ → Outcome σ υ β) :
    Outcome σ υ β :=
  match o.result with
  | .ok a => next a o.part o.world
  | .error e => ⟨.error e, wrap o.part, o.world⟩

/-- The same end for a larger part. -/
def within (o : Outcome σ τ α) (wrap : τ → υ) : Outcome σ υ α := ⟨o.result, wrap o.part, o.world⟩

end Outcome

namespace World

variable {σ : Type}

def note (w : World σ) (entry : Entry) : World σ := { w with journal := entry :: w.journal }

def passOver (w : World σ) (notice : Notice) : World σ := w.note (.passedOver notice)

/-- Notes that the templates are made into blocks, in order. -/
def noteBuilt (templates : List Template) (w : World σ) : World σ :=
  { w with journal := (templates.map Entry.built).reverse ++ w.journal }

/-- Notes that each branch is made into a sequence of its own. -/
def noteOpened (branches : List (List Template)) (w : World σ) : World σ :=
  branches.foldl (fun w templates => noteBuilt templates (w.note (.opened none none))) w

def ask (request : Request) (call : σ → Except ServiceError Unit × σ) (w : World σ) :
    Except ServiceError Unit × World σ :=
  let (answer, host) := call w.host
  (answer, { w with host, journal := .asked request answer :: w.journal })

variable (services : Services σ)

def addReminder (label : String) (r : Reminder) (w : World σ) :
    Except ServiceError Nat × World σ :=
  let (answer, host) := services.addReminder label r w.host
  (answer, { w with host, journal := .added label r answer :: w.journal })

def removeReminder (id : Nat) : World σ → Except ServiceError Unit × World σ :=
  ask (.removeReminder id) (services.removeReminder id)

def setPaused (paused : Bool) : World σ → Except ServiceError Unit × World σ :=
  ask (.setPaused paused) (services.setPaused paused)

def startCountdown (value : Int64) (unit : TimeUnit) (route : List Nat) :
    World σ → Except ServiceError Unit × World σ :=
  ask (.startCountdown value unit route) (services.startCountdown value unit route)

def forceFinish : World σ → Except ServiceError Unit × World σ :=
  ask .forceFinish services.forceFinish

def cancelCountdown (route : List Nat) : World σ → Except ServiceError Unit × World σ :=
  ask (.cancelCountdown route) (services.cancelCountdown route)

def requestPause (w : World σ) : Except ServiceError Nat × World σ :=
  let (answer, pause, w) :=
    w.pause.request (setPaused services) (w.note (.pauseRequested w.pause.next))
  (answer, { w with pause })

def releasePause (token : Nat) (w : World σ) : Except ServiceError Unit × World σ :=
  let (answer, pause, w) := w.pause.release (setPaused services) token w
  (answer, { w with pause })

end World

end Stepwise
