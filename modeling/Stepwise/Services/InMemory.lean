import Stepwise.Services

/-!
# Services in memory

A reminder book and a countdown board that keep what they are asked for instead of measuring time.
Both count their requests, and both can be switched to refuse every one.
-/

namespace Stepwise

structure ReminderBook where
  lastId : Nat
  /-- In the order in which they were added, which is the order of their numbers. -/
  active : List (Nat × String × Reminder)
  paused : Bool
  /-- The earliest first. -/
  pauseChanges : List Bool
  added : Nat
  removed : Nat
  unknownRemovals : Nat
  failing : Bool
  deriving DecidableEq, Repr

namespace ReminderBook

def empty : ReminderBook := ⟨0, [], false, [], 0, 0, 0, false⟩

def ids (b : ReminderBook) : List Nat := b.active.map (·.1)

def labels (b : ReminderBook) : List String := b.active.map (·.2.1)

def unavailable : ServiceError := .timer "service unavailable"

def add (label : String) (r : Reminder) (b : ReminderBook) :
    Except ServiceError Nat × ReminderBook :=
  if b.failing then (.error unavailable, b)
  else
    let id := b.lastId + 1
    (.ok id, { b with lastId := id, active := b.active ++ [(id, label, r)], added := b.added + 1 })

def remove (id : Nat) (b : ReminderBook) : Except ServiceError Unit × ReminderBook :=
  if b.failing then (.error unavailable, b)
  else if id ∈ b.ids then
    (.ok (), { b with active := b.active.filter (·.1 ≠ id), removed := b.removed + 1 })
  else (.ok (), { b with unknownRemovals := b.unknownRemovals + 1 })

/-- A change to the state it already has is not recorded. -/
def setPaused (paused : Bool) (b : ReminderBook) : Except ServiceError Unit × ReminderBook :=
  if b.failing then (.error unavailable, b)
  else if b.paused = paused then (.ok (), b)
  else (.ok (), { b with paused, pauseChanges := b.pauseChanges ++ [paused] })

end ReminderBook

structure Countdown where
  seconds : Int64
  route : List Nat
  deriving DecidableEq, Repr

structure CountdownBoard where
  running : Option Countdown
  started : Nat
  forced : Nat
  failing : Bool
  deriving DecidableEq, Repr

namespace CountdownBoard

def empty : CountdownBoard := ⟨none, 0, 0, false⟩

def unavailable : ServiceError := .countdown "countdown unavailable"

/-- Unless it refuses, the board becomes the one given. -/
def answer (b next : CountdownBoard) : Except ServiceError Unit × CountdownBoard :=
  if b.failing then (.error unavailable, b) else (.ok (), next)

/-- Replaces a countdown that is still running. -/
def start (value : Int64) (unit : TimeUnit) (route : List Nat) (b : CountdownBoard) :
    Except ServiceError Unit × CountdownBoard :=
  b.answer { b with running := some ⟨unit.toSeconds value, route⟩, started := b.started + 1 }

def forceFinish (b : CountdownBoard) : Except ServiceError Unit × CountdownBoard :=
  b.answer { b with running := none, forced := b.forced + 1 }

/-- Stops the countdown of a route and leaves that of any other one alone. -/
def cancel (route : List Nat) (b : CountdownBoard) : Except ServiceError Unit × CountdownBoard :=
  b.answer { b with running := b.running.filter (·.route ≠ route) }

/-- Ends the running countdown and tells its route. -/
def elapse (b : CountdownBoard) : Option (List Nat) × CountdownBoard :=
  (b.running.map (·.route), { b with running := none })

end CountdownBoard

structure InMemory where
  reminders : ReminderBook
  countdown : CountdownBoard
  deriving DecidableEq, Repr

namespace InMemory

def empty : InMemory := ⟨.empty, .empty⟩

def onReminders {α : Type} (call : ReminderBook → Except ServiceError α × ReminderBook)
    (m : InMemory) : Except ServiceError α × InMemory :=
  let (answer, reminders) := call m.reminders
  (answer, { m with reminders })

def onCountdown {α : Type} (call : CountdownBoard → Except ServiceError α × CountdownBoard)
    (m : InMemory) : Except ServiceError α × InMemory :=
  let (answer, countdown) := call m.countdown
  (answer, { m with countdown })

def services : Services InMemory where
  addReminder label r := onReminders (ReminderBook.add label r)
  removeReminder id := onReminders (ReminderBook.remove id)
  setPaused paused := onReminders (ReminderBook.setPaused paused)
  startCountdown value unit route := onCountdown (CountdownBoard.start value unit route)
  forceFinish := onCountdown CountdownBoard.forceFinish
  cancelCountdown route := onCountdown (CountdownBoard.cancel route)

end InMemory

end Stepwise
