import Stepwise.Reminder

/-!
# Services

A run asks its host for two services: recurring reminders, which can be paused all together, and a
countdown for waits. A host may answer any request with an error, and may change its own state with
any answer.
-/

namespace Stepwise

inductive ServiceError where
  | timer (detail : String)
  | countdown (detail : String)
  deriving DecidableEq, Repr

def ServiceError.message : ServiceError → String
  | .timer detail => "timer service failed: " ++ detail
  | .countdown detail => "countdown service failed: " ++ detail

/-- What a host with state `σ` does on each request. A countdown is started for a route, the
address of the sequence that waits for it. -/
structure Services (σ : Type) where
  addReminder : String → Reminder → σ → Except ServiceError Nat × σ
  removeReminder : Nat → σ → Except ServiceError Unit × σ
  setPaused : Bool → σ → Except ServiceError Unit × σ
  startCountdown : Int64 → TimeUnit → List Nat → σ → Except ServiceError Unit × σ
  forceFinish : σ → Except ServiceError Unit × σ
  cancelCountdown : List Nat → σ → Except ServiceError Unit × σ

/-- A host whose countdown cannot be cancelled for one route ends whatever is running instead. -/
def Services.withoutRoutes {σ : Type} (s : Services σ) : Services σ :=
  { s with cancelCountdown := fun _ => s.forceFinish }

end Stepwise
