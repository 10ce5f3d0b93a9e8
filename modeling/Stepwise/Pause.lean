import Stepwise.Services

/-!
# Pause requests

Reminders are paused while at least one request is outstanding. Only the first request and the last
release ask the host. Tokens are 32-bit numbers that are given out in turn and start again at zero.
-/

namespace Stepwise

structure PauseRequests where
  outstanding : List Nat
  next : Nat
  deriving DecidableEq, Repr

namespace PauseRequests

def tokenCount : Nat := UInt32.size

def empty : PauseRequests := ⟨[], 0⟩

def isPaused (p : PauseRequests) : Bool := !p.outstanding.isEmpty

variable {α : Type} (setPaused : Bool → α → Except ServiceError Unit × α)

/-- Takes a token. It is used up even if the host refuses to pause. -/
def request (p : PauseRequests) (a : α) : Except ServiceError Nat × PauseRequests × α :=
  let taken := { p with next := (p.next + 1) % tokenCount }
  let granted := { taken with outstanding := p.outstanding.insert p.next }
  if p.isPaused then (.ok p.next, granted, a)
  else
    match setPaused true a with
    | (.ok (), a) => (.ok p.next, granted, a)
    | (.error e, a) => (.error e, taken, a)

/-- Gives a token back; one that is not outstanding is passed over. The token is gone even if the
host refuses to resume. -/
def release (token : Nat) (p : PauseRequests) (a : α) :
    Except ServiceError Unit × PauseRequests × α :=
  if token ∈ p.outstanding then
    let p := { p with outstanding := p.outstanding.erase token }
    if p.isPaused then (.ok (), p, a)
    else
      let (answer, a) := setPaused false a
      (answer, p, a)
  else (.ok (), p, a)

end PauseRequests

end Stepwise
