import Stepwise.Block

/-!
# Leaving a block

A block that leaves first ends what it does itself, then gives back its reminder, then runs its
hooks. A block that is never entered gives back what it holds in the same way. A number or a hook is
given up before the host is asked, so that it is given up once also when the host fails.
-/

namespace Stepwise

variable {σ : Type} (services : Services σ)

namespace LeaveHook

def run (hook : LeaveHook) (w : World σ) : Except ServiceError Unit × World σ :=
  match hook with
  | .removeReminder id => w.removeReminder services id
  | .custom name failure =>
    let answer : Except ServiceError Unit :=
      match failure with
      | none => .ok ()
      | some e => .error e
    (answer, w.note (.asked (.hook name) answer))

/-- Runs hooks in order; those left over are the ones after a failure. -/
def runAll : List LeaveHook → World σ → Outcome σ (List LeaveHook) Unit
  | [], w => ⟨.ok (), [], w⟩
  | hook :: rest, w =>
    match hook.run services w with
    | (.ok (), w) => runAll rest w
    | (.error e, w) => ⟨.error e, rest, w⟩

end LeaveHook

namespace Sleep

def giveBackToken (s : Sleep) (w : World σ) : Outcome σ Sleep Unit :=
  match s.token with
  | none => ⟨.ok (), s, w⟩
  | some token =>
    let (answer, w) := w.releasePause services token
    ⟨answer, { s with token := none }, w⟩

/-- Ends a wait. One that still counts down is being cancelled, and its countdown goes first. -/
def release (s : Sleep) (w : World σ) : Outcome σ Sleep Unit :=
  if s.isRunning then
    match w.cancelCountdown services s.route with
    | (.ok (), w) => { s with remaining := .zero }.giveBackToken services w
    | (.error e, w) => ⟨.error e, s, w⟩
  else s.giveBackToken services w

end Sleep

namespace Block

/-- Ends what the block does itself. -/
def wrapUp (b : Block) (w : World σ) : Outcome σ Block Unit :=
  match b.activity with
  | .counted remaining entered body =>
    ⟨.ok (), { b with activity := .counted (remaining - 1) entered body }, w⟩
  | .sleep sleep =>
    (sleep.release services w).within fun sleep => { b with activity := .sleep sleep }
  | _ => ⟨.ok (), b, w⟩

def unregister (b : Block) (w : World σ) : Outcome σ Block Unit :=
  match b.handle with
  | none => ⟨.ok (), b, w⟩
  | some id =>
    let (answer, w) := w.removeReminder services id
    ⟨answer, { b with handle := none }, w⟩

def runHooks (b : Block) (w : World σ) : Outcome σ Block Unit :=
  (LeaveHook.runAll services b.hooks w).within fun hooks => { b with hooks }

/-- Gives back the reminder and runs the hooks. -/
def discard (b : Block) (w : World σ) : Outcome σ Block Unit :=
  (b.unregister services w).bind (fun b => b) fun _ b w => b.runHooks services w

/-- Leaves a block that has no threads. -/
def leave (b : Block) (w : World σ) : Outcome σ Block Unit :=
  (b.wrapUp services w).bind (fun b => b) fun _ b w => b.discard services w

/-- Starts the block's reminder unless it is running already. -/
def register (b : Block) (w : World σ) : Except ServiceError (Option Nat) × World σ :=
  match b.reminder, b.handle with
  | some reminder, none =>
    match w.addReminder services b.shownText reminder with
    | (.ok id, w) => (.ok (some id), w)
    | (.error e, w) => (.error e, w)
  | _, handle => (.ok handle, w)

end Block

/-- Discards blocks in order, up to one that fails. -/
def discardAll : List Block → World σ → Outcome σ (List Block) Unit
  | [], w => ⟨.ok (), [], w⟩
  | b :: rest, w =>
    (b.discard services w).bind (· :: rest) fun _ b w =>
      (discardAll rest w).within (b :: ·)

end Stepwise
