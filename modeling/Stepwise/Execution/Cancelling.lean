import Stepwise.Block.Leaving
import Stepwise.Execution

/-!
# Cancelling threads

A running thread that is cancelled leaves its current block, after cancelling the threads of that
block, and enters nothing more. The blocks still ahead give back what they hold, and last the thread
gives back its own reminder.
-/

namespace Stepwise

variable {σ : Type} (services : Services σ)

namespace Sequence

def noteLeft (s : Sequence) (b : Block) (w : World σ) : World σ :=
  w.note (.left s.address s.cursor b.shownText)

def noteEntered (s : Sequence) (b : Block) (w : World σ) : World σ :=
  w.note (.entered s.address s.cursor b.shownText)

def unregister (s : Sequence) (w : World σ) : Outcome σ Sequence Unit :=
  match s.handle with
  | none => ⟨.ok (), s, w⟩
  | some id =>
    let (answer, w) := w.removeReminder services id
    ⟨answer, { s with handle := none }, w⟩

/-- Discards all blocks ahead and then the sequence's own reminder. -/
def giveUp (s : Sequence) (w : World σ) : Outcome σ Sequence Unit :=
  (discardAll services s.ahead w).bind (fun ahead => { s with ahead }) fun _ ahead w =>
    { s with ahead }.unregister services w

/-- Stops a sequence whose current block has no threads. -/
def halt (s : Sequence) (w : World σ) : Outcome σ Sequence Unit :=
  match s.ahead with
  | [] => s.giveUp services w
  | b :: rest =>
    (b.leave services w).bind (fun b => { s with ahead := b :: rest }) fun _ b w =>
      (s.advance b rest).giveUp services (s.noteLeft b w)

end Sequence

mutual

def Execution.cancel : Execution → World σ → Outcome σ Execution Unit
  | ⟨line, threads⟩, w =>
    if line.isRunning then
      (cancelThreads threads w).bind (fun _ => ⟨{ line with cancelled := true }, []⟩) fun _ _ w =>
        ({ line with cancelled := true }.halt services w).within (⟨·, []⟩)
    else ⟨.ok (), ⟨line, threads⟩, w⟩

/-- Cancels threads in order. All of them are gone afterwards, even if one fails. -/
def cancelThreads : List Thread → World σ → Outcome σ Unit Unit
  | [], w => ⟨.ok (), (), w⟩
  | ⟨_, execution⟩ :: rest, w =>
    (execution.cancel w).bind (fun _ => ()) fun _ _ w => cancelThreads rest w

end

/-- Counts a thread that has finished, `others` being the threads that are left. Once none is left
or enough have finished the others are cancelled; the answer is whether the group ends with this. -/
def Join.complete (j : Join) (others : List Thread) (w : World σ) :
    Outcome σ (Join × List Thread) Bool :=
  let counted := { j with completed := j.completed + 1 }
  if others.isEmpty ∨ counted.completed = counted.choose then
    (cancelThreads services others w).bind (fun _ => (counted, [])) fun _ _ w =>
      if counted.done then ⟨.ok false, (counted, []), w⟩
      else ⟨.ok true, ({ counted with done := true }, []), w⟩
  else ⟨.ok false, (counted, others), w⟩

end Stepwise
