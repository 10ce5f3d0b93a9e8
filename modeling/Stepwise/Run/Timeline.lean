import Stepwise.Timeline
import Stepwise.World

/-!
# The timeline of a run

What the root execution reports while it runs: each block entered, each block left, and its end.
-/

namespace Stepwise

def Entry.timed? (time : Int) : Entry → Option TimedEvent
  | .entered [] index text => some ⟨index, text, .entered, time⟩
  | .left [] index text => some ⟨index, text, .left, time⟩
  | .finished [] => some ⟨0, "", .finished, time⟩
  | _ => none

/-- The reports of the root, all at one time. -/
def World.timeline {σ : Type} (time : Int) (w : World σ) : Timeline :=
  w.journal.reverse.filterMap (Entry.timed? time)

end Stepwise
