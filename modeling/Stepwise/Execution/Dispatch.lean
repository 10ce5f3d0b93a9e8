import Stepwise.Execution.Entering

/-!
# Delivering events

An event goes to the current block of the thread at its path. A block that does not take the event,
a path that leads nowhere and an execution that is not running only give a notice.
-/

namespace Stepwise

variable {σ : Type} (services : Services σ)

/-- What a block makes of an event: it waits on, or it leaves and puts blocks after itself. -/
inductive Reaction where
  | stay
  | leave (after : List Block)

namespace Block

/-- Hands the reminder on to the last of the blocks, if there is one. -/
def handOn (b : Block) (blocks : List Block) : Block × List Block :=
  match b.handle, blocks.getLast? with
  | some id, some last =>
    ({ b with handle := none }, blocks.dropLast ++ [last.addHook (.removeReminder id)])
  | _, _ => (b, blocks)

/-- Answers a condition: the branch chosen comes next, and the reminder runs until its end. -/
def choose (b : Block) (branch : List Template) (w : World σ) : Outcome σ Block Reaction :=
  let (b, blocks) := b.handOn (branch.map ofTemplate)
  ⟨.ok (.leave blocks), b, w.noteBuilt branch⟩

/-- Answers a loop: its body and its next pass come next, or it ends. -/
def answer (b : Block) (loop : LoopKind) (body : List Template) (yes : Bool) (w : World σ) :
    Outcome σ Block Reaction :=
  if loop.continuesOn yes then
    let after := body.map ofTemplate ++ [b.successor (.asked loop body)]
    ⟨.ok (.leave after), { b with handle := none }, w.noteBuilt body⟩
  else ⟨.ok (.leave []), b, w⟩

def react (b : Block) (event : Event) (w : World σ) : Outcome σ Block Reaction :=
  match event, b.activity with
  | .done, .task => ⟨.ok (.leave []), b, w⟩
  | .yes, .condition onYes _ => b.choose onYes w
  | .no, .condition _ onNo => b.choose onNo w
  | .yes, .asked loop body => b.answer loop body true w
  | .no, .asked loop body => b.answer loop body false w
  | .tick remaining, .sleep sleep =>
    ⟨.ok .stay, { b with activity := .sleep { sleep with remaining } }, w⟩
  | .elapsed, .sleep sleep =>
    ⟨.ok (.leave []), { b with activity := .sleep { sleep with remaining := .zero } }, w⟩
  | .skip, .sleep sleep =>
    match w.forceFinish services with
    | (.ok (), w) =>
      ⟨.ok (.leave []), { b with activity := .sleep { sleep with remaining := .zero } }, w⟩
    | (.error e, w) => ⟨.error e, b, w⟩
  | _, _ => ⟨.ok .stay, b, w.passOver (.notApplicable event b.type b.shownText)⟩

end Block

namespace Execution

/-- Leaves the current block, after cancelling its threads, and goes on with the blocks ahead. -/
def leave (b : Block) (ahead : List Block) (e : Execution) (w : World σ) :
    Outcome σ Execution Unit :=
  let stuck (b : Block) : Execution := ⟨{ e.toSequence with ahead := b :: ahead }, []⟩
  (cancelThreads services e.threads w).bind (fun _ => stuck b) fun _ _ w =>
    (b.leave services w).bind stuck fun _ b w =>
      Execution.enter services ⟨e.advance b ahead, []⟩ (e.noteLeft b w)

/-- Goes on after a thread of the group has taken an event, with the threads before and after it. -/
def afterThread (b : Block) (rest : List Block) (join : Join) (before after : List Thread)
    (thread : Thread) (e : Execution) (w : World σ) : Outcome σ Execution Unit :=
  let regrouped (join : Join) (threads : List Thread) : Execution :=
    ⟨{ e.toSequence with ahead := { b with activity := .parallel join } :: rest }, threads⟩
  if thread.execution.finished then
    (join.complete services (before ++ after) w).bind
      (fun (join, threads) => regrouped join threads) fun ended (join, threads) w =>
        if ended then
          (regrouped join threads).leave services { b with activity := .parallel join } rest w
        else ⟨.ok (), regrouped join threads, w⟩
  else ⟨.ok (), { e with threads := before ++ thread :: after }, w⟩

def dispatch (event : Event) : List Nat → Execution → World σ → Outcome σ Execution Unit
  | path, e, w =>
    if !e.isRunning then ⟨.ok (), e, w.passOver (.notRunning event)⟩
    else
      match path, e.ahead with
      | _, [] => ⟨.ok (), e, w.passOver (.noBlock event)⟩
      | [], b :: rest =>
        (b.react services event w).bind (fun b => { e with ahead := b :: rest })
          fun reaction b w =>
            match reaction with
            | .stay => ⟨.ok (), { e with ahead := b :: rest }, w⟩
            | .leave after => e.leave services b (after ++ rest) w
      | branch :: path, b :: rest =>
        match b.join? with
        | none => ⟨.ok (), e, w.passOver (.notParallel event branch b.shownText)⟩
        | some join =>
          match findThread branch e.threads with
          | none => ⟨.ok (), e, w.passOver (.noThread branch event)⟩
          | some (before, t, after) =>
            (dispatch event path t.execution w).bind
              (fun x => { e with threads := before ++ { t with execution := x } :: after })
              fun _ x w =>
                e.afterThread services b rest join before after { t with execution := x } w

end Execution

end Stepwise
