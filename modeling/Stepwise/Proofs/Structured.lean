import Stepwise.Event
import Stepwise.Proofs.Settling

/-!
# Structured runs

A workflow can be run on its tree of templates, without any list of blocks. A sequence is then at
one of its templates, and a template that holds a sequence is at a place inside it; only a parallel
group is at several places at once. Loops are repeated in place, so that nothing is ever copied.
-/

namespace Stepwise

/-- A template where it stands in a workflow. The numbers of its spot are in turn the index of a
template in its sequence and the number of a sequence among those that the template holds. -/
structure Occurrence where
  spot : List Nat
  template : Template

/-- The template at a spot. -/
def templateAt : List Nat → List Template → Option Template
  | index :: child :: spot, templates =>
    templates[index]?.bind fun t => t.children[child]?.bind (templateAt spot)
  | [index], templates => templates[index]?
  | [], _ => none

mutual

/-- What a template does while it is being run. -/
inductive Stage : TemplateKind → Type where
  | task (text) : Stage (.task text)
  | question (text onYes onNo) : Stage (.condition text onYes onNo)
  | branch (text onYes onNo) (course : Course) : Stage (.condition text onYes onNo)
  /-- So many passes are left after the one that is being made. -/
  | pass (times body) (left : Nat) (course : Course) : Stage (.counted times body)
  | asks (text loop body) : Stage (.asked text loop body)
  | round (text loop body) (course : Course) : Stage (.asked text loop body)
  | group (text choose branches) (completed : Nat) (strands : List Strand) :
    Stage (.parallel text choose branches)
  | wait (value unit text silent) : Stage (.sleep value unit text silent)

/-- A sequence that is at one of its templates, with those that come after it. -/
structure Course where
  place : List Nat
  index : Nat
  template : Template
  stage : Stage template.kind
  rest : List Template

/-- A branch of a group that has not ended. -/
structure Strand where
  branch : Nat
  entered : List Occurrence
  course : Course

end

/-- What has been entered, in order, and what is being run now unless all has ended. -/
structure Pursuit (α : Type) where
  entered : List Occurrence
  now : Option α

namespace Pursuit

variable {α β : Type}

def ended : Pursuit α := ⟨[], none⟩

def stay (a : α) : Pursuit α := ⟨[], some a⟩

/-- Runs one thing inside another, which goes on with `next` once that has ended. -/
def within (p : Pursuit α) (wrap : α → β) (next : Pursuit β) : Pursuit β :=
  match p.now with
  | some a => ⟨p.entered, some (wrap a)⟩
  | none => ⟨p.entered ++ next.entered, next.now⟩

def enters (o : Occurrence) (p : Pursuit α) : Pursuit α := { p with entered := o :: p.entered }

end Pursuit

/-- A group ends when its target is reached, whatever strands are left. -/
def regroup (text : String) (choose : UInt64) (branches : List (List Template)) (completed : Nat)
    (strands : List Strand) : Option (Stage (.parallel text choose branches)) :=
  if joinTarget choose.toNat branches.length ≤ completed then none
  else some (.group text choose branches completed strands)

/-- The passes that are left to a counted loop, which is entered before each pass and once more
after the last one. -/
def passes (o : Occurrence) (times : Int64) (body : List Template) (pass : Pursuit Course) :
    Nat → Pursuit (Stage (.counted times body))
  | 0 => ⟨[o], none⟩
  | left + 1 => (pass.within (.pass times body left) (passes o times body pass left)).enters o

mutual

def Template.begin (spot : List Nat) : (t : Template) → Pursuit (Stage t.kind)
  | ⟨kind, id, image, reminder⟩ => kind.begin ⟨spot, ⟨kind, id, image, reminder⟩⟩

/-- Begins the template of an occurrence, given what kind it is of. -/
def TemplateKind.begin (o : Occurrence) : (kind : TemplateKind) → Pursuit (Stage kind)
  | .task text => ⟨[o], some (.task text)⟩
  | .condition text onYes onNo => ⟨[o], some (.question text onYes onNo)⟩
  | .counted times body =>
    passes o times body (beginAll (o.spot ++ [0]) 0 body) times.toInt.toNat
  | .asked text loop body => ⟨[o], some (.asks text loop body)⟩
  | .parallel text choose branches =>
    let (completed, strands) := beginBranches o.spot 0 branches
    ⟨[o], regroup text choose branches completed strands⟩
  | .sleep value unit text silent =>
    ⟨[o], if 0 < value then some (.wait value unit text silent) else none⟩

/-- Begins the templates of the sequence at a place, of which the first has this index. -/
def beginAll (place : List Nat) (index : Nat) : List Template → Pursuit Course
  | [] => .ended
  | t :: rest =>
    (t.begin (place ++ [index])).within (fun stage => ⟨place, index, t, stage, rest⟩)
      (beginAll place (index + 1) rest)

/-- Begins the branches of a group, of which the first has this number. Some end at once. -/
def beginBranches (spot : List Nat) (branch : Nat) : List (List Template) → Nat × List Strand
  | [] => (0, [])
  | templates :: rest =>
    let begun := beginAll (spot ++ [branch]) 0 templates
    let (completed, strands) := beginBranches spot (branch + 1) rest
    match begun.now with
    | some course => (completed, ⟨branch, begun.entered, course⟩ :: strands)
    | none => (completed + 1, strands)

end

/-- Whether an answer asks for another pass of the loop. Nothing else that happens is an answer. -/
def LoopKind.another? : LoopKind → Event → Option Bool
  | .whileYes, .yes => some true
  | .whileYes, .no => some false
  | .untilYes, .yes => some false
  | .untilYes, .no => some true
  | _, _ => none

mutual

/-- Delivers an event to a template that is being run. -/
def Stage.deliver (o : Occurrence) (path : List Nat) (event : Event) :
    {kind : TemplateKind} → Stage kind → Pursuit (Stage kind)
  | _, .task text =>
    match path, event with
    | [], .done => .ended
    | _, _ => .stay (.task text)
  | _, .question text onYes onNo =>
    match path, event with
    | [], .yes => (beginAll (o.spot ++ [0]) 0 onYes).within (.branch text onYes onNo) .ended
    | [], .no => (beginAll (o.spot ++ [1]) 0 onNo).within (.branch text onYes onNo) .ended
    | _, _ => .stay (.question text onYes onNo)
  | _, .branch text onYes onNo course =>
    (course.deliver path event).within (.branch text onYes onNo) .ended
  | _, .pass times body left course =>
    (course.deliver path event).within (.pass times body left)
      (passes o times body (beginAll (o.spot ++ [0]) 0 body) left)
  | _, .asks text loop body =>
    match path, loop.another? event with
    | [], some true =>
      (beginAll (o.spot ++ [0]) 0 body).within (.round text loop body)
        ⟨[o], some (.asks text loop body)⟩
    | [], some false => .ended
    | _, _ => .stay (.asks text loop body)
  | _, .round text loop body course =>
    (course.deliver path event).within (.round text loop body) ⟨[o], some (.asks text loop body)⟩
  | _, .group text choose branches completed strands =>
    match path with
    | [] => .stay (.group text choose branches completed strands)
    | branch :: path =>
      let (more, strands) := deliverTo branch path event strands
      ⟨[], regroup text choose branches (completed + more) strands⟩
  | _, .wait value unit text silent =>
    match path, event with
    | [], .elapsed | [], .skip => .ended
    | _, _ => .stay (.wait value unit text silent)

def Course.deliver (path : List Nat) (event : Event) : Course → Pursuit Course
  | ⟨place, index, t, stage, rest⟩ =>
    (stage.deliver ⟨place ++ [index], t⟩ path event).within
      (fun stage => ⟨place, index, t, stage, rest⟩) (beginAll place (index + 1) rest)

/-- Delivers an event to the strand of a branch, if it has not ended, and tells how many strands end
with it. -/
def deliverTo (branch : Nat) (path : List Nat) (event : Event) : List Strand → Nat × List Strand
  | [] => (0, [])
  | ⟨own, entered, course⟩ :: rest =>
    if own = branch then
      let delivered := course.deliver path event
      match delivered.now with
      | some course => (0, ⟨own, entered ++ delivered.entered, course⟩ :: rest)
      | none => (1, rest)
    else
      let (more, strands) := deliverTo branch path event rest
      (more, ⟨own, entered, course⟩ :: strands)

end

/-- Where a run waits for an event: at an occurrence that takes the event itself, or at a group for
its strands. -/
structure Halt where
  occurrence : Occurrence
  completed : Nat
  strands : List Strand

mutual

def Stage.halt (o : Occurrence) : {kind : TemplateKind} → Stage kind → Halt
  | _, .task _ => ⟨o, 0, []⟩
  | _, .question _ _ _ => ⟨o, 0, []⟩
  | _, .branch _ _ _ course => course.halt
  | _, .pass _ _ _ course => course.halt
  | _, .asks _ _ _ => ⟨o, 0, []⟩
  | _, .round _ _ _ course => course.halt
  | _, .group _ _ _ completed strands => ⟨o, completed, strands⟩
  | _, .wait _ _ _ _ => ⟨o, 0, []⟩

def Course.halt : Course → Halt
  | ⟨place, index, t, stage, _⟩ => stage.halt ⟨place ++ [index], t⟩

end

namespace Pursuit

def deliver (path : List Nat) (event : Event) (p : Pursuit Course) : Pursuit Course :=
  match p.now with
  | some course =>
    let delivered := course.deliver path event
    ⟨p.entered ++ delivered.entered, delivered.now⟩
  | none => p

/-- A run of templates from their beginning. -/
def follow (templates : List Template) (moves : List (List Nat × Event)) : Pursuit Course :=
  moves.foldl (fun p move => p.deliver move.1 move.2) (beginAll [] 0 templates)

def strands (p : Pursuit Course) : List Strand :=
  match p.now with
  | some course => course.halt.strands
  | none => []

/-- Where an event is waited for, unless all has ended. -/
def waitsAt (p : Pursuit Course) : Option Occurrence := p.now.map fun course => course.halt.occurrence

/-- The strand at a path of branch numbers. -/
def thread? : List Nat → Pursuit Course → Option (Pursuit Course)
  | [], p => some p
  | branch :: path, p =>
    (p.strands.find? (·.branch = branch)).bind fun s => thread? path ⟨s.entered, some s.course⟩

end Pursuit

end Stepwise
