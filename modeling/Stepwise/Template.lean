import Stepwise.Reminder

/-!
# Templates and workflows

A template is one step of a workflow before it is run: what it does, and an optional number, image
and reminder. Conditions, loops and parallel groups hold the sequences that they choose from, repeat
or run side by side. `Template.walk` lists a template and all templates inside it, each before those
inside it and these in the order in which they are declared.
-/

namespace Stepwise

/-- Whether a loop goes on at "yes" or at "no". -/
inductive LoopKind where
  | whileYes
  | untilYes
  deriving DecidableEq, Repr

def LoopKind.continuesOn : LoopKind → Bool → Bool
  | .whileYes, yes => yes
  | .untilYes, yes => !yes

mutual

structure Template where
  kind : TemplateKind
  id : Option UInt32
  image : Option String
  reminder : Option Reminder

inductive TemplateKind where
  | task (text : String)
  | condition (text : String) (onYes onNo : List Template)
  | counted (times : Int64) (body : List Template)
  | asked (text : String) (loop : LoopKind) (body : List Template)
  | parallel (text : String) (choose : UInt64) (branches : List (List Template))
  | sleep (value : Int64) (unit : TimeUnit) (text : String) (silent : Bool)

end

namespace Template

def ofKind (kind : TemplateKind) : Template := ⟨kind, none, none, none⟩

def task (text : String) : Template := ofKind (.task text)

def condition (text : String) (onYes onNo : List Template) : Template :=
  ofKind (.condition text onYes onNo)

def counted (times : Int64) (body : List Template) : Template := ofKind (.counted times body)

def asked (text : String) (loop : LoopKind) (body : List Template) : Template :=
  ofKind (.asked text loop body)

def parallel (text : String) (choose : UInt64) (branches : List (List Template)) : Template :=
  ofKind (.parallel text choose branches)

def sleep (value : Int64) (unit : TimeUnit) (text : String) (silent : Bool) : Template :=
  ofKind (.sleep value unit text silent)

def withId (t : Template) (id : UInt32) : Template := { t with id := some id }

def withImage (t : Template) (image : String) : Template := { t with image := some image }

def withReminder (t : Template) (reminder : Reminder) : Template :=
  { t with reminder := some reminder }

/-- The text shown for a template before it is run. -/
def label (t : Template) : String :=
  match t.kind with
  | .task text => text
  | .condition text _ _ => text
  | .counted times _ => s!"repeat {times} times"
  | .asked text _ _ => text
  | .parallel text _ _ => text
  | .sleep _ _ text _ => text

def children (t : Template) : List (List Template) :=
  match t.kind with
  | .task _ | .sleep _ _ _ _ => []
  | .condition _ onYes onNo => [onYes, onNo]
  | .counted _ body | .asked _ _ body => [body]
  | .parallel _ _ branches => branches

end Template

mutual

def Template.walk : Template → List Template
  | ⟨kind, id, image, reminder⟩ => ⟨kind, id, image, reminder⟩ :: kind.walk

def TemplateKind.walk : TemplateKind → List Template
  | .task _ | .sleep _ _ _ _ => []
  | .condition _ onYes onNo => walkAll onYes ++ walkAll onNo
  | .counted _ body | .asked _ _ body => walkAll body
  | .parallel _ _ branches => walkBranches branches

def walkAll : List Template → List Template
  | [] => []
  | t :: rest => t.walk ++ walkAll rest

def walkBranches : List (List Template) → List Template
  | [] => []
  | branch :: rest => walkAll branch ++ walkBranches rest

end

structure Workflow where
  description : String
  id : Option UInt32
  reminder : Option Reminder
  blocks : List Template

namespace Workflow

def new (description : String) : Workflow := ⟨description, none, none, []⟩

def withBlock (w : Workflow) (t : Template) : Workflow := { w with blocks := w.blocks ++ [t] }

def withReminder (w : Workflow) (reminder : Reminder) : Workflow :=
  { w with reminder := some reminder }

def walk (w : Workflow) : List Template := walkAll w.blocks

end Workflow

end Stepwise
