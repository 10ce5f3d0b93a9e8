import Stepwise.Template
import Stepwise.Value

/-!
# Templates as values

A template is one flat map: its type, the fields of that type, and then number, image and reminder
where they are set. A workflow always has a description and blocks.
-/

namespace Stepwise

def TimeUnit.encode (unit : TimeUnit) : Value := .str unit.symbol

def Reminder.encode (r : Reminder) : Value :=
  .fields [("interval", .int r.interval.toInt), ("unit", r.unit.encode)]

def LoopKind.name : LoopKind → String
  | .whileYes => "while"
  | .untilYes => "until"

def idField (id : Option UInt32) : List (String × Value) :=
  Value.field? "id" (id.map fun n => .ofNat n.toNat)

def reminderField (reminder : Option Reminder) : List (String × Value) :=
  Value.field? "timer" (reminder.map Reminder.encode)

mutual

def Template.encode : Template → Value
  | ⟨kind, id, image, reminder⟩ =>
    .fields (kind.encodeFields ++ (idField id ++ Value.field? "image" (image.map .str) ++
      reminderField reminder))

def TemplateKind.encodeFields : TemplateKind → List (String × Value)
  | .task text => [("type", .str "task"), ("text", .str text)]
  | .condition text onYes onNo =>
    [("type", .str "if"), ("condition", .str text), ("then", .list (encodeAll onYes)),
      ("else", .list (encodeAll onNo))]
  | .counted times body =>
    [("type", .str "repeat_times"), ("times", .int times.toInt), ("body", .list (encodeAll body))]
  | .asked text loop body =>
    [("type", .str "repeat_condition"), ("condition", .str text), ("kind", .str loop.name),
      ("body", .list (encodeAll body))]
  | .parallel text choose branches =>
    [("type", .str "parallel_or"), ("text", .str text), ("choose", .ofNat choose.toNat),
      ("branches", .list (encodeBranches branches))]
  | .sleep value unit text silent =>
    [("type", .str "timer_sleep"), ("value", .int value.toInt), ("unit", unit.encode),
      ("text", .str text), ("disable_notification", .bool silent)]

def encodeAll : List Template → List Value
  | [] => []
  | t :: rest => t.encode :: encodeAll rest

def encodeBranches : List (List Template) → List Value
  | [] => []
  | branch :: rest => .list (encodeAll branch) :: encodeBranches rest

end

def Workflow.encode (w : Workflow) : Value :=
  .fields ([("description", .str w.description)] ++ idField w.id ++ reminderField w.reminder ++
    [("blocks", .list (encodeAll w.blocks))])

end Stepwise
