import Stepwise.Block.Leaving

/-!
# What a block was made for

The plan of a block is the block as it was made, with the passes that are left to a counted loop;
its shape leaves these out as well, so that all passes of a loop have one shape. Running a block
changes neither its shape nor, until it leaves, its plan.
-/

namespace Stepwise

namespace Sleep

def plan (s : Sleep) : Sleep := .fresh s.value s.unit s.silent

/-- What is left of a wait once its block has left. -/
def ended (s : Sleep) : Sleep :=
  { s with remaining := if s.isRunning then .zero else s.remaining, token := none }

end Sleep

def Join.plan (j : Join) : Join := { j with completed := 0, done := false }

namespace Activity

def plan : Activity → Activity
  | .counted remaining _ body => .counted remaining false body
  | .parallel join => .parallel join.plan
  | .sleep s => .sleep s.plan
  | activity => activity

def shape : Activity → Activity
  | .counted _ _ body => .counted 0 false body
  | activity => activity.plan

@[simp]
theorem shape_plan (a : Activity) : a.plan.shape = a.shape := by
  cases a <;> rfl

/-- What is left of an activity once its block has left. -/
def ended : Activity → Activity
  | .counted remaining entered body => .counted (remaining - 1) entered body
  | .sleep s => .sleep s.ended
  | activity => activity

@[simp]
theorem shape_ended (a : Activity) : a.ended.shape = a.shape := by
  cases a <;> rfl

end Activity

namespace Block

def plan (b : Block) : Block :=
  { b with handle := none, hooks := [], activity := b.activity.plan }

def shape (b : Block) : Block :=
  { b with handle := none, hooks := [], activity := b.activity.shape }

/-- The block once it has left. -/
def ended (b : Block) : Block :=
  { b with handle := none, hooks := [], activity := b.activity.ended }

@[simp]
theorem shape_plan (b : Block) : b.plan.shape = b.shape := by
  simp [shape, plan]

@[simp]
theorem shape_ended (b : Block) : b.ended.shape = b.shape := by
  simp [shape, ended]

theorem shape_eq_of_plan {b c : Block} (h : b.plan = c.plan) : b.shape = c.shape := by
  rw [← shape_plan b, h, shape_plan]

theorem plan_ofTemplate (t : Template) : (ofTemplate t).plan = ofTemplate t := by
  obtain ⟨kind, id, image, reminder⟩ := t
  cases kind <;> rfl

theorem hooks_ofTemplate (t : Template) : (ofTemplate t).hooks = [] := by
  obtain ⟨kind, id, image, reminder⟩ := t
  cases kind <;> rfl

theorem handle_ofTemplate (t : Template) : (ofTemplate t).handle = none := by
  obtain ⟨kind, id, image, reminder⟩ := t
  cases kind <;> rfl

@[simp]
theorem plan_addHook (b : Block) (hook : LeaveHook) : (b.addHook hook).plan = b.plan := rfl

end Block

end Stepwise
