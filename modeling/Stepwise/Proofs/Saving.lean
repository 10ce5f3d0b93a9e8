import Stepwise.Proofs.Showing
import Stepwise.Template.Equality
import Stepwise.Template.File
import Stepwise.Value.Equality

/-!
# Saved workflows

A workflow is saved as the text of its value. If that text can be read and shows the value again,
then all that is asked about it is answered as the value would be, whatever the format is, and the
workflow is loaded as it was if it has no fault.
-/

namespace Stepwise

namespace Format

variable {f : Format}

/-- Reading undoes writing: the value is written, and what is then read shows it, in such a way that
all that the format is asked about its parts is answered as their values are. -/
def Restores (f : Format) (v : Value) : Prop :=
  ∃ shows : f.Part → Value → Prop, f.reading.Faithful shows ∧
    ∃ text part, f.write v = some text ∧ f.parse text = some part ∧ shows part v

theorem Restores.read? {w : Workflow} (restores : f.Restores w.encode) :
    ∃ text, f.document? w = some text ∧ f.read? text = some w := by
  obtain ⟨shows, faithful, text, part, written, parsed, here⟩ := restores
  exact ⟨text, written, Option.bind_eq_some_iff.mpr ⟨part, parsed, faithful.workflow here⟩⟩

theorem load_of_read? {text : String} {w : Workflow} (read : f.read? text = some w) :
    f.load text =
      (match w.validate.fault with
        | none => .ok w
        | some fault => .error (.invalid fault), w.validate.cautions) := by
  rw [load, read]
  dsimp only
  cases w.validate.fault <;> rfl

/-- What is loaded has been checked. -/
theorem valid_of_load {text : String} {w : Workflow} (loaded : (f.load text).1 = .ok w) :
    w.validate.fault = none := by
  cases read : f.read? text with
  | none =>
    rw [load, read] at loaded
    cases loaded
  | some v =>
    rw [load_of_read? read] at loaded
    cases fault : v.validate.fault with
    | none =>
      rw [fault] at loaded
      cases loaded
      exact fault
    | some f =>
      rw [fault] at loaded
      cases loaded

end Format

namespace Yaml

/-- The document that is written for the value has it again, and no tags. -/
def Restores (v : Value) : Prop :=
  ∃ d ∈ (tokens? (write v)).bind Document.ofTokens?, d.root.Shows v

instance (node : Node) (v : Value) : Decidable (node.Shows v) :=
  inferInstanceAs (Decidable (_ ∧ _))

instance (v : Value) : Decidable (Restores v) := inferInstanceAs (Decidable (∃ d ∈ _, _))

theorem restores_format {w : Workflow} (restores : Restores w.encode)
    (fits : w.encode.depth ≤ greatestDepth) : format.Restores w.encode := by
  obtain ⟨d, read, here⟩ := restores
  obtain ⟨tokens, lexed, composed⟩ := Option.bind_eq_some_iff.mp read
  have followed : d.following (expandWorkflow d) = some d.root := by
    rw [d.expandWorkflow_of_shows here fits]
    rfl
  have parsed : parse? (write w.encode) = some d.root := by
    rw [parse?, lexed]
    simp only [Option.bind_eq_bind, Option.bind_some, composed, followed]
  exact ⟨Node.Shows, faithful_reading, write w.encode, d.root, rfl, parsed, here⟩

end Yaml

namespace Workflow

/-- A workflow is read back from its value as it is, however its templates are nested. In a format
in which reading undoes writing its value, a workflow is saved and then loaded as it is, or refused
with its own fault if it has one. No text is loaded as a workflow with a fault. -/
theorem saved_loads_back (f : Format) (w : Workflow) :
    w.encode.workflow? = some w ∧
      (f.Restores w.encode → ∃ text, f.document? w = some text ∧
        f.load text =
          (match w.validate.fault with
            | none => .ok w
            | some fault => .error (.invalid fault), w.validate.cautions)) ∧
      ∀ text v, (f.load text).1 = .ok v → v.validate.fault = none := by
  refine ⟨Value.workflow?_encode w, fun restores => ?_, fun _ _ => Format.valid_of_load⟩
  obtain ⟨text, saved, read⟩ := restores.read?
  exact ⟨text, saved, Format.load_of_read? read⟩

/-- A condition with a loop inside, saved in YAML. Two of its texts look like nothing. -/
theorem saved_loads_back_nested :
    let w : Workflow := ⟨"tea", none, none,
      [(Template.condition "salt?" [.counted 2 [.task "null"]] []).withImage "~"]⟩
    (Yaml.format.Restores w.encode ∧ Yaml.format.document? w = some w.document ∧
      w.validate.fault = none) ∧
    w.encode.workflow? = some w ∧ Workflow.load w.document = (.ok w, w.validate.cautions) ∧
      ∀ text v, (Workflow.load text).1 = .ok v → v.validate.fault = none := by
  intro w
  have given : Yaml.Restores w.encode ∧ w.encode.depth ≤ Yaml.greatestDepth ∧
      w.validate.fault = none := by decide +kernel
  obtain ⟨again, fits, valid⟩ := given
  have restores := Yaml.restores_format again fits
  obtain ⟨decoded, saved, checked⟩ := saved_loads_back Yaml.format w
  obtain ⟨text, written, loaded⟩ := saved restores
  rw [valid] at loaded
  cases written
  exact ⟨⟨restores, rfl, valid⟩, decoded, loaded, checked⟩

end Workflow

end Stepwise
