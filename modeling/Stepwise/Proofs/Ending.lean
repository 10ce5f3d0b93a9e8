import Stepwise.World

/-!
# How operations end

An operation ends with an answer or with an error, and either way it leaves a part and a world
behind. What holds at both ends is put together along the operation: a step that is answered hands
on what holds then, and one that fails is the end of the whole operation.
-/

namespace Stepwise

variable {σ τ υ α β : Type}

/-- `fine` holds of the world if the call was answered, and `failed` if it was refused. -/
def Answered (fine : α → World σ → Prop) (failed : ServiceError → World σ → Prop) :
    Except ServiceError α × World σ → Prop
  | (.ok a, w) => fine a w
  | (.error e, w) => failed e w

@[elab_as_elim]
theorem Answered.elim {fine : α → World σ → Prop} {failed : ServiceError → World σ → Prop}
    {motive : Except ServiceError α × World σ → Prop} {call : Except ServiceError α × World σ}
    (answered : Answered fine failed call) (ok : ∀ a w, fine a w → motive (.ok a, w))
    (error : ∀ e w, failed e w → motive (.error e, w)) : motive call := by
  obtain ⟨answer, w⟩ := call
  cases answer with
  | ok a => exact ok a w answered
  | error e => exact error e w answered

theorem Answered.of_world {call : Except ServiceError α × World σ} {P : World σ → Prop}
    (h : P call.2) : Answered (fun _ => P) (fun _ => P) call := by
  obtain ⟨answer, w⟩ := call
  cases answer <;> exact h

/-- What holds of the world whatever the answer. -/
theorem Answered.world {call : Except ServiceError α × World σ} {P : World σ → Prop}
    (answered : Answered (fun _ => P) (fun _ => P) call) : P call.2 := by
  obtain ⟨answer, w⟩ := call
  cases answer <;> exact answered

namespace Outcome

/-- `fine` holds at the end with an answer, and `failed` at the end with an error. -/
def Ends (o : Outcome σ τ α) (fine : α → τ → World σ → Prop)
    (failed : ServiceError → τ → World σ → Prop) : Prop :=
  match o.result with
  | .ok a => fine a o.part o.world
  | .error e => failed e o.part o.world

variable {o : Outcome σ τ α} {fine : α → τ → World σ → Prop}
  {failed : ServiceError → τ → World σ → Prop}

theorem Ends.bind {wrap : τ → υ} {next : α → τ → World σ → Outcome σ υ β}
    {fine' : β → υ → World σ → Prop} {failed' : ServiceError → υ → World σ → Prop}
    (first : o.Ends fine failed)
    (fails : ∀ e part w, failed e part w → failed' e (wrap part) w)
    (goes_on : ∀ a part w, fine a part w → (next a part w).Ends fine' failed') :
    (o.bind wrap next).Ends fine' failed' := by
  obtain ⟨result, part, w⟩ := o
  cases result with
  | ok a => exact goes_on a part w first
  | error e => exact fails e part w first

theorem Ends.within {wrap : τ → υ} {fine' : α → υ → World σ → Prop}
    {failed' : ServiceError → υ → World σ → Prop} (first : o.Ends fine failed)
    (fails : ∀ e part w, failed e part w → failed' e (wrap part) w)
    (answers : ∀ a part w, fine a part w → fine' a (wrap part) w) :
    (o.within wrap).Ends fine' failed' := by
  obtain ⟨result, part, w⟩ := o
  cases result with
  | ok a => exact answers a part w first
  | error e => exact fails e part w first

theorem Ends.mono {fine' : α → τ → World σ → Prop} {failed' : ServiceError → τ → World σ → Prop}
    (first : o.Ends fine failed) (fails : ∀ e part w, failed e part w → failed' e part w)
    (answers : ∀ a part w, fine a part w → fine' a part w) : o.Ends fine' failed' := by
  obtain ⟨result, part, w⟩ := o
  cases result with
  | ok a => exact answers a part w first
  | error e => exact fails e part w first

theorem Ends.and {fine' : α → τ → World σ → Prop} {failed' : ServiceError → τ → World σ → Prop}
    (first : o.Ends fine failed) (second : o.Ends fine' failed') :
    o.Ends (fun a part w => fine a part w ∧ fine' a part w)
      fun e part w => failed e part w ∧ failed' e part w := by
  obtain ⟨result, part, w⟩ := o
  cases result <;> exact ⟨first, second⟩

theorem Ends.of_world {P Q : World σ → Prop} (answers : P o.world) (fails : Q o.world) :
    o.Ends (fun _ _ => P) fun _ _ => Q := by
  obtain ⟨result, part, w⟩ := o
  cases result with
  | ok a => exact answers
  | error e => exact fails

/-- What holds at both ends. -/
theorem Ends.left {P : τ → World σ → Prop} (ends : o.Ends (fun _ => P) fun _ => P) :
    P o.part o.world := by
  obtain ⟨result, part, w⟩ := o
  cases result <;> exact ends

theorem Ends.of_left {P : τ → World σ → Prop} (ends : P o.part o.world) :
    o.Ends (fun _ => P) fun _ => P := by
  obtain ⟨result, part, w⟩ := o
  cases result <;> exact ends

theorem eq_of_answered {a : α} (answered : o.result = .ok a) : o = ⟨.ok a, o.part, o.world⟩ := by
  obtain ⟨result, part, w⟩ := o
  cases answered
  rfl

theorem bind_ok (a : α) (part : τ) (w : World σ) (wrap : τ → υ)
    (next : α → τ → World σ → Outcome σ υ β) :
    (⟨.ok a, part, w⟩ : Outcome σ τ α).bind wrap next = next a part w := rfl

/-- What holds of the outcome after an error and of every outcome after an answer. -/
theorem bind_cases {wrap : τ → υ} {next : α → τ → World σ → Outcome σ υ β}
    {motive : Outcome σ υ β → Prop}
    (fails : ∀ error, o.result = .error error → motive ⟨.error error, wrap o.part, o.world⟩)
    (goes_on : ∀ a, o.result = .ok a → motive (next a o.part o.world)) :
    motive (o.bind wrap next) := by
  obtain ⟨result, part, w⟩ := o
  cases result with
  | ok a => exact goes_on a rfl
  | error error => exact fails error rfl

/-- What holds of the world at both ends. -/
theorem Ends.bind_world {wrap : τ → υ} {next : α → τ → World σ → Outcome σ υ β}
    {P : World σ → Prop} (first : o.Ends fine failed)
    (fails : ∀ e part w, failed e part w → P w)
    (goes_on : ∀ a part w, fine a part w → P (next a part w).world) :
    P (o.bind wrap next).world := by
  obtain ⟨result, part, w⟩ := o
  cases result with
  | ok a => exact goes_on a part w first
  | error e => exact fails e part w first

/-- What holds of the part and the world at both ends. -/
theorem bind_left {wrap : τ → υ} {next : α → τ → World σ → Outcome σ υ β}
    {P : υ → World σ → Prop} (fails : P (wrap o.part) o.world)
    (goes_on : ∀ a, o.result = .ok a →
      P (next a o.part o.world).part (next a o.part o.world).world) :
    P (o.bind wrap next).part (o.bind wrap next).world := by
  obtain ⟨result, part, w⟩ := o
  cases result with
  | ok a => exact goes_on a rfl
  | error e => exact fails

/-- What holds of the part at both ends. -/
theorem bind_part {wrap : τ → υ} {next : α → τ → World σ → Outcome σ υ β} {P : υ → Prop}
    (fails : P (wrap o.part)) (goes_on : ∀ a, o.result = .ok a → P (next a o.part o.world).part) :
    P (o.bind wrap next).part :=
  bind_left (P := fun part _ => P part) fails goes_on

/-- `fine` holds at the end with an answer. -/
def Yields (o : Outcome σ τ α) (fine : α → τ → World σ → Prop) : Prop :=
  o.Ends fine fun _ _ _ => True

/-- What holds with every answer. -/
theorem yields_iff : o.Yields fine ↔ ∀ a, o.result = .ok a → fine a o.part o.world := by
  obtain ⟨result, part, w⟩ := o
  cases result with
  | ok a =>
    constructor
    · rintro yields a' ⟨⟩
      exact yields
    · exact fun answers => answers a rfl
  | error e =>
    constructor
    · rintro - a ⟨⟩
    · exact fun _ => trivial

theorem Ends.yields {fine' : α → τ → World σ → Prop} (first : o.Ends fine failed)
    (answers : ∀ a part w, fine a part w → fine' a part w) : o.Yields fine' :=
  first.mono (fun _ _ _ _ => trivial) answers

theorem Ends.bind_yields {wrap : τ → υ} {next : α → τ → World σ → Outcome σ υ β}
    {fine' : β → υ → World σ → Prop} (first : o.Ends fine failed)
    (goes_on : ∀ a part w, fine a part w → (next a part w).Yields fine') :
    (o.bind wrap next).Yields fine' :=
  first.bind (fun _ _ _ _ => trivial) goes_on

theorem Ends.within_yields {wrap : τ → υ} {fine' : α → υ → World σ → Prop}
    (first : o.Ends fine failed) (answers : ∀ a part w, fine a part w → fine' a (wrap part) w) :
    (o.within wrap).Yields fine' :=
  first.within (fun _ _ _ _ => trivial) answers

end Outcome

end Stepwise
