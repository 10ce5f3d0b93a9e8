import Stepwise.Proofs.Delivery
import Stepwise.Proofs.Structured

/-!
# A flat list for a structured run

A sequence of blocks stands for a course if its current block is the one where the course waits and
the blocks ahead are what the course has still to do, from the inside out: what is left of a branch
or a loop comes before what comes after the condition or the loop. The relation looks at plans only,
so that reminders, callbacks and the state of a wait do not matter.
-/

namespace Stepwise

variable {σ : Type} {Good : σ → Prop} {services : Services σ}

def Occurrence.shape (o : Occurrence) : Block := (Block.ofTemplate o.template).shape

/-- The block of a counted loop with so many passes left. -/
def Template.withPasses (t : Template) (remaining : Int) (body : List Template) : Block :=
  { Block.ofTemplate t with activity := .counted remaining false body }

mutual

/-- The plans of the blocks that come after the current one. -/
def Stage.ahead (t : Template) : {kind : TemplateKind} → Stage kind → List Block
  | _, .task _ => []
  | _, .question _ _ _ => []
  | _, .branch _ _ _ course => course.ahead
  | _, .pass _ body left course => course.ahead ++ [t.withPasses left body]
  | _, .asks _ _ _ => []
  | _, .round _ _ _ course => course.ahead ++ [Block.ofTemplate t]
  | _, .group _ _ _ _ _ => []
  | _, .wait _ _ _ _ => []

def Course.ahead : Course → List Block
  | ⟨_, _, t, stage, rest⟩ => stage.ahead t ++ rest.map Block.ofTemplate

end

/-- What a list of blocks shows of a course. -/
structure Standing where
  halt : Halt
  ahead : List Block

def Stage.standing (o : Occurrence) {kind : TemplateKind} (s : Stage kind) : Standing :=
  ⟨s.halt o, s.ahead o.template⟩

def Course.standing (c : Course) : Standing := ⟨c.halt, c.ahead⟩

/-- Followed by blocks with these plans. -/
def Standing.before (s : Standing) (plans : List Block) : Standing :=
  { s with ahead := s.ahead ++ plans }

theorem Standing.before_nil (s : Standing) : s.before [] = s := by
  obtain ⟨halt, ahead⟩ := s
  simp [before]

/-- What surrounds a course that is being run comes after its blocks. -/
theorem Stage.standing_branch (o : Occurrence) (text : String) (onYes onNo : List Template)
    (course : Course) :
    (Stage.branch text onYes onNo course).standing o = course.standing.before [] :=
  (Standing.before_nil _).symm

theorem Stage.standing_pass (o : Occurrence) (times : Int64) (body : List Template) (left : Nat)
    (course : Course) :
    (Stage.pass times body left course).standing o =
      course.standing.before [o.template.withPasses left body] := rfl

theorem Stage.standing_round (o : Occurrence) (text : String) (loop : LoopKind)
    (body : List Template) (course : Course) :
    (Stage.round text loop body course).standing o =
      course.standing.before [Block.ofTemplate o.template] := rfl

theorem Course.standing_mk (place : List Nat) (index : Nat) (t : Template) (stage : Stage t.kind)
    (rest : List Template) :
    (Course.mk place index t stage rest).standing =
      (stage.standing ⟨place ++ [index], t⟩).before (rest.map Block.ofTemplate) := rfl

namespace Pursuit

variable {α β : Type}

def map (f : α → β) (p : Pursuit α) : Pursuit β := ⟨p.entered, p.now.map f⟩

theorem map_within {wrap : α → β} {f : α → Standing} {g : β → Standing} {plans : List Block}
    (wraps : ∀ a, g (wrap a) = (f a).before plans) (p : Pursuit α) (next : Pursuit β) :
    (p.within wrap next).map g = (p.map f).within (·.before plans) (next.map g) := by
  obtain ⟨entered, now⟩ := p
  cases now with
  | none => rfl
  | some a => simp only [within, map, Option.map_some, wraps]

theorem within_enters (o : Occurrence) (p : Pursuit α) (wrap : α → β) (next : Pursuit β) :
    (p.enters o).within wrap next = (p.within wrap next).enters o := by
  obtain ⟨entered, now⟩ := p
  cases now with
  | none => rfl
  | some a => rfl

theorem map_enters (o : Occurrence) (p : Pursuit α) (f : α → β) :
    (p.enters o).map f = (p.map f).enters o := rfl

end Pursuit

/-- `b` is the current block where the course stands, before the blocks of `rest`. -/
structure Block.Stands (b : Block) (rest : List Block) (threads : List Thread) (s : Standing) :
    Prop where
  plan : b.plan = Block.ofTemplate s.halt.occurrence.template
  ahead : rest.map Block.plan = s.ahead
  hosts : b.Hosts threads
  completed : ∀ join, b.activity = .parallel join → join.completed = s.halt.completed
  hooks : ∀ c ∈ b :: rest, c.HooksSucceed

mutual

/-- The execution has entered these occurrences and stands where the course does. -/
def Execution.Fits : Execution → List Occurrence → Course → Prop
  | ⟨line, threads⟩, entered, course =>
    line.isRunning = true ∧
      (∃ b rest, line.ahead = b :: rest ∧ b.Stands rest threads course.standing ∧
        (line.behind.reverse ++ [b]).map Block.shape = entered.map Occurrence.shape) ∧
      threadsFit threads course.halt.strands

def threadsFit : List Thread → List Strand → Prop
  | [], [] => True
  | ⟨branch, execution⟩ :: threads, ⟨own, entered, course⟩ :: strands =>
    branch = own ∧ execution.Fits entered course ∧ threadsFit threads strands
  | _, _ => False

end

mutual

theorem Execution.Fits.hooks : ∀ {e : Execution} {entered : List Occurrence} {course : Course},
    e.Fits entered course → e.HooksSucceed
  | ⟨line, threads⟩, _, _, fits => by
    obtain ⟨-, ⟨b, rest, now, stands, -⟩, threads_fit⟩ := fits
    refine ⟨?_, threadsFit_hooks threads_fit⟩
    rw [now]
    exact stands.hooks

theorem threadsFit_hooks : ∀ {threads : List Thread} {strands : List Strand},
    threadsFit threads strands → hooksSucceed threads
  | [], [], _ => trivial
  | ⟨_, _⟩ :: _, ⟨_, _, _⟩ :: _, ⟨_, fits, others⟩ => ⟨fits.hooks, threadsFit_hooks others⟩

end

/-- How a call ends that works on the blocks of `line` up to those of `later`: it goes on by
entering these, or some block before them waits. In both cases it has gone through the blocks in
between. -/
def Outcome.Pursues (services : Services σ) (Good : σ → Prop) (line : Sequence) (later : List Block)
    (o : Outcome σ Execution Unit) (p : Pursuit Standing) : Prop :=
  match p.now with
  | none => ∃ left w',
      o = Execution.enter services ⟨{ line with
        behind := left ++ line.behind, ahead := later }, []⟩ w' ∧
      Good w'.host ∧ left.reverse.map Block.shape = p.entered.map Occurrence.shape
  | some s => ∃ left b rest threads w',
      o = ⟨.ok (), ⟨{ line with
        behind := left ++ line.behind, ahead := b :: (rest ++ later) }, threads⟩, w'⟩ ∧
      Good w'.host ∧ b.Stands rest threads s ∧ threadsFit threads s.halt.strands ∧
      (left.reverse ++ [b]).map Block.shape = p.entered.map Occurrence.shape

/-- Entering blocks with these plans pursues what `p` says, whatever comes later. -/
def Pursuit.Entered (services : Services σ) (Good : σ → Prop) (plans : List Block)
    (p : Pursuit Standing) : Prop :=
  ∀ blocks, blocks.map Block.plan = plans → (∀ c ∈ blocks, c.HooksSucceed) →
    ∀ (line : Sequence) (later : List Block) (w : World σ), line.isRunning = true →
      line.ahead = blocks ++ later → Good w.host →
      (Execution.enter services ⟨line, []⟩ w).Pursues services Good line later p

/-- Every event that is delivered to blocks that stand at `s` pursues what `p` says. -/
def Standing.Delivers (services : Services σ) (Good : σ → Prop) (s : Standing)
    (p : List Nat → Event → Pursuit Standing) : Prop :=
  ∀ (line : Sequence) (threads : List Thread) (b : Block) (rest later : List Block)
    (path : List Nat) (event : Event) (w : World σ), line.isRunning = true →
      line.ahead = b :: (rest ++ later) → b.Stands rest threads s →
      threadsFit threads s.halt.strands → Good w.host →
      (Execution.dispatch services event path ⟨line, threads⟩ w).Pursues services Good line later
        ((p path event).enters s.halt.occurrence)

/-- A block that has left is entered before what follows it. -/
theorem Outcome.Pursues.behind {line : Sequence} {left : Block} {o : Occurrence}
    {ahead later : List Block} {outcome : Outcome σ Execution Unit} {p : Pursuit Standing}
    (pursues : outcome.Pursues services Good (line.advance left ahead) later p)
    (same : left.shape = o.shape) : outcome.Pursues services Good line later (p.enters o) := by
  obtain ⟨entered, now⟩ := p
  cases now with
  | none =>
    obtain ⟨more, w', entering, good, shapes⟩ := pursues
    refine ⟨more ++ [left], w', ?_, good, ?_⟩
    · simpa only [Sequence.advance, List.append_assoc, List.singleton_append] using entering
    · simp only [Pursuit.enters, List.reverse_append, List.reverse_singleton, List.map_cons,
        List.singleton_append, same, shapes]
  | some s =>
    obtain ⟨more, b, rest, threads, w', ends, good, stands, threads_fit, shapes⟩ := pursues
    refine ⟨more ++ [left], b, rest, threads, w', ?_, good, stands, threads_fit, ?_⟩
    · simpa only [Sequence.advance, List.append_assoc, List.singleton_append] using ends
    · rw [List.map_append] at shapes
      simp only [Pursuit.enters, List.reverse_append, List.reverse_singleton, List.map_append,
        List.map_cons, List.map_nil, List.cons_append, same]
      rw [← shapes]
      rfl

/-- What has been gone through leads on to the blocks that come next. -/
theorem Outcome.Pursues.within {line : Sequence} {blocks later plans : List Block}
    {outcome : Outcome σ Execution Unit} {p next : Pursuit Standing}
    (pursues : outcome.Pursues services Good line (blocks ++ later) p)
    (running : line.isRunning = true) (plan : blocks.map Block.plan = plans)
    (hooks : ∀ c ∈ blocks, c.HooksSucceed) (entered : next.Entered services Good plans) :
    outcome.Pursues services Good line later (p.within (·.before plans) next) := by
  obtain ⟨gone, now⟩ := p
  cases now with
  | some s =>
    obtain ⟨left, b, rest, threads, w', ends, good, stands, threads_fit, shapes⟩ := pursues
    refine ⟨left, b, rest ++ blocks, threads, w', ?_, good, ?_, threads_fit, shapes⟩
    · rw [List.append_assoc]
      exact ends
    · refine ⟨stands.plan, ?_, stands.hosts, stands.completed, ?_⟩
      · rw [List.map_append, stands.ahead, plan]
        rfl
      · intro c mem
        rw [← List.cons_append] at mem
        rcases List.mem_append.mp mem with mem | mem
        · exact stands.hooks c mem
        · exact hooks c mem
  | none =>
    obtain ⟨left, v, entering, good, shapes⟩ := pursues
    have goes_on := entered blocks plan hooks
      { line with behind := left ++ line.behind, ahead := blocks ++ later } later v running rfl good
    rw [← entering] at goes_on
    obtain ⟨more, now⟩ := next
    cases now with
    | none =>
      obtain ⟨left', w', entering', good', shapes'⟩ := goes_on
      refine ⟨left' ++ left, w', ?_, good', ?_⟩
      · rw [List.append_assoc]
        exact entering'
      · simp only [Pursuit.within, List.reverse_append, List.map_append] at shapes' ⊢
        rw [shapes, shapes']
    | some s =>
      obtain ⟨left', b, rest, threads, w', ends, good', stands, threads_fit, shapes'⟩ := goes_on
      refine ⟨left' ++ left, b, rest, threads, w', ?_, good', stands, threads_fit, ?_⟩
      · rw [List.append_assoc]
        exact ends
      · simp only [Pursuit.within, List.reverse_append, List.map_append, List.append_assoc]
          at shapes shapes' ⊢
        rw [shapes, shapes']

theorem Pursuit.Entered.ended : (ended : Pursuit Standing).Entered services Good [] := by
  intro blocks plan _ line later w _ now good
  obtain rfl := List.map_eq_nil_iff.mp plan
  refine ⟨[], w, ?_, good, rfl⟩
  obtain ⟨behind, ahead, started, finished, cancelled, description, reminder, handle, address,
    pause⟩ := line
  rw [List.nil_append] at now
  rw [← now]
  rfl

section Within

variable {α β : Type} {f : α → Standing} {g : β → Standing} {wrap : α → β} {plans : List Block}

/-- What is run inside something else, and then what comes after it there. -/
theorem Pursuit.Entered.within (wraps : ∀ a, g (wrap a) = (f a).before plans) {inner : List Block}
    {p : Pursuit α} {next : Pursuit β} (first : (p.map f).Entered services Good inner)
    (second : (next.map g).Entered services Good plans) :
    ((p.within wrap next).map g).Entered services Good (inner ++ plans) := by
  intro blocks plan hooks line later w running now good
  obtain ⟨blocks, blocks', rfl, plan, plan'⟩ := List.map_eq_append_iff.mp plan
  rw [List.append_assoc] at now
  have pursues := first blocks plan (fun c mem => hooks c (List.mem_append_left blocks' mem)) line
    (blocks' ++ later) w running now good
  rw [Pursuit.map_within wraps]
  exact pursues.within running plan' (fun c mem => hooks c (List.mem_append_right blocks mem))
    second

theorem Standing.Delivers.within (wraps : ∀ a, g (wrap a) = (f a).before plans) {a : α}
    {p : List Nat → Event → Pursuit α} {next : Pursuit β}
    (delivers : (f a).Delivers services Good fun path event => (p path event).map f)
    (entered : (next.map g).Entered services Good plans) :
    (g (wrap a)).Delivers services Good fun path event =>
      ((p path event).within wrap next).map g := by
  intro line threads b rest later path event w running now stands threads_fit good
  rw [wraps] at stands threads_fit ⊢
  obtain ⟨rest, blocks, rfl, plan, plan'⟩ := List.map_eq_append_iff.mp stands.ahead
  rw [List.append_assoc] at now
  have inside : b.Stands rest threads (f a) :=
    ⟨stands.plan, plan, stands.hosts, stands.completed, fun c mem => stands.hooks c (by
      rw [← List.cons_append]
      exact List.mem_append_left blocks mem)⟩
  have pursues := delivers line threads b rest (blocks ++ later) path event w running now inside
    threads_fit good
  simp only [Pursuit.map_within wraps]
  rw [← Pursuit.within_enters]
  exact pursues.within running plan'
    (fun c mem => stands.hooks c (List.mem_cons_of_mem b (List.mem_append_right rest mem))) entered

end Within

end Stepwise
