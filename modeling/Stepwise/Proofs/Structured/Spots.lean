import Stepwise.Proofs.Structured

/-!
# Where templates stand

All that a structured run enters stands in its workflow: the template of an occurrence is the one at
its spot. So two occurrences with different spots are different steps of the workflow even if their
templates are alike.
-/

namespace Stepwise

def Occurrence.In (root : List Template) (o : Occurrence) : Prop :=
  templateAt o.spot root = some o.template

theorem templateAt_child : ∀ (spot : List Nat) (child index : Nat) (root : List Template),
    templateAt (spot ++ [child, index]) root =
      (templateAt spot root).bind fun t => t.children[child]?.bind fun templates =>
        templates[index]?
  | [], child, index, root => by
    simp only [List.nil_append, templateAt, Option.bind_fun_none, Option.bind_none]
  | [_], _, _, _ => rfl
  | first :: second :: spot, child, index, root => by
    simp only [List.cons_append, templateAt, Option.bind_assoc]
    congr 1
    funext t
    congr 1
    funext templates
    exact templateAt_child spot child index templates

/-- These templates stand in the sequence at a place, the first of them at this index. -/
def StandAt (root : List Template) (place : List Nat) (index : Nat) (templates : List Template) :
    Prop :=
  ∀ k t, templates[k]? = some t → templateAt (place ++ [index + k]) root = some t

namespace StandAt

variable {root : List Template} {place : List Nat} {index : Nat} {t : Template}
  {rest : List Template}

theorem whole (root : List Template) : StandAt root [] 0 root := by
  intro k t there
  rw [Nat.zero_add]
  exact there

theorem head (stand : StandAt root place index (t :: rest)) :
    Occurrence.In root ⟨place ++ [index], t⟩ :=
  stand 0 t rfl

theorem tail (stand : StandAt root place index (t :: rest)) :
    StandAt root place (index + 1) rest := by
  intro k t' there
  have same : index + 1 + k = index + (k + 1) := by omega
  rw [same]
  exact stand (k + 1) t' there

/-- A sequence that a template holds. -/
theorem child {o : Occurrence} (is_in : o.In root) {number : Nat} {templates : List Template}
    (holds : o.template.children[number]? = some templates) :
    StandAt root (o.spot ++ [number]) 0 templates := by
  intro k t there
  rw [Nat.zero_add, List.append_assoc, List.singleton_append, templateAt_child, is_in,
    Option.bind_some, holds, Option.bind_some, there]

end StandAt

/-- All that has been entered stands in the workflow, and what is being run has the property. -/
def Pursuit.StandsIn {α : Type} (root : List Template) (valid : α → Prop) (p : Pursuit α) : Prop :=
  (∀ o ∈ p.entered, o.In root) ∧ ∀ a, p.now = some a → valid a

mutual

def Stage.StandsIn (root : List Template) : {kind : TemplateKind} → Stage kind → Prop
  | _, .task _ => True
  | _, .question _ _ _ => True
  | _, .branch _ _ _ course => course.StandsIn root
  | _, .pass _ _ _ course => course.StandsIn root
  | _, .asks _ _ _ => True
  | _, .round _ _ _ course => course.StandsIn root
  | _, .group _ _ _ _ strands => strandsStandIn root strands
  | _, .wait _ _ _ _ => True

def Course.StandsIn (root : List Template) : Course → Prop
  | ⟨place, index, t, stage, rest⟩ =>
    StandAt root place index (t :: rest) ∧ stage.StandsIn root

def strandsStandIn (root : List Template) : List Strand → Prop
  | [] => True
  | ⟨_, entered, course⟩ :: strands =>
    (∀ o ∈ entered, o.In root) ∧ course.StandsIn root ∧ strandsStandIn root strands

end

namespace Pursuit.StandsIn

variable {α β : Type} {root : List Template} {valid : α → Prop} {valid' : β → Prop}

theorem ended : (Pursuit.ended : Pursuit α).StandsIn root valid := ⟨List.forall_mem_nil _, nofun⟩

theorem stay {a : α} (holds : valid a) : (Pursuit.stay a).StandsIn root valid :=
  ⟨List.forall_mem_nil _, fun _ same => Option.some.inj same ▸ holds⟩

theorem single {o : Occurrence} (is_in : o.In root) {now : Option α}
    (holds : ∀ a, now = some a → valid a) : (⟨[o], now⟩ : Pursuit α).StandsIn root valid :=
  ⟨fun _ mem => List.mem_singleton.mp mem ▸ is_in, holds⟩

theorem enters {o : Occurrence} {p : Pursuit α} (is_in : o.In root)
    (stands : p.StandsIn root valid) : (p.enters o).StandsIn root valid :=
  ⟨List.forall_mem_cons.mpr ⟨is_in, stands.1⟩, stands.2⟩

theorem within {p : Pursuit α} {wrap : α → β} {next : Pursuit β} (stands : p.StandsIn root valid)
    (wraps : ∀ a, valid a → valid' (wrap a)) (goes_on : next.StandsIn root valid') :
    (p.within wrap next).StandsIn root valid' := by
  obtain ⟨entered, now⟩ := p
  cases now with
  | some a =>
    refine ⟨stands.1, fun b same => ?_⟩
    cases same
    exact wraps a (stands.2 a rfl)
  | none =>
    refine ⟨fun o mem => ?_, goes_on.2⟩
    rcases List.mem_append.mp mem with mem | mem
    · exact stands.1 o mem
    · exact goes_on.1 o mem

end Pursuit.StandsIn

section Standing

variable {root : List Template} {o : Occurrence}

theorem regroup_standsIn {text : String} {choose : UInt64} {branches : List (List Template)}
    (completed : Nat) {strands : List Strand} (stand : strandsStandIn root strands)
    (stage : Stage (.parallel text choose branches))
    (same : regroup text choose branches completed strands = some stage) : stage.StandsIn root := by
  unfold regroup at same
  split at same
  · cases same
  · cases same
    exact stand

theorem passes_standsIn (is_in : o.In root) {times : Int64} {body : List Template}
    {pass : Pursuit Course} (pass_stands : pass.StandsIn root (Course.StandsIn root)) (left : Nat) :
    (passes o times body pass left).StandsIn root (Stage.StandsIn root) := by
  induction left with
  | zero => exact .single is_in nofun
  | succ left ih => exact .enters is_in (pass_stands.within (fun _ stands => stands) ih)

end Standing

mutual

theorem Template.begin_standsIn {root : List Template} : ∀ (t : Template) (spot : List Nat),
    Occurrence.In root ⟨spot, t⟩ → (t.begin spot).StandsIn root (Stage.StandsIn root)
  | ⟨kind, id, image, reminder⟩, spot, is_in =>
    kind.begin_standsIn ⟨spot, ⟨kind, id, image, reminder⟩⟩ rfl is_in

theorem TemplateKind.begin_standsIn {root : List Template} :
    ∀ (kind : TemplateKind) (o : Occurrence),
    o.template.kind = kind → o.In root → (kind.begin o).StandsIn root (Stage.StandsIn root)
  | .task _, o, _, is_in => .single is_in fun _ same => Option.some.inj same ▸ trivial
  | .condition _ _ _, o, _, is_in => .single is_in fun _ same => Option.some.inj same ▸ trivial
  | .asked _ _ _, o, _, is_in => .single is_in fun _ same => Option.some.inj same ▸ trivial
  | .counted times body, o, kind, is_in => by
    refine passes_standsIn is_in (beginAll_standsIn body _ 0 (.child is_in ?_)) _
    rw [Template.children, kind]
    rfl
  | .parallel text choose branches, o, kind, is_in => by
    refine .single is_in (regroup_standsIn _ (beginBranches_standIn branches o.spot 0 ?_))
    intro number templates holds
    refine .child is_in ?_
    rw [Template.children, kind, Nat.zero_add]
    exact holds
  | .sleep value _ _ _, o, _, is_in => by
    refine .single is_in fun _ same => ?_
    by_cases positive : 0 < value
    · rw [if_pos positive] at same
      cases same
      trivial
    · rw [if_neg positive] at same
      cases same

theorem beginAll_standsIn {root : List Template} : ∀ (templates : List Template) (place : List Nat)
    (index : Nat), StandAt root place index templates →
    (beginAll place index templates).StandsIn root (Course.StandsIn root)
  | [], _, _, _ => .ended
  | t :: rest, place, index, stand =>
    (t.begin_standsIn (place ++ [index]) stand.head).within (fun _ stands => ⟨stand, stands⟩)
      (beginAll_standsIn rest place (index + 1) stand.tail)

theorem beginBranches_standIn {root : List Template} : ∀ (branches : List (List Template))
    (spot : List Nat) (first : Nat),
    (∀ number templates, branches[number]? = some templates →
      StandAt root (spot ++ [first + number]) 0 templates) →
    strandsStandIn root (beginBranches spot first branches).2
  | [], _, _, _ => trivial
  | templates :: rest, spot, first, stand => by
    have begun := beginAll_standsIn templates (spot ++ [first]) 0 (stand 0 templates rfl)
    have others := beginBranches_standIn rest spot (first + 1) fun number ts holds => by
      have same : first + 1 + number = first + (number + 1) := by omega
      rw [same]
      exact stand (number + 1) ts holds
    cases now : (beginAll (spot ++ [first]) 0 templates).now with
    | some course =>
      simp only [beginBranches, now]
      exact ⟨begun.1, begun.2 course now, others⟩
    | none =>
      simp only [beginBranches, now]
      exact others

end

mutual

theorem Stage.deliver_standsIn {root : List Template} (path : List Nat) (event : Event) :
    ∀ {kind : TemplateKind} (stage : Stage kind) (o : Occurrence), o.template.kind = kind →
    o.In root → stage.StandsIn root → (stage.deliver o path event).StandsIn root (Stage.StandsIn root)
  | _, .task _, o, _, _, _ => by
    unfold Stage.deliver
    split
    · exact .ended
    · exact .stay trivial
  | _, .question text onYes onNo, o, kind, is_in, _ => by
    have chosen : ∀ (child : Nat) (branch : List Template),
        o.template.children[child]? = some branch →
        ((beginAll (o.spot ++ [child]) 0 branch).within (.branch text onYes onNo) .ended).StandsIn
          root (Stage.StandsIn root) := fun child branch holds =>
      (beginAll_standsIn branch _ 0 (.child is_in holds)).within (fun _ stands => stands) .ended
    have children : o.template.children = [onYes, onNo] := by rw [Template.children, kind]
    unfold Stage.deliver
    split
    · exact chosen 0 onYes (by rw [children]; rfl)
    · exact chosen 1 onNo (by rw [children]; rfl)
    · exact .stay trivial
  | _, .branch _ _ _ course, o, _, _, stands =>
    (course.deliver_standsIn path event stands).within (fun _ stands => stands) .ended
  | _, .pass times body left course, o, kind, is_in, stands => by
    refine (course.deliver_standsIn path event stands).within (fun _ stands => stands)
      (passes_standsIn is_in (beginAll_standsIn body _ 0 (.child is_in ?_)) left)
    rw [Template.children, kind]
    rfl
  | _, .asks text loop body, o, kind, is_in, _ => by
    have body_stands : (beginAll (o.spot ++ [0]) 0 body).StandsIn root (Course.StandsIn root) := by
      refine beginAll_standsIn body _ 0 (.child is_in ?_)
      rw [Template.children, kind]
      rfl
    unfold Stage.deliver
    split
    · exact body_stands.within (fun _ stands => stands)
        (.single is_in fun _ same => Option.some.inj same ▸ trivial)
    · exact .ended
    · exact .stay trivial
  | _, .round _ _ _ course, o, _, is_in, stands =>
    (course.deliver_standsIn path event stands).within (fun _ stands => stands)
      (.single is_in fun _ same => Option.some.inj same ▸ trivial)
  | _, .group _ _ _ completed strands, o, _, _, stands => by
    unfold Stage.deliver
    split
    · exact .stay stands
    · next branch path =>
      exact ⟨List.forall_mem_nil _,
        regroup_standsIn _ (deliverTo_standIn branch path event strands stands)⟩
  | _, .wait _ _ _ _, o, _, _, _ => by
    unfold Stage.deliver
    split
    · exact .ended
    · exact .ended
    · exact .stay trivial

theorem Course.deliver_standsIn {root : List Template} (path : List Nat) (event : Event) :
    ∀ course : Course, course.StandsIn root →
      (course.deliver path event).StandsIn root (Course.StandsIn root)
  | ⟨place, index, t, stage, rest⟩, ⟨stand, stands⟩ =>
    (stage.deliver_standsIn path event ⟨place ++ [index], t⟩ rfl stand.head stands).within
      (fun _ stands => ⟨stand, stands⟩) (beginAll_standsIn rest place (index + 1) stand.tail)

theorem deliverTo_standIn {root : List Template} (branch : Nat) (path : List Nat) (event : Event) :
    ∀ strands : List Strand, strandsStandIn root strands →
      strandsStandIn root (deliverTo branch path event strands).2
  | [], _ => trivial
  | ⟨own, entered, course⟩ :: strands, ⟨entered_in, stands, others⟩ => by
    have delivered := course.deliver_standsIn path event stands
    unfold deliverTo
    split
    · simp only
      split
      · next next now =>
        refine ⟨fun o mem => ?_, delivered.2 next now, others⟩
        rcases List.mem_append.mp mem with mem | mem
        · exact entered_in o mem
        · exact delivered.1 o mem
      · exact others
    · exact ⟨entered_in, stands, deliverTo_standIn branch path event strands others⟩

end

mutual

theorem Stage.halt_standsIn {root : List Template} : ∀ {kind : TemplateKind} (stage : Stage kind)
    (o : Occurrence), o.In root → stage.StandsIn root →
    (stage.halt o).occurrence.In root ∧ strandsStandIn root (stage.halt o).strands
  | _, .task _, _, is_in, _ => ⟨is_in, trivial⟩
  | _, .question _ _ _, _, is_in, _ => ⟨is_in, trivial⟩
  | _, .branch _ _ _ course, _, _, stands => course.halt_standsIn stands
  | _, .pass _ _ _ course, _, _, stands => course.halt_standsIn stands
  | _, .asks _ _ _, _, is_in, _ => ⟨is_in, trivial⟩
  | _, .round _ _ _ course, _, _, stands => course.halt_standsIn stands
  | _, .group _ _ _ _ _, _, is_in, stands => ⟨is_in, stands⟩
  | _, .wait _ _ _ _, _, is_in, _ => ⟨is_in, trivial⟩

theorem Course.halt_standsIn {root : List Template} : ∀ course : Course, course.StandsIn root →
    course.halt.occurrence.In root ∧ strandsStandIn root course.halt.strands
  | ⟨place, index, t, stage, _⟩, ⟨stand, stands⟩ =>
    stage.halt_standsIn ⟨place ++ [index], t⟩ stand.head stands

end

theorem strandsStandIn_mem {root : List Template} {strands : List Strand} {s : Strand}
    (stand : strandsStandIn root strands) (mem : s ∈ strands) :
    (⟨s.entered, some s.course⟩ : Pursuit Course).StandsIn root (Course.StandsIn root) := by
  induction strands with
  | nil => cases mem
  | cons first strands ih =>
    obtain ⟨own, entered, course⟩ := first
    obtain ⟨entered_in, stands, others⟩ := stand
    rcases List.mem_cons.mp mem with rfl | mem
    · exact ⟨entered_in, fun _ same => Option.some.inj same ▸ stands⟩
    · exact ih others mem

namespace Pursuit

variable {root : List Template} {p : Pursuit Course}

theorem StandsIn.deliver (stands : p.StandsIn root (Course.StandsIn root)) (path : List Nat)
    (event : Event) : (p.deliver path event).StandsIn root (Course.StandsIn root) := by
  cases now : p.now with
  | none =>
    simp only [Pursuit.deliver, now]
    exact stands
  | some course =>
    have delivered := course.deliver_standsIn path event (stands.2 course now)
    simp only [Pursuit.deliver, now]
    refine ⟨fun o mem => ?_, delivered.2⟩
    rcases List.mem_append.mp mem with mem | mem
    · exact stands.1 o mem
    · exact delivered.1 o mem

theorem follow_standsIn (templates : List Template) (moves : List (List Nat × Event)) :
    (follow templates moves).StandsIn templates (Course.StandsIn templates) := by
  have begun := beginAll_standsIn templates [] 0 (StandAt.whole templates)
  unfold follow
  generalize beginAll [] 0 templates = p at begun ⊢
  induction moves generalizing p with
  | nil => exact begun
  | cons move moves ih => exact ih _ (begun.deliver move.1 move.2)

theorem StandsIn.thread? (stands : p.StandsIn root (Course.StandsIn root)) {path : List Nat}
    {thread : Pursuit Course} (found : p.thread? path = some thread) :
    thread.StandsIn root (Course.StandsIn root) := by
  induction path generalizing p with
  | nil =>
    cases found
    exact stands
  | cons branch path ih =>
    rw [Pursuit.thread?, strands] at found
    obtain ⟨s, first, inside⟩ := Option.bind_eq_some_iff.mp found
    have mem := List.mem_of_find?_eq_some first
    cases now : p.now with
    | none =>
      rw [now] at mem
      cases mem
    | some course =>
      rw [now] at mem
      exact ih (strandsStandIn_mem (course.halt_standsIn (stands.2 course now)).2 mem) inside

end Pursuit

end Stepwise
