import Stepwise.Proofs.Walking
import Stepwise.Validation

/-!
# The fault that is reported

A workflow is valid just if no number comes twice in its walk and all of its reminders have a
positive interval. Otherwise the fault that is reported is that of the workflow's own reminder, or
else the one at the first template of the walk that has any, where a number that comes again
outweighs the interval.
-/

namespace Stepwise

/-- There is no reminder, or it has a positive interval. -/
def Paced (reminder : Option Reminder) : Prop := ∀ r, reminder = some r → 0 < r.interval

/-- What is asked of the templates of a walk. -/
structure Flawless (templates : List Template) : Prop where
  distinct : (templates.filterMap (·.id)).Nodup
  paced : ∀ t ∈ templates, Paced t.reminder

/-- A template has the number of an earlier one. -/
def Template.Repeats (earlier : List Template) (t : Template) (id : UInt32) : Prop :=
  t.id = some id ∧ ∃ u ∈ earlier, u.id = some id

/-- What is wrong with a template that comes after some others. -/
inductive Template.Flaw (earlier : List Template) (t : Template) : Fault → Prop where
  | duplicate {id : UInt32} (repeats : t.Repeats earlier id) : Flaw earlier t (.duplicateId id)
  | interval {r : Reminder} (unique : ∀ id, ¬ t.Repeats earlier id) (has : t.reminder = some r)
    (idle : r.interval ≤ 0) : Flaw earlier t (.badInterval t.label r.interval)

/-- The fault of the first template that has one. -/
def FirstFlaw (walked : List Template) (fault : Fault) : Prop :=
  ∃ before t after, walked = before ++ t :: after ∧ Flawless before ∧ t.Flaw before fault

namespace Template

variable {earlier : List Template} {t : Template} {fault fault' : Fault}

theorem Flaw.unique (flaw : t.Flaw earlier fault) (flaw' : t.Flaw earlier fault') :
    fault = fault' := by
  cases flaw with
  | duplicate repeats =>
    cases flaw' with
    | duplicate repeats' => rw [Option.some.inj (repeats.1.symm.trans repeats'.1)]
    | interval unique => exact absurd repeats (unique _)
  | interval unique has =>
    cases flaw' with
    | duplicate repeats => exact absurd repeats (unique _)
    | interval _ has' => rw [Option.some.inj (has.symm.trans has')]

end Template

theorem paced_or_idle (reminder : Option Reminder) :
    Paced reminder ∨ ∃ r, reminder = some r ∧ r.interval ≤ 0 := by
  cases reminder with
  | none => exact .inl nofun
  | some r =>
    by_cases positive : 0 < r.interval
    · exact .inl fun _ same => Option.some.inj same ▸ positive
    · exact .inr ⟨r, rfl, Int64.not_lt.mp positive⟩

theorem Paced.not_idle {reminder : Option Reminder} (paced : Paced reminder) {r : Reminder}
    (has : reminder = some r) : ¬ r.interval ≤ 0 :=
  Int64.not_le.mpr (paced r has)

namespace Flawless

variable {templates earlier : List Template} {t : Template}

theorem nil : Flawless [] := ⟨List.nodup_nil, List.forall_mem_nil _⟩

theorem of_append (flawless : Flawless (earlier ++ templates)) : Flawless earlier := by
  obtain ⟨distinct, paced⟩ := flawless
  rw [List.filterMap_append] at distinct
  exact ⟨(List.nodup_append.mp distinct).1, fun t mem => paced t (List.mem_append_left _ mem)⟩

/-- One more template without a flaw. -/
theorem concat_iff :
    Flawless (earlier ++ [t]) ↔ Flawless earlier ∧ ∀ fault, ¬ t.Flaw earlier fault := by
  constructor
  · intro flawless
    refine ⟨flawless.of_append, fun fault flaw => ?_⟩
    cases flaw with
    | duplicate repeats =>
      obtain ⟨number, u, mem, same⟩ := repeats
      have distinct := flawless.distinct
      rw [List.filterMap_append] at distinct
      refine (List.nodup_append.mp distinct).2.2 _ (List.mem_filterMap.mpr ⟨u, mem, same⟩) _ ?_ rfl
      exact List.mem_filterMap.mpr ⟨t, List.mem_singleton_self t, number⟩
    | interval _ has idle =>
      exact (flawless.paced t List.mem_concat_self).not_idle has idle
  · rintro ⟨flawless, none⟩
    have unique : ∀ id, ¬ t.Repeats earlier id := fun id repeats => none _ (.duplicate repeats)
    refine ⟨?_, fun u mem => ?_⟩
    · rw [List.filterMap_append]
      refine List.nodup_append.mpr ⟨flawless.distinct, ?_, ?_⟩
      · cases number : t.id <;> simp [number]
      · rintro id old id' new rfl
        obtain ⟨u, mem, same⟩ := List.mem_filterMap.mp old
        obtain ⟨v, only, number⟩ := List.mem_filterMap.mp new
        rw [List.mem_singleton.mp only] at number
        exact unique id ⟨number, u, mem, same⟩
    · rcases List.mem_append.mp mem with old | new
      · exact flawless.paced u old
      · rw [List.mem_singleton.mp new]
        rcases paced_or_idle t.reminder with paced | ⟨r, has, idle⟩
        · exact paced
        · exact absurd (.interval unique has idle) (none _)

end Flawless

theorem Verdict.fault_andThen (v next : Verdict) :
    (v.andThen next).fault = v.fault.or next.fault := by
  obtain ⟨cautions, fault⟩ := v
  cases fault <;> rfl

theorem fault_checkReminder (owner : String) (reminder : Option Reminder) (fault : Fault) :
    (checkReminder owner reminder).fault = some fault ↔
      ∃ r, reminder = some r ∧ r.interval ≤ 0 ∧ fault = .badInterval owner r.interval := by
  cases reminder with
  | none => exact iff_of_false nofun nofun
  | some r =>
    by_cases positive : 0 < r.interval
    · refine iff_of_false ?_ ?_
      · simp only [checkReminder, Reminder.check, Reminder.isValid, positive, decide_true,
          Bool.not_true, Bool.false_eq_true, if_false]
        split <;> exact nofun
      · rintro ⟨_, same, idle, -⟩
        rw [← Option.some.inj same] at idle
        exact Int64.not_le.mpr positive idle
    · simp only [checkReminder, Reminder.check, Reminder.isValid, positive, decide_false,
        Bool.not_false, if_true, Option.some.injEq]
      constructor
      · rintro rfl
        exact ⟨r, rfl, Int64.not_lt.mp positive, rfl⟩
      · rintro ⟨_, rfl, -, rfl⟩
        rfl

theorem fault_checkReminder_eq_none (owner : String) (reminder : Option Reminder) :
    (checkReminder owner reminder).fault = none ↔ Paced reminder := by
  rw [Option.eq_none_iff_forall_ne_some]
  constructor
  · intro fine
    rcases paced_or_idle reminder with paced | ⟨r, has, idle⟩
    · exact paced
    · exact absurd ((fault_checkReminder owner reminder _).mpr ⟨r, has, idle, rfl⟩) (fine _)
  · intro paced fault found
    obtain ⟨r, has, idle, -⟩ := (fault_checkReminder owner reminder fault).mp found
    exact paced.not_idle has idle

section Walked

variable {seen : List UInt32} {earlier : List Template}

/-- These are the numbers of the templates that came before. -/
def Numbers (seen : List UInt32) (earlier : List Template) : Prop :=
  ∀ id, id ∈ seen ↔ ∃ u ∈ earlier, u.id = some id

theorem Numbers.nil : Numbers [] [] := fun _ => iff_of_false List.not_mem_nil nofun

theorem Numbers.concat (numbers : Numbers seen earlier) (t : Template) :
    Numbers (t.id.toList ++ seen) (earlier ++ [t]) := by
  intro id
  rw [List.mem_append, Option.mem_toList, numbers id]
  constructor
  · rintro (number | ⟨u, mem, number⟩)
    · exact ⟨t, List.mem_concat_self, number⟩
    · exact ⟨u, List.mem_append_left _ mem, number⟩
  · rintro ⟨u, mem, number⟩
    rcases List.mem_append.mp mem with old | new
    · exact .inr ⟨u, old, number⟩
    · rw [List.mem_singleton.mp new] at number
      exact .inl number

theorem Template.fault_check_eq (seen : List UInt32) (t : Template) :
    (t.check seen).fault = ((t.id.filter (· ∈ seen)).map Fault.duplicateId).or
      (checkReminder t.label t.reminder).fault := by
  simp only [Template.check, Verdict.fault_andThen, Option.or_none]
  congr 1
  cases t.id with
  | none => rfl
  | some id =>
    by_cases known : id ∈ seen
    · simp only [known, if_true, Option.filter_some, decide_true, Option.map_some]
    · simp only [known, if_false, Option.filter_some, decide_false, Bool.false_eq_true,
        Option.map_none, Verdict.fine]

theorem Template.fault_check (numbers : Numbers seen earlier) (t : Template) (fault : Fault) :
    (t.check seen).fault = some fault ↔ t.Flaw earlier fault := by
  have repeats_iff : ∀ id, t.id.filter (· ∈ seen) = some id ↔ t.Repeats earlier id := by
    intro id
    rw [Option.filter_eq_some_iff, decide_eq_true_eq, numbers id, Template.Repeats]
  rw [fault_check_eq]
  cases found : t.id.filter (· ∈ seen) with
  | some id =>
    have repeats := (repeats_iff id).mp found
    rw [Option.map_some, Option.some_or, Option.some.injEq]
    constructor
    · rintro rfl
      exact .duplicate repeats
    · exact (Flaw.duplicate repeats).unique
  | none =>
    have unique : ∀ id, ¬ t.Repeats earlier id := fun id repeats => by
      rw [(repeats_iff id).mpr repeats] at found
      cases found
    rw [Option.map_none, Option.none_or, fault_checkReminder]
    constructor
    · rintro ⟨r, has, idle, rfl⟩
      exact .interval unique has idle
    · intro flaw
      cases flaw with
      | duplicate repeats => exact absurd repeats (unique _)
      | interval _ has idle => exact ⟨_, has, idle, rfl⟩

/-- Templates that come after flawless ones. -/
theorem fault_checkTemplates : ∀ (rest : List Template) {seen earlier},
    Numbers seen earlier → Flawless earlier →
      ((checkTemplates seen rest).fault = none ↔ Flawless (earlier ++ rest)) ∧
        ∀ fault, (checkTemplates seen rest).fault = some fault ↔
          ∃ before t after, rest = before ++ t :: after ∧ Flawless (earlier ++ before) ∧
            t.Flaw (earlier ++ before) fault
  | [], seen, earlier, _, flawless => by
    rw [List.append_nil]
    refine ⟨iff_of_true rfl flawless, fun fault => iff_of_false nofun ?_⟩
    rintro ⟨before, t, after, none, -⟩
    cases before <;> cases none
  | t :: rest, seen, earlier, numbers, flawless => by
    simp only [checkTemplates, Verdict.fault_andThen]
    have split : earlier ++ t :: rest = (earlier ++ [t]) ++ rest := by
      rw [List.append_assoc, List.singleton_append]
    cases found : (t.check seen).fault with
    | some first =>
      -- No list that goes on from here is flawless, so the first flaw is this one.
      have flaw := (t.fault_check numbers first).mp found
      have flawed : ∀ more, ¬ Flawless (earlier ++ t :: more) := by
        intro more all
        rw [← List.singleton_append, ← List.append_assoc] at all
        exact (Flawless.concat_iff.mp all.of_append).2 first flaw
      rw [Option.some_or]
      refine ⟨iff_of_false nofun (flawed rest), fun fault => ?_⟩
      rw [Option.some.injEq]
      constructor
      · rintro rfl
        refine ⟨[], t, rest, rfl, ?_⟩
        rw [List.append_nil]
        exact ⟨flawless, flaw⟩
      · rintro ⟨before, u, after, same, good, flaw'⟩
        cases before with
        | nil =>
          cases same
          rw [List.append_nil] at flaw'
          exact flaw.unique flaw'
        | cons _ more =>
          cases same
          exact absurd good (flawed more)
    | none =>
      -- The template joins those that came before, and the first flaw is further on.
      have fine : ∀ fault, ¬ t.Flaw earlier fault := fun fault flaw => by
        rw [(t.fault_check numbers fault).mpr flaw] at found
        cases found
      obtain ⟨ok, first⟩ :=
        fault_checkTemplates rest (numbers.concat t) (Flawless.concat_iff.mpr ⟨flawless, fine⟩)
      rw [Option.none_or, split]
      refine ⟨ok, fun fault => (first fault).trans ?_⟩
      constructor
      · rintro ⟨before, u, after, rfl, good, flaw⟩
        rw [List.append_assoc, List.singleton_append] at good flaw
        exact ⟨t :: before, u, after, rfl, good, flaw⟩
      · rintro ⟨before, u, after, same, good, flaw⟩
        cases before with
        | nil =>
          cases same
          rw [List.append_nil] at flaw
          exact absurd flaw (fine fault)
        | cons _ more =>
          cases same
          rw [← List.singleton_append, ← List.append_assoc] at good flaw
          exact ⟨more, u, after, rfl, good, flaw⟩

end Walked

/-- The walk meets the template of each spot once and in the order of the spots. A workflow has no
fault just if its own reminder has a positive interval and all that is met is flawless, and
otherwise the fault is that of its own reminder, or else that of the first template that has one. -/
theorem Workflow.first_fault_reported (w : Workflow) :
    Visits (Occurrence.In w.blocks) w.walk ∧
      (w.validate.fault = none ↔ Paced w.reminder ∧ Flawless w.walk) ∧
      ∀ fault, w.validate.fault = some fault ↔
        (∃ r, w.reminder = some r ∧ r.interval ≤ 0 ∧
            fault = .badInterval w.description r.interval) ∨
          Paced w.reminder ∧ FirstFlaw w.walk fault := by
  obtain ⟨ok, first⟩ := fault_checkTemplates w.walk Numbers.nil Flawless.nil
  refine ⟨visits_all w.blocks, ?_⟩
  simp only [Workflow.validate, Verdict.fault_andThen]
  rcases paced_or_idle w.reminder with paced | ⟨r, has, idle⟩
  · rw [(fault_checkReminder_eq_none w.description w.reminder).mpr paced, Option.none_or]
    refine ⟨ok.trans (and_iff_right paced).symm, fun fault => (first fault).trans ?_⟩
    constructor
    · exact fun flaw => .inr ⟨paced, flaw⟩
    · rintro (⟨r, has, idle, -⟩ | ⟨-, flaw⟩)
      · exact absurd idle (paced.not_idle has)
      · exact flaw
  · have found := (fault_checkReminder w.description w.reminder _).mpr ⟨r, has, idle, rfl⟩
    rw [found, Option.some_or]
    refine ⟨iff_of_false nofun fun good => good.1.not_idle has idle, fun fault => ?_⟩
    rw [Option.some.injEq]
    constructor
    · rintro rfl
      exact .inl ⟨r, has, idle, rfl⟩
    · rintro (⟨r', has', -, rfl⟩ | ⟨paced, -⟩)
      · rw [Option.some.inj (has.symm.trans has')]
      · exact absurd idle (paced.not_idle has)

end Stepwise
