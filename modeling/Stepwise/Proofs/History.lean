import Mathlib.Data.List.Forall2
import Stepwise.Proofs.Addresses
import Stepwise.Proofs.Calls

/-!
# What a run keeps

A sequence only goes on. The blocks behind its position are never touched again, and those from the
position on stay in their order, whatever is put between them. New blocks come after the current
one, so that there is no way to get behind it. All of this holds of every operation, be it answered
or stopped by the host at any point, and it holds of the threads as it does of the root.
-/

namespace Stepwise

variable {σ : Type} (services : Services σ)

/-- The same block later on: it is what it was made for, and it may have run some of its hooks. -/
structure Block.Ages (b b' : Block) : Prop where
  shape : b'.shape = b.shape
  hooks : b'.hooks <:+ b.hooks

namespace Block

theorem Ages.refl (b : Block) : b.Ages b := ⟨rfl, List.suffix_refl _⟩

theorem Ages.trans {a b c : Block} (first : a.Ages b) (second : b.Ages c) : a.Ages c :=
  ⟨second.shape.trans first.shape, second.hooks.trans first.hooks⟩

instance : Std.Refl Block.Ages := ⟨Ages.refl⟩

instance : IsTrans Block Block.Ages := ⟨fun _ _ _ => Ages.trans⟩

theorem Ages.isCondition {b b' : Block} (ages : b.Ages b') :
    b'.isCondition = b.isCondition := by
  have same := congrArg Block.activity ages.shape
  obtain ⟨id, image, reminder, handle, hooks, text, activity⟩ := b
  obtain ⟨id', image', reminder', handle', hooks', text', activity'⟩ := b'
  have same : activity'.shape = activity.shape := same
  cases activity <;> cases activity' <;>
    first | rfl | simp [Activity.shape, Activity.plan] at same

theorem ages_of_handle (b : Block) (handle : Option Nat) : b.Ages { b with handle } :=
  ⟨rfl, List.suffix_refl _⟩

/-- What a block does itself changes neither its shape nor its hooks. -/
theorem ages_of_activity {b : Block} {activity : Activity} (same : activity.shape = b.activity.shape) :
    b.Ages { b with activity } :=
  ⟨by simp only [shape, same], List.suffix_refl _⟩

theorem unregister_ages (b : Block) (w : World σ) : b.Ages (b.unregister services w).part := by
  unfold unregister
  split
  · exact .refl b
  · exact b.ages_of_handle none

end Block

theorem LeaveHook.runAll_suffix (hooks : List LeaveHook) (w : World σ) :
    (runAll services hooks w).part <:+ hooks := by
  induction hooks generalizing w with
  | nil => exact List.suffix_refl _
  | cons hook rest ih =>
    unfold runAll
    split
    · exact (ih _).trans (List.suffix_cons _ _)
    · exact List.suffix_cons _ _

theorem Sleep.giveBackToken_plan (s : Sleep) (w : World σ) :
    (s.giveBackToken services w).part.plan = s.plan := by
  unfold giveBackToken
  split <;> rfl

theorem Sleep.release_plan (s : Sleep) (w : World σ) :
    (s.release services w).part.plan = s.plan := by
  unfold release
  split
  · split
    · exact giveBackToken_plan services { s with remaining := .zero } _
    · rfl
  · exact s.giveBackToken_plan services w

theorem Sleep.start_plan (s : Sleep) (address : List Nat) (w : World σ) :
    (s.start services address w).part.plan = s.plan := by
  unfold start
  simp only
  split
  · split <;> rfl
  · rfl

namespace Block

theorem runHooks_ages (b : Block) (w : World σ) : b.Ages (b.runHooks services w).part :=
  ⟨rfl, LeaveHook.runAll_suffix services b.hooks w⟩

theorem discard_ages (b : Block) (w : World σ) : b.Ages (b.discard services w).part :=
  Outcome.bind_part (b.unregister_ages services w) fun _ _ =>
    (b.unregister_ages services w).trans (runHooks_ages services _ _)

theorem wrapUp_ages (b : Block) (w : World σ) : b.Ages (b.wrapUp services w).part := by
  unfold wrapUp
  split
  · next remaining entered body activity => exact ages_of_activity (by rw [activity]; rfl)
  · next s activity =>
    refine ages_of_activity ?_
    rw [activity]
    exact congrArg Activity.sleep (s.release_plan services w)
  · exact .refl b

theorem wrapUp_hooks (b : Block) (w : World σ) : (b.wrapUp services w).part.hooks = b.hooks := by
  unfold wrapUp
  split
  · rfl
  · rfl
  · rfl

theorem unregister_hooks (b : Block) (w : World σ) :
    (b.unregister services w).part.hooks = b.hooks := by
  unfold unregister
  split
  · rfl
  · rfl

theorem leave_ages (b : Block) (w : World σ) : b.Ages (b.leave services w).part :=
  Outcome.bind_part (b.wrapUp_ages services w) fun _ _ =>
    (b.wrapUp_ages services w).trans (discard_ages services _ _)

theorem handOn_ages (b : Block) (blocks : List Block) : b.Ages (b.handOn blocks).1 := by
  unfold handOn
  split
  · exact b.ages_of_handle none
  · exact .refl b

theorem answer_ages (b : Block) (loop : LoopKind) (body : List Template) (yes : Bool)
    (w : World σ) : b.Ages (b.answer loop body yes w).part := by
  unfold answer
  split
  · exact b.ages_of_handle none
  · exact .refl b

theorem react_ages (b : Block) (event : Event) (w : World σ) :
    b.Ages (b.react services event w).part := by
  have rewound : ∀ s : Sleep, b.activity = .sleep s → ∀ remaining,
      b.Ages { b with activity := .sleep { s with remaining } } := fun s activity remaining =>
    ages_of_activity (by rw [activity]; rfl)
  unfold react
  split
  · exact .refl b
  · exact b.handOn_ages _
  · exact b.handOn_ages _
  · exact b.answer_ages _ _ true w
  · exact b.answer_ages _ _ false w
  · next s activity => exact rewound s activity _
  · next s activity => exact rewound s activity _
  · next s activity =>
    split
    · exact rewound s activity _
    · exact .refl b
  · exact .refl b

end Block

/-- The blocks from the current one on, and what stands in their place later: the current block is
still the first, and the others follow in the same order with new ones among them. Where no block is
current there may be any new ones. -/
def Lasts : List Block → List Block → Prop
  | [], _ => True
  | b :: rest, later =>
    ∃ b' rest', later = b' :: rest' ∧ b.Ages b' ∧ List.SublistForall₂ Block.Ages rest rest'

namespace Lasts

theorem refl : ∀ blocks : List Block, Lasts blocks blocks
  | [] => trivial
  | b :: rest => ⟨b, rest, rfl, .refl b, Std.Refl.refl rest⟩

theorem sublist {blocks later : List Block} (lasts : Lasts blocks later) :
    List.SublistForall₂ Block.Ages blocks later := by
  cases blocks with
  | nil => exact .nil
  | cons b rest =>
    obtain ⟨b', rest', rfl, ages, inside⟩ := lasts
    exact .cons ages inside

theorem append_right {front blocks later : List Block}
    (sub : List.SublistForall₂ Block.Ages blocks later) :
    List.SublistForall₂ Block.Ages (front ++ blocks) (front ++ later) := by
  induction front with
  | nil => exact sub
  | cons b front ih => exact .cons (.refl b) ih

/-- Some blocks have been left meanwhile, and those that were ahead then last in their turn. -/
theorem trans {blocks left ahead later : List Block} (first : Lasts blocks (left ++ ahead))
    (second : Lasts ahead later) : Lasts blocks (left ++ later) := by
  cases blocks with
  | nil => trivial
  | cons b rest =>
    obtain ⟨b', rest', same, ages, inside⟩ := first
    cases left with
    | nil =>
      rw [List.nil_append] at same
      subst same
      obtain ⟨b'', rest'', rfl, ages', inside'⟩ := second
      exact ⟨b'', rest'', rfl, ages.trans ages', IsTrans.trans _ _ _ inside inside'⟩
    | cons c left =>
      obtain ⟨rfl, rfl⟩ := List.cons.inj same
      exact ⟨c, left ++ later, rfl, ages, IsTrans.trans _ _ _ inside (append_right second.sublist)⟩

end Lasts

/-- The sequence has gone on: it may have left some blocks, in this order. -/
structure Sequence.Grows (s s' : Sequence) : Prop where
  order : ∃ left, s'.behind = left ++ s.behind ∧ Lasts s.ahead (left.reverse ++ s'.ahead)
  started : s.started = true → s'.started = true
  finished : s.finished = true → s'.finished = true
  cancelled : s.cancelled = true → s'.cancelled = true
  address : s'.address = s.address

/-- The blocks before the position are the same and stand where they stood; the position, the length
and the three flags never go back; and from the position on all blocks last. -/
structure Sequence.Continues (s s' : Sequence) : Prop where
  kept : ∀ i < s.cursor, s'.blocks[i]? = s.blocks[i]?
  cursor : s.cursor ≤ s'.cursor
  length : s.length ≤ s'.length
  order : ∃ later, s'.blocks = s.behind.reverse ++ later ∧ Lasts s.ahead later
  started : s.started = true → s'.started = true
  finished : s.finished = true → s'.finished = true
  cancelled : s.cancelled = true → s'.cancelled = true

namespace Sequence

theorem Grows.refl (s : Sequence) : s.Grows s :=
  ⟨⟨[], rfl, .refl s.ahead⟩, id, id, id, rfl⟩

theorem Grows.trans {s s' s'' : Sequence} (first : s.Grows s') (second : s'.Grows s'') :
    s.Grows s'' := by
  obtain ⟨left, behind, lasts⟩ := first.order
  obtain ⟨left', behind', lasts'⟩ := second.order
  refine ⟨⟨left' ++ left, ?_, ?_⟩, second.started ∘ first.started,
    second.finished ∘ first.finished, second.cancelled ∘ first.cancelled,
    second.address.trans first.address⟩
  · rw [behind', behind, List.append_assoc]
  · rw [List.reverse_append, List.append_assoc]
    exact lasts.trans lasts'

theorem Grows.cursor_le {s s' : Sequence} (grows : s.Grows s') : s.cursor ≤ s'.cursor := by
  obtain ⟨left, behind, -⟩ := grows.order
  simp only [cursor, behind, List.length_append]
  omega

theorem Grows.continues {s s' : Sequence} (grows : s.Grows s') : s.Continues s' := by
  obtain ⟨left, behind, lasts⟩ := grows.order
  have blocks : s'.blocks = s.behind.reverse ++ (left.reverse ++ s'.ahead) := by
    rw [Sequence.blocks, behind, List.reverse_append, List.append_assoc]
  refine ⟨?_, grows.cursor_le, ?_, ⟨_, blocks, lasts⟩, grows.started, grows.finished,
    grows.cancelled⟩
  · intro i below
    have below : i < s.behind.reverse.length := by rwa [List.length_reverse]
    rw [blocks, Sequence.blocks, List.getElem?_append_left below, List.getElem?_append_left below]
  · obtain ⟨same, forall_ages, sub⟩ := List.sublistForall₂_iff.mp lasts.sublist
    have longer := sub.length_le
    rw [← forall_ages.length_eq] at longer
    simp only [length, blocks]
    rw [Sequence.blocks, List.length_append, List.length_append]
    omega

variable {s : Sequence} {b b' : Block} {rest : List Block}

/-- New blocks stand right after the current one. -/
theorem lasts_of_ages (ages : b.Ages b') (new : List Block) :
    Lasts (b :: rest) (b' :: (new ++ rest)) :=
  ⟨b', new ++ rest, rfl, ages, (List.sublist_append_right new rest).sublistForall₂⟩

theorem grows_here (now : s.ahead = b :: rest) (ages : b.Ages b') (new : List Block) :
    s.Grows { s with ahead := b' :: (new ++ rest) } := by
  refine ⟨⟨[], rfl, ?_⟩, id, id, id, rfl⟩
  rw [now]
  exact lasts_of_ages ages new

theorem grows_advance (now : s.ahead = b :: rest) (ages : b.Ages b') (new : List Block) :
    s.Grows (s.advance b' (new ++ rest)) := by
  refine ⟨⟨[b'], rfl, ?_⟩, id, id, id, rfl⟩
  rw [now]
  exact lasts_of_ages ages new

theorem finish_grows (s : Sequence) (w : World σ) : s.Grows (s.finish services w).part := by
  unfold finish
  split
  · exact .refl s
  · have finished : ∀ handle, s.Grows { s with finished := true, handle } := fun handle =>
      ⟨⟨[], rfl, .refl s.ahead⟩, id, fun _ => rfl, id, rfl⟩
    refine Outcome.bind_part ?_ fun _ _ => ?_
    all_goals
      unfold unregister
      split <;> exact finished _

theorem push_grows (s : Sequence) (block : Block) : s.Grows (s.push block) := by
  refine ⟨⟨[], rfl, ?_⟩, id, id, id, rfl⟩
  cases now : s.ahead with
  | nil => trivial
  | cons b rest =>
    refine ⟨b, rest ++ [block], ?_, .refl b, (List.sublist_append_left rest _).sublistForall₂⟩
    rw [List.reverse_nil, List.nil_append, ahead_push now]

theorem splice_grows (s : Sequence) (blocks : List Block) : s.Grows (s.splice blocks) := by
  cases now : s.ahead with
  | nil =>
    refine ⟨⟨[], ?_, ?_⟩, ?_, ?_, ?_, ?_⟩
    all_goals simp [splice, now, Lasts]
  | cons b rest =>
    have spliced : s.splice blocks = { s with ahead := b :: (blocks ++ rest) } := by
      simp only [splice, now]
    rw [spliced]
    exact grows_here now (.refl b) blocks

end Sequence

/-- `x` stands at a path in `e` and `x'` at the same path in `e'`, and none of the sequences around
them has meanwhile gone past the group that it was at. -/
inductive SameThread : List Nat → Execution → Execution → Execution → Execution → Prop
  | root {e e' : Execution} : SameThread [] e e' e e'
  | thread {branch : Nat} {path : List Nat} {e e' x x' : Execution} {t t' : Thread}
      (stays : e'.cursor = e.cursor)
      (found : e.threads.find? (·.branch = branch) = some t)
      (found' : e'.threads.find? (·.branch = branch) = some t')
      (inside : SameThread path t.execution t'.execution x x') :
      SameThread (branch :: path) e e' x x'

theorem SameThread.unchanged {path : List Nat} {e e' x x' : Execution}
    (same : SameThread path e e' x x') (unchanged : e = e') : x = x' := by
  induction same with
  | root => exact unchanged
  | thread _ found found' _ ih =>
    rw [← unchanged, found] at found'
    cases found'
    exact ih rfl

namespace Execution

/-- Every sequence of the tree that is still in its place has grown. -/
def Grows (e e' : Execution) : Prop :=
  ∀ path x x', SameThread path e e' x x' → x.toSequence.Grows x'.toSequence

/-- Every sequence of the tree that is still in its place goes on from where it was. -/
def Continues (e e' : Execution) : Prop :=
  ∀ path x x', SameThread path e e' x x' → x.toSequence.Continues x'.toSequence

structure Evolves (e e' : Execution) : Prop where
  grows : e.Grows e'
  addressed : e'.Addressed

variable {e e' : Execution} {b : Block} {rest : List Block} {before after : List Thread}
  {t : Thread}

theorem Grows.line (grows : e.Grows e') : e.toSequence.Grows e'.toSequence :=
  grows [] e e' .root

theorem Grows.continues (grows : e.Grows e') : e.Continues e' :=
  fun path x x' same => (grows path x x' same).continues

theorem Grows.refl (e : Execution) : e.Grows e := by
  intro path x x' same
  rw [same.unchanged rfl]
  exact .refl _

/-- No thread is still in its place. -/
theorem grows_of_line (line : e.toSequence.Grows e'.toSequence)
    (gone : e.threads = [] ∨ e'.threads = [] ∨ e.cursor < e'.cursor) : e.Grows e' := by
  intro path x x' same
  cases same with
  | root => exact line
  | thread stays found found' _ =>
    rcases gone with none | none | further
    · rw [none] at found
      cases found
    · rw [none] at found'
      cases found'
    · omega

/-- Each thread that is still in its place has grown by itself. -/
theorem grows_of_threads (line : e.toSequence.Grows e'.toSequence)
    (threads : ∀ branch s s', e.threads.find? (·.branch = branch) = some s →
      e'.threads.find? (·.branch = branch) = some s' → s.execution.Grows s'.execution) :
    e.Grows e' := by
  intro path x x' same
  cases same with
  | root => exact line
  | thread _ found found' inside => exact threads _ _ _ found found' _ _ _ inside

theorem evolves_of_thread (addressed : e.Addressed) (threads : e.threads = before ++ t :: after)
    {x : Execution} (evolves : t.execution.Evolves x) :
    e.Evolves { e with threads := before ++ { t with execution := x } :: after } := by
  have numbered := addressed_iff.mp addressed
  rw [threads] at numbered
  refine ⟨grows_of_threads (.refl _) fun branch s s' found found' => ?_, ?_⟩
  · have found' : (before ++ { t with execution := x } :: after).find? (·.branch = branch) =
        some s' := found'
    rw [threads] at found
    by_cases here : t.branch = branch
    · subst here
      rw [numbered.find_here rfl] at found
      rw [numbered.find_here (s := { t with execution := x }) rfl] at found'
      cases found
      cases found'
      exact evolves.grows
    · rw [find_other here] at found
      rw [find_other (t := { t with execution := x }) here, found] at found'
      cases found'
      exact .refl _
  · exact addressed_iff.mpr (numbered.replace evolves.grows.line.address evolves.addressed)

/-- Threads are taken off the current group. -/
theorem evolves_of_fewer (addressed : e.Addressed) {line : Sequence}
    (grows : e.toSequence.Grows line) {fewer : List Thread} (sub : fewer.Sublist e.threads) :
    e.Evolves ⟨line, fewer⟩ := by
  have numbered := addressed_iff.mp addressed
  refine ⟨grows_of_threads grows fun branch s s' found found' => ?_, addressed_iff.mpr ?_⟩
  · have branch_s : s.branch = branch := by simpa using List.find?_some found
    have branch_s' : s'.branch = branch := by simpa using List.find?_some found'
    have same : s' = s := numbered.unique (List.mem_of_find?_eq_some found)
      (sub.subset (List.mem_of_find?_eq_some found')) (branch_s'.trans branch_s.symm)
    rw [same]
    exact .refl _
  · show Numbered line.address fewer
    rw [grows.address]
    exact numbered.sublist sub

end Execution

theorem Join.complete_keeps (j : Join) (others : List Thread) (w : World σ) :
    (j.complete services others w).part.1.plan = j.plan ∧
      (j.complete services others w).part.2.Sublist others := by
  unfold complete
  simp only
  split
  · refine Outcome.bind_part
      (P := fun part : Join × List Thread => part.1.plan = j.plan ∧ part.2.Sublist others)
      ⟨rfl, List.nil_sublist _⟩ fun _ _ => ?_
    split <;> exact ⟨rfl, List.nil_sublist _⟩
  · exact ⟨rfl, List.Sublist.refl _⟩

/-- Entering the sequence of a thread that has none makes it go on. -/
def Execution.EntersEvolving (e : Execution) : Prop :=
  ∀ w : World σ, e.threads = [] → e.Evolves (e.enter services w).part

theorem startThreads_numbered {branches : List (List Template)}
    (enters : ∀ templates ∈ branches, ∀ address,
      (startedThread address templates).EntersEvolving services)
    (address : List Nat) (first : Nat) (started : List Thread) (join : Join) (w : World σ)
    (numbered : Numbered address (started ++ threadsFrom address first branches)) :
    let part := (startThreads services (threadsFrom address first branches) started join w).part
    part.1.plan = join.plan ∧ Numbered address part.2 := by
  induction branches generalizing first started join w with
  | nil =>
    rw [threadsFrom, startThreads]
    rw [threadsFrom, List.append_nil] at numbered
    exact ⟨rfl, numbered⟩
  | cons templates rest ih =>
    have rest_enters := fun ts mem => enters ts (List.mem_cons_of_mem templates mem)
    have entered := enters templates List.mem_cons_self (address ++ [first]) w rfl
    rw [threadsFrom] at numbered
    have fewer : Numbered address (started ++ threadsFrom address (first + 1) rest) :=
      numbered.sublist ((List.sublist_cons_self _ _).append_left started)
    have replaced := numbered.replace entered.grows.line.address entered.addressed
    rw [startThreads_next]
    refine Outcome.bind_part
      (P := fun part : Join × List Thread => part.1.plan = join.plan ∧ Numbered address part.2)
      ⟨rfl, replaced⟩ fun _ _ => ?_
    split
    · obtain ⟨plan, sub⟩ := join.complete_keeps services
        (started ++ threadsFrom address (first + 1) rest)
        ((startedThread (address ++ [first]) templates).enter services w).world
      refine Outcome.bind_part
        (P := fun part : Join × List Thread => part.1.plan = join.plan ∧ Numbered address part.2)
        ⟨plan, fewer.sublist sub⟩ fun ended _ => ?_
      cases ended with
      | true => exact ⟨plan, fewer.sublist sub⟩
      | false =>
        obtain ⟨plan', numbered'⟩ := ih rest_enters (first + 1) _ _ _ fewer
        exact ⟨plan'.trans plan, numbered'⟩
    · refine ih rest_enters (first + 1) _ _ _ ?_
      rwa [List.append_assoc, List.singleton_append]

theorem Block.arrive_evolves {b : Block}
    (enters : ∀ join, b.activity = .parallel join → ∀ templates ∈ join.branches, ∀ address,
      (startedThread address templates).EntersEvolving services)
    (address : List Nat) (w : World σ) :
    b.Ages (Block.arrive services address b w).part.1 ∧
      Numbered address (Block.arrive services address b w).part.2 := by
  cases activity : b.activity with
  | task | condition | asked =>
    rw [Block.arrive, activity]
    exact ⟨.refl b, .nil⟩
  | counted remaining entered body =>
    have turned : b.Ages { b with activity := .counted remaining true body } :=
      ages_of_activity (by rw [activity]; rfl)
    rw [Block.arrive_counted services address w activity]
    split
    · exact ⟨turned.trans (ages_of_handle _ none), .nil⟩
    · exact ⟨turned, .nil⟩
  | sleep s =>
    by_cases positive : 0 < s.value
    · rw [Block.arrive, activity]
      simp only [positive, if_true]
      refine ⟨ages_of_activity ?_, .nil⟩
      rw [activity]
      exact congrArg Activity.sleep (Outcome.bind_part (P := fun s' : Sleep => s'.plan = s.plan)
        (s.start_plan services address w) fun _ _ => s.start_plan services address w)
    · rw [Block.arrive_elapsed services address w activity positive]
      exact ⟨ages_of_activity (by rw [activity]; rfl), .nil⟩
  | parallel join =>
    by_cases none : join.branches = []
    · rw [Block.arrive_branchless services address w activity none]
      exact ⟨ages_of_activity (by rw [activity]; rfl), .nil⟩
    · rw [Block.arrive_group services address w activity none]
      obtain ⟨plan, numbered⟩ := startThreads_numbered services (enters join activity) address 0
        [] join.opened (w.noteOpened join.branches)
        (Numbered.threadsFrom address 0 join.branches).1
      refine ⟨ages_of_activity ?_, numbered⟩
      rw [activity]
      exact congrArg Activity.parallel plan

namespace Execution

variable {e : Execution} {b b' : Block} {rest : List Block}

/-- The current block leaves, and the blocks ahead are entered. -/
theorem evolves_leaving (now : e.ahead = b :: rest) (ages : b.Ages b') (new : List Block)
    (goes_on : ∀ left, EntersEvolving services ⟨e.advance left (new ++ rest), []⟩) (w : World σ) :
    e.Evolves ((b'.leave services w).bind
      (fun left => (⟨{ e.toSequence with ahead := left :: (new ++ rest) }, []⟩ : Execution))
      fun _ left w => Execution.enter services ⟨e.advance left (new ++ rest), []⟩
        (e.noteLeft left w)).part := by
  have left_ages := ages.trans (b'.leave_ages services w)
  refine Outcome.bind_part ?_ fun _ _ => ?_
  · exact ⟨grows_of_line (Sequence.grows_here now left_ages new) (Or.inr (Or.inl rfl)),
      .threadless rfl⟩
  · have advanced := Sequence.grows_advance now left_ages new
    have entered := goes_on (b'.leave services w).part
      (e.noteLeft (b'.leave services w).part (b'.leave services w).world) rfl
    have further := entered.grows.line.cursor_le
    refine ⟨grows_of_line (advanced.trans entered.grows.line) (Or.inr (Or.inr ?_)),
      entered.addressed⟩
    exact Nat.lt_of_lt_of_le (Nat.lt_succ_self _) further

theorem enter_evolves (e : Execution) : e.EntersEvolving services := by
  induction e using enter_induction with
  | nil e now =>
    intro w none
    rw [enter_end services w now]
    exact ⟨grows_of_line (e.toSequence.finish_grows services w) (Or.inl none), .threadless rfl⟩
  | cons e b rest now goes_on starts =>
    intro w none
    rcases registered : b.register services w with ⟨answer, v⟩
    cases answer with
    | error error =>
      rw [enter_refused services now registered]
      exact ⟨.refl e, .threadless none⟩
    | ok handle =>
      rw [enter_block services now registered]
      obtain ⟨ages, numbered⟩ :=
        Block.arrive_evolves services (b := { b with handle }) starts e.address v
      have arrived_ages := (b.ages_of_handle handle).trans ages
      have arrived : e.Evolves ⟨{ e.toSequence with
          ahead := (Block.arrive services e.address { b with handle } v).part.1 :: rest },
          (Block.arrive services e.address { b with handle } v).part.2⟩ :=
        ⟨grows_of_line (Sequence.grows_here now arrived_ages []) (Or.inl none),
          addressed_iff.mpr numbered⟩
      refine Outcome.bind_part arrived fun leaves _ => ?_
      cases leaves with
      | false => exact arrived
      | true => exact evolves_leaving services now arrived_ages _ (fun left => goes_on left handle) _

/-- Leaving is the same whatever threads the execution has and wherever it is in `ahead`. -/
theorem leave_evolves (now : e.ahead = b :: rest) (ages : b.Ages b') (new ahead : List Block)
    (threads : List Thread) (w : World σ) :
    e.Evolves
      (leave services b' (new ++ rest) ⟨{ e.toSequence with ahead }, threads⟩ w).part := by
  refine Outcome.bind_part ?_ fun _ _ => ?_
  · exact ⟨grows_of_line (Sequence.grows_here now ages new) (Or.inr (Or.inl rfl)), .threadless rfl⟩
  · exact evolves_leaving services now ages new (fun left => enter_evolves services _) _

variable {before after : List Thread} {t : Thread}

theorem afterThread_evolves (addressed : e.Addressed) (now : e.ahead = b :: rest) {join : Join}
    (group : b.join? = some join) (threads : e.threads = before ++ t :: after) {x : Execution}
    (evolves : t.execution.Evolves x) (w : World σ) :
    e.Evolves
      (e.afterThread services b rest join before after { t with execution := x } w).part := by
  unfold afterThread
  simp only
  split
  · obtain ⟨plan, sub⟩ := join.complete_keeps services (before ++ after) w
    have ages : b.Ages { b with
        activity := .parallel (join.complete services (before ++ after) w).part.1 } :=
      Block.ages_of_activity (by
        rw [Block.activity_of_join? group]
        exact congrArg Activity.parallel plan)
    have fewer : (before ++ after).Sublist e.threads := by
      rw [threads]
      exact (List.sublist_cons_self t after).append_left before
    have counted := evolves_of_fewer addressed (Sequence.grows_here now ages [])
      (sub.trans fewer)
    refine Outcome.bind_part counted fun ended _ => ?_
    cases ended with
    | false => exact counted
    | true => exact leave_evolves services now ages [] _ _ _
  · exact evolves_of_thread addressed threads evolves

theorem dispatch_evolves (addressed : e.Addressed) (event : Event) (path : List Nat)
    (w : World σ) : e.Evolves (e.dispatch services event path w).part := by
  induction depth : path.length using Nat.strongRecOn generalizing path e with
  | ind n ih =>
  subst depth
  refine dispatch_cases (motive := fun o => e.Evolves o.part) path
    (fun _ => ⟨.refl e, addressed⟩) ?here ?thread
  case here =>
    intro b rest _ now
    have ages := b.react_ages services event w
    have reacted : e.Evolves { e with ahead := (b.react services event w).part :: rest } :=
      evolves_of_fewer addressed (Sequence.grows_here now ages []) (List.Sublist.refl _)
    refine Outcome.bind_part reacted fun reaction _ => ?_
    cases reaction with
    | stay => exact reacted
    | leave after => exact leave_evolves services now ages after _ _ _
  case thread =>
    intro b rest join before t after further _ now group threads less
    have numbered := addressed_iff.mp addressed
    have evolves := ih _ less (numbered.inside t (by simp [threads])) further rfl
    exact Outcome.bind_part (evolves_of_thread addressed threads evolves) fun _ _ =>
      afterThread_evolves services addressed now group threads evolves _

end Execution

namespace Run

/-- A root that was not started has not ended either and has no threads. -/
structure Unstarted (e : Execution) : Prop where
  finished : e.finished = false
  cancelled : e.cancelled = false
  threads : e.threads = []

/-- The threads are numbered. -/
structure InOrder (r : Run σ) : Prop where
  addressed : r.root.Addressed
  unstarted : r.root.started = false → Unstarted r.root

variable {r : Run σ}

/-- The root goes on from its start, and from then on it is started. -/
theorem begin_evolves {e : Execution} (none : e.threads = []) (w : World σ) :
    e.Evolves (begin services e w).part ∧ (begin services e w).part.started = true := by
  have started : ∀ handle, e.toSequence.Grows { e.toSequence with started := true, handle } :=
    fun handle => ⟨⟨[], rfl, .refl e.ahead⟩, fun _ => rfl, id, id, rfl⟩
  have entered : ∀ handle v,
      e.Evolves (Execution.enter services { e with started := true, handle } v).part ∧
        (Execution.enter services { e with started := true, handle } v).part.started = true := by
    intro handle v
    have inner := Execution.enter_evolves services { e with started := true, handle } v none
    have line := inner.grows.line
    exact ⟨⟨Execution.grows_of_line ((started handle).trans line) (Or.inl none),
      inner.addressed⟩, line.started rfl⟩
  unfold begin
  simp only
  split
  · split
    · exact ⟨⟨Execution.grows_of_line (started e.handle) (Or.inl none), .threadless none⟩, rfl⟩
    · exact entered _ _
  · exact entered e.handle w

theorem perform_evolves (inOrder : r.InOrder) (call : Call) :
    r.root.Evolves (r.perform services call).root := by
  cases call with
  | start =>
    simp only [perform, start]
    split
    · exact ⟨.refl _, inOrder.addressed⟩
    · next unstarted =>
      have none := (inOrder.unstarted (Bool.eq_false_iff.mpr unstarted)).threads
      exact (begin_evolves services none _).1
  | dispatch path event => exact r.root.dispatch_evolves services inOrder.addressed event path _
  | push block =>
    exact Execution.evolves_of_fewer inOrder.addressed (r.root.toSequence.push_grows _)
      (List.Sublist.refl _)
  | splice blocks =>
    exact Execution.evolves_of_fewer inOrder.addressed (r.root.toSequence.splice_grows _)
      (List.Sublist.refl _)
  | requestPause => exact ⟨.refl _, inOrder.addressed⟩
  | releasePause token => exact ⟨.refl _, inOrder.addressed⟩

/-- A root that is not started after a call was not started before it. -/
theorem unstarted_before (inOrder : r.InOrder) (call : Call)
    (unstarted : (r.perform services call).root.started = false) : r.root.started = false := by
  have evolves := perform_evolves services inOrder call
  rw [← Bool.not_eq_true] at unstarted ⊢
  exact mt evolves.grows.line.started unstarted

theorem root_perform_dispatch (unstarted : r.root.started = false) (path : List Nat)
    (event : Event) : (r.perform services (.dispatch path event)).root = r.root := by
  have idle : r.root.isRunning = false := by simp [Sequence.isRunning, unstarted]
  simp only [perform, dispatch, Execution.dispatch_idle idle, ofOutcome]

theorem inOrder_perform (r : Run σ) (call : Call) (inOrder : r.InOrder) :
    (r.perform services call).InOrder := by
  refine ⟨(perform_evolves services inOrder call).addressed, fun unstarted => ?_⟩
  have before := unstarted_before services inOrder call unstarted
  have as_before := inOrder.unstarted before
  cases call with
  | start =>
    have started := (begin_evolves services as_before.threads r.world).2
    simp only [perform, start, before, Bool.false_eq_true, if_false] at unstarted
    exact absurd (unstarted.symm.trans started) Bool.false_ne_true
  | dispatch path event =>
    rw [root_perform_dispatch services before]
    exact as_before
  | push block => exact ⟨as_before.finished, as_before.cancelled, as_before.threads⟩
  | splice blocks =>
    obtain ⟨unfinished, uncancelled, none⟩ := as_before
    rw [perform, splice, Sequence.splice_eq]
    exact ⟨unfinished, uncancelled, none⟩
  | requestPause => exact as_before
  | releasePause token => exact as_before

theorem Fresh.inOrder {blocks : List HostBlock} (fresh : r.Fresh blocks) : r.InOrder := by
  obtain ⟨description, reminder, root⟩ := fresh.root
  refine ⟨.threadless ?_, fun _ => ?_⟩
  all_goals rw [root]
  · rfl
  · exact ⟨rfl, rfl, rfl⟩

theorem Fresh.inOrder_after {blocks : List HostBlock} (fresh : r.Fresh blocks)
    (calls : List Call) : (r.after services calls).InOrder :=
  after_induction services (fun r call _ => inOrder_perform services r call) fresh.inOrder calls
    fun _ _ => trivial

/-- Whatever the host answers, and wherever it stops a call: the root goes on from where the call
found it, and so does every thread that is still in its place. An event that is on its way to a
thread makes the thread go on also if it is over then and taken off its group. -/
theorem history_kept {blocks : List HostBlock} (fresh : r.Fresh blocks) (calls : List Call)
    (call : Call) :
    let now := r.after services calls
    now.root.Continues (now.perform services call).root ∧
      ∀ path x, now.root.thread? path = some x → ∀ event deeper w,
        x.Continues (x.dispatch services event deeper w).part := by
  have inOrder := fresh.inOrder_after services calls
  refine ⟨(perform_evolves services inOrder call).grows.continues, ?_⟩
  intro path x found event deeper w
  have addressed := (inOrder.addressed.thread? found).1
  exact (x.dispatch_evolves services addressed event deeper w).grows.continues

/-- A loop in a branch, whose passes are put into the sequence of their thread. -/
def kneading : Run InMemory :=
  .ofWorkflow ⟨"bread", none, none, [.task "mix", .parallel "meanwhile" 2
    [[.counted 2 [.task "knead"], .task "rest"], [.task "heat"]], .task "bake"]⟩ .empty

theorem history_kept_kneading :
    let now := kneading.after InMemory.services [.start, .dispatch [] .done]
    let later := now.perform InMemory.services (.dispatch [0] .done)
    ((now.root.thread? [0]).map (·.cursor) = some 1 ∧
      (later.root.thread? [0]).map (·.cursor) = some 3 ∧
      (later.root.thread? [0]).map (·.blocks.map Block.shownText) =
        some ["2 more times...", "knead", "1 more times...", "knead", "1 more times...", "rest"]) ∧
    now.root.Continues later.root ∧
      ∀ path x, now.root.thread? path = some x → ∀ event deeper w,
        x.Continues (x.dispatch InMemory.services event deeper w).part := by
  refine ⟨by decide +kernel, ?_⟩
  exact history_kept InMemory.services (fresh_ofWorkflow _ _) [.start, .dispatch [] .done]
    (.dispatch [0] .done)

end Run

end Stepwise
