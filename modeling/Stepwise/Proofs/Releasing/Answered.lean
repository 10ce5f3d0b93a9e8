import Stepwise.Proofs.Trails.Runs

/-!
# Calls that are answered

An operation answers with the first refusal that it gets. So a call that is answered had no refusal
in any operation within it, and in particular the threads that it cancelled have asked for the
removal of all reminders that their blocks ahead had, and were granted it.
-/

namespace Stepwise

variable {σ : Type} {Good : σ → Prop} {services : Services σ}

/-- It ended without a refusal. -/
def Outcome.IsAnswered {τ α : Type} (o : Outcome σ τ α) : Prop := ∃ a, o.result = .ok a

namespace Outcome.IsAnswered

variable {τ υ α β : Type} {o : Outcome σ τ α}

theorem of_bind {wrap : τ → υ} {next : α → τ → World σ → Outcome σ υ β}
    (answered : (o.bind wrap next).IsAnswered) :
    ∃ a, o.result = .ok a ∧ (next a o.part o.world).IsAnswered := by
  obtain ⟨result, part, w⟩ := o
  cases result with
  | ok a => exact ⟨a, rfl, answered⟩
  | error e =>
    obtain ⟨a, same⟩ := answered
    cases same

theorem first {wrap : τ → υ} {next : α → τ → World σ → Outcome σ υ β}
    (answered : (o.bind wrap next).IsAnswered) : o.IsAnswered := by
  obtain ⟨a, first, -⟩ := answered.of_bind
  exact ⟨a, first⟩

theorem yields (answered : o.IsAnswered) {fine : α → τ → World σ → Prop} (yields : o.Yields fine) :
    ∃ a, fine a o.part o.world := by
  obtain ⟨a, same⟩ := answered
  exact ⟨a, Outcome.yields_iff.mp yields a same⟩

end Outcome.IsAnswered

theorem cancelThreads_answered_among {first rest : List Thread} {t : Thread} {w v : World σ}
    (answered : (cancelThreads services (first ++ t :: rest) w).IsAnswered)
    (earlier : cancelThreads services first w = ⟨.ok (), (), v⟩) :
    (t.execution.cancel services v).IsAnswered := by
  induction first generalizing w with
  | nil =>
    rw [cancelThreads] at earlier
    cases earlier
    obtain ⟨branch, e⟩ := t
    rw [List.nil_append, cancelThreads] at answered
    exact answered.first
  | cons s others ih =>
    obtain ⟨branch, e⟩ := s
    rw [cancelThreads] at earlier
    rw [List.cons_append, cancelThreads] at answered
    rcases cancelled : e.cancel services w with ⟨result, x, u⟩
    rw [cancelled] at earlier answered
    cases result with
    | error error => cases earlier
    | ok _ => exact ih answered earlier

namespace Action

/-- The operation ends without a refusal. -/
def IsAnswered (services : Services σ) : Action → World σ → Prop
  | .enter e, w => (e.enter services w).IsAnswered
  | .startThreads pending started join, w =>
    (Stepwise.startThreads services pending started join w).IsAnswered
  | .complete join others, w => (join.complete services others w).IsAnswered
  | .leave b ahead e, w => (e.leave services b ahead w).IsAnswered
  | .dispatch event path e, w => (e.dispatch services event path w).IsAnswered

variable {a a' : Action} {t : Thread} {w w' v : World σ}

theorem Begins.answered (begins : Begins services a w a' w') (answered : a.IsAnswered services w) :
    a'.IsAnswered services w' := by
  cases begins with
  | @group e b rest handle join w v now registered activity some_branch =>
    have entered : (e.enter services w).IsAnswered := answered
    rw [Execution.enter_block services now registered, Block.arrive_group services e.address
      (b := { b with handle }) v activity some_branch] at entered
    obtain ⟨a, answered⟩ := entered.first
    exact ⟨a, answered⟩
  | next now registered arrives leaves =>
    have entered := answered
    rw [IsAnswered, Execution.enter_block services now registered, arrives, Outcome.bind_ok]
      at entered
    simp only [if_true, leaves, Outcome.bind_ok] at entered
    exact entered
  | start =>
    rw [IsAnswered, Stepwise.startThreads] at answered
    exact answered.first
  | finishes entered finished =>
    rw [IsAnswered, Stepwise.startThreads, entered, Outcome.bind_ok, if_pos finished] at answered
    exact answered.first
  | others entered finished counted =>
    rw [IsAnswered, Stepwise.startThreads, entered, Outcome.bind_ok, if_pos finished, counted]
      at answered
    exact answered
  | waits entered unfinished =>
    rw [IsAnswered, Stepwise.startThreads, entered, Outcome.bind_ok,
      if_neg (Bool.eq_false_iff.mp unfinished)] at answered
    exact answered
  | reacts running now reacted =>
    rw [IsAnswered, Execution.dispatch_here running now, reacted] at answered
    exact answered
  | passes passes =>
    rw [IsAnswered, Execution.dispatch_thread passes.running passes.now passes.group passes.found]
      at answered
    exact answered.first
  | counts passes delivered finished =>
    rw [IsAnswered, passes.dispatch_delivered delivered, Execution.afterThread] at answered
    simp only [finished, if_true] at answered
    exact answered.first
  | ends passes delivered finished counted =>
    rw [IsAnswered, passes.dispatch_delivered delivered, Execution.afterThread] at answered
    simp only [finished, if_true, counted, Outcome.bind_ok] at answered
    exact answered
  | onward cancelled leaves =>
    rw [IsAnswered, Execution.leave, cancelled, Outcome.bind_ok, leaves, Outcome.bind_ok]
      at answered
    exact answered

theorem Cancels.answered (cancels : Cancels services a w t v) (answered : a.IsAnswered services w) :
    (t.execution.cancel services v).IsAnswered := by
  induction cancels with
  | joined enough earlier =>
    simp only [IsAnswered, Join.complete, enough, or_true, if_true] at answered
    exact cancelThreads_answered_among answered.first earlier
  | left threads earlier =>
    rw [IsAnswered, Execution.leave, threads] at answered
    exact cancelThreads_answered_among answered.first earlier
  | begun begins cancels ih => exact ih (begins.answered answered)
  | @inside a first rest t t' w v u cancels running threads earlier ih =>
    have outer := ih answered
    obtain ⟨branch, line, nested⟩ := t
    have nested_eq : nested = first ++ t' :: rest := threads
    rw [nested_eq, Execution.cancel, if_pos running] at outer
    exact cancelThreads_answered_among outer.first earlier

end Action

/-- The reminders that the blocks had were removed since then. -/
def Removes (blocks : List Block) (w v : World σ) : Prop :=
  ∃ asks, v.journal = asks ++ w.journal ∧ ∀ b ∈ blocks, ∀ id, b.handle = some id →
    .asked (.removeReminder id) (.ok ()) ∈ asks

theorem Removes.cons {b : Block} {rest : List Block} {w v u : World σ} {asks : List Entry}
    (noted : v.journal = asks ++ w.journal)
    (removed : ∀ id, b.handle = some id → .asked (.removeReminder id) (.ok ()) ∈ asks)
    (others : Removes rest v u) : Removes (b :: rest) w u := by
  obtain ⟨more, noted', removed'⟩ := others
  refine ⟨more ++ asks, by rw [noted', noted, List.append_assoc], ?_⟩
  refine List.forall_mem_cons.mpr ⟨fun id held => ?_, fun c mem id held => ?_⟩
  · exact List.mem_append_right more (removed id held)
  · exact List.mem_append_left asks (removed' c mem id held)

theorem Removes.further {blocks : List Block} {w v u : World σ} (removes : Removes blocks w v)
    (further : v.journal <:+ u.journal) : Removes blocks w u := by
  obtain ⟨asks, noted, removed⟩ := removes
  obtain ⟨more, same⟩ := further
  refine ⟨more ++ asks, by rw [← same, noted, List.append_assoc], fun b mem id held => ?_⟩
  exact List.mem_append_right more (removed b mem id held)

theorem Removes.since {blocks : List Block} {w v u : World σ} (removes : Removes blocks v u)
    (further : w.journal <:+ v.journal) : Removes blocks w u := by
  obtain ⟨asks, noted, removed⟩ := removes
  obtain ⟨more, same⟩ := further
  refine ⟨asks ++ more, by rw [noted, ← same, List.append_assoc], fun b mem id held => ?_⟩
  exact List.mem_append_left more (removed b mem id held)

theorem discardAll_removes (blocks : List Block) (w : World σ) :
    (discardAll services blocks w).Yields fun _ _ v => Removes blocks w v := by
  induction blocks generalizing w with
  | nil => exact ⟨[], rfl, List.forall_mem_nil _⟩
  | cons b rest ih =>
    refine (b.discard_parts w).bind_yields ?_
    rintro _ _ v ⟨-, asks, noted, -, removed⟩
    exact (ih v).within_yields fun _ _ _ others => .cons noted removed others

namespace Sequence

variable {s : Sequence}

theorem giveUp_removes (s : Sequence) (w : World σ) :
    (s.giveUp services w).Yields fun _ _ v => Removes s.ahead w v := by
  refine (discardAll_removes s.ahead w).bind_yields fun _ ahead v removes => ?_
  have further : Onward (fun _ => True) v.journal
      ({ s with ahead }.unregister services v).world.journal := unregister_onward _ v
  exact Outcome.yields_iff.mpr fun _ _ => removes.further further.suffix

theorem halt_removes (s : Sequence) (w : World σ) :
    (s.halt services w).Yields fun _ _ v => Removes s.ahead w v := by
  unfold halt
  split
  · next none =>
    exact s.giveUp_removes w
  · next b rest now =>
    rw [now]
    refine (b.leave_parts w).bind_yields ?_
    rintro _ left v ⟨-, asks, noted, -, removed⟩
    refine (giveUp_removes (s.advance left rest) (s.noteLeft left v)).mono
      (fun _ _ _ _ => trivial) fun _ _ u others => ?_
    exact .cons noted removed (others.since (List.suffix_cons _ _))

end Sequence

/-- A running execution that is cancelled has the reminders of its blocks ahead removed. -/
theorem Execution.cancel_removes (e : Execution) (running : e.isRunning = true) (w : World σ) :
    (e.cancel services w).Yields fun _ _ v => Removes e.ahead w v := by
  obtain ⟨line, threads⟩ := e
  rw [cancel, if_pos running]
  have further : Onward (fun _ => True) w.journal
      (cancelThreads services threads w).world.journal := cancelThreads_onward threads w
  have inside : (cancelThreads services threads w).Yields fun _ _ v => w.journal <:+ v.journal :=
    Outcome.yields_iff.mpr fun _ _ => further.suffix
  refine inside.bind_yields fun _ _ v further => ?_
  exact (Sequence.halt_removes { line with cancelled := true } v).within_yields
    fun _ _ _ removes => removes.since further

namespace Run

variable {r : Run σ} {call : Call} {a : Action} {t : Thread} {w v : World σ} {hand : Handed}

theorem Begins.answered (reliable : services.Reliable Good) (sound : r.Sound Good)
    (begins : r.Begins services call a w) : a.IsAnswered services w := by
  cases begins with
  | @reminded reminder description id _ unstarted reminds described added =>
    obtain ⟨e, u, answered⟩ := sound.begin_answered reliable unstarted
    have begun : begin services r.root r.world =
        Execution.enter services { r.root with started := true, handle := some id } w := by
      simp only [begin, reminds, described, added]
    rw [begun] at answered
    exact ⟨(), congrArg Outcome.result answered⟩
  | unreminded unstarted none =>
    obtain ⟨e, v, answered⟩ := sound.begin_answered reliable unstarted
    unfold begin at answered
    simp only at answered
    split at answered
    · next reminder description reminds described =>
      rcases none with none | none
      · cases reminds.symm.trans none
      · cases described.symm.trans none
    · exact ⟨(), congrArg Outcome.result answered⟩
  | event path event =>
    obtain ⟨e, v, answered⟩ := sound.dispatch_answered reliable path event
    exact ⟨(), congrArg Outcome.result answered⟩

/-- Every operation within a call of a run in which nothing fails is answered, and all that it notes
is noted by the call. -/
theorem Performs.parts (reliable : services.Reliable Good) (sound : r.Sound Good)
    (custody : r.InCustody hand) (performs : r.Performs services call a w) :
    a.Ready ∧ a.IsAnswered services w ∧
      (a.world services w).journal <:+ (r.perform services call).world.journal := by
  induction performs with
  | @begins a w begins =>
    have same : (a.world services w).journal = (r.perform services call).world.journal :=
      congrArg World.journal begins.world
    exact ⟨begins.ready custody, begins.answered reliable sound, same ▸ List.suffix_refl _⟩
  | further performs begins ih =>
    obtain ⟨ready, answered, noted⟩ := ih
    exact ⟨begins.ready ready, begins.answered answered, (begins.recorded ready).suffix.trans noted⟩

/-- The reminders of the blocks ahead of a thread that a call cancels are removed by the call, after
the thread was cancelled. -/
theorem Performs.removes (reliable : services.Reliable Good) (sound : r.Sound Good)
    (custody : r.InCustody hand) (performs : r.Performs services call a w)
    (cancels : a.Cancels services w t v) (running : t.execution.isRunning = true) :
    Removes t.execution.ahead v (r.perform services call).world := by
  obtain ⟨ready, answered, noted⟩ := performs.parts reliable sound custody
  obtain ⟨-, removes⟩ := (cancels.answered answered).yields (t.execution.cancel_removes running v)
  exact removes.further ((cancels.recorded ready).suffix.trans noted)

end Run

end Stepwise
