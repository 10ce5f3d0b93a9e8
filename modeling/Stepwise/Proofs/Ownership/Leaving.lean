import Stepwise.Proofs.Ownership

/-!
# Giving reminders back

Whatever leaves or is given up gives back all that it holds. Only a block whose countdown cannot be
cancelled keeps what it holds, and then it is lost if its sequence is being cancelled.
-/

namespace Stepwise

variable {σ : Type}

mutual

/-- The blocks that were left hold nothing, and neither does an execution that does not run, be it
that it is still to be started. No callback is going to fail. -/
def Execution.Tidy : Execution → Prop
  | ⟨line, threads⟩ =>
    (∀ b ∈ line.behind, b.held = []) ∧ (∀ b ∈ line.ahead, b.HooksSucceed) ∧
      (line.isRunning = false → (⟨line, threads⟩ : Execution).held = [] ∧
        (line.started = false → line.finished = false ∧ line.cancelled = false ∧ threads = [])) ∧
      allTidy threads

def allTidy : List Thread → Prop
  | [] => True
  | ⟨_, execution⟩ :: rest => execution.Tidy ∧ allTidy rest

end

theorem allTidy_cons (t : Thread) (rest : List Thread) :
    allTidy (t :: rest) ↔ t.execution.Tidy ∧ allTidy rest := by
  obtain ⟨branch, execution⟩ := t
  rw [allTidy]

theorem allTidy_append (first second : List Thread) :
    allTidy (first ++ second) ↔ allTidy first ∧ allTidy second := by
  induction first with
  | nil => simp [allTidy]
  | cons t first ih => rw [List.cons_append, allTidy_cons, allTidy_cons, ih, and_assoc]

theorem Execution.tidy_iff (e : Execution) :
    e.Tidy ↔ (∀ b ∈ e.behind, b.held = []) ∧ (∀ b ∈ e.ahead, b.HooksSucceed) ∧
      (e.isRunning = false → e.held = [] ∧
        (e.started = false → e.finished = false ∧ e.cancelled = false ∧ e.threads = [])) ∧
      allTidy e.threads := by
  obtain ⟨line, threads⟩ := e
  rw [Tidy]

theorem Execution.Tidy.held_of_finished {e : Execution} (tidy : e.Tidy)
    (finished : e.finished = true) :
    e.held = [] := by
  have idle : e.isRunning = false := by simp [Sequence.isRunning, finished]
  exact (((tidy_iff e).mp tidy).2.2.1 idle).1

variable {book : σ → ReminderBook} {services : Services σ} (keeps : services.KeepsBook book)
  {w : World σ} {ids : List Nat}
include keeps

namespace LeaveHook

theorem run_owns {hook : LeaveHook} (succeeds : hook.Succeeds)
    (owns : w.Owns book (hook.held ++ ids)) :
    ∃ w', hook.run services w = (.ok (), w') ∧ w'.Owns book ids := by
  cases hook with
  | removeReminder id => exact World.removeReminder_owns keeps owns
  | custom name failure =>
    cases succeeds
    exact ⟨_, rfl, owns.note _⟩

theorem runAll_owns {hooks : List LeaveHook} (succeed : ∀ hook ∈ hooks, hook.Succeeds)
    (owns : w.Owns book (hooks.flatMap held ++ ids)) :
    ∃ w', runAll services hooks w = ⟨.ok (), [], w'⟩ ∧ w'.Owns book ids := by
  induction hooks generalizing w with
  | nil => exact ⟨w, rfl, owns⟩
  | cons hook rest ih =>
    rw [List.flatMap_cons, List.append_assoc] at owns
    obtain ⟨v, ran, owns_v⟩ := run_owns keeps (succeed hook List.mem_cons_self) owns
    obtain ⟨w', rest_ran, owns'⟩ :=
      ih (fun hook' h => succeed hook' (List.mem_cons_of_mem hook h)) owns_v
    refine ⟨w', ?_, owns'⟩
    simp only [runAll, ran, rest_ran]

end LeaveHook

namespace Sleep

theorem giveBackToken_owns (s : Sleep) (owns : w.Owns book ids) :
    ∃ s' w', s.giveBackToken services w = ⟨.ok (), s', w'⟩ ∧ w'.Owns book ids := by
  unfold giveBackToken
  split
  · exact ⟨_, w, rfl, owns⟩
  · next token _ =>
    obtain ⟨w', released, owns'⟩ := World.releasePause_owns keeps token owns
    simp only [released]
    exact ⟨_, w', rfl, owns'⟩

theorem release_owns (s : Sleep) (owns : w.Owns book ids) :
    ∃ answer s' w', s.release services w = ⟨answer, s', w'⟩ ∧ w'.Owns book ids ∧
      (answer = .ok () ∨ ¬ w'.Lossless) := by
  unfold release
  split
  · obtain ⟨answer, v, cancelled, owns_v, outcome⟩ :=
      World.cancelCountdown_owns keeps s.route owns
    rw [cancelled]
    cases answer with
    | ok _ =>
      obtain ⟨s', w', given, owns'⟩ :=
        giveBackToken_owns keeps { s with remaining := .zero } owns_v
      exact ⟨_, s', w', given, owns', Or.inl rfl⟩
    | error e => exact ⟨_, s, v, rfl, owns_v, outcome⟩
  · obtain ⟨s', w', given, owns'⟩ := giveBackToken_owns keeps s owns
    exact ⟨_, s', w', given, owns', Or.inl rfl⟩

end Sleep

namespace Block

theorem wrapUp_owns (b : Block) (owns : w.Owns book ids) :
    ∃ answer activity w', b.wrapUp services w = ⟨answer, { b with activity }, w'⟩ ∧
      w'.Owns book ids ∧ (answer = .ok () ∨ ¬ w'.Lossless) := by
  unfold wrapUp
  split
  · exact ⟨_, _, w, rfl, owns, Or.inl rfl⟩
  · next s _ =>
    obtain ⟨answer, s', w', released, owns', outcome⟩ := s.release_owns keeps owns
    exact ⟨answer, .sleep s', w', by simp only [released, Outcome.within], owns', outcome⟩
  · exact ⟨_, b.activity, w, rfl, owns, Or.inl rfl⟩

theorem discard_owns {b : Block} (succeed : b.HooksSucceed) (owns : w.Owns book (b.held ++ ids)) :
    ∃ w', b.discard services w = ⟨.ok (), { b with handle := none, hooks := [] }, w'⟩ ∧
      w'.Owns book ids := by
  obtain ⟨id, image, reminder, handle, hooks, text, activity⟩ := b
  rw [held, List.append_assoc] at owns
  cases handle with
  | none =>
    obtain ⟨w', ran, owns'⟩ := LeaveHook.runAll_owns keeps succeed owns
    refine ⟨w', ?_, owns'⟩
    simp only [discard, unregister, Outcome.bind, runHooks, ran, Outcome.within]
  | some number =>
    obtain ⟨v, removed, owns_v⟩ := World.removeReminder_owns keeps owns
    obtain ⟨w', ran, owns'⟩ := LeaveHook.runAll_owns keeps succeed owns_v
    refine ⟨w', ?_, owns'⟩
    simp only [discard, unregister, removed, Outcome.bind, runHooks, ran, Outcome.within]

/-- A block leaves and holds nothing, or its countdown could not be cancelled. -/
theorem leave_owns {b : Block} (succeed : b.HooksSucceed) (owns : w.Owns book (b.held ++ ids)) :
    (∃ b' w', b.leave services w = ⟨.ok (), b', w'⟩ ∧ b'.held = [] ∧ w'.Owns book ids) ∨
    ∃ e b' w', b.leave services w = ⟨.error e, b', w'⟩ ∧ b'.held = b.held ∧ b'.hooks = b.hooks ∧
      w'.Owns book (b.held ++ ids) ∧ ¬ w'.Lossless := by
  obtain ⟨answer, activity, v, wrapped, owns_v, outcome⟩ := b.wrapUp_owns keeps owns
  cases answer with
  | ok _ =>
    obtain ⟨w', discarded, owns'⟩ := discard_owns (b := { b with activity }) keeps succeed owns_v
    refine Or.inl ⟨{ b with activity, handle := none, hooks := [] }, w', ?_, rfl, owns'⟩
    simp only [leave, wrapped, Outcome.bind, discarded]
  | error e =>
    have lossy : ¬ v.Lossless := outcome.resolve_left (by rintro ⟨⟩)
    refine Or.inr ⟨e, { b with activity }, v, ?_, rfl, rfl, owns_v, lossy⟩
    simp only [leave, wrapped, Outcome.bind]

theorem register_owns (b : Block) (owns : w.Owns book (b.handle.toList ++ ids)) :
    ∃ handle w', b.register services w = (.ok handle, w') ∧
      w'.Owns book (handle.toList ++ ids) := by
  unfold register
  split
  · next r _ none =>
    rw [none] at owns
    obtain ⟨id, w', added, owns'⟩ := World.addReminder_owns keeps b.shownText r owns
    exact ⟨some id, w', by simp only [added], owns'⟩
  · exact ⟨_, w, rfl, owns⟩

end Block

theorem discardAll_owns {blocks : List Block} (succeed : ∀ b ∈ blocks, b.HooksSucceed)
    (owns : w.Owns book (blocksHeld blocks ++ ids)) :
    ∃ left w', discardAll services blocks w = ⟨.ok (), left, w'⟩ ∧ w'.Owns book ids := by
  induction blocks generalizing w with
  | nil => exact ⟨[], w, rfl, owns⟩
  | cons b rest ih =>
    rw [blocksHeld_cons, List.append_assoc] at owns
    obtain ⟨v, discarded, owns_v⟩ := b.discard_owns keeps (succeed b List.mem_cons_self) owns
    obtain ⟨left, w', rest_discarded, owns'⟩ :=
      ih (fun c hc => succeed c (List.mem_cons_of_mem b hc)) owns_v
    refine ⟨{ b with handle := none, hooks := [] } :: left, w', ?_, owns'⟩
    simp only [discardAll, discarded, Outcome.bind, rest_discarded, Outcome.within]

namespace Sequence

theorem unregister_owns (s : Sequence) (owns : w.Owns book (s.handle.toList ++ ids)) :
    ∃ w', s.unregister services w = ⟨.ok (), { s with handle := none }, w'⟩ ∧
      w'.Owns book ids := by
  obtain ⟨behind, ahead, started, finished, cancelled, description, reminder, handle, address,
    pause⟩ := s
  cases handle with
  | none => exact ⟨w, rfl, owns⟩
  | some number =>
    obtain ⟨w', removed, owns'⟩ := World.removeReminder_owns keeps owns
    exact ⟨w', by simp only [unregister, removed], owns'⟩

theorem giveUp_owns {s : Sequence} (succeed : ∀ b ∈ s.ahead, b.HooksSucceed)
    (owns : w.Owns book (blocksHeld s.ahead ++ (s.handle.toList ++ ids))) :
    ∃ s' w', s.giveUp services w = ⟨.ok (), s', w'⟩ ∧ w'.Owns book ids := by
  obtain ⟨left, v, discarded, owns_v⟩ := discardAll_owns keeps succeed owns
  obtain ⟨w', removed, owns'⟩ := unregister_owns keeps { s with ahead := left } owns_v
  refine ⟨{ s with ahead := left, handle := none }, w', ?_, owns'⟩
  simp only [giveUp, discarded, Outcome.bind, removed]

theorem halt_owns {s : Sequence} (succeed : ∀ b ∈ s.ahead, b.HooksSucceed)
    (owns : w.Owns book (blocksHeld s.ahead ++ (s.handle.toList ++ ids))) :
    ∃ answer s' w', s.halt services w = ⟨answer, s', w'⟩ ∧ w'.Owns book ids ∧
      (answer = .ok () ∨ ¬ w'.Lossless) := by
  unfold halt
  split
  · obtain ⟨s', w', given, owns'⟩ := giveUp_owns keeps succeed owns
    exact ⟨_, s', w', given, owns', Or.inl rfl⟩
  · next b rest now =>
    rw [now] at succeed
    rw [now, blocksHeld_cons, List.append_assoc] at owns
    rcases b.leave_owns keeps (succeed b List.mem_cons_self) owns with
      ⟨b', v, left, -, owns_v⟩ | ⟨e, b', v, refused, -, -, owns_v, lossy⟩
    · obtain ⟨s', w', given, owns'⟩ := giveUp_owns (s := s.advance b' rest) keeps
        (fun c hc => succeed c (List.mem_cons_of_mem b hc)) (owns_v.note _)
      refine ⟨_, s', w', ?_, owns', Or.inl rfl⟩
      simp only [left, Outcome.bind]
      exact given
    · refine ⟨.error e, { s with ahead := b' :: rest }, v, ?_,
        ((owns_v.drop lossy).drop lossy).drop lossy, Or.inr lossy⟩
      simp only [refused, Outcome.bind]

end Sequence

omit keeps

mutual

/-- A cancelled execution has given back what it held, or it is lost. -/
theorem Execution.cancel_owns (keeps : services.KeepsBook book) :
    ∀ {e : Execution}, e.Tidy → ∀ {w : World σ} {ids : List Nat}, w.Owns book (e.held ++ ids) →
      ∃ answer e' w', e.cancel services w = ⟨answer, e', w'⟩ ∧ w'.Owns book ids ∧
        (answer = .ok () ∨ ¬ w'.Lossless)
  | ⟨line, threads⟩, tidy, w, ids, owns => by
    obtain ⟨behind, hooks, idle, threads_tidy⟩ := tidy
    by_cases running : line.isRunning
    · have regrouped : w.Owns book (threadsHeld threads ++
          (blocksHeld line.ahead ++ (line.handle.toList ++ ids))) := by
        refine owns.congr fun id => ?_
        simp only [Execution.held, blocksHeld_eq_nil behind, List.count_append, List.count_nil]
        omega
      obtain ⟨answer, v, cancelled, owns_v, outcome⟩ :=
        cancelThreads_owns keeps threads_tidy regrouped
      cases answer with
      | ok _ =>
        obtain ⟨answer, s', w', halted, owns', outcome'⟩ :=
          Sequence.halt_owns (s := { line with cancelled := true }) keeps hooks owns_v
        refine ⟨answer, ⟨s', []⟩, w', ?_, owns', outcome'⟩
        simp only [Execution.cancel, running, if_true, cancelled, Outcome.bind, halted,
          Outcome.within]
      | error e =>
        have lossy : ¬ v.Lossless := outcome.resolve_left (by rintro ⟨⟩)
        refine ⟨.error e, ⟨{ line with cancelled := true }, []⟩, v, ?_,
          (owns_v.drop lossy).drop lossy, Or.inr lossy⟩
        simp only [Execution.cancel, running, if_true, cancelled, Outcome.bind]
    · have nothing := (idle (Bool.not_eq_true _ ▸ running)).1
      rw [nothing, List.nil_append] at owns
      refine ⟨.ok (), ⟨line, threads⟩, w, ?_, owns, Or.inl rfl⟩
      simp only [Execution.cancel, running]
      rfl

theorem cancelThreads_owns (keeps : services.KeepsBook book) :
    ∀ {threads : List Thread}, allTidy threads → ∀ {w : World σ} {ids : List Nat},
      w.Owns book (threadsHeld threads ++ ids) →
      ∃ answer w', cancelThreads services threads w = ⟨answer, (), w'⟩ ∧ w'.Owns book ids ∧
        (answer = .ok () ∨ ¬ w'.Lossless)
  | [], _, w, ids, owns => ⟨.ok (), w, rfl, owns, Or.inl rfl⟩
  | ⟨_, execution⟩ :: rest, tidy, w, ids, owns => by
    rw [threadsHeld, List.append_assoc] at owns
    obtain ⟨answer, e', v, cancelled, owns_v, outcome⟩ :=
      Execution.cancel_owns keeps tidy.1 owns
    cases answer with
    | ok _ =>
      obtain ⟨answer, w', others, owns', outcome'⟩ := cancelThreads_owns keeps tidy.2 owns_v
      refine ⟨answer, w', ?_, owns', outcome'⟩
      simp only [cancelThreads, cancelled, Outcome.bind, others]
    | error e =>
      have lossy : ¬ v.Lossless := outcome.resolve_left (by rintro ⟨⟩)
      refine ⟨.error e, v, ?_, owns_v.drop lossy, Or.inr lossy⟩
      simp only [cancelThreads, cancelled, Outcome.bind]

end

theorem Join.complete_owns (keeps : services.KeepsBook book) (j : Join) {others : List Thread}
    (tidy : allTidy others) (owns : w.Owns book (threadsHeld others ++ ids)) :
    ∃ answer j' threads w', j.complete services others w = ⟨answer, (j', threads), w'⟩ ∧
      w'.Owns book (threadsHeld threads ++ ids) ∧ allTidy threads ∧
      (answer = .ok true → threads = []) ∧
      (j.done = false → answer = .ok false → threads = others ∧ j'.done = false) := by
  by_cases ends : others.isEmpty = true ∨ j.completed + 1 = j.choose
  · obtain ⟨answer, w', cancelled, owns', -⟩ := cancelThreads_owns keeps tidy owns
    simp only [complete, ends, if_true, cancelled]
    cases answer with
    | ok _ =>
      cases done : j.done with
      | true => exact ⟨_, _, [], w', rfl, owns', trivial, fun _ => rfl, by rintro ⟨⟩⟩
      | false =>
        exact ⟨.ok true, _, [], w', rfl, owns', trivial, fun _ => rfl, fun _ => by rintro ⟨⟩⟩
    | error e =>
      exact ⟨.error e, _, [], w', rfl, owns', trivial, fun _ => rfl, fun _ => by rintro ⟨⟩⟩
  · simp only [complete, ends, if_false]
    exact ⟨.ok false, _, others, w, rfl, owns, tidy, by rintro ⟨⟩, fun undone _ => ⟨rfl, undone⟩⟩

end Stepwise
