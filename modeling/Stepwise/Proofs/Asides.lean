import Stepwise.Proofs.Lasting
import Stepwise.Proofs.Records

/-!
# Events that go elsewhere

An event leaves the threads alone that are not on its path, and what is recorded then is not about
them. Only where it finishes the last thread that a group needs, the other threads of this group are
cancelled.
-/

namespace Stepwise

variable {σ : Type} {Good : σ → Prop} {services : Services σ} {w : World σ}

/-- No step of the sequence at this address: it enters no block and leaves none, and it does not run
out. -/
def Entry.Elsewhere (address : List Nat) : Entry → Prop
  | .entered place _ _ | .left place _ _ | .finished place => place ≠ address
  | _ => True

theorem Entry.IsNote.elsewhere {place : List Nat → Prop} {entry : Entry} {address : List Nat}
    (is_note : entry.IsNote place) (outside : ¬ place address) : entry.Elsewhere address := by
  unfold Elsewhere
  split
  · rintro rfl
    exact outside is_note
  · rintro rfl
    exact outside is_note
  · rintro rfl
    exact outside is_note
  · trivial

theorem Entry.IsProgress.elsewhere {place : List Nat → Prop} {skips : Prop} {entry : Entry}
    {address : List Nat} (progress : entry.IsProgress place skips) (outside : ¬ place address) :
    entry.Elsewhere address := by
  unfold Elsewhere
  split
  · rintro rfl
    exact outside progress
  · rintro rfl
    exact outside progress
  · rintro rfl
    exact outside progress
  · trivial

theorem Services.Reliable.served (reliable : services.Reliable Good) {request : Request}
    {call : σ → Except ServiceError Unit × σ} (serves : services.Serves request call) {h : σ}
    (good : Good h) : Good (call h).2 := by
  have granted {α : Type} {call : σ → Except ServiceError α × σ} (grants : Grants Good call) :
      Good (call h).2 := by
    obtain ⟨a, h', called, good'⟩ := grants h good
    rw [called]
    exact good'
  cases serves with
  | removeReminder id => exact granted (reliable.removeReminder id)
  | setPaused paused => exact granted (reliable.setPaused paused)
  | startCountdown value unit route => exact granted (reliable.startCountdown value unit route)
  | forceFinish => exact granted reliable.forceFinish
  | cancelCountdown route => exact granted (reliable.cancelCountdown route)
  | hook name answer => exact good

/-- Nothing is recorded of the sequence at the address. That is so of all that the sequences do
which are not around it, and the host goes on to answer. -/
def elsewhere (reliable : services.Reliable Good) (address : List Nat) (journal : List Entry) :
    Monitor services where
  Fine w _ := Good w.host ∧ Adds (Entry.Elsewhere address) journal w.journal
  Failed _ w _ := Good w.host ∧ Adds (Entry.Elsewhere address) journal w.journal
  Follows place := ¬ place <+: address
  branch outside n inside := outside ((List.prefix_append _ [n]).trans inside)
  fewer fine _ := fine
  failed_fewer failed _ := failed
  pause _ fine := fine
  failed_pause _ failed := failed
  note is_note fine := by
    have outside : ¬ ¬ address <+: address := fun outside => outside (List.prefix_refl address)
    exact ⟨fine.1, fine.2.trans (.one (is_note.elsewhere outside) _)⟩
  added label r fine := by
    obtain ⟨id, host, called, good⟩ := reliable.addReminder label r _ fine.1
    refine .of_world ?_
    simp only [World.addReminder, called]
    exact ⟨good, fine.2.trans (.one trivial _)⟩
  asked serves fine :=
    .of_world ⟨reliable.served serves fine.1, fine.2.trans (World.ask_adds (fun _ => trivial) _)⟩

/-- The threads of a sequence are not around it. -/
theorem elsewhere_below (reliable : services.Reliable Good) (address : List Nat)
    (journal : List Entry) (n : Nat) :
    (elsewhere reliable address journal).Follows (address ++ [n]) := by
  intro around
  have length := around.length_le
  rw [List.length_append, List.length_singleton] at length
  omega

/-- What the monitor says at both ends of an operation. -/
theorem elsewhere_left {τ α : Type} (reliable : services.Reliable Good) {address : List Nat}
    {journal : List Entry} {duties : α → τ → List Duty} {left : τ → List Duty} {o : Outcome σ τ α}
    (ends : o.Ends (fun a part w => (elsewhere reliable address journal).Fine w (duties a part))
      fun e part w => (elsewhere reliable address journal).Failed e w (left part)) :
    Good o.world.host ∧ Adds (Entry.Elsewhere address) journal o.world.journal := by
  obtain ⟨result, part, w⟩ := o
  cases result <;> exact ends

namespace Execution

variable {e x : Execution} {path target : List Nat}

theorem Addressed.threads_elsewhere (addressed : e.Addressed) (reliable : services.Reliable Good)
    (journal : List Entry) :
    Stepwise.allWithin (elsewhere reliable e.address journal).Follows e.threads := by
  obtain ⟨-, address, inside⟩ := addressed
  refine (allWithin_forall _).mpr fun t mem =>
    (inside t mem).within (elsewhere reliable e.address journal).branch ?_
  rw [address t mem]
  exact elsewhere_below reliable e.address journal t.branch

/-- The event goes to another thread of a group around the thread at the path, and ends that group.
-/
def EndsAround (services : Services σ) (event : Event) (path target : List Nat) (w : World σ)
    (e : Execution) : Prop :=
  ∃ outer branch inner other deeper y, path = outer ++ branch :: inner ∧
    target = outer ++ other :: deeper ∧ other ≠ branch ∧ e.thread? outer = some y ∧
    y.EndsGroup services event (other :: deeper) w

/-- The thread `x` is where it was. What was done came of an event for a thread beside it, in a
group around it, or the event was passed over. -/
def StaysBeside (services : Services σ) (event : Event) (path target : List Nat) (w : World σ)
    (e x : Execution) (o : Outcome σ Execution Unit) : Prop :=
  o.part.thread? path = some x ∧
    ((∃ notice, o.world = w.passOver notice) ∨
      ∃ outer branch inner other deeper s, path = outer ++ branch :: inner ∧
        target = outer ++ other :: deeper ∧ other ≠ branch ∧ e.thread? (outer ++ [other]) = some s ∧
        o.world = (s.dispatch services event deeper w).world)

theorem EndsAround.below {t : Thread} (first : e.threads.find? (·.branch = t.branch) = some t)
    (ends : t.execution.EndsAround services event path target w) :
    e.EndsAround services event (t.branch :: path) (t.branch :: target) w := by
  obtain ⟨outer, branch, inner, other, deeper, y, rfl, rfl, differs, at_y, ends⟩ := ends
  refine ⟨t.branch :: outer, branch, inner, other, deeper, y, rfl, rfl, differs, ?_, ends⟩
  rw [thread?_cons, first]
  exact at_y

theorem StaysBeside.below {t : Thread} (first : e.threads.find? (·.branch = t.branch) = some t)
    {o o' : Outcome σ Execution Unit}
    (stays : StaysBeside services event path target w t.execution x o)
    (still : o'.part.thread? (t.branch :: path) = o.part.thread? path) (same : o'.world = o.world) :
    StaysBeside services event (t.branch :: path) (t.branch :: target) w e x o' := by
  obtain ⟨found, came⟩ := stays
  refine ⟨still.trans found, ?_⟩
  rw [same]
  refine came.imp_right ?_
  rintro ⟨outer, branch, inner, other, deeper, s, rfl, rfl, differs, at_s, came⟩
  refine ⟨t.branch :: outer, branch, inner, other, deeper, s, rfl, rfl, differs, ?_, came⟩
  rw [List.cons_append, thread?_cons, first]
  exact at_s

/-- An event that does not reach a thread is one for a thread beside it, unless a group around it
ends. -/
theorem thread?_beside (reliable : services.Reliable Good) (settled : e.Settled)
    (quiet : hooksSucceed e.threads) (found : e.thread? path = some x) (event : Event)
    (aside : ¬ path <+: target) (good : Good w.host) :
    StaysBeside services event path target w e x (e.dispatch services event target w) ∨
      e.EndsAround services event path target w := by
  induction path generalizing e target with
  | nil => exact absurd List.nil_prefix aside
  | cons branch path ih =>
    obtain ⟨t, mem, first, rfl, inside⟩ := thread?_found found
    obtain ⟨c, cs, join, group⟩ := settled.atGroup_of_mem mem
    rcases settled.dispatch_group group event target w
      with ⟨notice, passed⟩ | ⟨before, s, after, deeper, rfl, threads⟩
    · rw [passed]
      exact Or.inl ⟨found, Or.inl ⟨notice, rfl⟩⟩
    · have place := settled.atThread group threads
      obtain ⟨y, v, delivered, moved⟩ := settled.delivers reliable quiet place.mem event deeper good
      have here : e.threads.find? (·.branch = s.branch) = some s := by
        rw [threads]
        exact find_increasing place.is_open.increasing rfl
      by_cases other : s.branch = t.branch
      · -- The event goes further down the path, to the same thread of this group.
        obtain rfl : t = s := by
          rw [other, first] at here
          exact Option.some.inj here
        have t_quiet := ((hooksSucceed_iff _).mp ((hooksSucceed_forall _).mp quiet t mem)).2
        have deeper_aside : ¬ path <+: deeper := fun is_prefix =>
          aside ((List.prefix_cons_inj t.branch).mpr is_prefix)
        rcases ih (((settled_iff e).mp settled).2.2 t mem) t_quiet inside deeper_aside
          with stays | ends
        · rw [delivered] at stays
          have unfinished : y.finished = false := by
            rcases moved.rests with spent | settled_y
            · obtain ⟨rfl, -⟩ := spent.thread? stays.1
              exact absurd List.nil_prefix deeper_aside
            · exact settled_y.unfinished
          rw [place.dispatch, delivered, Outcome.bind_ok, afterThread_runs unfinished]
          exact Or.inl (stays.below first (place.is_open.thread?_replaced e y path) rfl)
        · exact Or.inr (ends.below first)
      · by_cases short : y.finished = true → join.completed + 1 ≠ join.target
        · rw [place.dispatch, delivered, Outcome.bind_ok, place.afterThread_short short]
          refine Or.inl ⟨?_, Or.inr ⟨[], t.branch, path, s.branch, deeper, s.execution, rfl, rfl,
            other, ?_, ?_⟩⟩
          · rw [thread?_cons, regrouped, Thread.find_kept other, ← threads, ← thread?_cons]
            exact found
          · rw [List.nil_append, thread?_cons, here]
            rfl
          · rw [delivered]
        · obtain ⟨finished, enough⟩ := not_forall.mp short
          refine Or.inr ⟨[], t.branch, path, s.branch, deeper, e, rfl, rfl, other, rfl, c, cs, join,
            before, s, after, deeper, group, rfl, threads, ?_, not_not.mp enough⟩
          rw [delivered]
          exact finished

/-- The thread is where it was, and nothing has been recorded of it. -/
def LeavesAlone (x : Execution) (path : List Nat) (w : World σ) (o : Outcome σ Execution Unit) :
    Prop :=
  o.part.thread? path = some x ∧ Adds (Entry.Elsewhere x.address) w.journal o.world.journal

/-- An event that does not reach a thread leaves it alone, unless a group around it ends. -/
theorem thread?_aside (reliable : services.Reliable Good) (settled : e.Settled)
    (quiet : hooksSucceed e.threads) (addressed : e.Addressed) (found : e.thread? path = some x)
    (event : Event) (aside : ¬ path <+: target) (good : Good w.host) :
    LeavesAlone x path w (e.dispatch services event target w) ∨
      e.EndsAround services event path target w := by
  have x_address := (addressed.thread? found).2
  refine (thread?_beside reliable settled quiet found event aside good).imp_left ?_
  rintro ⟨still, ⟨notice, passed⟩ | ⟨outer, branch, inner, other, deeper, s, rfl, rfl, differs, at_s,
    came⟩⟩
  · refine ⟨still, ?_⟩
    rw [passed]
    exact .one trivial _
  · obtain ⟨s_addressed, s_address⟩ := addressed.thread? at_s
    have inside : s.Within (elsewhere reliable x.address w.journal).Follows := by
      refine s_addressed.within (elsewhere reliable _ _).branch fun around => differs ?_
      rw [s_address, x_address, List.prefix_append_right_inj, List.prefix_append_right_inj] at around
      exact (List.cons_prefix_cons.mp around).1
    have fine : (elsewhere reliable x.address w.journal).Fine w (s.duties ++ []) := ⟨good, .refl _ _⟩
    refine ⟨still, ?_⟩
    rw [came]
    exact (elsewhere_left reliable ((s.dispatch_monitored event deeper inside fine).mono
      (fun _ _ _ => And.left) fun _ _ _ => And.left)).2

end Execution

end Stepwise
