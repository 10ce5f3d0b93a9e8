import Stepwise.Proofs.Monitor.Delivery

/-!
# How calls fail

A call of the host fails if one of the requests that it makes is refused, and for no other reason.
Its error is the one of that request, and the request is the last thing that happens: nothing is
asked, called back, reported or noted after it. This holds in every state of a run and for every
host. The only other error is that of a run that is started twice, which changes nothing.
-/

namespace Stepwise

variable {σ : Type}

theorem Entry.IsNote.failure? {place : List Nat → Prop} {entry : Entry} (is_note : entry.IsNote place) :
    entry.failure? = none := by
  cases entry with
  | added _ _ _ => cases is_note
  | asked _ _ => cases is_note
  | _ => rfl

/-- The error of the first entry that has one. -/
def firstFailure (entries : List Entry) : Option ServiceError := entries.findSome? Entry.failure?

theorem firstFailure_eq_none {entries : List Entry} :
    firstFailure entries = none ↔ ∀ entry ∈ entries, entry.failure? = none :=
  List.findSome?_eq_none_iff

theorem firstFailure_append_of_none {earlier : List Entry}
    (none : ∀ entry ∈ earlier, entry.failure? = none) (later : List Entry) :
    firstFailure (earlier ++ later) = firstFailure later := by
  rw [firstFailure, List.findSome?_append, List.findSome?_eq_none_iff.mpr none, Option.none_or,
    firstFailure]

/-- A call with these entries, the earliest first, is refused if a request was, with the error of
the first one that was, and is answered otherwise. Nothing comes after a refused request. -/
structure Explains {α : Type} (since : List Entry) (answer : Except RunError α) : Prop where
  refused : ∀ e, answer = .error (.service e) ↔ firstFailure since = some e
  answered : firstFailure since = none → ∃ a, answer = .ok a
  last : ∀ earlier entry later, since = earlier ++ entry :: later → entry.failure? ≠ none →
    later = []

section Explaining

variable {α : Type}

theorem explains_ok {since : List Entry} (none : ∀ entry ∈ since, entry.failure? = none) (a : α) :
    Explains since (.ok a) where
  refused e := by
    rw [firstFailure_eq_none.mpr none]
    exact ⟨nofun, nofun⟩
  answered _ := ⟨a, rfl⟩
  last earlier entry later split failed := by
    refine absurd (none entry ?_) failed
    rw [split]
    exact List.mem_append_right earlier List.mem_cons_self

theorem explains_error {earlier : List Entry} {refusal : Entry} {e : ServiceError}
    (none : ∀ entry ∈ earlier, entry.failure? = none) (failed : refusal.failure? = some e) :
    Explains (earlier ++ [refusal]) (.error (.service e) : Except RunError α) where
  refused e' := by
    have first : firstFailure (earlier ++ [refusal]) = some e := by
      rw [firstFailure_append_of_none none, firstFailure, List.findSome?_cons, failed]
    rw [first]
    simp
  answered nothing := by
    have := firstFailure_eq_none.mp nothing refusal (List.mem_append_right earlier
      List.mem_cons_self)
    rw [failed] at this
    cases this
  last front entry later split failed := by
    rcases List.eq_nil_or_concat later with rfl | ⟨later, other, rfl⟩
    · rfl
    · have same : earlier = front ++ entry :: later := by
        rw [List.concat_eq_append, ← List.cons_append, ← List.append_assoc] at split
        exact (List.append_inj' split rfl).1
      refine absurd (none entry ?_) failed
      rw [same]
      exact List.mem_append_right front List.mem_cons_self

end Explaining

/-- No request is refused before the one that ends the call. -/
def refusals (services : Services σ) (before : List Entry) : Monitor services where
  Fine w _ := ∃ new : List Entry, w.journal = new ++ before ∧ ∀ entry ∈ new, entry.failure? = none
  Failed e w _ := ∃ (refusal : Entry) (new : List Entry), w.journal = refusal :: (new ++ before) ∧
    refusal.failure? = some e ∧ ∀ entry ∈ new, entry.failure? = none
  Follows _ := True
  branch _ _ := trivial
  fewer fine _ := fine
  failed_fewer failed _ := failed
  pause _ fine := fine
  failed_pause _ failed := failed
  note is_note fine := by
    obtain ⟨new, grown, none⟩ := fine
    refine ⟨_ :: new, congrArg _ grown, List.forall_mem_cons.mpr ⟨is_note.failure?, none⟩⟩
  added {w _} label r fine := by
    obtain ⟨new, grown, none⟩ := fine
    unfold World.addReminder
    generalize services.addReminder label r w.host = answered
    obtain ⟨answer, h⟩ := answered
    cases answer with
    | ok id => exact ⟨_ :: new, congrArg _ grown, List.forall_mem_cons.mpr ⟨rfl, none⟩⟩
    | error e => exact ⟨_, new, congrArg _ grown, rfl, none⟩
  asked {w _ _ call} _ fine := by
    obtain ⟨new, grown, none⟩ := fine
    unfold World.ask
    generalize call w.host = answered
    obtain ⟨answer, h⟩ := answered
    cases answer with
    | ok _ => exact ⟨_ :: new, congrArg _ grown, List.forall_mem_cons.mpr ⟨rfl, none⟩⟩
    | error e => exact ⟨_, new, congrArg _ grown, rfl, none⟩

namespace Run

/-- What the call has added to the journal explains its answer. -/
def Explained {α : Type} (r : Run σ) (called : Except RunError α × Run σ) : Prop :=
  ∃ since, called.2.world.journal = since.reverse ++ r.world.journal ∧ Explains since called.1

variable {services : Services σ} {r : Run σ}

theorem Followed.explained {α : Type} {called : Except RunError α × Run σ}
    (followed : Followed (refusals services r.world.journal) called) : r.Explained called := by
  obtain ⟨answer, r'⟩ := called
  cases answer with
  | ok a =>
    obtain ⟨⟨new, grown, none⟩, -⟩ := followed
    refine ⟨new.reverse, by rw [List.reverse_reverse]; exact grown, explains_ok ?_ a⟩
    exact fun entry mem => none entry (List.mem_reverse.mp mem)
  | error error =>
    cases error with
    | alreadyStarted => cases followed
    | service e =>
      obtain ⟨⟨refusal, new, grown, failed, none⟩, -⟩ := followed
      refine ⟨new.reverse ++ [refusal], ?_, explains_error ?_ failed⟩
      · simpa using grown
      · exact fun entry mem => none entry (List.mem_reverse.mp mem)

/-- In every state and with every host, a call fails exactly if a request of it is refused, with the
error of the first one, after which nothing happens; a run that has been started refuses to be
started again and stays as it is. -/
theorem errors_explained (services : Services σ) (r : Run σ) :
    (if r.root.started then r.start services = (.error .alreadyStarted, r)
      else r.Explained (r.start services)) ∧
    (∀ path event, r.Explained (r.dispatch services path event)) ∧
    r.Explained (r.requestPause services) ∧
    ∀ token, r.Explained (r.releasePause services token) := by
  have inside : r.root.Within (refusals services r.world.journal).Follows :=
    r.root.within_all fun _ => trivial
  have fine : (refusals services r.world.journal).Fine r.world r.root.duties :=
    ⟨[], rfl, List.forall_mem_nil _⟩
  refine ⟨?_, fun path event => (dispatch_followed path event inside fine).explained,
    (requestPause_followed inside fine).explained,
    fun token => (releasePause_followed token inside fine).explained⟩
  split
  · next started => simp only [start, started, if_true]
  · next unstarted =>
    exact (start_followed (Bool.not_eq_true _ ▸ unstarted) inside fine).explained

end Run

end Stepwise
