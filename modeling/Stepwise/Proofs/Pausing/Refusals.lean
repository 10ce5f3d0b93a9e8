import Stepwise.Proofs.Pausing
import Stepwise.Proofs.Removals

/-!
# Pause requests that are refused

A service may refuse to pause, and then no request is kept, so that the two still agree. It may also
refuse to resume, and then the last request has already been given up: the service goes on holding
its reminders back with nobody left to release them. That lasts until a request is granted again,
and it is the only way in which the requests and the service come to differ.
-/

namespace Stepwise

namespace PauseRequests

variable {α : Type} {setPaused : Bool → α → Except ServiceError Unit × α} {paused : α → Bool}

/-- A service that may refuse to pause and to resume, which then changes nothing. -/
structure Heeds (setPaused : Bool → α → Except ServiceError Unit × α) (paused : α → Bool) :
    Prop where
  granted : ∀ value a, (setPaused value a).1 = .ok () → paused (setPaused value a).2 = value
  refused : ∀ value a e, (setPaused value a).1 = .error e →
    paused (setPaused value a).2 = paused a

/-- The service does what it is told if a request is outstanding, and nothing else. -/
def Mirrors (paused : α → Bool) (s : PauseRequests × α) : Prop := paused s.2 = s.1.isPaused

/-- The service is paused, and no request is outstanding. -/
def Stranded (paused : α → Bool) (s : PauseRequests × α) : Prop :=
  s.1.outstanding = [] ∧ paused s.2 = true

theorem isPaused_eq_false {p : PauseRequests} : p.isPaused = false ↔ p.outstanding = [] := by
  simp [isPaused]

theorem Stranded.not_mirrors {s : PauseRequests × α} (stranded : Stranded paused s) :
    ¬ Mirrors paused s := by
  intro mirrors
  rw [Mirrors, isPaused_eq_false.mpr stranded.1, stranded.2] at mirrors
  exact Bool.noConfusion mirrors

/-- The service is stranded if so told, and does what it is told otherwise. -/
def Stands (paused : α → Bool) (stranded : Bool) (s : PauseRequests × α) : Prop :=
  (stranded = false ∧ Mirrors paused s) ∨ (stranded = true ∧ Stranded paused s)

theorem Stands.mirrors_iff {stranded : Bool} {s : PauseRequests × α}
    (stands : Stands paused stranded s) : Mirrors paused s ↔ stranded = false := by
  rcases stands with ⟨rfl, mirrors⟩ | ⟨rfl, lost⟩
  · exact iff_of_true mirrors rfl
  · exact iff_of_false lost.not_mirrors Bool.noConfusion

theorem Stands.stranded_iff {stranded : Bool} {s : PauseRequests × α}
    (stands : Stands paused stranded s) : Stranded paused s ↔ stranded = true := by
  rcases stands with ⟨rfl, mirrors⟩ | ⟨rfl, lost⟩
  · exact iff_of_false (fun lost => lost.not_mirrors mirrors) Bool.noConfusion
  · exact iff_of_true lost rfl

/-- Where one is outstanding, another one is granted without asking. -/
theorem request_paused {p : PauseRequests} (held : p.isPaused = true) (a : α) :
    p.request setPaused a = (.ok p.next, p.granted, a) := by
  simp only [request, held, if_true, granted]

theorem request_granted {p : PauseRequests} (free : p.isPaused = false) {a : α}
    (agreed : (setPaused true a).1 = .ok ()) :
    p.request setPaused a = (.ok p.next, p.granted, (setPaused true a).2) := by
  rcases called : setPaused true a with ⟨answer, a'⟩
  rw [called] at agreed
  cases agreed
  simp only [request, free, called, granted, Bool.false_eq_true, if_false]

theorem request_refused {p : PauseRequests} (free : p.isPaused = false) {a : α} {e : ServiceError}
    (refused : (setPaused true a).1 = .error e) :
    p.request setPaused a =
      (.error e, { p with next := (p.next + 1) % tokenCount }, (setPaused true a).2) := by
  rcases called : setPaused true a with ⟨answer, a'⟩
  rw [called] at refused
  cases refused
  simp only [request, free, called, Bool.false_eq_true, if_false]

theorem release_unknown {token : Nat} {p : PauseRequests} (unknown : token ∉ p.outstanding)
    (a : α) : p.release setPaused token a = (.ok (), p, a) := by
  simp only [release, unknown, if_false]

/-- Where others are outstanding, one is given back without asking. -/
theorem release_held {token : Nat} {p : PauseRequests} (out : token ∈ p.outstanding)
    (held : (p.without token).isPaused = true) (a : α) :
    p.release setPaused token a = (.ok (), p.without token, a) := by
  unfold without at held ⊢
  simp only [release, out, held, if_true]

/-- The last one is given up whatever the service answers. -/
theorem release_last {token : Nat} {p : PauseRequests} (out : token ∈ p.outstanding)
    (free : (p.without token).isPaused = false) (a : α) :
    p.release setPaused token a =
      ((setPaused false a).1, p.without token, (setPaused false a).2) := by
  unfold without at free ⊢
  simp only [release, out, free, if_true, Bool.false_eq_true, if_false]

/-- A release that is refused was that of the last request. -/
theorem release_refused {token : Nat} {p : PauseRequests} {a : α} {e : ServiceError}
    (refused : (p.release setPaused token a).1 = .error e) :
    token ∈ p.outstanding ∧ (setPaused false a).1 = .error e ∧
      (p.release setPaused token a).2 = (p.without token, (setPaused false a).2) ∧
      (p.without token).isPaused = false := by
  by_cases out : token ∈ p.outstanding
  · cases free : (p.without token).isPaused with
    | false =>
      rw [release_last out free] at refused ⊢
      exact ⟨out, refused, rfl, rfl⟩
    | true =>
      rw [release_held out free] at refused
      cases refused
  · rw [release_unknown out] at refused
    cases refused

/-- It leaves the service paused and no request outstanding. -/
theorem Heeds.stranded_of_refused (heeds : Heeds setPaused paused) {token : Nat}
    {s : PauseRequests × α} (mirrors : Mirrors paused s) {e : ServiceError}
    (refused : (s.1.release setPaused token s.2).1 = .error e) :
    Stranded paused (s.1.release setPaused token s.2).2 := by
  obtain ⟨out, answer, after, free⟩ := release_refused refused
  rw [after]
  refine ⟨isPaused_eq_false.mp free, ?_⟩
  exact (heeds.refused false s.2 e answer).trans (mirrors.trans (isPaused_of_mem out))

inductive PauseCall where
  | request
  | release (token : Nat)
  deriving DecidableEq, Repr

namespace PauseCall

section Calls

variable (setPaused : Bool → α → Except ServiceError Unit × α)

/-- The requests and the service after a call, whether or not it was refused. -/
def perform : PauseCall → PauseRequests × α → PauseRequests × α
  | .request, (p, a) => (p.request setPaused a).2
  | .release token, (p, a) => (p.release setPaused token a).2

def after (calls : List PauseCall) (s : PauseRequests × α) : PauseRequests × α :=
  calls.foldl (fun s call => call.perform setPaused s) s

/-- The call is a request, and it is granted. -/
def grantsRequest (s : PauseRequests × α) : PauseCall → Bool
  | .request => match (s.1.request setPaused s.2).1 with
    | .ok _ => true
    | .error _ => false
  | .release _ => false

/-- The call is a release, and it is refused. -/
def refusesRelease (s : PauseRequests × α) : PauseCall → Bool
  | .request => false
  | .release token => match (s.1.release setPaused token s.2).1 with
    | .ok _ => false
    | .error _ => true

/-- None of the calls that follow is a request that is granted. -/
def grantsNone (s : PauseRequests × α) : List PauseCall → Bool
  | [] => true
  | call :: rest =>
    !call.grantsRequest setPaused s && grantsNone (call.perform setPaused s) rest

/-- Some call that follows is a release that is refused, and no request is granted after it. -/
def strands (s : PauseRequests × α) : List PauseCall → Bool
  | [] => false
  | call :: rest =>
    (call.refusesRelease setPaused s && grantsNone setPaused (call.perform setPaused s) rest) ||
      strands (call.perform setPaused s) rest

end Calls

variable {s : PauseRequests × α}

/-- From where the two agree only a release that is refused leads away. -/
theorem perform_mirrors (heeds : Heeds setPaused paused) (mirrors : Mirrors paused s)
    (call : PauseCall) :
    Stands paused (call.refusesRelease setPaused s) (call.perform setPaused s) := by
  obtain ⟨p, a⟩ := s
  cases call with
  | request =>
    refine Or.inl ⟨rfl, ?_⟩
    cases held : p.isPaused with
    | true =>
      simp only [perform, request_paused held]
      exact (mirrors.trans held).trans p.isPaused_granted.symm
    | false =>
      cases answer : (setPaused true a).1 with
      | ok u =>
        simp only [perform, request_granted held answer]
        exact (heeds.granted true a answer).trans p.isPaused_granted.symm
      | error e =>
        simp only [perform, request_refused held answer]
        exact (heeds.refused true a e answer).trans mirrors
  | release token =>
    cases answer : (p.release setPaused token a).1 with
    | error e =>
      refine Or.inr ⟨?_, heeds.stranded_of_refused mirrors answer⟩
      simp only [refusesRelease, answer]
    | ok u =>
      refine Or.inl ⟨by simp only [refusesRelease, answer], ?_⟩
      by_cases out : token ∈ p.outstanding
      · have was : paused a = true := mirrors.trans (isPaused_of_mem out)
        cases held : (p.without token).isPaused with
        | true =>
          simp only [perform, release_held out held]
          exact was.trans held.symm
        | false =>
          simp only [release_last out held] at answer
          simp only [perform, release_last out held]
          exact (heeds.granted false a answer).trans held.symm
      · simp only [perform, release_unknown out]
        exact mirrors

/-- From where they do not, only a request that is granted leads back. -/
theorem perform_stranded (heeds : Heeds setPaused paused) (stranded : Stranded paused s)
    (call : PauseCall) :
    call.refusesRelease setPaused s = false ∧
      Stands paused (!call.grantsRequest setPaused s) (call.perform setPaused s) := by
  obtain ⟨p, a⟩ := s
  have free := isPaused_eq_false.mpr stranded.1
  cases call with
  | request =>
    cases answer : (setPaused true a).1 with
    | ok u =>
      simp only [grantsRequest, perform, request_granted free answer]
      exact ⟨rfl, Or.inl ⟨rfl, (heeds.granted true a answer).trans p.isPaused_granted.symm⟩⟩
    | error e =>
      have still := (heeds.refused true a e answer).trans stranded.2
      simp only [grantsRequest, perform, request_refused free answer]
      exact ⟨rfl, Or.inr ⟨rfl, stranded.1, still⟩⟩
  | release token =>
    have unknown : token ∉ p.outstanding := by
      rw [stranded.1]
      exact List.not_mem_nil
    refine ⟨by simp only [refusesRelease, release_unknown unknown], Or.inr ⟨rfl, ?_⟩⟩
    simp only [perform, release_unknown unknown]
    exact stranded

/-- From where the two agree the service ends up stranded if a release is refused and no request is
granted after it, and from where it is stranded also if no request is granted at all. -/
theorem after_stands (heeds : Heeds setPaused paused) (calls : List PauseCall) :
    (Mirrors paused s →
      Stands paused (strands setPaused s calls) (after setPaused calls s)) ∧
    (Stranded paused s →
      Stands paused (grantsNone setPaused s calls || strands setPaused s calls)
        (after setPaused calls s)) := by
  induction calls generalizing s with
  | nil => exact ⟨fun mirrors => Or.inl ⟨rfl, mirrors⟩, fun stranded => Or.inr ⟨rfl, stranded⟩⟩
  | cons call rest ih =>
    obtain ⟨from_mirrors, from_stranded⟩ := ih (s := call.perform setPaused s)
    constructor
    · intro mirrors
      rw [strands]
      rcases perform_mirrors heeds mirrors call with ⟨none, next⟩ | ⟨refused, next⟩
      · rw [none, Bool.false_and, Bool.false_or]
        exact from_mirrors next
      · rw [refused, Bool.true_and]
        exact from_stranded next
    · intro stranded
      obtain ⟨none, stands⟩ := perform_stranded heeds stranded call
      rw [grantsNone, strands, none, Bool.false_and, Bool.false_or]
      rcases stands with ⟨granted, next⟩ | ⟨kept, next⟩
      · rw [granted, Bool.false_and, Bool.false_or]
        exact from_mirrors next
      · rw [kept, Bool.true_and]
        exact from_stranded next

end PauseCall

open PauseCall

/-- A service that is not paused at first may refuse any call. After a list of calls it is paused
just if a request is outstanding, unless a release was refused and no request was granted since:
then it is paused and none is. A release that is refused takes the last token away all the same, and
whatever is released next is passed over without asking. -/
theorem mirrors_unless_refused (heeds : Heeds setPaused paused) {a : α}
    (unpaused : paused a = false) (calls : List PauseCall) :
    let s := after setPaused calls (.empty, a)
    (Mirrors paused s ↔ strands setPaused (.empty, a) calls = false) ∧
      (Stranded paused s ↔ strands setPaused (.empty, a) calls = true) ∧
      ∀ token e, (s.1.release setPaused token s.2).1 = .error e →
        let t := (s.1.release setPaused token s.2).2
        token ∈ s.1.outstanding ∧ Stranded paused t ∧
          ∀ again, t.1.release setPaused again t.2 = (.ok (), t) := by
  intro s
  have start : Mirrors paused (PauseRequests.empty, a) := unpaused
  have stands : Stands paused (strands setPaused (.empty, a) calls) s :=
    (after_stands heeds calls).1 start
  refine ⟨stands.mirrors_iff, stands.stranded_iff, fun token e refused => ?_⟩
  have out := (release_refused refused).1
  have mirrors : Mirrors paused s := by
    rcases stands with ⟨-, mirrors⟩ | ⟨-, stranded⟩
    · exact mirrors
    · rw [stranded.1] at out
      cases out
  have lost := heeds.stranded_of_refused mirrors refused
  refine ⟨out, lost, fun again => release_unknown ?_ _⟩
  rw [lost.1]
  exact List.not_mem_nil

theorem paused_of_refused {value : Bool} {b : ReminderBook} {e : ServiceError}
    (refused : (b.setPaused value).1 = .error e) :
    (b.setPaused value).2.paused = b.paused := by
  unfold ReminderBook.setPaused at *
  split
  · rfl
  · next willing =>
    simp only [willing, if_false, Bool.false_eq_true] at refused
    split at refused <;> cases refused

/-- A reminder book that is refused at will heeds what is not refused. -/
theorem heeds_of_keepsBookAtWill {σ : Type} {services : Services σ} {book : σ → ReminderBook}
    (keeps : services.KeepsBookAtWill book) :
    Heeds services.setPaused fun h => (book h).paused where
  granted value h agreed := by
    rcases keeps.setPaused value h with ⟨e, refused, -⟩ | ⟨same, after⟩
    · rw [refused] at agreed
      cases agreed
    · simp only [after]
      exact ReminderBook.paused_setPaused (same.symm.trans agreed)
  refused value h e refused := by
    rcases keeps.setPaused value h with ⟨_, -, after⟩ | ⟨same, after⟩
    · simp only [after]
    · simp only [after]
      exact paused_of_refused (same.symm.trans refused)

/-- The one request is given back, which is refused, and then once more. -/
theorem mirrors_unless_refused_givenBackTwice :
    let host : InMemory × List Bool := (.empty, [false, true])
    let calls : List PauseCall := [.request, .release 0, .release 0]
    let paused := fun h : InMemory × List Bool => h.1.reminders.paused
    let s := after Run.wavering.setPaused calls (.empty, host)
    (paused host = false ∧ strands Run.wavering.setPaused (.empty, host) calls = true) ∧
    (Mirrors paused s ↔ strands Run.wavering.setPaused (.empty, host) calls = false) ∧
      (Stranded paused s ↔ strands Run.wavering.setPaused (.empty, host) calls = true) ∧
      ∀ token e, (s.1.release Run.wavering.setPaused token s.2).1 = .error e →
        let t := (s.1.release Run.wavering.setPaused token s.2).2
        token ∈ s.1.outstanding ∧ Stranded paused t ∧
          ∀ again, t.1.release Run.wavering.setPaused again t.2 = (.ok (), t) :=
  ⟨by decide +kernel,
    mirrors_unless_refused (heeds_of_keepsBookAtWill Run.keepsBookAtWill_wavering) rfl _⟩

/-- The one request is given back, which is refused. The book stays paused without a request, and
the token is gone. -/
theorem lastRelease_stranded :
    let s := after Run.wavering.setPaused [.request] (.empty, (InMemory.empty, [false, true]))
    let t := (s.1.release Run.wavering.setPaused 0 s.2).2
    (s.1.release Run.wavering.setPaused 0 s.2).1 = .error ReminderBook.unavailable ∧
      ¬ (t.1.isPaused = true ↔ t.2.1.reminders.paused = true) ∧ 0 ∉ t.1.outstanding := by
  decide +kernel

end PauseRequests

end Stepwise
