import Stepwise.Proofs.Pausing.Entering
import Stepwise.Proofs.Removals

/-!
# Nothing is lost unless it cannot be given back

A reminder is due until it has been removed, and a pause token until it has been given back. The
host may refuse anything at any time. As long as it has not refused to take something back, the run
keeps all that is due: what a refused request was about stays where it is, in a block, a hook or a
sequence. A refusal to remove a reminder, to cancel a countdown or to resume may lose some.
-/

namespace Stepwise

variable {σ : Type}

/-- What the host is still to take back. -/
inductive Holding where
  | reminder (id : Nat)
  | token (token : Nat)
  deriving DecidableEq

/-- The request takes something back from the run. -/
def Request.isReturn : Request → Bool
  | .removeReminder _ | .setPaused false | .cancelCountdown _ => true
  | _ => false

/-- The host has refused to take something back. -/
def Entry.isRefusedReturn : Entry → Bool
  | .asked request (.error _) => request.isReturn
  | _ => false

namespace World

def Lost (w : World σ) : Prop := ∃ entry ∈ w.journal, entry.isRefusedReturn = true

/-- How often something is due. -/
def due (w : World σ) : Holding → Nat
  | .reminder id => (activeIn w.journal).count id
  | .token token => w.pause.outstanding.count token

/-- All that is due is among the holdings, unless some may have been lost. -/
def Covers (w : World σ) (holdings : List Holding) : Prop :=
  w.Lost ∨ ∀ h, w.due h ≤ holdings.count h

variable {w w' : World σ} {holdings : List Holding}

theorem Lost.of_suffix (lost : w.Lost) (grown : w.journal <:+ w'.journal) : w'.Lost := by
  obtain ⟨entry, mem, refused⟩ := lost
  exact ⟨entry, grown.subset mem, refused⟩

theorem Covers.more {others : List Holding} (covers : w.Covers holdings)
    (le : ∀ h, holdings.count h ≤ others.count h) : w.Covers others := by
  rcases covers with lost | all
  · exact Or.inl lost
  · exact Or.inr fun h => Nat.le_trans (all h) (le h)

/-- A step after which no more is due. -/
theorem Covers.step (covers : w.Covers holdings) (grown : w.journal <:+ w'.journal)
    (le : ∀ h, w'.due h ≤ w.due h) : w'.Covers holdings := by
  rcases covers with lost | all
  · exact Or.inl (lost.of_suffix grown)
  · exact Or.inr fun h => Nat.le_trans (le h) (all h)

theorem Covers.note (covers : w.Covers holdings) {entry : Entry}
    (note : entry.IsNote fun _ => True) : (w.note entry).Covers holdings := by
  refine covers.step (List.suffix_cons _ _) fun h => ?_
  cases h with
  | reminder id =>
    show (activeIn (entry :: w.journal)).count id ≤ _
    rw [note.activeIn]
    exact Nat.le_refl _
  | token token => exact Nat.le_refl _

theorem Covers.passOver (covers : w.Covers holdings) (notice : Notice) :
    (w.passOver notice).Covers holdings := by
  have passed : Entry.IsNote (fun _ => True) (.passedOver notice) := trivial
  exact covers.note passed

theorem Covers.noteBuilt (covers : w.Covers holdings) (templates : List Template) :
    (w.noteBuilt templates).Covers holdings := by
  induction templates generalizing w with
  | nil => exact covers
  | cons t rest ih =>
    have built : Entry.IsNote (fun _ => True) (.built t) := trivial
    have noted := ih (covers.note built)
    simpa [World.noteBuilt, World.note] using noted

theorem Covers.noteOpened (covers : w.Covers holdings) (branches : List (List Template)) :
    (w.noteOpened branches).Covers holdings := by
  induction branches generalizing w with
  | nil => exact covers
  | cons templates rest ih =>
    have opened : Entry.IsNote (fun _ => True) (.opened none none) := trivial
    exact ih ((covers.note opened).noteBuilt templates)

variable (services : Services σ)

theorem addReminder_covers (covers : w.Covers holdings) (label : String) (r : Reminder) :
    Answered (fun id w => w.Covers (.reminder id :: holdings)) (fun _ w => w.Covers holdings)
      (w.addReminder services label r) := by
  unfold addReminder
  generalize services.addReminder label r w.host = answered
  obtain ⟨answer, host⟩ := answered
  cases answer with
  | error e => exact covers.step (List.suffix_cons _ _) fun h => Nat.le_refl _
  | ok id =>
    rcases covers with lost | all
    · exact Or.inl (lost.of_suffix (List.suffix_cons _ _))
    · refine Or.inr fun h => ?_
      have before := all h
      cases h with
      | reminder other =>
        show (id :: activeIn w.journal).count other ≤ _
        simp only [due, List.count_cons, beq_iff_eq, Holding.reminder.injEq] at before ⊢
        omega
      | token token =>
        rw [List.count_cons]
        exact Nat.le_add_right_of_le before

/-- A request after which the same is due, however it was answered. -/
theorem ask_covers (covers : w.Covers holdings) (request : Request)
    (aside : ∀ id, request ≠ .removeReminder id) (call : σ → Except ServiceError Unit × σ) :
    (w.ask request call).2.Covers holdings := by
  unfold ask
  generalize call w.host = answered
  obtain ⟨answer, host⟩ := answered
  refine covers.step (List.suffix_cons _ _) fun h => ?_
  cases h with
  | reminder id =>
    show (activeIn (.asked request answer :: w.journal)).count id ≤ _
    cases request with
    | removeReminder other => exact absurd rfl (aside other)
    | _ => exact Nat.le_refl _
  | token token => exact Nat.le_refl _

/-- A refusal to take something back. -/
theorem ask_lost (w : World σ) {request : Request} (isReturn : request.isReturn = true)
    (call : σ → Except ServiceError Unit × σ) (e : ServiceError)
    (refused : (w.ask request call).1 = .error e) : (w.ask request call).2.Lost := by
  unfold ask at *
  generalize call w.host = answered at *
  obtain ⟨answer, host⟩ := answered
  have refused : answer = .error e := refused
  subst refused
  exact ⟨_, List.mem_cons_self, isReturn⟩

theorem removeReminder_covers {id : Nat} (covers : w.Covers (.reminder id :: holdings)) :
    Answered (fun _ w => w.Covers holdings) (fun _ w => w.Lost)
      (w.removeReminder services id) := by
  have lost := w.ask_lost (rfl : Request.isReturn (.removeReminder id) = true)
    (services.removeReminder id)
  unfold removeReminder
  unfold ask at *
  generalize services.removeReminder id w.host = answered at *
  obtain ⟨answer, host⟩ := answered
  cases answer with
  | error e => exact lost _ rfl
  | ok _ =>
    rcases covers with before | all
    · exact Or.inl (before.of_suffix (List.suffix_cons _ _))
    · refine Or.inr fun h => ?_
      have before := all h
      rw [List.count_cons] at before
      cases h with
      | reminder other =>
        show ((activeIn w.journal).erase id).count other ≤ _
        rw [List.count_erase]
        simp only [due, beq_iff_eq, Holding.reminder.injEq] at before ⊢
        omega
      | token token => simpa [due] using before

theorem requestPause_covers (covers : w.Covers holdings) :
    Answered (fun token w => w.Covers (.token token :: holdings)) (fun _ w => w.Covers holdings)
      (w.requestPause services) := by
  have noted : (w.note (.pauseRequested w.pause.next)).Covers holdings := covers.note trivial
  -- The token that is taken is due, and nothing else is due that was not before.
  have granted : ∀ v : World σ, v.Covers holdings → v.pause = w.pause →
      World.Covers { v with pause := w.pause.granted } (.token w.pause.next :: holdings) := by
    intro v covers same
    rcases covers with lost | all
    · exact Or.inl lost
    · refine Or.inr fun h => ?_
      have before := all h
      rw [List.count_cons]
      cases h with
      | reminder id => exact Nat.le_add_right_of_le before
      | token token =>
        simp only [due, same, beq_iff_eq, Holding.token.injEq] at before ⊢
        have inserted : (w.pause.outstanding.insert w.pause.next).count token ≤
            w.pause.outstanding.count token + if w.pause.next = token then 1 else 0 := by
          unfold List.insert
          split
          · omega
          · rw [List.count_cons]
            simp only [beq_iff_eq, Nat.le_refl]
        exact Nat.le_trans inserted (Nat.add_le_add_right before _)
  have asked := ask_covers noted (.setPaused true) nofun (services.setPaused true)
  unfold requestPause PauseRequests.request setPaused
  by_cases paused : w.pause.isPaused
  · simp only [paused, if_true]
    exact granted _ noted rfl
  · simp only [paused]
    unfold ask at *
    generalize services.setPaused true _ = answered at *
    obtain ⟨answer, host⟩ := answered
    cases answer with
    | ok _ => exact granted _ asked rfl
    | error e => exact asked

theorem releasePause_covers {token : Nat} (covers : w.Covers (.token token :: holdings)) :
    Answered (fun _ w => w.Covers holdings) (fun _ w => w.Lost)
      (w.releasePause services token) := by
  have released : ∀ v : World σ, v.Covers (.token token :: holdings) →
      v.pause = w.pause → World.Covers { v with pause := w.pause.without token } holdings := by
    intro v covers same
    rcases covers with lost | all
    · exact Or.inl lost
    · refine Or.inr fun h => ?_
      have before := all h
      rw [List.count_cons] at before
      cases h with
      | reminder id => simpa [due] using before
      | token other =>
        simp only [due, same, PauseRequests.without, beq_iff_eq, Holding.token.injEq] at before ⊢
        rw [List.count_erase]
        simp only [beq_iff_eq]
        omega
  have aside : ∀ id, Request.setPaused false ≠ .removeReminder id := by rintro id ⟨⟩
  have asked := ask_covers covers (.setPaused false) aside (services.setPaused false)
  have lost := w.ask_lost (rfl : Request.isReturn (.setPaused false) = true)
    (services.setPaused false)
  unfold releasePause PauseRequests.release setPaused
  by_cases outstanding : token ∈ w.pause.outstanding
  · simp only [outstanding, if_true]
    split
    · exact released w covers rfl
    · unfold ask at *
      generalize services.setPaused false w.host = answered at *
      obtain ⟨answer, host⟩ := answered
      cases answer with
      | ok _ => exact released _ asked rfl
      | error e => exact lost _ rfl
  · simp only [outstanding, if_false]
    have same : w.pause.without token = w.pause := by
      rw [PauseRequests.without, List.erase_of_not_mem outstanding]
    have none := released w covers rfl
    rw [same] at none
    exact none

theorem cancelCountdown_covers (covers : w.Covers holdings) (route : List Nat) :
    Answered (fun _ w => w.Covers holdings) (fun _ w => w.Lost)
      (w.cancelCountdown services route) := by
  have asked := ask_covers covers (.cancelCountdown route) nofun
    (services.cancelCountdown route)
  have lost := w.ask_lost (rfl : Request.isReturn (.cancelCountdown route) = true)
    (services.cancelCountdown route)
  unfold cancelCountdown
  unfold ask at *
  generalize services.cancelCountdown route w.host = answered at *
  obtain ⟨answer, host⟩ := answered
  cases answer with
  | ok _ => exact asked
  | error e => exact lost _ rfl

end World

end Stepwise
