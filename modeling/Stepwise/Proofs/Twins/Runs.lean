import Stepwise.Proofs.Twins.Delivery
import Stepwise.Proofs.Twins.Orders

/-!
# Calls on runs that are alike

Calls keep runs alike. In particular every run is alike to itself, with each number paired with
itself, and this says that it holds no number but those that were given out.
-/

namespace Stepwise

variable {σ : Type} {services : Services σ}

namespace Run

/-- Two runs that hold paired numbers, and have done the same in worlds that are alike. -/
structure Alike (c : Pairing services) (r r' : Run σ) : Prop where
  root : r.root.Alike (c.naming r.world r'.world) r'.root
  world : r.world.Alike c r'.world

variable {c : Pairing services}

theorem alike_of_outcome {w w' : World σ} {o o' : Outcome σ Execution Unit}
    (ends : o.Alike c Execution.Alike w w' o') : (ofOutcome o).2.Alike c (ofOutcome o').2 :=
  ⟨ends.part, ends.leads.alike⟩

theorem begin_alike {e e' : Execution} {w w' : World σ}
    (executions : e.Alike (c.naming w w') e') (alike : w.Alike c w') :
    (begin services e w).Alike c Execution.Alike w w' (begin services e' w') := by
  obtain ⟨⟨behind, ahead, started, finished, cancelled, description, reminder, handle, address,
    pause⟩, threads⟩ := e
  obtain ⟨lines, inside⟩ := executions
  obtain ⟨cursor, blocks, named⟩ := lines
  have entered {v v' : World σ} (leads : c.Leads w w' v v') {handle handle' : Option Nat}
      (named : Option.Rel (c.naming v v').ids handle handle') :=
    Outcome.Alike.after leads (Execution.enter_alike _ _ _ _
      (.mk (.mk (s := ⟨behind, ahead, true, finished, cancelled, description, reminder, handle,
        address, pause⟩) cursor (BlocksAlike.mono leads.names blocks) named)
        (inside.mono leads.names)) leads.alike)
  cases reminder with
  | none => exact entered (.refl alike) named
  | some reminder =>
    cases description with
    | none => exact entered (.refl alike) named
    | some description =>
      obtain ⟨i, j, v, v', added, added', leads, paired⟩ := alike.addReminder description reminder
      simp only [begin, added, added']
      exact entered leads (.some paired)

variable {r r' : Run σ}

/-- A token that the host gives back is to stand for itself. -/
theorem perform_alike (alike : r.Alike c r') (call : Call)
    (tokens : ∀ token, call = .releasePause token → c.token token = token) :
    (r.perform services call).Alike c (r'.perform services call) := by
  obtain ⟨root, world⟩ := alike
  obtain ⟨lines, inside⟩ := (Execution.alike_iff _ _).mp root
  cases call with
  | start =>
    simp only [perform, start, lines.started]
    split
    · exact ⟨root, world⟩
    · exact alike_of_outcome (begin_alike root world)
  | dispatch path event => exact alike_of_outcome (Execution.dispatch_alike event path root world)
  | push block =>
    refine ⟨(Execution.alike_iff _ _).mpr ⟨?_, inside⟩, world⟩
    exact lines.with_ahead (lines.ahead.append (.cons block.alike_block .nil))
  | splice blocks =>
    refine ⟨(Execution.alike_iff _ _).mpr ⟨?_, inside⟩, world⟩
    exact lines.splice (blocksAlike_hostBlocks blocks)
  | requestPause =>
    obtain ⟨t, u, v, v', requested, requested', leads, -⟩ := world.requestPause
    simp only [perform, requestPause, requested, requested']
    exact ⟨root.mono leads.names, leads.alike⟩
  | releasePause token =>
    obtain ⟨-, leads⟩ := world.releasePause fun _ _ => tokens token rfl
    exact ⟨root.mono leads.names, leads.alike⟩

end Run

namespace Run

variable {k : Keeper services} {r : Run σ}

theorem Assembled.alike_itself {blocks : List HostBlock} (assembled : r.Assembled blocks)
    (good : k.Good r.world.host) (empty : k.book r.world.host = .empty) : r.Alike k.itself r := by
  obtain ⟨description, reminder, root⟩ := assembled.root
  have none_active : k.active r.world = [] := congrArg ReminderBook.active empty
  have requests : pauseRequestsIn r.world.journal = 0 := by
    refine List.countP_eq_zero.mpr fun entry mem => ?_
    have making := assembled.journal entry mem
    cases entry with
    | pauseRequested token => cases making
    | _ => exact Bool.false_ne_true
  constructor
  case root =>
    rw [root]
    exact Execution.alike_fresh _ _ _ (blocksAlike_hostBlocks blocks)
  case world =>
    have numbered : k.Numbered r.world := by
      intro item mem
      rw [none_active] at mem
      cases mem
    have turn : r.world.InTurn := by
      refine ⟨?_, fun _ => ?_, fun _ => ?_⟩
      · rw [assembled.pause]
        exact List.nodup_nil
      · rw [assembled.pause, requests]
        rfl
      · rw [assembled.pause]
        exact List.forall_mem_nil _
    constructor
    case good => exact good
    case good' => exact good
    case nextId => exact fun _ => rfl
    case firstId => exact Nat.zero_le _
    case moved =>
      show Store.Moved _ _ _ _ (k.active r.world) (k.active r.world)
      rw [none_active]
      exact Store.Moved.start _ _ _ _
    case numbered => exact numbered
    case numbered' => exact numbered
    case turn => exact turn
    case turn' => exact turn
    case pauses =>
      intro _ _
      rw [assembled.pause]
      exact ⟨fun _ => rfl, Nat.zero_le _, Store.Moved.start _ _ _ _⟩

/-- Every reachable state is alike to itself. -/
theorem Assembled.alike_after {blocks : List HostBlock} (assembled : r.Assembled blocks)
    (good : k.Good r.world.host) (empty : k.book r.world.host = .empty) (calls : List Call) :
    (r.after services calls).Alike k.itself (r.after services calls) :=
  after_induction services (P := fun r => r.Alike k.itself r)
    (fun _ call (_ : True) alike => perform_alike alike call fun _ _ => rfl)
    (assembled.alike_itself good empty) calls fun _ _ => trivial

end Run

end Stepwise
