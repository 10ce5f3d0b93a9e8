import Stepwise.Proofs.Delivery
import Stepwise.Proofs.Twins.Entering

/-!
# Delivering alike

An event goes to the same thread in both runs, which makes the same of it. A group that counts a
thread looks at the threads that are left, and at nothing of the one that has finished.
-/

namespace Stepwise

variable {σ : Type} {services : Services σ} {c : Pairing services} {w w' : World σ}

inductive Reaction.Alike (n : Naming) : Reaction → Reaction → Prop
  | stay : Reaction.Alike n .stay .stay
  | leave {after after' : List Block} (blocks : BlocksAlike n after after') :
    Reaction.Alike n (.leave after) (.leave after')

namespace Block

/-- Both blocks take or pass over the event, in the same way. -/
def ReactsAlike (c : Pairing services) (w w' : World σ) (o o' : Outcome σ Block Reaction) : Prop :=
  ∃ reaction reaction' b b' v v', o = ⟨.ok reaction, b, v⟩ ∧ o' = ⟨.ok reaction', b', v'⟩ ∧
    c.Leads w w' v v' ∧ b.Alike (c.naming v v') b' ∧ reaction.Alike (c.naming v v') reaction'

/-- The branch that is handed a reminder is alike in both runs. -/
theorem handOn_alike {n : Naming} {b b' : Block} (blocks : b.Alike n b') (branch : List Template) :
    (b.handOn (branch.map ofTemplate)).1.Alike n (b'.handOn (branch.map ofTemplate)).1 ∧
      BlocksAlike n (b.handOn (branch.map ofTemplate)).2
        (b'.handOn (branch.map ofTemplate)).2 := by
  have fresh : BlocksAlike n (branch.map ofTemplate) (branch.map ofTemplate) :=
    blocksAlike_ofTemplates branch
  obtain ⟨id, image, reminder, handle, hooks, text, activity⟩ := b
  obtain ⟨named, hooked, active⟩ := blocks
  cases named with
  | none => exact ⟨.mk .none hooked active, fresh⟩
  | some named =>
    unfold handOn
    cases ends : (branch.map ofTemplate).getLast? with
    | none => exact ⟨.mk (.some named) hooked active, fresh⟩
    | some last =>
      obtain ⟨front, same⟩ := List.getLast?_eq_some_iff.mp ends
      rw [same] at fresh ⊢
      have parts : ∀ b ∈ front ++ [last], b.Alike n b := List.forall₂_same.mp fresh
      simp only [List.dropLast_concat]
      refine ⟨.mk .none hooked active, BlocksAlike.append ?_ (.cons ?_ .nil)⟩
      · exact List.forall₂_same.mpr fun b mem => parts b (List.mem_append_left _ mem)
      · exact (parts last (by simp)).addHook (.removeReminder named)

theorem Alike.regroup {n : Naming} {b b' : Block} (blocks : b.Alike n b') (join : Join) :
    Block.Alike n { b with activity := .parallel join } { b' with activity := .parallel join } := by
  obtain ⟨named, hooked, -⟩ := blocks
  exact .mk named hooked (.same nofun)

theorem choose_alike {b b' : Block} (blocks : b.Alike (c.naming w w') b') (branch : List Template)
    (alike : w.Alike c w') : ReactsAlike c w w' (b.choose branch w) (b'.choose branch w') := by
  have built := alike.same (Pairing.same_noteBuilt alike.good branch)
    (Pairing.same_noteBuilt alike.good' branch)
  obtain ⟨same, after⟩ := handOn_alike (blocks.mono built.names) branch
  exact ⟨_, _, _, _, _, _, choose_eq b branch w, choose_eq b' branch w', built, same, .leave after⟩

theorem answer_alike {b b' : Block} (blocks : b.Alike (c.naming w w') b') (loop : LoopKind)
    (body : List Template) (yes : Bool) (alike : w.Alike c w') :
    ReactsAlike c w w' (b.answer loop body yes w) (b'.answer loop body yes w') := by
  unfold answer
  split
  · have built := alike.same (Pairing.same_noteBuilt alike.good body)
      (Pairing.same_noteBuilt alike.good' body)
    obtain ⟨named, hooked, active⟩ := blocks.mono built.names
    have next := Block.Alike.mk (b := b.successor (.asked loop body)) named .nil (.same nofun)
    refine ⟨_, _, _, _, _, _, rfl, rfl, built, .mk .none hooked active, .leave ?_⟩
    exact (blocksAlike_ofTemplates body).append (.cons next .nil)
  · exact ⟨_, _, _, _, _, _, rfl, rfl, .refl alike, blocks, .leave .nil⟩

theorem react_alike {b b' : Block} (blocks : b.Alike (c.naming w w') b') (event : Event)
    (alike : w.Alike c w') :
    ReactsAlike c w w' (b.react services event w) (b'.react services event w') := by
  have passed (notice notice' : Notice) : ReactsAlike c w w' ⟨.ok .stay, b, w.passOver notice⟩
      ⟨.ok .stay, b', w'.passOver notice'⟩ := by
    have noted : c.Leads w w' (w.passOver notice) (w'.passOver notice') := alike.note rfl rfl
    exact ⟨_, _, _, _, _, _, rfl, rfl, noted, blocks.mono noted.names, .stay⟩
  have leaves : ReactsAlike c w w' ⟨.ok (.leave []), b, w⟩ ⟨.ok (.leave []), b', w'⟩ :=
    ⟨_, _, _, _, _, _, rfl, rfl, .refl alike, blocks, .leave .nil⟩
  have chosen branch := choose_alike blocks branch alike
  have answered loop body yes := answer_alike blocks loop body yes alike
  obtain ⟨id, image, reminder, handle, hooks, text, activity⟩ := b
  obtain ⟨named, hooked, active⟩ := blocks
  cases active with
  | sleep waits =>
    obtain ⟨waits⟩ := waits
    cases event with
    | tick remaining =>
      exact ⟨_, _, _, _, _, _, rfl, rfl, .refl alike, .mk named hooked (.sleep (.mk waits)), .stay⟩
    | elapsed =>
      exact ⟨_, _, _, _, _, _, rfl, rfl, .refl alike, .mk named hooked (.sleep (.mk waits)),
        .leave .nil⟩
    | skip =>
      obtain ⟨v, forced, same⟩ := c.forceFinish_same alike.good
      obtain ⟨v', forced', same'⟩ := c.forceFinish_same alike.good'
      have leads := alike.same same same'
      simp only [react, forced, forced']
      exact ⟨_, _, _, _, _, _, rfl, rfl, leads, .mk (optionRel_mono leads.names.1 named)
        (hooked.imp fun _ _ hook => hook.mono leads.names)
        (.sleep (.mk (optionRel_mono leads.names.2 waits))), .leave .nil⟩
    | _ => exact passed _ _
  | same tokenless =>
    cases activity with
    | sleep s => exact absurd rfl (tokenless s)
    | task =>
      cases event with
      | done => exact leaves
      | _ => exact passed _ _
    | condition onYes onNo =>
      cases event with
      | yes => exact chosen onYes
      | no => exact chosen onNo
      | _ => exact passed _ _
    | asked loop body =>
      cases event with
      | yes => exact answered loop body true
      | no => exact answered loop body false
      | _ => exact passed _ _
    | _ => cases event <;> exact passed _ _

end Block

namespace Execution

variable {e e' : Execution} {b b' : Block} {rest rest' : List Block}

theorem leave_alike (executions : e.Alike (c.naming w w') e') (current : b.Alike (c.naming w w') b')
    {ahead ahead' : List Block} (later : BlocksAlike (c.naming w w') ahead ahead')
    (alike : w.Alike c w') :
    (e.leave services b ahead w).Alike c Execution.Alike w w'
      (e'.leave services b' ahead' w') := by
  obtain ⟨lines, inside⟩ := (alike_iff e e').mp executions
  have stuck {n : Naming} (le : c.naming w w' ≤ n) {b b' : Block} (current : b.Alike n b') :
      Execution.Alike n ⟨{ e.toSequence with ahead := b :: ahead }, []⟩
        ⟨{ e'.toSequence with ahead := b' :: ahead' }, []⟩ :=
    .mk ((lines.mono le).with_ahead (.cons current (BlocksAlike.mono le later))) .nil
  unfold leave
  refine (cancelThreads_alike inside alike).bind (fun n le _ _ _ => stuck le (current.mono le))
    fun _ _ _ v v' alike le _ => ?_
  refine (Block.leave_alike (current.mono le) alike).bind
    (fun n le' _ _ same => stuck (le_trans le le') same) fun _ left left' u u' alike le' same => ?_
  have gone := Sequence.noteLeft_leads e.toSequence e'.toSequence left left' alike
  have le := le_trans le (le_trans le' gone.names)
  refine .after gone (enter_alike _ _ _ _ (.mk ?_ .nil) gone.alike)
  exact (lines.mono le).advance left left' (BlocksAlike.mono le later)

section Group

variable {join : Join} {before before' after after' : List Thread} {t t' : Thread}
  (lines : e.toSequence.Alike (c.naming w w') e'.toSequence)
  (current : b.Alike (c.naming w w') b') (later : BlocksAlike (c.naming w w') rest rest')
  (alike : w.Alike c w')
include lines current later alike

/-- A group that counts a thread, whichever it is. -/
theorem afterThread_finished_alike (finished : t.execution.finished = true)
    (finished' : t'.execution.finished = true)
    (others : ThreadsAlike (c.naming w w') (before ++ after) (before' ++ after')) :
    (e.afterThread services b rest join before after t w).Alike c Execution.Alike w w'
      (e'.afterThread services b' rest' join before' after' t' w') := by
  have regrouped {n : Naming} (le : c.naming w w' ≤ n) (join : Join) {threads threads' : List Thread}
      (inside : ThreadsAlike n threads threads') : Execution.Alike n
        ⟨{ e.toSequence with ahead := { b with activity := .parallel join } :: rest }, threads⟩
        ⟨{ e'.toSequence with ahead := { b' with activity := .parallel join } :: rest' },
          threads'⟩ :=
    .mk ((lines.mono le).with_ahead
      (.cons ((current.mono le).regroup join) (BlocksAlike.mono le later))) inside
  rw [afterThread, afterThread, if_pos finished, if_pos finished']
  refine (join.complete_alike others alike).bind ?_ ?_
  · rintro n le ⟨join, threads⟩ ⟨join', threads'⟩ ⟨same, inside⟩
    obtain rfl : join' = join := same
    exact regrouped le _ inside
  · rintro ended ⟨join, threads⟩ ⟨join', threads'⟩ v v' alike le ⟨same, inside⟩
    obtain rfl : join' = join := same
    cases ended with
    | false => exact ⟨rfl, regrouped le _ inside, .refl alike⟩
    | true =>
      exact leave_alike (regrouped le _ inside) ((current.mono le).regroup _)
        (BlocksAlike.mono le later) alike

theorem afterThread_alike (first : ThreadsAlike (c.naming w w') before before')
    {x x' : Execution} (thread : x.Alike (c.naming w w') x')
    (last : ThreadsAlike (c.naming w w') after after') :
    (e.afterThread services b rest join before after { t with execution := x } w).Alike c
      Execution.Alike w w'
      (e'.afterThread services b' rest' join before' after' { t with execution := x' } w') := by
  have same := ((alike_iff x x').mp thread).1.finished
  cases finished : x.finished with
  | true =>
    exact afterThread_finished_alike lines current later alike finished (same.trans finished)
      (first.append last)
  | false =>
    rw [afterThread_runs finished, afterThread_runs (same.trans finished)]
    exact ⟨rfl, .mk lines (first.append (.cons thread last)), .refl alike⟩

end Group

theorem dispatch_alike (event : Event) (path : List Nat) (executions : e.Alike (c.naming w w') e')
    (alike : w.Alike c w') :
    (e.dispatch services event path w).Alike c Execution.Alike w w'
      (e'.dispatch services event path w') := by
  induction depth : path.length using Nat.strongRecOn generalizing path e e' with
  | ind n ih =>
  subst depth
  obtain ⟨lines, inside⟩ := (alike_iff e e').mp executions
  have passed (notice notice' : Notice) :
      Outcome.Alike (α := Unit) c Execution.Alike w w' ⟨.ok (), e, w.passOver notice⟩
        ⟨.ok (), e', w'.passOver notice'⟩ := by
    have noted : c.Leads w w' (w.passOver notice) (w'.passOver notice') := alike.note rfl rfl
    exact ⟨rfl, executions.mono noted.names, noted⟩
  cases running : e.isRunning with
  | false =>
    rw [dispatch_idle running, dispatch_idle (lines.isRunning.trans running)]
    exact passed _ _
  | true =>
  have running' := lines.isRunning.trans running
  cases now : e.ahead with
  | nil =>
    have now' : e'.ahead = [] := List.forall₂_nil_left_iff.mp (now ▸ lines.ahead)
    rw [dispatch_at_end running now, dispatch_at_end running' now']
    exact passed _ _
  | cons b rest =>
  obtain ⟨b', rest', first, later, now'⟩ := List.forall₂_cons_left_iff.mp (now ▸ lines.ahead)
  have with_block {n : Naming} (le : c.naming w w' ≤ n) {b b' : Block} (same : b.Alike n b') :
      Execution.Alike n { e with ahead := b :: rest } { e' with ahead := b' :: rest' } :=
    .mk ((lines.mono le).with_ahead (.cons same (BlocksAlike.mono le later))) (inside.mono le)
  cases path with
  | nil =>
    have reacts : Block.ReactsAlike c w w' (b.react services event w) (b'.react services event w') :=
      Block.react_alike first event alike
    obtain ⟨reaction, reaction', b, b', v, v', reacted, reacted', leads, same, reactions⟩ := reacts
    rw [dispatch_here running now, dispatch_here running' now', reacted, reacted',
      Outcome.bind_ok, Outcome.bind_ok]
    refine .after leads ?_
    cases reactions with
    | stay => exact ⟨rfl, with_block leads.names same, .refl leads.alike⟩
    | leave after =>
      exact leave_alike (executions.mono leads.names) same
        (after.append (BlocksAlike.mono leads.names later)) leads.alike
  | cons branch further =>
    have nowhere (none : b.join? = none ∨ findThread branch e.threads = none)
        (none' : b'.join? = Option.none ∨ findThread branch e'.threads = Option.none) :
        (e.dispatch services event (branch :: further) w).Alike c Execution.Alike w w'
          (e'.dispatch services event (branch :: further) w') := by
      obtain ⟨notice, -, delivered⟩ := dispatch_nowhere services running now none event further w
      obtain ⟨notice', -, delivered'⟩ :=
        dispatch_nowhere services running' now' none' event further w'
      rw [delivered, delivered']
      exact passed notice notice'
    cases group : b.join? with
    | none => exact nowhere (Or.inl group) (Or.inl (first.join?.trans group))
    | some join =>
      cases found : findThread branch e.threads with
      | none => exact nowhere (Or.inr found) (Or.inr (inside.findThread_none found))
      | some parts =>
        obtain ⟨before, t, after⟩ := parts
        obtain ⟨before', x, after', found', before_alike, thread, after_alike⟩ :=
          inside.findThread_some found
        rw [dispatch_thread running now group found,
          dispatch_thread running' now' (first.join?.trans group) found']
        refine (ih _ (Nat.lt_succ_self _) further thread rfl).bind (fun n le x x' same => ?_)
          fun _ x x' v v' alike le same => ?_
        · exact .mk (lines.mono le) ((before_alike.mono le).append
            (.cons same (after_alike.mono le)))
        · exact afterThread_alike (lines.mono le) (first.mono le)
            (BlocksAlike.mono le later) alike (before_alike.mono le) same (after_alike.mono le)

end Execution

end Stepwise
