import Stepwise.Execution.Cancelling
import Stepwise.Proofs.Twins.Worlds

/-!
# Leaving alike

Two runs that are alike and do the same end in the same way and are alike again. Each operation has
one theorem, which says so from any two parts that are alike, in any two worlds that are. This
module has what leaves: blocks, and threads that are cancelled.
-/

namespace Stepwise

variable {σ τ υ α β : Type} {services : Services σ} {c : Pairing services} {w w' : World σ}

/-- Both operations end in the same way, with parts that are related under the numbers that are
paired by then. -/
structure Outcome.Alike (c : Pairing services) (P : Naming → τ → υ → Prop) (w w' : World σ)
    (o : Outcome σ τ α) (o' : Outcome σ υ α) : Prop where
  result : o'.result = o.result
  part : P (c.naming o.world o'.world) o.part o'.part
  leads : c.Leads w w' o.world o'.world

namespace Outcome.Alike

variable {τ' υ' : Type} {P : Naming → τ → υ → Prop} {Q : Naming → τ' → υ' → Prop}
  {o : Outcome σ τ α} {o' : Outcome σ υ α}

theorem after {v v' : World σ} (leads : c.Leads w w' v v') (alike : o.Alike c P v v' o') :
    o.Alike c P w w' o' :=
  ⟨alike.result, alike.part, leads.trans alike.leads⟩

theorem within {wrap : τ → τ'} {wrap' : υ → υ'} (first : o.Alike c P w w' o')
    (wraps : ∀ n, c.naming w w' ≤ n → ∀ part part', P n part part' →
      Q n (wrap part) (wrap' part')) :
    (o.within wrap).Alike c Q w w' (o'.within wrap') :=
  ⟨first.result, wraps _ first.leads.names _ _ first.part, first.leads⟩

theorem bind {wrap : τ → τ'} {wrap' : υ → υ'} {next : α → τ → World σ → Outcome σ τ' β}
    {next' : α → υ → World σ → Outcome σ υ' β} (first : o.Alike c P w w' o')
    (fails : ∀ n, c.naming w w' ≤ n → ∀ part part', P n part part' →
      Q n (wrap part) (wrap' part'))
    (goes_on : ∀ a part part' v v', v.Alike c v' → c.naming w w' ≤ c.naming v v' →
      P (c.naming v v') part part' → (next a part v).Alike c Q v v' (next' a part' v')) :
    (o.bind wrap next).Alike c Q w w' (o'.bind wrap' next') := by
  obtain ⟨answer, part, v⟩ := o
  obtain ⟨answer', part', v'⟩ := o'
  obtain ⟨same, related, leads⟩ := first
  obtain rfl : answer' = answer := same
  cases answer' with
  | ok a => exact .after leads (goes_on a part part' v v' leads.alike leads.names related)
  | error e => exact ⟨rfl, fails _ leads.names part part' related, leads⟩

end Outcome.Alike

theorem LeaveHook.run_alike {hook hook' : LeaveHook} (hooks : hook.Alike (c.naming w w') hook')
    (alike : w.Alike c w') : c.Answers w w' (hook.run services w) (hook'.run services w') := by
  cases hooks with
  | removeReminder named => exact alike.removeReminder named
  | custom name failure =>
    exact ⟨rfl, alike.note rfl rfl⟩

theorem LeaveHook.runAll_alike {hooks hooks' : List LeaveHook}
    (same : List.Forall₂ (LeaveHook.Alike (c.naming w w')) hooks hooks') (alike : w.Alike c w') :
    (runAll services hooks w).Alike c (fun n => List.Forall₂ (LeaveHook.Alike n)) w w'
      (runAll services hooks' w') := by
  induction hooks generalizing w w' hooks' with
  | nil =>
    cases same
    exact ⟨rfl, .nil, .refl alike⟩
  | cons hook rest ih =>
    cases same with
    | cons first others =>
      unfold runAll
      refine (run_alike first alike).elim fun answer v v' leads => ?_
      have later := others.imp fun _ _ hook => hook.mono leads.names
      cases answer with
      | ok _ => exact .after leads (ih later leads.alike)
      | error e => exact ⟨rfl, later, leads⟩

theorem Sleep.giveBackToken_alike {s s' : Sleep} (waits : s.Alike (c.naming w w') s')
    (alike : w.Alike c w') :
    (s.giveBackToken services w).Alike c Sleep.Alike w w' (s'.giveBackToken services w') := by
  obtain ⟨value, unit, silent, remaining, token, route⟩ := s
  obtain ⟨named⟩ := waits
  cases named with
  | none => exact ⟨rfl, .mk .none, .refl alike⟩
  | some named =>
    obtain ⟨answer, leads⟩ := alike.releasePause fun few few' => (named few few').1
    exact ⟨answer, .mk .none, leads⟩

theorem Sleep.release_alike {s s' : Sleep} (waits : s.Alike (c.naming w w') s')
    (alike : w.Alike c w') :
    (s.release services w).Alike c Sleep.Alike w w' (s'.release services w') := by
  obtain @⟨token, named⟩ := waits
  by_cases running : s.isRunning
  · obtain ⟨v, cancelled, same⟩ := c.cancelCountdown_same s.route alike.good
    obtain ⟨v', cancelled', same'⟩ := c.cancelCountdown_same s.route alike.good'
    have leads := alike.same same same'
    have running' : ({ s with token } : Sleep).isRunning = true := running
    rw [release, release, if_pos running, if_pos running']
    simp only [cancelled, cancelled']
    exact .after leads (giveBackToken_alike (.mk (optionRel_mono leads.names.2 named)) leads.alike)
  · have running' : ¬ ({ s with token } : Sleep).isRunning = true := running
    rw [release, release, if_neg running, if_neg running']
    exact giveBackToken_alike (.mk named) alike

namespace Block

variable {b b' : Block} (blocks : b.Alike (c.naming w w') b') (alike : w.Alike c w')
include blocks alike

theorem wrapUp_alike :
    (b.wrapUp services w).Alike c Block.Alike w w' (b'.wrapUp services w') := by
  obtain ⟨id, image, reminder, handle, hooks, text, activity⟩ := b
  obtain ⟨named, hooked, active⟩ := blocks
  cases active with
  | sleep waits =>
    simp only [wrapUp]
    refine (Sleep.release_alike waits alike).within fun n le s s' waits => ?_
    exact .mk (optionRel_mono le.1 named) (hooked.imp fun _ _ hook => hook.mono le) (.sleep waits)
  | same tokenless =>
    cases activity with
    | sleep s => exact absurd rfl (tokenless s)
    | counted remaining entered body =>
      refine ⟨rfl, .mk named hooked (.same ?_), .refl alike⟩
      rintro s ⟨⟩
    | _ => exact ⟨rfl, .mk named hooked (.same tokenless), .refl alike⟩

theorem unregister_alike :
    (b.unregister services w).Alike c Block.Alike w w' (b'.unregister services w') := by
  obtain ⟨id, image, reminder, handle, hooks, text, activity⟩ := b
  obtain ⟨named, hooked, active⟩ := blocks
  cases named with
  | none => exact ⟨rfl, .mk .none hooked active, .refl alike⟩
  | some named =>
    obtain ⟨answer, leads⟩ := alike.removeReminder named
    exact ⟨answer, .mk .none (hooked.imp fun _ _ hook => hook.mono leads.names)
      (active.mono leads.names), leads⟩

theorem runHooks_alike :
    (b.runHooks services w).Alike c Block.Alike w w' (b'.runHooks services w') := by
  obtain ⟨named, hooked, active⟩ := blocks
  refine (LeaveHook.runAll_alike hooked alike).within fun n le hooks hooks' hooked => ?_
  exact .mk (optionRel_mono le.1 named) hooked (active.mono le)

theorem discard_alike :
    (b.discard services w).Alike c Block.Alike w w' (b'.discard services w') :=
  (unregister_alike blocks alike).bind (fun _ _ _ _ same => same)
    fun _ _ _ _ _ alike _ blocks => runHooks_alike blocks alike

theorem leave_alike : (b.leave services w).Alike c Block.Alike w w' (b'.leave services w') :=
  (wrapUp_alike blocks alike).bind (fun _ _ _ _ same => same)
    fun _ _ _ _ _ alike _ blocks => discard_alike blocks alike

/-- The block's reminder is started in both runs or in none. -/
theorem register_alike :
    ∃ handle handle' v v', b.register services w = (.ok handle, v) ∧
      b'.register services w' = (.ok handle', v') ∧ c.Leads w w' v v' ∧
      Option.Rel (c.naming v v').ids handle handle' := by
  have shown := blocks.shownText
  obtain ⟨id, image, reminder, handle, hooks, text, activity⟩ := b
  obtain ⟨named, hooked, active⟩ := blocks
  unfold register
  cases named with
  | some named =>
    cases reminder <;> exact ⟨_, _, w, w', rfl, rfl, .refl alike, .some named⟩
  | none =>
    cases reminder with
    | none => exact ⟨_, _, w, w', rfl, rfl, .refl alike, .none⟩
    | some r =>
      obtain ⟨i, j, v, v', added, added', leads, paired⟩ := alike.addReminder
        (Block.shownText ⟨id, image, some r, none, hooks, text, activity⟩) r
      refine ⟨some i, some j, v, v', ?_, ?_, leads, .some paired⟩
      · simp only [added]
      · simp only [shown, added']

end Block

theorem discardAll_alike {blocks blocks' : List Block}
    (same : BlocksAlike (c.naming w w') blocks blocks') (alike : w.Alike c w') :
    (discardAll services blocks w).Alike c BlocksAlike w w' (discardAll services blocks' w') := by
  induction blocks generalizing w w' blocks' with
  | nil =>
    cases same
    exact ⟨rfl, .nil, .refl alike⟩
  | cons b rest ih =>
    cases same with
    | cons first others =>
      refine (Block.discard_alike first alike).bind (fun n le b b' same => ?_)
        fun _ b b' v v' alike le same => ?_
      · exact .cons same (BlocksAlike.mono le others)
      · refine (ih (BlocksAlike.mono le others) alike).within fun n le' rest rest' later => ?_
        exact .cons (same.mono le') later

namespace Sequence

theorem noteLeft_leads (s s' : Sequence) (b b' : Block) (alike : w.Alike c w') :
    c.Leads w w' (s.noteLeft b w) (s'.noteLeft b' w') :=
  alike.note rfl rfl

theorem noteEntered_leads (s s' : Sequence) (b b' : Block) (alike : w.Alike c w') :
    c.Leads w w' (s.noteEntered b w) (s'.noteEntered b' w') :=
  alike.note rfl rfl

variable {s s' : Sequence} (lines : s.Alike (c.naming w w') s') (alike : w.Alike c w')
include lines alike

theorem unregister_alike :
    (s.unregister services w).Alike c Sequence.Alike w w' (s'.unregister services w') := by
  obtain ⟨behind, ahead, started, finished, cancelled, description, reminder, handle, address,
    pause⟩ := s
  obtain ⟨cursor, blocks, named⟩ := lines
  cases named with
  | none => exact ⟨rfl, .mk cursor blocks .none, .refl alike⟩
  | some named =>
    obtain ⟨answer, leads⟩ := alike.removeReminder named
    exact ⟨answer, .mk cursor (BlocksAlike.mono leads.names blocks) .none, leads⟩

theorem giveUp_alike :
    (s.giveUp services w).Alike c Sequence.Alike w w' (s'.giveUp services w') := by
  obtain ⟨cursor, blocks, named⟩ := lines
  refine (discardAll_alike blocks alike).bind (fun n le ahead ahead' same => ?_)
    fun _ ahead ahead' v v' alike le same => ?_
  · exact .mk cursor same (optionRel_mono le.1 named)
  · exact unregister_alike (.mk cursor same (optionRel_mono le.1 named)) alike

theorem halt_alike : (s.halt services w).Alike c Sequence.Alike w w' (s'.halt services w') := by
  have blocks := lines.ahead
  unfold halt
  generalize s.ahead = ahead, s'.ahead = ahead' at blocks ⊢
  cases blocks with
  | nil => exact giveUp_alike lines alike
  | cons first later =>
    refine (Block.leave_alike first alike).bind (fun n le b b' same => ?_)
      fun _ b b' v v' alike le same => ?_
    · exact (lines.mono le).with_ahead (.cons same (BlocksAlike.mono le later))
    · have noted := noteLeft_leads s s' b b' alike
      have le := le_trans le noted.names
      exact .after noted (giveUp_alike ((lines.mono le).advance b b' (BlocksAlike.mono le later))
        noted.alike)

end Sequence

mutual

theorem Execution.cancel_alike : ∀ {e e' : Execution} {w w' : World σ},
    e.Alike (c.naming w w') e' → w.Alike c w' →
      (e.cancel services w).Alike c Execution.Alike w w' (e'.cancel services w')
  | ⟨line, threads⟩, ⟨line', threads'⟩, w, w', .mk lines inside, alike => by
    have stopped {n : Naming} (le : c.naming w w' ≤ n) :
        Sequence.Alike n { line with cancelled := true } { line' with cancelled := true } := by
      obtain ⟨cursor, blocks, named⟩ := lines.mono le
      exact .mk cursor blocks named
    rw [Execution.cancel, Execution.cancel, lines.isRunning]
    by_cases running : line.isRunning
    · rw [if_pos running, if_pos running]
      refine (cancelThreads_alike inside alike).bind (fun n le _ _ _ => .mk (stopped le) .nil)
        fun _ _ _ v v' alike le _ => ?_
      exact (Sequence.halt_alike (stopped le) alike).within fun n _ line line' lines => .mk lines .nil
    · rw [if_neg running, if_neg running]
      exact ⟨rfl, .mk lines inside, .refl alike⟩

theorem cancelThreads_alike : ∀ {threads threads' : List Thread} {w w' : World σ},
    ThreadsAlike (c.naming w w') threads threads' → w.Alike c w' →
      (cancelThreads services threads w).Alike c (fun _ _ _ => True) w w'
        (cancelThreads services threads' w')
  | _, _, _, _, .nil, alike => ⟨rfl, trivial, .refl alike⟩
  | _, _, _, _, .cons first others, alike =>
    (Execution.cancel_alike first alike).bind (fun _ _ _ _ _ => trivial)
      fun _ _ _ _ _ alike le _ => cancelThreads_alike (others.mono le) alike

end

/-- The group counts the same, and its threads are alike. -/
def GroupsAlike (n : Naming) (group group' : Join × List Thread) : Prop :=
  group'.1 = group.1 ∧ ThreadsAlike n group.2 group'.2

theorem Join.complete_alike (j : Join) {others others' : List Thread}
    (inside : ThreadsAlike (c.naming w w') others others') (alike : w.Alike c w') :
    (j.complete services others w).Alike c GroupsAlike w w' (j.complete services others' w') := by
  unfold complete
  simp only [inside.isEmpty]
  split
  · refine (cancelThreads_alike inside alike).bind (fun _ _ _ _ _ => ⟨rfl, .nil⟩)
      fun _ _ _ v v' alike _ _ => ?_
    split
    · exact ⟨rfl, ⟨rfl, .nil⟩, .refl alike⟩
    · exact ⟨rfl, ⟨rfl, .nil⟩, .refl alike⟩
  · exact ⟨rfl, ⟨rfl, inside⟩, .refl alike⟩

end Stepwise
