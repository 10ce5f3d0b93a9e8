import Stepwise.Proofs.Entering
import Stepwise.Proofs.Twins.Leaving

/-!
# Entering alike

Sequences that are alike enter the same blocks: the reminders that these start are paired, and so
are the tokens of silent waits. The induction follows the blocks of one of the two runs.
-/

namespace Stepwise

variable {σ : Type} {services : Services σ} {c : Pairing services} {w w' : World σ}

theorem Sleep.start_alike {s s' : Sleep} (waits : s.Alike (c.naming w w') s')
    (address : List Nat) (alike : w.Alike c w') :
    (s.start services address w).Alike c Sleep.Alike w w' (s'.start services address w') := by
  obtain @⟨token, named⟩ := waits
  unfold start
  by_cases silent : s.silent
  · obtain ⟨t, u, v, v', requested, requested', leads, paired⟩ := alike.requestPause
    obtain ⟨x, started, same⟩ :=
      c.startCountdown_same s.value s.unit address leads.alike.good
    obtain ⟨x', started', same'⟩ :=
      c.startCountdown_same s.value s.unit address leads.alike.good'
    have later := leads.alike.same same same'
    simp only [silent, if_true, requested, requested', started, started']
    exact ⟨rfl, .mk (.some (later.names.2 _ _ paired)), leads.trans later⟩
  · obtain ⟨x, started, same⟩ := c.startCountdown_same s.value s.unit address alike.good
    obtain ⟨x', started', same'⟩ := c.startCountdown_same s.value s.unit address alike.good'
    have later := alike.same same same'
    simp only [silent, started, started']
    exact ⟨rfl, .mk (optionRel_mono later.names.2 named), later⟩

/-- Blocks that are alike put the same after themselves, and the next passes are alike. -/
theorem Block.Alike.pass {n : Naming} {b b' : Block} (alike : b.Alike n b') :
    BlocksAlike n b.pass b'.pass := by
  obtain ⟨id, image, reminder, handle, hooks, text, activity⟩ := b
  obtain ⟨named, hooked, active⟩ := alike
  cases active with
  | sleep _ => exact .nil
  | same _ =>
    cases activity with
    | counted remaining entered body =>
      simp only [Block.pass]
      split
      · have tokenless : ∀ s, Activity.counted (remaining - 1) true body ≠ .sleep s := by
          rintro s ⟨⟩
        have next := Block.Alike.mk (b := ⟨id, image, reminder, handle, [], text,
            .counted (remaining - 1) true body⟩) named .nil (.same tokenless)
        exact (blocksAlike_ofTemplates body).append (.cons next .nil)
      · exact .nil
    | _ => exact .nil

/-- Whatever is alike to the sequence is entered alike. -/
def Execution.EntersAlike (c : Pairing services) (e : Execution) : Prop :=
  ∀ (e' : Execution) (w w' : World σ), e.Alike (c.naming w w') e' → w.Alike c w' →
    (e.enter services w).Alike c Execution.Alike w w' (e'.enter services w')

/-- A block that has arrived, with its threads. -/
def ArrivedAlike (n : Naming) (arrived arrived' : Block × List Thread) : Prop :=
  arrived.1.Alike n arrived'.1 ∧ ThreadsAlike n arrived.2 arrived'.2

theorem startThreads_alike {branches : List (List Template)}
    (starts : ∀ templates ∈ branches, ∀ address,
      (startedThread address templates).EntersAlike c)
    (address : List Nat) (first : Nat) {started started' : List Thread} (join : Join)
    (inside : ThreadsAlike (c.naming w w') started started') (alike : w.Alike c w') :
    (startThreads services (threadsFrom address first branches) started join w).Alike c
      GroupsAlike w w'
      (startThreads services (threadsFrom address first branches) started' join w') := by
  induction branches generalizing first started started' join w w' with
  | nil =>
    rw [threadsFrom, startThreads, startThreads]
    exact ⟨rfl, ⟨rfl, inside⟩, .refl alike⟩
  | cons templates rest ih =>
    have starts_rest := fun branch mem => starts branch (List.mem_cons_of_mem templates mem)
    have pending {n : Naming} : ThreadsAlike n (threadsFrom address (first + 1) rest)
        (threadsFrom address (first + 1) rest) := threadsAlike_threadsFrom _ _ _
    have fresh : (startedThread (address ++ [first]) templates).Alike (c.naming w w')
        (startedThread (address ++ [first]) templates) :=
      .mk (.mk rfl (blocksAlike_ofTemplates templates) .none) .nil
    rw [startThreads_next, startThreads_next]
    refine (starts templates List.mem_cons_self _ _ _ _ fresh alike).bind (fun n le e e' same => ?_)
      fun _ e e' v v' alike le same => ?_
    · exact ⟨rfl, (inside.mono le).append (.cons same pending)⟩
    · rw [((Execution.alike_iff e e').mp same).1.finished]
      split
      · have others := (inside.mono le).append pending
        refine (join.complete_alike others alike).bind (fun _ _ _ _ groups => groups) ?_
        rintro ended ⟨counted, left⟩ ⟨counted', left'⟩ u u' alike' le' ⟨same, groups⟩
        obtain rfl : counted' = counted := same
        cases ended with
        | true => exact ⟨rfl, ⟨rfl, groups⟩, .refl alike'⟩
        | false => exact ih starts_rest _ _ ((inside.mono le).mono le') alike'
      · exact ih starts_rest _ _ ((inside.mono le).append (.cons same .nil)) alike

/-- Blocks that are alike do the same on arrival. -/
theorem Block.arrive_alike {b b' : Block} (blocks : b.Alike (c.naming w w') b')
    (starts : ∀ join, b.activity = .parallel join → ∀ templates ∈ join.branches, ∀ address,
      (startedThread address templates).EntersAlike c)
    {address address' : List Nat} (place : address = address') (alike : w.Alike c w') :
    (Block.arrive services address b w).Alike c ArrivedAlike w w'
      (Block.arrive services address' b' w') := by
  subst place
  obtain ⟨id, image, reminder, handle, hooks, text, activity⟩ := b
  obtain ⟨named, hooked, active⟩ := blocks
  cases active with
  | @sleep s s' waits =>
    have same : s'.value = s.value ∧ s'.unit = s.unit := by
      obtain ⟨-⟩ := waits
      exact ⟨rfl, rfl⟩
    by_cases positive : 0 < s.value
    · have positive' : 0 < s'.value := by rwa [same.1]
      rw [arrive_asleep services address w rfl positive,
        arrive_asleep services address w' rfl positive']
      refine Outcome.Alike.within (Outcome.Alike.bind (P := Sleep.Alike) (Q := Sleep.Alike)
        (Sleep.start_alike waits address alike) ?_ ?_) ?_
      · exact fun _ _ _ _ waits => waits
      · exact fun _ _ _ _ _ alike _ waits => ⟨rfl, waits, .refl alike⟩
      · intro n le s s' waits
        exact ⟨.mk (optionRel_mono le.1 named) (hooked.imp fun _ _ hook => hook.mono le)
          (.sleep waits), .nil⟩
    · have spent' : ¬ 0 < s'.value := by rwa [same.1]
      rw [arrive_elapsed services address w rfl positive,
        arrive_elapsed services address w' rfl spent']
      obtain ⟨waits⟩ := waits
      exact ⟨rfl, ⟨.mk named hooked (.sleep (.mk waits)), .nil⟩, .refl alike⟩
  | same tokenless =>
    cases activity with
    | sleep s => exact absurd rfl (tokenless s)
    | counted remaining entered body =>
      rw [arrive_counted services address w rfl, arrive_counted services address w' rfl]
      split
      · have built := alike.same (Pairing.same_noteBuilt alike.good body)
          (Pairing.same_noteBuilt alike.good' body)
        exact ⟨rfl, ⟨.mk .none (hooked.imp fun _ _ hook => hook.mono built.names) (.same nofun),
          .nil⟩, built⟩
      · exact ⟨rfl, ⟨.mk named hooked (.same nofun), .nil⟩, .refl alike⟩
    | parallel join =>
      by_cases branchless : join.branches = []
      · rw [arrive_branchless services address w rfl branchless,
          arrive_branchless services address w' rfl branchless]
        exact ⟨rfl, ⟨.mk named hooked (.same nofun), .nil⟩, .refl alike⟩
      · rw [arrive_group services address w rfl branchless,
          arrive_group services address w' rfl branchless]
        have opened := alike.same (Pairing.same_noteOpened alike.good join.branches)
          (Pairing.same_noteOpened alike.good' join.branches)
        refine (Outcome.Alike.after opened (startThreads_alike (starts join rfl) address 0 join.opened
          .nil opened.alike)).within ?_
        rintro n le ⟨counted, threads⟩ ⟨counted', threads'⟩ ⟨same, inside⟩
        obtain rfl : counted' = counted := same
        exact ⟨.mk (optionRel_mono le.1 named) (hooked.imp fun _ _ hook => hook.mono le)
          (.same nofun), inside⟩
    | _ =>
      rw [arrive_still services address w, arrive_still services address w']
      · exact ⟨rfl, ⟨.mk named hooked (.same nofun), .nil⟩, .refl alike⟩
      all_goals first | exact trivial | rfl

theorem Sequence.finish_alike {s s' : Sequence} (lines : s.Alike (c.naming w w') s')
    (alike : w.Alike c w') :
    (s.finish services w).Alike c Sequence.Alike w w' (s'.finish services w') := by
  have ended : Sequence.Alike (c.naming w w') { s with finished := true }
      { s' with finished := true } := by
    obtain ⟨cursor, blocks, named⟩ := lines
    exact .mk cursor blocks named
  unfold finish
  rw [lines.finished]
  split
  · exact ⟨rfl, lines, .refl alike⟩
  · refine (Sequence.unregister_alike ended alike).bind (fun _ _ _ _ lines => lines)
      fun _ s s' v v' alike _ lines => ?_
    have noted : c.Leads v v' (v.note (.finished s.address)) (v'.note (.finished s'.address)) :=
      alike.note rfl rfl
    exact ⟨rfl, lines.mono noted.names, noted⟩

theorem Execution.enter_alike (e : Execution) : e.EntersAlike c := by
  induction e using enter_induction with
  | nil e now =>
    intro e' w w' same alike
    obtain ⟨lines, inside⟩ := (alike_iff e e').mp same
    have now' : e'.ahead = [] := List.forall₂_nil_left_iff.mp (now ▸ lines.ahead)
    rw [enter_end services w now, enter_end services w' now']
    exact (Sequence.finish_alike lines alike).within fun _ _ _ _ lines => .mk lines .nil
  | cons e b rest now goes_on starts =>
    intro e' w w' same alike
    obtain ⟨lines, inside⟩ := (alike_iff e e').mp same
    obtain ⟨b', rest', first, later, now'⟩ := List.forall₂_cons_left_iff.mp (now ▸ lines.ahead)
    obtain ⟨handle, handle', v, v', registered, registered', leads, named⟩ :=
      Block.register_alike first alike
    have lines_v := lines.mono leads.names
    have later_v := BlocksAlike.mono leads.names later
    have held : Block.Alike (c.naming v v') { b with handle } { b' with handle := handle' } := by
      obtain ⟨-, hooked, active⟩ := first.mono leads.names
      exact .mk named hooked active
    rw [enter_block services now registered, enter_block services now' registered']
    refine .after leads ((Block.arrive_alike held starts lines.address.symm leads.alike).bind ?_ ?_)
    · rintro n le ⟨arrived, threads⟩ ⟨arrived', threads'⟩ ⟨blocks, inside⟩
      exact .mk ((lines_v.mono le).with_ahead (.cons blocks (BlocksAlike.mono le later_v))) inside
    · rintro leaves ⟨arrived, threads⟩ ⟨arrived', threads'⟩ u u' alike_u le ⟨blocks, inside⟩
      have noted := Sequence.noteEntered_leads e.toSequence e'.toSequence arrived arrived' alike_u
      have le_noted := le_trans le noted.names
      have blocks := blocks.mono noted.names
      have later_u := BlocksAlike.mono le_noted later_v
      refine .after noted ?_
      cases leaves with
      | false =>
        refine ⟨rfl, ?_, .refl noted.alike⟩
        exact .mk ((lines_v.mono le_noted).with_ahead (.cons blocks later_u))
          (inside.mono noted.names)
      | true =>
        simp only [if_true]
        have passed := (held.mono le_noted).pass.append later_u
        refine (Block.leave_alike blocks noted.alike).bind (fun n le_n left left' same => ?_)
          fun _ left left' x x' alike_x le_x same => ?_
        · exact .mk ((lines_v.mono (le_trans le_noted le_n)).with_ahead
            (.cons same (BlocksAlike.mono le_n passed))) .nil
        · have gone := Sequence.noteLeft_leads e.toSequence e'.toSequence left left' alike_x
          have le_gone := le_trans le_x gone.names
          refine .after gone (goes_on left handle _ _ _ (.mk ?_ .nil) gone.alike)
          exact (lines_v.mono (le_trans le_noted le_gone)).advance left left'
            (BlocksAlike.mono le_gone passed)

end Stepwise
