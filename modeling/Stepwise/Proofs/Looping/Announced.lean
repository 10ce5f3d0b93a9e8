import Stepwise.Proofs.Looping

/-!
# What a counted loop announces

When a copy of a counted loop is entered, the text that is noted has one more than the passes that
are left to it: the copy counts itself as one to come, and takes that one away when it leaves. So
the first copy of a loop with `n` passes announces `n + 1`, and each of the others one less than the
one before it, down to the last one, which announces one and makes no pass.
-/

namespace Stepwise

variable {σ : Type} {Good : σ → Prop} {services : Services σ}

theorem Trail.ends_of_mem {address : List Nat} {given ahead : List Block} {done : List Stay}
    {s : Stay} (trail : Trail address given done ahead) (mem : s ∈ done) :
    ∃ after, s.Ends address after := by
  induction trail with
  | given => cases mem
  | ended trail ends ih =>
    rcases List.mem_cons.mp mem with rfl | mem
    · exact ⟨_, ends⟩
    · exact ih mem
  | added trail new behind ih => exact ih mem

theorem Sequence.OnTrail.noted {q : Sequence} {journal : List Entry} {given ahead : List Block}
    {done : List Stay} {now? : Option Entrance} {s : Stay} {entry : Entry}
    (place : q.OnTrail journal given done now? ahead) (mem : s ∈ done) (noted : entry ∈ s.entries) :
    entry ∈ journal := by
  have noted := List.mem_append_right s.parting noted
  cases place with
  | waiting unstarted trail none_behind nothing =>
    rw [nothing] at mem
    cases mem
  | finished finished trail behind recorded => exact recorded.mem mem noted
  | current running now current fits trail behind recorded =>
    obtain ⟨since, before, rfl, recorded⟩ := recorded
    exact List.mem_append_right _ (List.mem_append_right _ (recorded.mem mem noted))

/-- The copy `c` of a counted loop had its turn, then those turns that are given, and these blocks
are ahead now. With its turn the loop had `left` passes still to run, and the text that was noted
when the copy was entered has one more. -/
structure Stay.Announces (journal : List Entry) (address : List Nat) (body : List Template)
    (c : Stay) (since : List Stay) (ahead : List Block) (left : Nat) : Prop where
  to_run : CountedTo address left body (since ++ [c]) ahead
  shown : ∃ index, c.entries.head? =
      some (.entered address index s!"{(left : Int) + 1} more times...") ∧
    .entered address index s!"{(left : Int) + 1} more times..." ∈ journal

theorem Sequence.OnTrail.announces {q : Sequence} {journal : List Entry} {given ahead : List Block}
    {since earlier : List Stay} {now? : Option Entrance} {c : Stay} {left : Nat} {entered : Bool}
    {body : List Template}
    (place : q.OnTrail journal given (since ++ c :: earlier) now? ahead)
    (came : c.block.activity = .counted left entered body)
    (below : (left : Int) < Int64.maxValue.toInt) :
    c.Announces journal q.address body since ahead left := by
  have mem : c ∈ since ++ c :: earlier := List.mem_append_right since List.mem_cons_self
  have above : Int64.minValue.toInt < (left : Int) := by
    have low : Int64.minValue.toInt = -9223372036854775808 := by decide
    omega
  obtain ⟨after, ends⟩ := place.trail.ends_of_mem mem
  obtain ⟨back, -, further⟩ := place.trail.taken_up
  have loop : c.block.body? = some body := by simp only [Block.body?, came]
  have first : c.block.activity = .counted ((left : Int) - (0 : Nat)) entered body := by
    rw [came, Int.natCast_zero, Int.sub_zero]
  obtain ⟨index, adds, -, entries⟩ := (ends.counts first (Nat.zero_le _) above below).entries
  rw [Int.natCast_zero, Int.sub_zero] at entries
  refine ⟨(further.looping loop).counted rfl came above below, index, ?_, place.noted mem ?_⟩
  · rw [entries]
    rfl
  · rw [entries]
    exact List.mem_cons_self

/-- The execution is where its trail leads, and each copy of a counted loop that was entered on the
way announced one pass more than the loop had still to run. With `n` passes in the loop, and some of
them made before the turn of the copy, these are the others. -/
def Execution.AnnouncesOneMore (journal : List Entry) (e : Execution) : Prop :=
  ∃ given done now? ahead, e.OnTrail journal given done now? ahead ∧
    ∀ later s earlier n entered body, done = later ++ s :: earlier →
      s.block.activity = .counted n entered body → 0 ≤ n → n < Int64.maxValue.toInt →
      ∀ since c laps, later ++ [s] = since ++ c :: lapsStays laps →
        Laps e.address s.block body laps c.block →
        ∃ left : Nat, (left : Int) = n - laps.length ∧ (left : Int) + 1 ≤ n + 1 ∧
          c.Announces journal e.address body since ahead left

theorem Execution.Trailed.announcesOneMore {e : Execution} {journal : List Entry}
    (trailed : e.Trailed journal) : e.AnnouncesOneMore journal := by
  obtain ⟨place, -⟩ := trailed
  refine ⟨_, _, _, _, place, ?_⟩
  rintro later s earlier n entered body rfl came nonneg below since c laps turns made
  have above : Int64.minValue.toInt < n := by
    have low : Int64.minValue.toInt = -9223372036854775808 := by decide
    omega
  have split : later ++ s :: earlier = since ++ c :: (lapsStays laps ++ earlier) := by
    rw [← List.singleton_append, ← List.append_assoc, turns, List.append_assoc, List.cons_append]
  rw [split] at place
  obtain ⟨-, few, entered', copy⟩ := made.counted came above below
  obtain ⟨left, same⟩ : ∃ left : Nat, (left : Int) = n - laps.length :=
    ⟨n.toNat - laps.length, by omega⟩
  rw [← same] at copy
  exact ⟨left, same, by omega, place.announces copy (by omega)⟩

namespace Run

variable {r : Run σ}

/-- Whatever happens in a run in which nothing fails, its counted loops announce one pass more than
they have to run: in all executions between two calls, in those that an operation within a call
leaves, among them the threads that finish in it, and in the threads that it cancels. -/
theorem passes_announced (reliable : services.Reliable Good) {blocks : List HostBlock}
    (fresh : r.Fresh blocks) (succeed : ∀ b ∈ blocks, b.Succeeds) (good : Good r.world.host)
    (calls : List Call) (all : ∀ call ∈ calls, call.Succeeds) :
    let now := r.after services calls
    (∀ path x, now.root.thread? path = some x → x.AnnouncesOneMore now.world.journal) ∧
      ∀ call a w, now.Performs services call a w →
        a.Yields services (fun e v => e.AnnouncesOneMore v.journal) w ∧
        ∀ t v, a.Cancels services w t v → t.execution.AnnouncesOneMore v.journal := by
  have trailing := fresh.trailing_after reliable succeed good calls all
  exact trailing.throughout fun _ _ => Execution.Trailed.announcesOneMore

/-- A loop with two passes. -/
def swimming : Run InMemory :=
  .ofWorkflow ⟨"swim", none, none, [.counted 2 [.task "lap"], .task "rest"]⟩ .empty

/-- What is shown when blocks are entered, the latest first. -/
def enteredTexts (r : Run σ) : List String :=
  r.world.journal.filterMap fun
    | .entered _ _ text => some text
    | _ => none

/-- The three copies of the loop announce three, two and one. -/
theorem passes_announced_swimming :
    let calls := [.start, .dispatch [] .done, .dispatch [] .done]
    let now := swimming.after InMemory.services calls
    now.enteredTexts = ["rest", "1 more times...", "lap", "2 more times...", "lap",
      "3 more times..."] ∧
    (∀ path x, now.root.thread? path = some x → x.AnnouncesOneMore now.world.journal) ∧
      ∀ call a w, now.Performs InMemory.services call a w →
        a.Yields InMemory.services (fun e v => e.AnnouncesOneMore v.journal) w ∧
        ∀ t v, a.Cancels InMemory.services w t v → t.execution.AnnouncesOneMore v.journal := by
  refine ⟨by decide +kernel, ?_⟩
  refine passes_announced InMemory.reliable (fresh_ofWorkflow _ _) ?_ InMemory.willing_empty
    [.start, .dispatch [] .done, .dispatch [] .done] ?_
  · intro c mem
    obtain ⟨t, -, rfl⟩ := List.mem_map.mp mem
    exact HostBlock.succeeds_plain t
  · simp only [List.forall_mem_cons]
    exact ⟨trivial, trivial, trivial, List.forall_mem_nil _⟩

/-- When the loop is entered it announces three passes, before it has made any of its two. -/
theorem swimming_announces_three :
    let begun := swimming.after InMemory.services [.start]
    let rested := begun.after InMemory.services [.dispatch [] .done, .dispatch [] .done]
    begun.enteredTexts = ["lap", "3 more times..."] ∧ rested.enteredTexts.count "lap" = 2 ∧
      rested.root.current?.map Block.shownText = some "rest" := by
  decide +kernel

end Run

end Stepwise
