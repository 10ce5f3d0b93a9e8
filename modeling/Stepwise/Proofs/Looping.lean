import Stepwise.Proofs.Trails.Runs

/-!
# The passes of a loop

A loop makes a pass by putting its body and then a copy of itself after itself, and leaving. The
turn of the copy comes when all that stems from the body has left. So the trail from the turn of a
loop on is made of passes, each the turn of a copy and a trail through the body, up to a copy that
puts nothing after itself. A counted loop has the passes that are left in its copies: each has one
less than the one before it, and takes away another one when it leaves. The text shows the number of
the pass that is about to be made, counted from the end.
-/

namespace Stepwise

variable {σ : Type} {Good : σ → Prop} {services : Services σ}

namespace Block

/-- What a loop repeats. -/
def body? (b : Block) : Option (List Template) :=
  match b.activity with
  | .counted _ _ body => some body
  | .asked _ body => some body
  | _ => none

variable {b : Block} {body : List Template}

theorem body?_again (loop : b.body? = some body) : b.again.body? = some body := by
  unfold body? at loop
  unfold again body?
  split at loop
  · next activity => simpa only [activity, successor] using loop
  · next activity => simpa only [activity, successor] using loop
  · cases loop

/-- What a loop puts after itself if it puts anything there. -/
theorem Unfolds.loop {after : List Block} (unfolds : b.Unfolds after) (loop : b.body? = some body) :
    after = body.map ofTemplate ++ [b.again] := by
  cases unfolds with
  | chosen activity one => simp [body?, activity] at loop
  | again activity =>
    obtain rfl : _ = body := by simpa only [body?, activity, Option.some.injEq] using loop
    simp only [Block.again, activity]
  | pass activity more =>
    obtain rfl : _ = body := by simpa only [body?, activity, Option.some.injEq] using loop
    rw [again_counted activity]

end Block

theorem Stay.Ends.loop {address : List Nat} {s : Stay} {after : List Block} {body : List Template}
    (ends : s.Ends address after) (loop : s.block.body? = some body) :
    after = [] ∨ after = body.map Block.ofTemplate ++ [s.current.again] :=
  ends.puts.imp_right fun unfolds => unfolds.loop loop

/-- A pass of a loop: its own turn, and those of what it put before its next pass, the latest first.
-/
structure Lap where
  copy : Stay
  work : List Stay

/-- The turns of passes, the latest first. -/
def lapsStays (laps : List Lap) : List Stay :=
  laps.flatMap fun lap => lap.work ++ [lap.copy]

/-- The passes that were made since the turn of this block, the latest first, and the copy of it
whose turn is next. -/
inductive Laps (address : List Nat) (first : Block) (body : List Template) :
    List Lap → Block → Prop
  | none : Laps address first body [] first
  | next {laps : List Lap} {copy : Stay} {work : List Stay}
      (earlier : Laps address first body laps copy.block)
      (ends : copy.Ends address (body.map Block.ofTemplate ++ [copy.current.again]))
      (worked : Trail address (body.map Block.ofTemplate) work []) :
      Laps address first body (⟨copy, work⟩ :: laps) copy.current.again

/-- How far a loop has come since its turn, by the turns that are over and what is ahead: it waits
for another turn, it is in a pass, or it is over. -/
inductive Looping (address : List Nat) (first : Block) (body : List Template) :
    List Stay → List Block → Prop
  | waits {laps : List Lap} {next : Block} {back : List Block}
      (made : Laps address first body laps next) :
      Looping address first body (lapsStays laps) (next :: back)
  | works {laps : List Lap} {copy : Stay} {work : List Stay} {front back : List Block}
      (earlier : Laps address first body laps copy.block)
      (ends : copy.Ends address (body.map Block.ofTemplate ++ [copy.current.again]))
      (working : Trail address (body.map Block.ofTemplate) work front) (more : front ≠ []) :
      Looping address first body (work ++ copy :: lapsStays laps)
        (front ++ copy.current.again :: back)
  | exited {laps : List Lap} {copy : Stay} {later : List Stay} {ahead : List Block}
      (earlier : Laps address first body laps copy.block) (ends : copy.Ends address []) :
      Looping address first body (later ++ copy :: lapsStays laps) ahead

section

variable {address : List Nat} {first : Block} {body : List Template}

theorem Laps.body? {laps : List Lap} {next : Block} (made : Laps address first body laps next)
    (loop : first.body? = some body) : next.body? = some body := by
  induction made with
  | none => exact loop
  | next earlier ends worked ih => exact Block.body?_again (b := Entrance.current _) ih

/-- In a pass all of whose work may be done. -/
theorem Looping.of_pass {laps : List Lap} {copy : Stay} {work : List Stay} {front back : List Block}
    (earlier : Laps address first body laps copy.block)
    (ends : copy.Ends address (body.map Block.ofTemplate ++ [copy.current.again]))
    (working : Trail address (body.map Block.ofTemplate) work front) :
    Looping address first body (work ++ copy :: lapsStays laps)
      (front ++ copy.current.again :: back) := by
  by_cases none : front = []
  · subst none
    have made := Laps.next earlier ends working
    have stays : work ++ copy :: lapsStays laps = lapsStays (⟨copy, work⟩ :: laps) := by
      simp [lapsStays]
    rw [stays]
    exact .waits made
  · exact .works earlier ends working none

/-- What a turn makes of a loop. -/
theorem Looping.ended {done : List Stay} {s : Stay} {rest after : List Block}
    (looping : Looping address first body done (s.block :: rest)) (ends : s.Ends address after)
    (loop : first.body? = some body) :
    Looping address first body (s :: done) (after ++ rest) := by
  generalize now : s.block :: rest = ahead at looping
  cases looping with
  | @waits laps next back made =>
    obtain ⟨rfl, rfl⟩ := List.cons.inj now
    rcases ends.loop (made.body? loop) with rfl | rfl
    · have exits : Looping address first body ([] ++ s :: lapsStays laps) rest := .exited made ends
      exact exits
    · have pass : Looping address first body ([] ++ s :: lapsStays laps)
          (body.map Block.ofTemplate ++ s.current.again :: rest) := .of_pass made ends .given
      rwa [List.append_assoc]
  | @works laps copy work front back earlier copy_ends working more =>
    cases front with
    | nil => exact absurd rfl more
    | cons b front =>
      obtain ⟨rfl, rfl⟩ := List.cons.inj now
      have further : Looping address first body ((s :: work) ++ copy :: lapsStays laps)
          ((after ++ front) ++ copy.current.again :: back) :=
        .of_pass earlier copy_ends (.ended working ends)
      rwa [List.append_assoc] at further
  | @exited laps copy later ahead earlier copy_ends =>
    have further : Looping address first body ((s :: later) ++ copy :: lapsStays laps)
        (after ++ rest) := .exited earlier copy_ends
    exact further

/-- Blocks that a host adds come behind the first one ahead. -/
theorem Looping.added {done : List Stay} {front back : List Block}
    (looping : Looping address first body done (front ++ back)) (new : List Block)
    (behind : front = [] → back = []) :
    Looping address first body done (front ++ (new ++ back)) := by
  generalize now : front ++ back = ahead at looping
  cases looping with
  | waits made =>
    cases front with
    | nil => simp [behind rfl] at now
    | cons b front =>
      obtain ⟨rfl, -⟩ := List.cons.inj now
      exact .waits made
  | @works laps copy work pending later earlier ends working more =>
    have some_front : front ≠ [] := by
      intro none
      simp [none, behind none] at now
    rcases List.append_eq_append_iff.mp now with ⟨between, rfl, rfl⟩ | ⟨between, rfl, rest⟩
    · -- They are put into the work, or at its end.
      have further : Looping address first body (work ++ copy :: lapsStays laps)
          ((front ++ (new ++ between)) ++ copy.current.again :: later) :=
        .of_pass earlier ends (working.added new fun none => absurd none some_front)
      simpa only [List.append_assoc] using further
    · cases between with
      | nil =>
        rw [List.nil_append] at rest
        rw [← List.append_nil pending] at working
        have further : Looping address first body (work ++ copy :: lapsStays laps)
            ((pending ++ (new ++ [])) ++ copy.current.again :: later) :=
          .of_pass earlier ends (working.added new fun none => absurd none more)
        simpa only [List.append_assoc, List.append_nil, List.nil_append, rest] using further
      | cons c between =>
        obtain ⟨rfl, rfl⟩ := List.cons.inj rest
        have further : Looping address first body (work ++ copy :: lapsStays laps)
            (pending ++ copy.current.again :: (between ++ (new ++ back))) :=
          .of_pass earlier ends working
        simpa only [List.append_assoc, List.cons_append] using further
  | exited earlier ends => exact .exited earlier ends

/-- From the turn of a loop on the trail is made of its passes. -/
theorem Trail.looping {back ahead : List Block} {done : List Stay}
    (trail : Trail address (first :: back) done ahead) (loop : first.body? = some body) :
    Looping address first body done ahead := by
  induction trail with
  | given => exact .waits .none
  | ended trail ends ih => exact ih.ended ends loop
  | added trail new behind ih => exact ih.added new behind

end

/-- The number is one of 64 bits. -/
def FitsInt64 (v : Int) : Prop := Int64.minValue.toInt ≤ v ∧ v ≤ Int64.maxValue.toInt

/-- The copy of a counted loop with `n` passes to make whose turn comes after `k` of them. It came
with `n - k` passes left and one less when it left. What was noted when it was entered is its
reminder, if that was started, the blocks that its body was made into, if a pass is left, and that
it was entered; when it left nothing but requests and that it did. -/
structure Stay.Counts (address : List Nat) (n : Int) (body : List Template) (k : Nat) (s : Stay) :
    Prop where
  came : ∃ entered, s.block.activity = .counted (n - k) entered body
  left : s.left.activity = .counted (n - k - 1) true body
  entries : ∃ index adds, s.block.Registers s.held adds ∧
    s.entries = .entered address index s!"{n - k + 1} more times..." ::
      (((if k < n then body else []).map Entry.built).reverse ++ adds)
  parting : ∃ index asks, s.parting = .left address index s!"{n - k} more times..." :: asks ∧
    ∀ entry ∈ asks, entry.IsParting fun _ => False
  fits : FitsInt64 (n - k) ∧ FitsInt64 (n - k - 1) ∧ FitsInt64 (n - k + 1)

/-- Passes of a counted loop with `n` to make, the latest first. -/
def Counted (address : List Nat) (n : Int) (body : List Template) : List Lap → Prop
  | [] => True
  | lap :: earlier => earlier.length < n ∧ lap.copy.Counts address n body earlier.length ∧
      Trail address (body.map Block.ofTemplate) lap.work [] ∧ Counted address n body earlier

/-- How far a counted loop with `n` passes to make has come, by the turns that are over and what is
ahead. In a pass the next copy is ahead, and it has the passes left that come after this one. It is
over when all passes were made, none if there were less than one, and another copy has left. -/
inductive CountedTo (address : List Nat) (n : Int) (body : List Template) :
    List Stay → List Block → Prop
  | pass {earlier : List Lap} {copy : Stay} {work : List Stay} {front back : List Block}
      {next : Block} {k : Nat} (number : k = earlier.length + 1)
      (made : Counted address n body earlier) (more : k ≤ n)
      (counts : copy.Counts address n body earlier.length)
      (working : Trail address (body.map Block.ofTemplate) work front)
      (left : next.activity = .counted (n - k) true body)
      (shown : next.shownText = s!"{n - k + 1} more times...")
      (fits : FitsInt64 (n - k) ∧ FitsInt64 (n - k + 1)) :
      CountedTo address n body (work ++ copy :: lapsStays earlier) (front ++ next :: back)
  | exited {laps : List Lap} {exit : Stay} {later : List Stay} {ahead : List Block}
      (made : Counted address n body laps) (all : laps.length = n.toNat)
      (counts : exit.Counts address n body n.toNat)
      (left : exit.left.activity = .counted (if 0 < n then -1 else n - 1) true body) :
      CountedTo address n body (later ++ exit :: lapsStays laps) ahead

section

variable {address : List Nat} {n : Int} {body : List Template} {k : Nat} {s : Stay}
  {after : List Block} {entered : Bool}

theorem Stay.Ends.counts (ends : s.Ends address after)
    (came : s.block.activity = .counted (n - k) entered body) (few : k ≤ n.toNat)
    (above : Int64.minValue.toInt < n) (below : n < Int64.maxValue.toInt) :
    s.Counts address n body k := by
  have current : s.current.activity = .counted (n - k) entered body := came
  have steady : s.block.isSteady = true := by simp only [Block.isSteady, came]
  have left := ends.steady steady
  rw [Block.entered_counted current] at left
  obtain ⟨index, inner, adds, entries, registers, built⟩ := ends.fits
  obtain ⟨index', asks, parting, parts, -⟩ := ends.parting
  have low : Int64.minValue.toInt = -9223372036854775808 := by decide
  have high : Int64.maxValue.toInt = 9223372036854775807 := by decide
  have left_activity : s.left.activity = .counted (n - k - 1) true body := by
    rw [left]
    rfl
  refine ⟨⟨entered, came⟩, left_activity, ⟨index, adds, registers, ?_⟩, ⟨index', asks, ?_, parts⟩, ?_⟩
  · have more : (0 < n - k) ↔ (k : Int) < n := by omega
    have made : s.current.made = if (k : Int) < n then body else [] := by
      simp only [Block.made, current, more]
    rw [entries, built steady, made, Block.entered_counted current]
    rfl
  · rw [parting]
    simp only [Block.shownText, left_activity, if_true, Int.sub_add_cancel]
  · unfold FitsInt64
    omega

/-- A counted loop makes a pass exactly if one is left. -/
theorem Stay.Ends.pass_iff {remaining : Int} (ends : s.Ends address after)
    (came : s.block.activity = .counted remaining entered body) : after ≠ [] ↔ 0 < remaining := by
  have current : s.current.activity = .counted remaining entered body := came
  constructor
  · intro some_after
    rcases ends.puts with none | unfolds
    · exact absurd none some_after
    · cases unfolds with
      | chosen activity one => cases current.symm.trans activity
      | again activity => cases current.symm.trans activity
      | pass activity more =>
        cases current.symm.trans activity
        exact more
  · intro more none
    have pass := ends.pass none
    rw [Block.pass_of_more current more] at pass
    simp at pass

theorem Stay.again_activity {remaining : Int}
    (came : s.block.activity = .counted remaining entered body) :
    s.current.again.activity = .counted (remaining - 1) true body := by
  have current : s.current.activity = .counted remaining entered body := came
  rw [Block.again_counted current]
  rfl

variable {first : Block} {laps : List Lap} {next : Block}

/-- The passes of a counted loop count down. -/
theorem Laps.counted (made : Laps address first body laps next)
    (came : first.activity = .counted n entered body)
    (above : Int64.minValue.toInt < n) (below : n < Int64.maxValue.toInt) :
    Counted address n body laps ∧ laps.length ≤ n.toNat ∧
      ∃ entered, next.activity = .counted (n - laps.length) entered body := by
  induction made with
  | none => exact ⟨trivial, Nat.zero_le _, entered, by simpa using came⟩
  | @next laps copy work earlier ends worked ih =>
    obtain ⟨counted, few, entered, activity⟩ := ih
    have more : 0 < n - laps.length := (ends.pass_iff activity).mp (by simp)
    have counts := ends.counts activity few above below
    refine ⟨⟨by omega, counts, worked, counted⟩, ?_, true, ?_⟩
    · rw [List.length_cons]
      omega
    · rw [Stay.again_activity activity, List.length_cons]
      push_cast
      congr 1
      omega

/-- In a pass of a counted loop the next copy has the passes left that come after it. -/
theorem CountedTo.of_pass {copy : Stay} {work : List Stay} {front back : List Block}
    (earlier : Laps address first body laps copy.block)
    (ends : copy.Ends address (body.map Block.ofTemplate ++ [copy.current.again]))
    (working : Trail address (body.map Block.ofTemplate) work front)
    (came : first.activity = .counted n entered body)
    (above : Int64.minValue.toInt < n) (below : n < Int64.maxValue.toInt) :
    CountedTo address n body (work ++ copy :: lapsStays laps)
      (front ++ copy.current.again :: back) := by
  obtain ⟨counted, few, entered, activity⟩ := earlier.counted came above below
  have more : 0 < n - laps.length := (ends.pass_iff activity).mp (by simp)
  have counts := ends.counts activity few above below
  have left : copy.current.again.activity =
      .counted (n - (laps.length + 1 : Nat)) true body := by
    rw [Stay.again_activity activity]
    push_cast
    congr 1
    omega
  refine .pass rfl counted (by omega) counts working left ?_ ?_
  · simp only [Block.shownText, left, if_true]
  · have low : Int64.minValue.toInt = -9223372036854775808 := by decide
    have high : Int64.maxValue.toInt = 9223372036854775807 := by decide
    unfold FitsInt64
    omega

theorem Looping.counted {later done : List Stay} {ahead : List Block}
    (looping : Looping address first body done ahead) (turn : done = later ++ [s])
    (came : first.activity = .counted n entered body)
    (above : Int64.minValue.toInt < n) (below : n < Int64.maxValue.toInt) :
    CountedTo address n body done ahead := by
  cases looping with
  | @waits laps next back made =>
    cases made with
    | none => simp [lapsStays] at turn
    | @next laps copy work earlier ends worked =>
      have pass : CountedTo address n body (work ++ copy :: lapsStays laps)
          ([] ++ copy.current.again :: back) := .of_pass earlier ends worked came above below
      simpa [lapsStays] using pass
  | works earlier ends working more => exact .of_pass earlier ends working came above below
  | @exited laps exit later ahead earlier ends =>
    obtain ⟨counted, few, entered, activity⟩ := earlier.counted came above below
    have none : ¬ 0 < n - laps.length := (ends.pass_iff activity).not.mp (by simp)
    have all : laps.length = n.toNat := by omega
    have counts := ends.counts activity few above below
    rw [all] at counts
    refine .exited counted all counts ?_
    rw [counts.left]
    split
    · congr 1
      omega
    · congr 1
      omega

end

/-- The execution is where its trail leads, and so is each counted loop in it: with what followed
the turn of a block that came with `n` passes, it has come as far as a loop with `n` passes does. -/
def Execution.CountsPasses (journal : List Entry) (e : Execution) : Prop :=
  ∃ given done now? ahead, e.OnTrail journal given done now? ahead ∧
    ∀ later s earlier n entered body, done = later ++ s :: earlier →
      s.block.activity = .counted n entered body →
      Int64.minValue.toInt < n → n < Int64.maxValue.toInt →
      CountedTo e.address n body (later ++ [s]) ahead

theorem Execution.Trailed.countsPasses {e : Execution} {journal : List Entry}
    (trailed : e.Trailed journal) : e.CountsPasses journal := by
  obtain ⟨place, -⟩ := trailed
  refine ⟨_, _, _, _, place, ?_⟩
  rintro later s earlier n entered body rfl came above below
  obtain ⟨back, -, since⟩ := place.trail.taken_up
  have loop : s.block.body? = some body := by simp only [Block.body?, came]
  exact (since.looping loop).counted rfl came above below

namespace Run

variable {r : Run σ}

/-- Whatever happens in a run in which nothing fails, its counted loops keep count: in all
executions between two calls, in those that an operation within a call leaves, among them the
threads that finish in it, and in the threads that it cancels. -/
theorem passes_counted (reliable : services.Reliable Good) {blocks : List HostBlock}
    (fresh : r.Fresh blocks) (succeed : ∀ b ∈ blocks, b.Succeeds) (good : Good r.world.host)
    (calls : List Call) (all : ∀ call ∈ calls, call.Succeeds) :
    let now := r.after services calls
    (∀ path x, now.root.thread? path = some x → x.CountsPasses now.world.journal) ∧
      ∀ call a w, now.Performs services call a w →
        a.Yields services (fun e v => e.CountsPasses v.journal) w ∧
        ∀ t v, a.Cancels services w t v → t.execution.CountsPasses v.journal := by
  have trailing := fresh.trailing_after reliable succeed good calls all
  exact trailing.throughout fun _ _ => Execution.Trailed.countsPasses

/-- A loop with two passes and a block after it. -/
def stirring : Run InMemory :=
  .ofWorkflow ⟨"sauce", none, none, [.counted 2 [.task "stir"], .task "serve"]⟩ .empty

/-- When both passes have been made, three copies of the loop have left, the last one with minus one
passes to make. -/
theorem passes_counted_stirring :
    let calls := [.start, .dispatch [] .done, .dispatch [] .done]
    let now := stirring.after InMemory.services calls
    (now.root.behind.map Block.activity = [.counted (-1) true [.task "stir"], .task,
        .counted 0 true [.task "stir"], .task, .counted 1 true [.task "stir"]] ∧
      now.root.current?.map Block.shownText = some "serve") ∧
    (∀ path x, now.root.thread? path = some x → x.CountsPasses now.world.journal) ∧
      ∀ call a w, now.Performs InMemory.services call a w →
        a.Yields InMemory.services (fun e v => e.CountsPasses v.journal) w ∧
        ∀ t v, a.Cancels InMemory.services w t v → t.execution.CountsPasses v.journal := by
  refine ⟨by decide +kernel, ?_⟩
  refine passes_counted InMemory.reliable (fresh_ofWorkflow _ _) ?_ InMemory.willing_empty
    [.start, .dispatch [] .done, .dispatch [] .done] ?_
  · intro c mem
    obtain ⟨t, -, rfl⟩ := List.mem_map.mp mem
    exact HostBlock.succeeds_plain t
  · simp only [List.forall_mem_cons]
    exact ⟨trivial, trivial, trivial, List.forall_mem_nil _⟩

end Run

end Stepwise
