import Stepwise.Proofs.Branches.Runs
import Stepwise.Proofs.Looping
import Stepwise.Proofs.Monitor.Moments
import Stepwise.Proofs.Releasing.Answered

/-!
# The reminder of a loop

The reminder of a loop is started when the loop is first entered, and each copy hands it to the next
one: the copy that comes has it, so it starts none, and the one that leaves has it no more, so it
removes none. The last copy hands it to nobody and removes it. In between the reminder is active and
has one holder, the copy that is current or the one that is ahead behind the work of a pass. If the
thread is cancelled then, the cancellation removes it.
-/

namespace Stepwise

variable {σ : Type} {Good : σ → Prop} {services : Services σ}

/-- A loop with a reminder as it is made from its template. -/
structure Block.RemindingLoop (b : Block) (body : List Template) (reminder : Reminder) : Prop where
  loop : b.body? = some body
  reminds : b.reminder = some reminder
  silent : b.handle = none

namespace Block

theorem isSteady_of_loop {b : Block} {body : List Template} (loop : b.body? = some body) :
    b.isSteady = true := by
  unfold body? at loop
  unfold isSteady
  split at loop
  · next activity => rw [activity]
  · next activity => rw [activity]
  · cases loop

theorem shape_again (b : Block) : b.again.shape = b.shape := by
  unfold again
  split
  · next activity => simp only [shape, successor, activity, Activity.shape]
  · rfl

theorem handle_again (b : Block) : b.again.handle = b.handle := by
  unfold again
  split
  · rfl
  · rfl

end Block

/-- It notes that a reminder was asked for. -/
def Entry.isAdded : Entry → Bool
  | .added _ _ _ => true
  | _ => false

theorem Entry.IsParting.not_added {place : List Nat → Prop} {entry : Entry}
    (parting : entry.IsParting place) : entry.isAdded = false := by
  cases entry with
  | added text reminder answer => exact parting.elim
  | _ => rfl

theorem Entrance.Fits.registers {address : List Nat} {a : Entrance} (fits : a.Fits address)
    (steady : a.block.isSteady = true) :
    ∃ adds, a.block.Registers a.held adds ∧ a.entries.filter Entry.isAdded = adds := by
  obtain ⟨index, inner, adds, entries, registers, built⟩ := fits
  have none_built : (a.current.made.map Entry.built).reverse.filter Entry.isAdded = [] := by
    rw [List.filter_eq_nil_iff]
    intro entry mem
    obtain ⟨t, -, rfl⟩ := List.mem_map.mp (List.mem_reverse.mp mem)
    exact Bool.false_ne_true
  have added : (Entry.entered address index a.current.entered.shownText ::
      (inner ++ adds)).filter Entry.isAdded = adds.filter Entry.isAdded := by
    rw [List.filter_cons_of_neg Bool.false_ne_true, List.filter_append, built steady, none_built,
      List.nil_append]
  refine ⟨adds, registers, ?_⟩
  rw [entries, added]
  generalize a.held = handle at registers
  cases registers with
  | started => rfl
  | kept => rfl

/-- The turn of the copy that comes after `k` passes of a loop. It is like the loop at first, and it
has the loop's reminder, which was asked for when the first copy was entered and not again. -/
structure Entrance.Minds (first : Block) (reminder : Reminder) (id k : Nat) (a : Entrance) :
    Prop where
  shape : a.block.shape = first.shape
  held : a.held = some id
  adds : a.entries.filter Entry.isAdded =
    if k = 0 then [.added first.shownText reminder (.ok id)] else []

/-- The turn is over, with a copy that has no reminder any more. -/
structure Stay.Minds (first : Block) (reminder : Reminder) (id k : Nat) (s : Stay) : Prop
    extends s.toEntrance.Minds first reminder id k where
  left : s.left.shape = first.shape
  bare : s.left.held = []
  parting : ∀ entry ∈ s.parting, entry.isAdded = false

theorem Stay.Ends.minds {address : List Nat} {first : Block} {reminder : Reminder} {id k : Nat}
    {s : Stay} {after : List Block} (ends : s.Ends address after)
    (minds : s.toEntrance.Minds first reminder id k) : s.Minds first reminder id k where
  toMinds := minds
  left := ends.shape.trans minds.shape
  bare := ends.bare
  parting := by
    obtain ⟨index, asks, parting, parts, -⟩ := ends.parting
    rw [parting]
    exact List.forall_mem_cons.mpr ⟨rfl, fun entry mem => (parts entry mem).not_added⟩

/-- Passes of a loop whose reminder has this number, the latest first. -/
def Minded (address : List Nat) (first : Block) (body : List Template) (reminder : Reminder)
    (id : Nat) : List Lap → Prop
  | [] => True
  | lap :: earlier => lap.copy.Minds first reminder id earlier.length ∧
      Trail address (body.map Block.ofTemplate) lap.work [] ∧
      Minded address first body reminder id earlier

/-- A loop that is not over: a copy is current, or the work of a pass is ahead and then the next
copy, which has the reminder and is like the loop at first. -/
inductive StillMinded (address : List Nat) (first : Block) (body : List Template)
    (reminder : Reminder) (id : Nat) : List Stay → Option Entrance → List Block → Prop
  | current {laps : List Lap} {a : Entrance} {back : List Block}
      (made : Minded address first body reminder id laps)
      (minds : a.Minds first reminder id laps.length) :
      StillMinded address first body reminder id (lapsStays laps) (some a) (a.block :: back)
  | pending {laps : List Lap} {copy : Stay} {work : List Stay} {now? : Option Entrance}
      {front back : List Block} {next : Block}
      (made : Minded address first body reminder id laps)
      (minds : copy.Minds first reminder id laps.length)
      (working : Trail address (body.map Block.ofTemplate) work front) (more : front ≠ [])
      (shape : next.shape = first.shape) (held : next.handle = some id) :
      StillMinded address first body reminder id (work ++ copy :: lapsStays laps) now?
        (front ++ next :: back)

/-- A loop that is over: the last copy had the reminder removed when it left. -/
inductive MindedToTheEnd (address : List Nat) (first : Block) (body : List Template)
    (reminder : Reminder) (id : Nat) : List Stay → Prop
  | exit {laps : List Lap} {copy : Stay} {later : List Stay}
      (made : Minded address first body reminder id laps)
      (minds : copy.Minds first reminder id laps.length)
      (removed : .asked (.removeReminder id) (.ok ()) ∈ copy.parting) :
      MindedToTheEnd address first body reminder id (later ++ copy :: lapsStays laps)

section

variable {address : List Nat} {first next : Block} {body : List Template} {reminder : Reminder}
  {laps : List Lap} {a : Entrance}

/-- Each copy has the reminder that the first one started. -/
theorem Laps.minds (made : Laps address first body laps next)
    (reminding : first.RemindingLoop body reminder) (comes : a.block = next)
    (fits : a.Fits address) :
    ∃ id, Minded address first body reminder id laps ∧ a.Minds first reminder id laps.length := by
  induction made generalizing a with
  | none =>
    obtain ⟨adds, registers, added⟩ :=
      fits.registers (comes ▸ Block.isSteady_of_loop reminding.loop)
    rw [comes] at registers
    generalize held : a.held = handle at registers
    cases registers with
    | @started reminder' id reminds silent =>
      obtain rfl := Option.some.inj (reminds.symm.trans reminding.reminds)
      exact ⟨id, trivial, by rw [comes], held, added⟩
    | kept needless =>
      rcases needless with none | handle
      · cases reminding.reminds.symm.trans none
      · exact absurd reminding.silent handle
  | @next laps copy work earlier ends worked ih =>
    obtain ⟨id, minded, minds⟩ := ih rfl ends.fits
    have shape : a.block.shape = first.shape := by
      rw [comes, Block.shape_again]
      exact minds.shape
    have handle : a.block.handle = some id := by
      rw [comes, Block.handle_again]
      exact minds.held
    have loop : a.block.body? = some body :=
      comes ▸ (Laps.next earlier ends worked).body? reminding.loop
    obtain ⟨adds, registers, added⟩ := fits.registers (Block.isSteady_of_loop loop)
    generalize held : a.held = handle' at registers
    cases registers with
    | started reminds silent => cases handle.symm.trans silent
    | kept => exact ⟨id, ⟨ends.minds minds, worked, minded⟩, shape, held.trans handle, added⟩

/-- The loop is in its passes or over, if the block ahead is the current one. -/
theorem Looping.minded {done : List Stay} {ahead : List Block} {now? : Option Entrance}
    (looping : Looping address first body done ahead) (reminding : first.RemindingLoop body reminder)
    (now : ∀ b rest, ahead = b :: rest → ∃ a, now? = some a ∧ a.block = b ∧ a.Fits address) :
    ∃ id, StillMinded address first body reminder id done now? ahead ∨
      MindedToTheEnd address first body reminder id done := by
  cases looping with
  | @waits laps next back made =>
    obtain ⟨a, rfl, rfl, fits⟩ := now next back rfl
    obtain ⟨id, minded, minds⟩ := made.minds reminding rfl fits
    exact ⟨id, Or.inl (.current minded minds)⟩
  | @works laps copy work front back earlier ends working more =>
    obtain ⟨id, minded, minds⟩ := earlier.minds reminding rfl ends.fits
    refine ⟨id, Or.inl (.pending minded (ends.minds minds) working more ?_ ?_)⟩
    · rw [Block.shape_again]
      exact minds.shape
    · rw [Block.handle_again]
      exact minds.held
  | @exited laps copy later ahead earlier ends =>
    obtain ⟨id, minded, minds⟩ := earlier.minds reminding rfl ends.fits
    obtain ⟨index, asks, parting, -, removed⟩ := ends.parting
    refine ⟨id, Or.inr (.exit minded (ends.minds minds) ?_)⟩
    rw [parting]
    exact List.mem_cons_of_mem _ (removed rfl id minds.held)

variable {id : Nat} {done : List Stay}

theorem StillMinded.some_ahead {now? : Option Entrance} {ahead : List Block}
    (still : StillMinded address first body reminder id done now? ahead) : ahead ≠ [] := by
  cases still with
  | current => simp
  | pending => simp

/-- The current block has the reminder, or one behind it. -/
theorem StillMinded.holder {rest : List Block}
    (still : StillMinded address first body reminder id done (some a) (a.block :: rest)) :
    (a.block.shape = first.shape ∧ a.held = some id) ∨
      ∃ c ∈ rest, c.shape = first.shape ∧ c.handle = some id := by
  generalize now : a.block :: rest = ahead at still
  cases still with
  | current made minds => exact Or.inl ⟨minds.shape, minds.held⟩
  | @pending laps copy work _ front back next made minds working more shape held =>
    refine Or.inr ⟨next, ?_, shape, held⟩
    cases front with
    | nil => exact absurd rfl more
    | cons b front =>
      obtain ⟨-, rfl⟩ := List.cons.inj now
      simp

theorem MindedToTheEnd.removed (exited : MindedToTheEnd address first body reminder id done) :
    ∃ s ∈ done, .asked (.removeReminder id) (.ok ()) ∈ s.parting := by
  obtain ⟨-, -, removed⟩ := exited
  exact ⟨_, by simp, removed⟩

end

/-- The turn of the block has come, and these are the turns that were over since then, among them
its own unless it is current. -/
inductive HadTurn (first : Block) : List Stay → List Stay → Option Entrance → Prop
  | past {older earlier : List Stay} {s : Stay} {now? : Option Entrance} (came : s.block = first) :
      HadTurn first (older ++ [s]) (older ++ s :: earlier) now?
  | current {done : List Stay} {a : Entrance} (comes : a.block = first) :
      HadTurn first [] done (some a)

section

variable {s : Sequence} {journal : List Entry} {given ahead : List Block}
  {done since : List Stay} {now? : Option Entrance} {first : Block} {body : List Template}
  {reminder : Reminder}

theorem HadTurn.subset (turn : HadTurn first since done now?) : since ⊆ done := by
  cases turn with
  | past => simp
  | current => exact List.nil_subset _

theorem HadTurn.some_turn (turn : HadTurn first since done none) : done ≠ [] := by
  cases turn with
  | past => simp

namespace Sequence.OnTrail

theorem since_turn (place : s.OnTrail journal given done now? ahead)
    (turn : HadTurn first since done now?) : ∃ back, Trail s.address (first :: back) since ahead := by
  cases turn with
  | past came =>
    obtain ⟨back, -, since⟩ := place.trail.taken_up
    exact ⟨back, came ▸ since⟩
  | current comes =>
    cases place with
    | current =>
      subst comes
      exact ⟨_, .given⟩

/-- Once its turn has come a loop with a reminder is in its passes, and then a block ahead has the
reminder, or it is over, and then the reminder was removed. -/
theorem minded (place : s.OnTrail journal given done now? ahead)
    (turn : HadTurn first since done now?) (reminding : first.RemindingLoop body reminder) :
    ∃ id, (StillMinded s.address first body reminder id since now? ahead ∧ s.isRunning = true ∧
        ∃ c ∈ s.ahead, c.shape = first.shape ∧ c.handle = some id) ∨
      (MindedToTheEnd s.address first body reminder id since ∧
        .asked (.removeReminder id) (.ok ()) ∈ journal) := by
  obtain ⟨back, trail⟩ := place.since_turn turn
  have looping := trail.looping reminding.loop
  cases place with
  | waiting _ _ _ nothing => exact absurd nothing turn.some_turn
  | finished finished trail behind recorded =>
    have idle : ∀ b rest, [] = b :: rest →
        ∃ a, (none : Option Entrance) = some a ∧ a.block = b ∧ a.Fits s.address := nofun
    obtain ⟨id, still | exited⟩ := looping.minded reminding idle
    · exact absurd rfl still.some_ahead
    · obtain ⟨t, mem, removed⟩ := exited.removed
      have noted := recorded.mem (turn.subset mem) (List.mem_append_left _ removed)
      exact ⟨id, Or.inr ⟨exited, noted⟩⟩
  | @current a b rest running now current fits trail behind recorded =>
    have comes : ∀ c others, a.block :: rest = c :: others →
        ∃ a', some a = some a' ∧ a'.block = c ∧ a'.Fits s.address := by
      rintro _ _ ⟨⟩
      exact ⟨a, rfl, rfl, fits⟩
    obtain ⟨id, still | exited⟩ := looping.minded reminding comes
    · refine ⟨id, Or.inl ⟨still, running, ?_⟩⟩
      rw [now]
      rcases still.holder with ⟨shape, held⟩ | ⟨c, mem, shape, held⟩
      · exact ⟨b, List.mem_cons_self, current.ages.shape.trans shape, current.handle.trans held⟩
      · exact ⟨c, List.mem_cons_of_mem b mem, shape, held⟩
    · obtain ⟨t, mem, removed⟩ := exited.removed
      obtain ⟨later, before, rfl, recorded⟩ := recorded
      have noted := recorded.mem (turn.subset mem) (List.mem_append_left _ removed)
      exact ⟨id, Or.inr ⟨exited, by simp [noted]⟩⟩

end Sequence.OnTrail

end

/-- The execution is where its trail leads, and so is each loop with a reminder in it whose turn has
come. It is in its passes with a block ahead that has the reminder, and the reminder is as `kept`
says; or it is over, and the reminder is as `removed` says. -/
def Execution.MindsLoops (journal : List Entry) (kept removed : Nat → Prop) (e : Execution) : Prop :=
  ∃ given done now? ahead, e.OnTrail journal given done now? ahead ∧
    ∀ first body reminder since, first.RemindingLoop body reminder →
      HadTurn first since done now? → ∃ id,
        (StillMinded e.address first body reminder id since now? ahead ∧
          (∃ c ∈ e.ahead, c.shape = first.shape ∧ c.handle = some id) ∧ kept id) ∨
        (MindedToTheEnd e.address first body reminder id since ∧ removed id)

theorem Execution.held_of_ahead {e : Execution} {c : Block} {id : Nat} (mem : c ∈ e.ahead)
    (held : c.handle = some id) : id ∈ e.held := by
  have here : id ∈ c.held := by simp [Block.held, held]
  have among : id ∈ blocksHeld e.ahead := List.mem_flatMap.mpr ⟨c, mem, here⟩
  rw [held_eq]
  simp [among]

theorem Execution.Trailed.mindsLoops {e : Execution} {journal : List Entry}
    {kept removed : Nat → Prop} (trailed : e.Trailed journal)
    (keeps : e.isRunning = true → ∀ c ∈ e.ahead, ∀ id, c.handle = some id → kept id)
    (removes : ∀ id, .asked (.removeReminder id) (.ok ()) ∈ journal → removed id) :
    e.MindsLoops journal kept removed := by
  obtain ⟨place, -⟩ := trailed
  refine ⟨_, _, _, _, place, ?_⟩
  intro first body reminder since reminding turn
  obtain ⟨id, ⟨still, running, c, mem, shape, held⟩ | ⟨exited, asked⟩⟩ := place.minded turn reminding
  · exact ⟨id, Or.inl ⟨still, ⟨c, mem, shape, held⟩, keeps running c mem id held⟩⟩
  · exact ⟨id, Or.inr ⟨exited, removes id asked⟩⟩

variable {book : σ → ReminderBook}

/-- The reminder is active, the execution has one holder of it, and nobody asked for its removal. -/
structure World.Reminds (book : σ → ReminderBook) (w : World σ) (e : Execution) (id : Nat) :
    Prop where
  active : id ∈ (book w.host).ids
  holder : e.held.count id = 1
  unasked : timesAsked (.removeReminder id) w.journal = 0

theorem World.Backs.reminds {attached : List String} {w : World σ} {e : Execution}
    {others : List Duty} {id : Nat} (backs : w.Backs book attached (e.duties ++ others))
    (held : id ∈ e.held) : w.Reminds book e id := by
  have some_duty : 0 < e.held.count id := List.count_pos_iff.mpr held
  have once := backs.once id
  have active := backs.active id
  rw [List.count_append, ← count_held] at once active
  refine ⟨List.count_pos_iff.mp ?_, ?_, ?_⟩
  · omega
  · omega
  · omega

namespace Run

variable {r : Run σ} {id : Nat}

/-- The reminder is not active, nobody holds it, and its removal was asked for once. -/
structure GaveBack (book : σ → ReminderBook) (r : Run σ) (id : Nat) : Prop where
  inactive : id ∉ (book r.world.host).ids
  unheld : id ∉ r.root.held
  once : timesAsked (.removeReminder id) r.world.journal = 1

/-- A run in which nothing fails, with all of it on its trail and a book that agrees with it. -/
structure Booked (Good : σ → Prop) (book : σ → ReminderBook) (r : Run σ) : Prop
    extends r.Trailing Good where
  balanced : r.Balanced book
  lossless : r.world.Lossless
  backed : ∃ attached, r.Backed book attached
  custody : ∃ hand, r.InCustody hand

theorem booked_perform (reliable : services.Reliable Good) (keeps : services.KeepsBook book)
    (r : Run σ) (call : Call) (succeeds : call.Succeeds) (booked : r.Booked Good book) :
    (r.perform services call).Booked Good book where
  toTrailing := trailing_perform reliable r call succeeds booked.toTrailing
  balanced := balanced_perform keeps r call succeeds booked.balanced
  lossless := booked.sound.lossless_perform reliable booked.lossless call
  backed := by
    obtain ⟨attached, backed⟩ := booked.backed
    exact ⟨_, backed_perform keeps.atWill backed call⟩
  custody := by
    obtain ⟨hand, custody⟩ := booked.custody
    exact ⟨_, inCustody_perform custody call⟩

theorem Assembled.booked {blocks : List HostBlock} (assembled : r.Assembled blocks)
    (succeed : ∀ b ∈ blocks, b.Succeeds) (good : Good r.world.host)
    (empty : book r.world.host = .empty) : r.Booked Good book where
  toTrailing := assembled.toFresh.trailing succeed good
  balanced := assembled.toFresh.balanced empty succeed
  lossless := assembled.lossless
  backed := ⟨_, assembled.backed empty⟩
  custody := ⟨_, assembled.inCustody⟩

theorem Booked.gaveBack (booked : r.Booked Good book)
    (asked : .asked (.removeReminder id) (.ok ()) ∈ r.world.journal) : r.GaveBack book id := by
  obtain ⟨attached, backed⟩ := booked.backed
  have some_time : 0 < timesAsked (.removeReminder id) r.world.journal :=
    List.countP_pos_iff.mpr ⟨_, asked, decide_eq_true rfl⟩
  have once := backed.once id
  rw [← count_held] at once
  have unheld : id ∉ r.root.held := List.count_eq_zero.mp (by omega)
  refine ⟨?_, unheld, by omega⟩
  intro active
  exact unheld (booked.balanced.held_of_active booked.lossless active)

theorem Performs.succeeds {call : Call} {a : Action} {w : World σ}
    (performs : r.Performs services call a w) : call.Succeeds := by
  induction performs with
  | begins begins =>
    cases begins with
    | reminded | unreminded | event => trivial
  | further performs begins ih => exact ih

/-- Between two calls. -/
theorem Booked.mindsLoops (booked : r.Booked Good book) {path : List Nat} {x : Execution}
    (found : r.root.thread? path = some x) :
    x.MindsLoops r.world.journal (r.world.Reminds book r.root) (r.GaveBack book) := by
  refine (booked.trailed.thread? found).mindsLoops ?_ fun id => booked.gaveBack
  intro _ c mem id held
  obtain ⟨attached, backed⟩ := booked.backed
  have backs : r.world.Backs book attached (r.root.duties ++ []) := by rwa [List.append_nil]
  exact backs.reminds (Execution.held_of_thread found (Execution.held_of_ahead mem held))

/-- The book agrees with what an operation within a call works on when it begins. -/
theorem Booked.backs (keeps : services.KeepsBook book) (booked : r.Booked Good book) {call : Call}
    {a : Action} {w : World σ} (performs : r.Performs services call a w) :
    ∃ attached, a.Undone ∧ (backing keeps.atWill attached).FineWith w a.duties := by
  obtain ⟨attached, backed⟩ := booked.backed
  have fine : (backing keeps.atWill attached).Fine r.world r.root.duties := backed
  exact ⟨attached, performs.fineWith (fun _ => trivial) fine⟩

/-- In the executions that an operation within a call leaves. -/
theorem Booked.yields_mindsLoops (keeps : services.KeepsBook book) (booked : r.Booked Good book)
    {call : Call} {a : Action} {w : World σ} (performs : r.Performs services call a w) {later : Run σ}
    (booked_later : later.Booked Good book)
    (noted : (a.world services w).journal <:+ later.world.journal) :
    a.Yields services (fun e v => e.MindsLoops v.journal (v.Reminds book e) (later.GaveBack book))
      w := by
  obtain ⟨attached, -, fine⟩ := booked.backs keeps performs
  have on_trail : a.Yields services (fun e v => e.Trailed v.journal) w :=
    (performs.trailed booked.inOrder booked.trailed).yields
  refine (on_trail.and (Action.yields_fineWith (fun _ => trivial) fine)).mono ?_
  rintro e ⟨trailed, others, backs⟩
  refine trailed.mindsLoops ?_ fun id asked => booked_later.gaveBack (noted.subset asked)
  exact fun _ c mem id held => World.Backs.reminds backs (Execution.held_of_ahead mem held)

/-- In a thread that is cancelled, up to then. What is kept so far is given back by the call. -/
theorem Booked.cancelled_mindsLoops (reliable : services.Reliable Good)
    (keeps : services.KeepsBook book) (booked : r.Booked Good book) {call : Call} {a : Action}
    {t : Thread} {w v : World σ} (performs : r.Performs services call a w)
    (cancels : a.Cancels services w t v) {later : Run σ} (booked_later : later.Booked Good book)
    (noted : (r.perform services call).world.journal <:+ later.world.journal) :
    t.execution.MindsLoops v.journal
      (fun id => v.Reminds book t.execution id ∧ later.GaveBack book id) (later.GaveBack book) := by
  obtain ⟨hand, custody⟩ := booked.custody
  obtain ⟨attached, undone, fine⟩ := booked.backs keeps performs
  obtain ⟨others, backs⟩ := cancels.fineWith (fun _ => trivial) undone fine
  obtain ⟨ready, -, recorded⟩ := performs.parts reliable booked.sound custody
  have cancelled : Onward (fun _ => True) v.journal (t.execution.cancel services v).world.journal :=
    Execution.cancel_onward _ v
  have before : v.journal <:+ later.world.journal :=
    cancelled.suffix.trans ((cancels.recorded ready).suffix.trans (recorded.trans noted))
  have trailed := cancels.trailed (performs.trailed booked.inOrder booked.trailed)
  refine trailed.mindsLoops ?_ fun id asked => booked_later.gaveBack (before.subset asked)
  intro running c mem id held
  have removes := performs.removes reliable booked.sound custody cancels running
  obtain ⟨asks, journal, removed⟩ := removes.further noted
  refine ⟨World.Backs.reminds backs (Execution.held_of_ahead mem held), booked_later.gaveBack ?_⟩
  rw [journal]
  exact List.mem_append_left _ (removed c mem id held)

/-- Whatever happens in a run in which nothing fails, each of its loops keeps one reminder from its
first copy to its last, and in the end it gives it back: in all executions between two calls, in
those that an operation within a call leaves, and in the threads that it cancels. -/
theorem loops_keep_reminder (reliable : services.Reliable Good) (keeps : services.KeepsBook book)
    {blocks : List HostBlock} (assembled : r.Assembled blocks) (good : Good r.world.host)
    (empty : book r.world.host = .empty) (succeed : ∀ b ∈ blocks, b.Succeeds) (calls : List Call)
    (all : ∀ call ∈ calls, call.Succeeds) :
    let now := r.after services calls
    (∀ path x, now.root.thread? path = some x →
      x.MindsLoops now.world.journal (now.world.Reminds book now.root) (now.GaveBack book)) ∧
      ∀ call a w more, now.Performs services call a w → (∀ c ∈ more, c.Succeeds) →
        let later := (now.perform services call).after services more
        a.Yields services
          (fun e v => e.MindsLoops v.journal (v.Reminds book e) (later.GaveBack book)) w ∧
        ∀ t v, a.Cancels services w t v → t.execution.MindsLoops v.journal
          (fun id => v.Reminds book t.execution id ∧ later.GaveBack book id)
          (later.GaveBack book) := by
  intro now
  have booked : now.Booked Good book := after_induction services (booked_perform reliable keeps)
    (assembled.booked succeed good empty) calls all
  refine ⟨fun path x found => booked.mindsLoops found, ?_⟩
  intro call a w more performs all_more later
  have performed := booked_perform reliable keeps now call performs.succeeds booked
  have booked_later : later.Booked Good book :=
    after_induction services (booked_perform reliable keeps) performed more all_more
  have noted : (now.perform services call).world.journal <:+ later.world.journal :=
    ((now.perform services call).after_onward services more).suffix
  constructor
  · obtain ⟨hand, custody⟩ := booked.custody
    obtain ⟨-, -, recorded⟩ := performs.parts reliable booked.sound custody
    exact booked.yields_mindsLoops keeps performs booked_later (recorded.trans noted)
  · intro t v cancels
    exact booked.cancelled_mindsLoops reliable keeps performs cancels booked_later noted

/-- A loop with a reminder that asks whether it is to make another pass. -/
def tastingLoop : Template :=
  (Template.asked "again?" .whileYes [.task "taste"]).withReminder ⟨2, .minutes⟩

/-- The loop and a block after it. -/
def tasting : Run InMemory := .ofWorkflow ⟨"sauce", none, none, [tastingLoop, .task "serve"]⟩ .empty

/-- In the second pass the next copy of the loop has the reminder that the first one started. -/
theorem loops_keep_reminder_tasting :
    let calls := [.start, .dispatch [] .yes, .dispatch [] .done, .dispatch [] .yes]
    let now := tasting.after InMemory.services calls
    (now.root.ahead.map Block.shownText = ["taste", "again?", "serve"] ∧
      now.root.ahead.map (·.handle) = [none, some 1, none] ∧
      now.world.host.reminders.ids = [1] ∧ now.world.host.reminders.added = 1 ∧
      (now.after InMemory.services [.dispatch [] .done, .dispatch [] .no]).world.host.reminders.ids =
        []) ∧
    (∀ path x, now.root.thread? path = some x →
      x.MindsLoops now.world.journal (now.world.Reminds InMemory.reminders now.root)
        (now.GaveBack InMemory.reminders)) ∧
      ∀ call a w more, now.Performs InMemory.services call a w → (∀ c ∈ more, c.Succeeds) →
        let later := (now.perform InMemory.services call).after InMemory.services more
        a.Yields InMemory.services (fun e v => e.MindsLoops v.journal
          (v.Reminds InMemory.reminders e) (later.GaveBack InMemory.reminders)) w ∧
        ∀ t v, a.Cancels InMemory.services w t v → t.execution.MindsLoops v.journal
          (fun id => v.Reminds InMemory.reminders t.execution id ∧
            later.GaveBack InMemory.reminders id) (later.GaveBack InMemory.reminders) := by
  refine ⟨by decide +kernel, ?_⟩
  refine loops_keep_reminder InMemory.reliable InMemory.keepsBook (assembled_ofWorkflow _ _)
    InMemory.willing_empty rfl ?_ [.start, .dispatch [] .yes, .dispatch [] .done, .dispatch [] .yes] ?_
  · intro c mem
    obtain ⟨t, -, rfl⟩ := List.mem_map.mp mem
    exact HostBlock.succeeds_plain t
  · simp only [List.forall_mem_cons]
    exact ⟨trivial, trivial, trivial, trivial, List.forall_mem_nil _⟩

end Run

end Stepwise
