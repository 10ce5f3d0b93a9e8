import Stepwise.Proofs.Delivery
import Stepwise.Proofs.Ending
import Stepwise.Run

/-!
# Every call ends

A call on a run works in rounds. In a round the current block leaves, after the blocks that it puts
behind itself were put there, and the next block is entered; if that one leaves at once another
round follows. Entering a group runs such rounds for each of its threads. Here the rounds are given
out from a stock, and without a result when it is used up. Each round takes weight from the blocks
that can still be entered, although a loop puts fresh blocks ahead, so a stock of twice their weight
is enough. What comes out is then what the call does, whatever the host answers.
-/

namespace Stepwise

variable {σ : Type} (services : Services σ)

/-- Goes on after an answer with something that may be without a result. -/
def Outcome.further {τ υ α β : Type} (o : Outcome σ τ α) (wrap : τ → υ)
    (next : α → τ → World σ → Option (Outcome σ υ β)) : Option (Outcome σ υ β) :=
  match o.result with
  | .ok a => next a o.part o.world
  | .error e => some ⟨.error e, wrap o.part, o.world⟩

mutual

/-- Enters the current block. The answer is whether it waits or leaves at once, and with which
blocks after itself. -/
def Execution.visit (stock : Nat) (e : Execution) (w : World σ) :
    Option (Outcome σ Execution Reaction) :=
  match stock with
  | 0 => none
  | stock + 1 =>
    match e.ahead with
    | [] =>
      some ((e.toSequence.finish services w).bind (⟨·, []⟩) fun _ line w =>
        ⟨.ok .stay, ⟨line, []⟩, w⟩)
    | b :: rest =>
      match b.register services w with
      | (.error error, w) => some ⟨.error error, e, w⟩
      | (.ok handle, w) =>
        (Block.visit stock e.address { b with handle } w).map fun o =>
          o.bind (fun (b, threads) => { e with ahead := b :: rest, threads })
            fun reaction (arrived, threads) w =>
              ⟨.ok reaction, { e with ahead := arrived :: rest, threads }, e.noteEntered arrived w⟩

/-- What a block does when it is entered. Only a group runs rounds of its own. -/
def Block.visit (stock : Nat) (address : List Nat) (b : Block) (w : World σ) :
    Option (Outcome σ (Block × List Thread) Reaction) :=
  match stock with
  | 0 => none
  | stock + 1 =>
    match b.activity with
    | .parallel join =>
      let opened := { join with completed := 0, done := false }
      let w := w.noteOpened join.branches
      if join.branches.isEmpty then
        some ⟨.ok (.leave []),
          ({ b with activity := .parallel { opened with done := true } }, []), w⟩
      else
        (startRounds stock (join.threads address) [] opened w).map fun o =>
          o.bind (fun (join, threads) => ({ b with activity := .parallel join }, threads))
            fun ended (join, threads) w =>
              ⟨.ok (if ended then .leave [] else .stay),
                ({ b with activity := .parallel join }, threads), w⟩
    | _ =>
      some ((Block.arrive services address b w).bind (fun part => part) fun leaves part w =>
        ⟨.ok (if leaves then .leave b.pass else .stay), part, w⟩)

/-- The rounds that follow a reaction of the current block. -/
def Execution.rounds (stock : Nat) (reaction : Reaction) (e : Execution) (w : World σ) :
    Option (Outcome σ Execution Unit) :=
  match reaction, stock with
  | .stay, _ => some ⟨.ok (), e, w⟩
  | .leave _, 0 => none
  | .leave after, stock + 1 =>
    match e.ahead with
    | [] => some ⟨.ok (), e, w⟩
    | b :: rest =>
      let stuck (b : Block) : Execution := ⟨{ e.toSequence with ahead := b :: (after ++ rest) }, []⟩
      (cancelThreads services e.threads w).further (fun _ => stuck b) fun _ _ w =>
        (b.leave services w).further stuck fun _ left w =>
          (Execution.visit stock ⟨e.advance left (after ++ rest), []⟩ (e.noteLeft left w)).bind
            fun o => o.further (fun e => e) fun reaction e w => e.rounds stock reaction w

/-- The rounds of threads that are started in order. -/
def startRounds (stock : Nat) (pending started : List Thread) (join : Join) (w : World σ) :
    Option (Outcome σ (Join × List Thread) Bool) :=
  match pending, stock with
  | [], _ => some ⟨.ok false, (join, started), w⟩
  | _ :: _, 0 => none
  | ⟨branch, thread⟩ :: rest, stock + 1 =>
    ((Execution.visit stock { thread with started := true } w).bind fun o =>
      o.further (fun e => e) fun reaction e w => e.rounds stock reaction w).bind fun o =>
        o.further (fun e => (join, started ++ ⟨branch, e⟩ :: rest)) fun _ e w =>
          if e.finished then
            (join.complete services (started ++ rest) w).further (fun part => part)
              fun ended (join, others) w =>
                if ended then some ⟨.ok true, (join, others), w⟩
                else startRounds stock rest started join w
          else startRounds stock rest (started ++ [⟨branch, e⟩]) join w

end

/-- Enters the current block and runs the rounds that follow. -/
def Execution.enterRounds (stock : Nat) (e : Execution) (w : World σ) :
    Option (Outcome σ Execution Unit) :=
  (e.visit services stock w).bind fun o =>
    o.further (fun e => e) fun reaction e w => e.rounds services stock reaction w

/-- The rounds of a group whose thread has taken an event. -/
def Execution.afterThreadRounds (stock : Nat) (b : Block) (rest : List Block) (join : Join)
    (before after : List Thread) (thread : Thread) (e : Execution) (w : World σ) :
    Option (Outcome σ Execution Unit) :=
  let regrouped (join : Join) (threads : List Thread) : Execution :=
    ⟨{ e.toSequence with ahead := { b with activity := .parallel join } :: rest }, threads⟩
  if thread.execution.finished then
    (join.complete services (before ++ after) w).further
      (fun (join, threads) => regrouped join threads) fun ended (join, threads) w =>
        (regrouped join threads).rounds services stock (if ended then .leave [] else .stay) w
  else Execution.rounds services stock .stay { e with threads := before ++ thread :: after } w

/-- A call that delivers an event, with the rounds that follow in each execution on the way. -/
def Execution.dispatchRounds (stock : Nat) (event : Event) :
    List Nat → Execution → World σ → Option (Outcome σ Execution Unit)
  | path, e, w =>
    if !e.isRunning then some ⟨.ok (), e, w.passOver (.notRunning event)⟩
    else
      match path, e.ahead with
      | _, [] => some ⟨.ok (), e, w.passOver (.noBlock event)⟩
      | [], b :: rest =>
        (b.react services event w).further (fun b => { e with ahead := b :: rest })
          fun reaction b w => Execution.rounds services stock reaction { e with ahead := b :: rest } w
      | branch :: path, b :: rest =>
        match b.join? with
        | none => some ⟨.ok (), e, w.passOver (.notParallel event branch b.shownText)⟩
        | some join =>
          match findThread branch e.threads with
          | none => some ⟨.ok (), e, w.passOver (.noThread branch event)⟩
          | some (before, t, after) =>
            (dispatchRounds stock event path t.execution w).bind fun o =>
              o.further (fun x => { e with threads := before ++ { t with execution := x } :: after })
                fun _ x w =>
                  e.afterThreadRounds services stock b rest join before after
                    { t with execution := x } w

/-- A call that starts a run, with the rounds that follow. -/
def Run.beginRounds (stock : Nat) (e : Execution) (w : World σ) :
    Option (Outcome σ Execution Unit) :=
  let e := { e with started := true }
  match e.reminder, e.description with
  | some reminder, some description =>
    match w.addReminder services description reminder with
    | (.error error, w) => some ⟨.error error, e, w⟩
    | (.ok id, w) => Execution.enterRounds services stock { e with handle := some id } w
  | _, _ => Execution.enterRounds services stock e w

variable {services}

theorem Join.complete_clears (j : Join) (others : List Thread) (w : World σ) :
    (j.complete services others w).Ends (fun ended part _ => ended = true → part.2 = [])
      fun _ _ _ => True := by
  unfold complete
  simp only
  split
  · generalize cancelThreads services others w = o
    obtain ⟨answer, -, v⟩ := o
    cases answer with
    | error e => trivial
    | ok _ =>
      rw [Outcome.bind_ok]
      split
      · exact nofun
      · exact fun _ => rfl
  · exact nofun

theorem startThreads_clears (pending started : List Thread) (join : Join) (w : World σ) :
    (startThreads services pending started join w).Ends
      (fun ended part _ => ended = true → part.2 = []) fun _ _ _ => True := by
  induction pending generalizing started join w with
  | nil =>
    rw [startThreads]
    intro ended
    exact absurd ended Bool.false_ne_true
  | cons t rest ih =>
    obtain ⟨branch, thread⟩ := t
    rw [startThreads]
    generalize Execution.enter services { thread with started := true } w = o
    obtain ⟨answer, x, v⟩ := o
    cases answer with
    | error e => trivial
    | ok _ =>
      rw [Outcome.bind_ok]
      split
      · have closes : (join.complete services (started ++ rest) v).Ends _ _ :=
          join.complete_clears (started ++ rest) v
        refine closes.bind (fun _ _ _ _ => trivial) fun ended part u clears => ?_
        cases ended with
        | true => exact fun _ => clears rfl
        | false => exact ih started part.1 u
      · exact ih _ _ v

theorem Block.arrive_clears (address : List Nat) (b : Block) (w : World σ) :
    (Block.arrive services address b w).Ends (fun leaves part _ => leaves = true → part.2 = [])
      fun _ _ _ => True := by
  rw [Block.arrive]
  split
  · exact nofun
  · exact nofun
  · exact nofun
  · split
    · exact fun _ => rfl
    · exact fun _ => rfl
  · split
    · exact Outcome.Ends.within
        (Outcome.Ends.of_world (P := fun _ => True) (Q := fun _ => True) trivial trivial)
        (fun _ _ _ _ => trivial) fun _ _ _ _ _ => rfl
    · exact fun _ => rfl
  · split
    · exact fun _ => rfl
    · exact (startThreads_clears _ _ _ _).within (fun _ _ _ _ => trivial) fun _ _ _ clears => clears

theorem Outcome.further_eq {τ υ α β : Type} {o : Outcome σ τ α} {wrap : τ → υ}
    {next : α → τ → World σ → Option (Outcome σ υ β)} {next' : α → τ → World σ → Outcome σ υ β}
    (same : ∀ a, o.result = .ok a → next a o.part o.world = some (next' a o.part o.world)) :
    o.further wrap next = some (o.bind wrap next') := by
  obtain ⟨result, part, w⟩ := o
  cases result with
  | ok a => exact same a rfl
  | error e => rfl

namespace Execution

variable {e : Execution} {b : Block} {rest : List Block} {stock : Nat}

/-- This stock is enough to enter the current block and to run all rounds that follow. -/
def Suffices (services : Services σ) (e : Execution) : Prop :=
  ∀ stock, 2 * blocksWeight e.ahead + 2 ≤ stock →
    ∀ w, e.enterRounds services stock w = some (e.enter services w)

theorem rounds_stay (e : Execution) (w : World σ) :
    e.rounds services stock .stay w = some ⟨.ok (), e, w⟩ := by
  rw [rounds]

theorem rounds_leave (now : e.ahead = b :: rest) (after : List Block) (w : World σ) :
    e.rounds services (stock + 1) (.leave after) w =
      (cancelThreads services e.threads w).further
        (fun _ => ⟨{ e.toSequence with ahead := b :: (after ++ rest) }, []⟩) fun _ _ w =>
          (b.leave services w).further
            (fun b => ⟨{ e.toSequence with ahead := b :: (after ++ rest) }, []⟩) fun _ left w =>
              Execution.enterRounds services stock ⟨e.advance left (after ++ rest), []⟩
                (e.noteLeft left w) := by
  rw [rounds]
  simp only [now]
  rfl

/-- The rounds that a leaving block sets off, once what they enter has enough. -/
theorem rounds_eq_leave (now : e.ahead = b :: rest) (after : List Block) (w : World σ)
    (enters : ∀ left v, Execution.enterRounds services stock ⟨e.advance left (after ++ rest), []⟩ v =
      some (Execution.enter services ⟨e.advance left (after ++ rest), []⟩ v)) :
    e.rounds services (stock + 1) (.leave after) w =
      some (e.leave services b (after ++ rest) w) := by
  rw [rounds_leave now, leave]
  refine Outcome.further_eq fun _ _ => ?_
  refine Outcome.further_eq fun _ _ => ?_
  exact enters _ _

end Execution

theorem startRounds_next (stock : Nat) (address : List Nat) (first : Nat)
    (templates : List Template) (rest : List (List Template)) (started : List Thread) (join : Join)
    (w : World σ) :
    startRounds services (stock + 1) (threadsFrom address first (templates :: rest)) started join w =
      (Execution.enterRounds services stock (startedThread (address ++ [first]) templates) w).bind
        fun o => o.further
          (fun e => (join, started ++ ⟨first, e⟩ :: threadsFrom address (first + 1) rest))
          fun _ e w =>
            if e.finished then
              (join.complete services (started ++ threadsFrom address (first + 1) rest) w).further
                (fun part => part) fun ended (join, others) w =>
                  if ended then some ⟨.ok true, (join, others), w⟩
                  else
                    startRounds services stock (threadsFrom address (first + 1) rest) started join w
            else startRounds services stock (threadsFrom address (first + 1) rest)
              (started ++ [⟨first, e⟩]) join w := by
  rw [threadsFrom, startRounds]
  rfl

theorem startRounds_eq {branches : List (List Template)}
    (enters : ∀ templates ∈ branches, ∀ address,
      (startedThread address templates).Suffices services)
    (address : List Nat) (first : Nat) (started : List Thread) (join : Join) {stock : Nat}
    (enough : 2 * weightBranches branches + 1 ≤ stock) (w : World σ) :
    startRounds services stock (threadsFrom address first branches) started join w =
      some (startThreads services (threadsFrom address first branches) started join w) := by
  induction branches generalizing first started join stock w with
  | nil => rw [threadsFrom, startRounds, startThreads]
  | cons templates branches ih =>
    simp only [weightBranches] at enough
    obtain ⟨stock, rfl⟩ : ∃ n, stock = n + 1 := ⟨stock - 1, by omega⟩
    have weight : blocksWeight (startedThread (address ++ [first]) templates).ahead =
        weightAll templates := blocksWeight_ofTemplates templates
    have entered := enters templates List.mem_cons_self (address ++ [first]) stock (by omega) w
    have spare : 2 * weightBranches branches + 1 ≤ stock := by omega
    have later (started : List Thread) (join : Join) (v : World σ) :=
      ih (fun templates mem => enters templates (List.mem_cons_of_mem _ mem)) (first + 1) started join
        spare v
    rw [startRounds_next, startThreads_next, entered, Option.bind_some]
    refine Outcome.further_eq fun _ _ => ?_
    simp only [later]
    split
    · refine Outcome.further_eq fun ended _ => ?_
      cases ended <;> rfl
    · rfl

/-- Nothing is put after a group. -/
theorem Block.pass_of_join? {b : Block} {join : Join} (activity : b.activity = .parallel join) :
    b.pass = [] := by
  simp only [pass, activity]

theorem Block.visit_branchless {b : Block} {join : Join} (activity : b.activity = .parallel join)
    (none : join.branches = []) (stock : Nat) (address : List Nat) (w : World σ) :
    b.visit services (stock + 1) address w = some ⟨.ok (.leave []),
      ({ b with activity := .parallel { join.opened with done := true } }, []), w⟩ := by
  have quiet : w.noteOpened join.branches = w := by
    rw [none]
    rfl
  rw [visit]
  simp only [activity, quiet]
  exact if_pos (List.isEmpty_iff.mpr none)

theorem Block.visit_group {b : Block} {join : Join} (activity : b.activity = .parallel join)
    (some_branch : join.branches ≠ []) (stock : Nat) (address : List Nat) (w : World σ) :
    b.visit services (stock + 1) address w =
      (startRounds services stock (join.threads address) [] join.opened
        (w.noteOpened join.branches)).map fun o =>
          o.bind (fun (join, threads) => ({ b with activity := .parallel join }, threads))
            fun ended (join, threads) w =>
              ⟨.ok (if ended then .leave [] else .stay),
                ({ b with activity := .parallel join }, threads), w⟩ := by
  rw [visit]
  simp only [activity]
  exact if_neg (by simpa only [List.isEmpty_iff] using some_branch)

theorem Block.visit_eq {b : Block}
    (enters : ∀ join, b.activity = .parallel join → ∀ templates ∈ join.branches, ∀ address,
      (startedThread address templates).Suffices services) (address : List Nat) {stock : Nat}
    (enough : 2 * b.weight ≤ stock) (w : World σ) :
    b.visit services stock address w =
      some ((Block.arrive services address b w).bind (fun part => part) fun leaves part w =>
        ⟨.ok (if leaves then .leave b.pass else .stay), part, w⟩) := by
  have some_weight := b.weight_pos
  obtain ⟨stock, rfl⟩ : ∃ n, stock = n + 1 := ⟨stock - 1, by omega⟩
  cases activity : b.activity with
  | parallel join =>
    have weight : b.weight = 1 + weightBranches join.branches := by
      simp only [weight, activity]
    rw [pass_of_join? activity]
    by_cases branchless : join.branches = []
    · rw [visit_branchless activity branchless, arrive_branchless services address w activity branchless]
      rfl
    · rw [visit_group activity branchless, arrive_group services address w activity branchless,
        Join.threads, startRounds_eq (enters join activity) address 0 [] _ (by omega),
        Option.map_some]
      generalize startThreads services _ _ _ _ = o
      obtain ⟨answer, part, v⟩ := o
      cases answer with
      | error e => rfl
      | ok ended => cases ended <;> rfl
  | _ =>
    rw [visit]
    simp only [activity]

namespace Execution

variable {e : Execution} {b : Block} {rest : List Block} {stock : Nat}

theorem visit_end (now : e.ahead = []) (w : World σ) :
    e.visit services (stock + 1) w = some ((e.toSequence.finish services w).bind (⟨·, []⟩)
      fun _ line w => ⟨.ok .stay, ⟨line, []⟩, w⟩) := by
  rw [visit]
  simp only [now]

theorem visit_refused (now : e.ahead = b :: rest) {w v : World σ} {error : ServiceError}
    (refused : b.register services w = (.error error, v)) :
    e.visit services (stock + 1) w = some ⟨.error error, e, v⟩ := by
  rw [visit]
  simp only [now, refused]

theorem visit_block (now : e.ahead = b :: rest) {w v : World σ} {handle : Option Nat}
    (registered : b.register services w = (.ok handle, v)) :
    e.visit services (stock + 1) w =
      (Block.visit services stock e.address { b with handle } v).map fun o =>
        o.bind (fun (b, threads) => { e with ahead := b :: rest, threads })
          fun reaction (arrived, threads) w =>
            ⟨.ok reaction, { e with ahead := arrived :: rest, threads }, e.noteEntered arrived w⟩ := by
  rw [visit]
  simp only [now, registered]

theorem enter_suffices (e : Execution) : e.Suffices services := by
  induction e using enter_induction with
  | nil e now =>
    intro stock enough w
    obtain ⟨stock, rfl⟩ : ∃ n, stock = n + 1 := ⟨stock - 1, by omega⟩
    rw [enterRounds, visit_end now, enter_end services w now, Option.bind_some]
    generalize e.toSequence.finish services w = o
    obtain ⟨answer, line, v⟩ := o
    cases answer with
    | error error => rfl
    | ok _ => exact rounds_stay _ _
  | cons e b rest now goes_on threads =>
    intro stock enough w
    obtain ⟨stock, rfl⟩ : ∃ n, stock = n + 1 := ⟨stock - 1, by omega⟩
    rw [now, blocksWeight_cons] at enough
    rcases registered : b.register services w with ⟨answer, v⟩
    cases answer with
    | error error =>
      rw [enterRounds, visit_refused now registered, enter_refused services now registered]
      rfl
    | ok handle =>
      have same : ({ b with handle } : Block).weight = b.weight := rfl
      have spare : 2 * ({ b with handle } : Block).weight ≤ stock := by omega
      have visited : Block.visit services stock e.address { b with handle } v = _ :=
        Block.visit_eq (b := { b with handle }) threads e.address spare v
      rw [enterRounds, visit_block now registered, visited, enter_block services now registered]
      have clears : (Block.arrive services e.address { b with handle } v).Ends _ _ :=
        Block.arrive_clears e.address { b with handle } v
      generalize Block.arrive services e.address { b with handle } v = o at clears ⊢
      obtain ⟨answer, ⟨arrived, others⟩, u⟩ := o
      cases answer with
      | error error => rfl
      | ok leaves =>
        cases leaves with
        | false => exact rounds_stay _ _
        | true =>
          have none : others = [] := clears rfl
          subst none
          have lighter := Block.weight_pass_lt { b with handle }
          have left (left : Block) (v : World σ) := goes_on left handle stock
            (by simp only [Sequence.advance, blocksWeight_append]; omega) v
          have entered : Execution.rounds services (stock + 1)
              (.leave ({ b with handle } : Block).pass)
              { e with ahead := arrived :: rest, threads := [] } (e.noteEntered arrived u) = _ :=
            rounds_eq_leave rfl _ _ left
          exact entered

/-- The stock that the rounds after a reaction need. -/
theorem rounds_enough (now : e.ahead = b :: rest) (after : List Block)
    (enough : 2 * blocksWeight (after ++ rest) + 3 ≤ stock) (w : World σ) :
    e.rounds services stock (.leave after) w = some (e.leave services b (after ++ rest) w) := by
  obtain ⟨stock, rfl⟩ : ∃ n, stock = n + 1 := ⟨stock - 1, by omega⟩
  refine rounds_eq_leave now after w fun left v => enter_suffices _ stock ?_ v
  simp only [Sequence.advance]
  omega

theorem afterThreadRounds_eq {join : Join} {before after : List Thread} (t : Thread)
    (enough : 2 * blocksWeight rest + 3 ≤ stock) (w : World σ) :
    e.afterThreadRounds services stock b rest join before after t w =
      some (e.afterThread services b rest join before after t w) := by
  unfold afterThreadRounds afterThread
  by_cases finished : t.execution.finished = true
  · simp only [finished, if_true]
    refine Outcome.further_eq fun ended _ => ?_
    cases ended with
    | true => exact rounds_enough rfl [] enough _
    | false => exact rounds_stay _ _
  · simp only [finished]
    exact rounds_stay _ _

theorem dispatchRounds_eq (event : Event) (path : List Nat) (e : Execution) (w : World σ) :
    ∃ enough, ∀ stock, enough ≤ stock →
      e.dispatchRounds services stock event path w = some (e.dispatch services event path w) := by
  induction path generalizing e with
  | nil =>
    unfold dispatchRounds dispatch
    by_cases running : e.isRunning = true
    · simp only [running]
      cases now : e.ahead with
      | nil => exact ⟨0, fun _ _ => rfl⟩
      | cons b rest =>
        simp only
        generalize b.react services event w = o
        obtain ⟨answer, b', v⟩ := o
        cases answer with
        | error error => exact ⟨0, fun _ _ => rfl⟩
        | ok reaction =>
          cases reaction with
          | stay => exact ⟨0, fun _ _ => rounds_stay _ v⟩
          | leave after =>
            refine ⟨2 * blocksWeight (after ++ rest) + 3, fun stock enough => ?_⟩
            exact rounds_enough rfl after enough v
    · simp only [running]
      exact ⟨0, fun _ _ => rfl⟩
  | cons branch path ih =>
    unfold dispatchRounds dispatch
    by_cases running : e.isRunning = true
    · simp only [running]
      cases e.ahead with
      | nil => exact ⟨0, fun _ _ => rfl⟩
      | cons b rest =>
        cases group : b.join? with
        | none => exact ⟨0, fun _ _ => by simp only [group]; rfl⟩
        | some join =>
          cases found : findThread branch e.threads with
          | none => exact ⟨0, fun _ _ => by simp only [group, found]; rfl⟩
          | some parts =>
            obtain ⟨before, t, after⟩ := parts
            obtain ⟨inner, same⟩ := ih t.execution
            refine ⟨inner + (2 * blocksWeight rest + 3), fun stock enough => ?_⟩
            simp only [group, found, same stock (by omega), Bool.not_true, Bool.false_eq_true, if_false,
              Option.bind_some]
            refine Outcome.further_eq fun _ _ => ?_
            exact afterThreadRounds_eq _ (by omega) _
    · simp only [running]
      exact ⟨0, fun _ _ => rfl⟩

end Execution

namespace Run

theorem beginRounds_eq (e : Execution) (w : World σ) :
    ∃ enough, ∀ stock, enough ≤ stock →
      beginRounds services stock e w = some (begin services e w) := by
  refine ⟨2 * blocksWeight e.ahead + 2, fun stock enough => ?_⟩
  have entered (e' : Execution) (v : World σ) (same : e'.ahead = e.ahead) :
      Execution.enterRounds services stock e' v = some (Execution.enter services e' v) :=
    Execution.enter_suffices e' stock (same ▸ enough) v
  unfold beginRounds begin
  cases reminded : e.reminder with
  | none => exact entered _ w rfl
  | some reminder =>
    cases described : e.description with
    | none => exact entered _ w rfl
    | some description =>
      rcases called : w.addReminder services description reminder with ⟨answer, v⟩
      simp only [called]
      cases answer with
      | error error => rfl
      | ok id => exact entered _ v rfl

/-- With enough rounds a call is never cut off, and then it ends as the call does. No loop of rounds
needs more of them than twice the weight of what can still be entered. -/
structure CallsEnd (services : Services σ) (r : Run σ) : Prop where
  started : ∃ enough, ∀ stock, enough ≤ stock →
    beginRounds services stock r.root r.world = some (begin services r.root r.world)
  dispatched : ∀ path event, ∃ enough, ∀ stock, enough ≤ stock →
    r.root.dispatchRounds services stock event path r.world =
      some (r.root.dispatch services event path r.world)
  looped : ∀ (e : Execution) b rest after stock w, e.ahead = b :: rest →
    2 * blocksWeight (after ++ rest) + 3 ≤ stock →
    e.rounds services stock (.leave after) w = some (e.leave services b (after ++ rest) w)

/-- Every call ends, in every state and whatever the host answers. -/
theorem calls_end (services : Services σ) (r : Run σ) : r.CallsEnd services where
  started := beginRounds_eq r.root r.world
  dispatched path event := Execution.dispatchRounds_eq event path r.root r.world
  looped _ _ _ after _ w now enough := Execution.rounds_enough now after enough w

/-- Passes of passes without a body, and a group whose only branch is one of them. -/
def idlePasses : Run InMemory :=
  .ofWorkflow ⟨"idle", none, none, [.counted 2 [.counted 3 []],
    .parallel "idle beside" 1 [[.counted 2 []]], .task "rest"]⟩ .empty

example : (beginRounds InMemory.services 12 idlePasses.root idlePasses.world).isSome = false ∧
    (beginRounds InMemory.services 40 idlePasses.root idlePasses.world).isSome = true := by
  decide +kernel

end Run

end Stepwise
