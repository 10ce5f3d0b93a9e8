import Stepwise.Proofs.Countdowns.Routes
import Stepwise.Proofs.Landing

/-!
# Entering with one countdown

Entering a sequence leaves a tree that can be brought to its end just if the blocks ahead could, be
it with the countdown that runs then or, if a wait elsewhere takes that over, without it. The
threads of a group are started in order, so that each may take over the countdown of the ones before
it.
-/

namespace Stepwise

open InMemory (Displays)

/-- `e'` is where `e` comes to rest when it is entered while the countdown of `route` runs; that of
`route'` runs then. -/
structure Execution.LandsWith (e e' : Execution) (route route' : Option (List Nat)) : Prop where
  routed : e'.Routed
  kept : e'.endable route' = blocksEndable true e.ahead
  lost : e'.endable none = blocksEndable false e.ahead
  moves : Moves (e.address <+: ·) (blocksSet e.ahead) route route'

def Execution.LandsOnBoard (e : Execution) : Prop :=
  ∀ route (w : World InMemory), Displays (· = route) w.host → ∃ e' w' route',
    e.enter InMemory.services w = ⟨.ok (), e', w'⟩ ∧ Displays (· = route') w'.host ∧
    e.LandsWith e' route route'

/-- The places of the threads that are numbered on from `first`. -/
def PlacedFrom (address : List Nat) (first : Nat) (path : List Nat) : Prop :=
  ∃ branch, first ≤ branch ∧ address ++ [branch] <+: path

section Placed

variable {address path : List Nat} {first : Nat}

theorem PlacedFrom.here (inside : address ++ [first] <+: path) : PlacedFrom address first path :=
  ⟨first, Nat.le_refl first, inside⟩

theorem PlacedFrom.later (inside : PlacedFrom address (first + 1) path) :
    PlacedFrom address first path := by
  obtain ⟨branch, le, inside⟩ := inside
  exact ⟨branch, Nat.le_of_succ_le le, inside⟩

theorem PlacedFrom.inside (placed : PlacedFrom address first path) : address <+: path := by
  obtain ⟨branch, -, inside⟩ := placed
  exact (List.prefix_append address [branch]).trans inside

theorem PlacedFrom.apart (placed : PlacedFrom address (first + 1) path) :
    ¬ address ++ [first] <+: path := by
  intro inside
  obtain ⟨branch, le, inside'⟩ := placed
  have same := branch_unique inside inside'
  omega

end Placed

/-- The threads that are left of the branches from number `first` on once all have been started. -/
structure BranchesLand (address : List Nat) (first : Nat) (branches : List (List Template))
    (threads : List Thread) (route route' : Option (List Nat)) : Prop where
  routed : allRouted address threads
  kept : endableThreads route' threads + instantBranches branches = endableBranches true branches
  lost : endableThreads none threads + instantBranches branches = endableBranches false branches
  moves : Moves (PlacedFrom address first) (branches.any allSet) route route'

namespace BranchesLand

variable {address : List Nat} {first : Nat} {templates : List Template}
  {rest : List (List Template)} {threads : List Thread} {e : Execution}
  {route route₁ route' : Option (List Nat)}

theorem nil (address : List Nat) (first : Nat) (route : Option (List Nat)) :
    BranchesLand address first [] [] route route :=
  ⟨trivial, rfl, rfl, .refl _ _⟩

theorem moves_cons {set set' : Bool} (here : Moves (address ++ [first] <+: ·) set route route₁)
    (others : Moves (PlacedFrom address (first + 1)) set' route₁ route') :
    Moves (PlacedFrom address first) (set || set') route route' :=
  (here.mono fun _ => PlacedFrom.here).trans (others.mono fun _ => PlacedFrom.later)

/-- The first thread has run out. -/
theorem ended (instant : allInstant templates = true)
    (here : Moves (address ++ [first] <+: ·) (allSet templates) route route₁)
    (others : BranchesLand address (first + 1) rest threads route₁ route') :
    BranchesLand address first (templates :: rest) threads route route' where
  routed := others.routed
  kept := by
    have := others.kept
    simp only [instantBranches, instant, if_true, endableBranches, endableAll_of_instant instant,
      Bool.toNat_true]
    omega
  lost := by
    have := others.lost
    simp only [instantBranches, instant, if_true, endableBranches, endableAll_of_instant instant,
      Bool.toNat_true]
    omega
  moves := moves_cons here others.moves

/-- The threads behind a thread may take its countdown over. -/
theorem endable_first (address_e : e.address = address ++ [first]) (routed : e.Routed)
    (kept : e.endable route₁ = endableAll true templates)
    (lost : e.endable none = endableAll false templates)
    (here : Moves (address ++ [first] <+: ·) (allSet templates) route route₁)
    (others : BranchesLand address (first + 1) rest threads route₁ route') :
    e.endable route' = endableAll (!rest.any allSet) templates := by
  have moves := others.moves
  cases later : rest.any allSet with
  | true =>
    rw [later] at moves
    have outside : RouteIn (fun path => ¬ e.address <+: path) route' := by
      rw [address_e]
      exact RouteIn.mono moves fun path placed => placed.apart
    rw [routed.endable_outside outside, lost, Bool.not_true]
  | false =>
    rw [later] at moves
    rw [Bool.not_false]
    rcases moves with rfl | ⟨rfl, stale⟩
    · exact kept
    · cases set : allSet templates with
      | false => rw [lost, endableAll_unset false set]
      | true =>
        -- The thread has set the countdown, so that it is not one of the threads behind it.
        rw [set] at here
        have none : route₁ = none := by
          cases running : route₁ with
          | none => rfl
          | some path => exact absurd (here path running) (stale path running).apart
        rw [← kept, none]

/-- The first thread waits. -/
theorem waits (waiting : allInstant templates = false) (address_e : e.address = address ++ [first])
    (routed : e.Routed) (kept : e.endable route₁ = endableAll true templates)
    (lost : e.endable none = endableAll false templates)
    (here : Moves (address ++ [first] <+: ·) (allSet templates) route route₁)
    (others : BranchesLand address (first + 1) rest threads route₁ route') :
    BranchesLand address first (templates :: rest) (⟨first, e⟩ :: threads) route route' where
  routed := ⟨address_e, routed, others.routed⟩
  kept := by
    have first_able := endable_first address_e routed kept lost here others
    have := others.kept
    simp only [endableThreads, instantBranches, waiting, endableBranches, first_able,
      Bool.true_and, Bool.false_eq_true, if_false]
    omega
  lost := by
    have := others.lost
    simp only [endableThreads, instantBranches, waiting, endableBranches, lost,
      Bool.false_and, Bool.false_eq_true, if_false]
    omega
  moves := moves_cons here others.moves

end BranchesLand

/-- Where the thread of a branch lands, with what is known of any thread of a branch. -/
structure BranchLands (address : List Nat) (branch : Nat) (templates : List Template)
    (e : Execution) (route route' : Option (List Nat)) : Prop where
  stands : e.address = address ++ [branch]
  finished : e.finished = allInstant templates
  hooks : e.HooksSucceed
  routed : e.Routed
  kept : e.endable route' = endableAll true templates
  lost : e.endable none = endableAll false templates
  moves : Moves (address ++ [branch] <+: ·) (allSet templates) route route'

theorem branch_lands {templates : List Template}
    (lands : ∀ address, (startedThread address templates).LandsOnBoard) (address : List Nat)
    (branch : Nat) {route : Option (List Nat)} {w : World InMemory}
    (shown : Displays (· = route) w.host) :
    ∃ e w' route', Execution.enter InMemory.services
        (startedThread (address ++ [branch]) templates) w = ⟨.ok (), e, w'⟩ ∧
      Displays (· = route') w'.host ∧ BranchLands address branch templates e route route' := by
  obtain ⟨e, w', route', entered, shown', with_e⟩ := lands (address ++ [branch]) route w shown
  obtain ⟨e₁, w₁, entered₁, -, at_e⟩ :=
    startedThread_lands InMemory.reliable (address ++ [branch]) templates w shown.willing
  rw [entered] at entered₁
  cases entered₁
  have ahead : (startedThread (address ++ [branch]) templates).ahead =
      templates.map Block.ofTemplate := rfl
  refine ⟨e, w', route', entered, shown', ?_⟩
  exact
    { stands := at_e.address
      finished := at_e.finished.trans (Execution.all_isInstant_startedThread _ templates)
      hooks := at_e.hooks
      routed := with_e.routed
      kept := by rw [with_e.kept, ahead, blocksEndable_ofTemplates]
      lost := by rw [with_e.lost, ahead, blocksEndable_ofTemplates]
      moves := by
        have moves := with_e.moves
        rw [ahead, blocksSet_ofTemplates] at moves
        exact moves }

theorem BranchLands.inside {address : List Nat} {branch : Nat} {templates : List Template}
    {e : Execution} {route route' : Option (List Nat)}
    (lands : BranchLands address branch templates e route route') :
    e.CountsIn (address <+: ·) ∧ Moves (address <+: ·) (allSet templates) route route' := by
  have below (path : List Nat) (inside : address ++ [branch] <+: path) : address <+: path :=
    (List.prefix_append address [branch]).trans inside
  refine ⟨lands.routed.countsIn fun path inside => below path ?_, lands.moves.mono below⟩
  rwa [← lands.stands]

/-- What starting threads comes to: the group ends with the thread that brings it to its target, and
all threads that were started before are cancelled, or it goes on with the threads that wait. -/
def StartsOnBoard (address : List Nat) (first : Nat) (branches : List (List Template))
    (started : List Thread) (join : Join) (route : Option (List Nat)) (w : World InMemory) : Prop :=
  ∃ counted threads w' route',
    startThreads InMemory.services (threadsFrom address first branches) started join w =
      ⟨.ok (decide (join.target ≤ join.completed + instantBranches branches)),
        (counted, threads), w'⟩ ∧
    Displays (· = route') w'.host ∧
    (join.target ≤ join.completed + instantBranches branches →
      Moves (address <+: ·) (branchesSet (join.target - join.completed) branches) route route') ∧
    (join.completed + instantBranches branches < join.target →
      counted = { join with completed := join.completed + instantBranches branches } ∧
      ∃ new, threads = started ++ new ∧ BranchesLand address first branches new route route')

namespace StartsOnBoard

variable {address : List Nat} {first : Nat} {templates : List Template}
  {rest : List (List Template)} {started : List Thread} {join : Join}
  {route route₁ : Option (List Nat)} {w v : World InMemory} {e : Execution}

theorem nil (short : join.completed < join.target) (shown : Displays (· = route) w.host) :
    StartsOnBoard address first [] started join route w := by
  have few : ¬ join.target ≤ join.completed + 0 := Nat.not_le.mpr short
  refine ⟨join, started, w, route, ?_, shown, fun h => absurd h few, fun _ => ?_⟩
  · simp only [threadsFrom, startThreads, instantBranches, few, decide_false]
  · exact ⟨rfl, [], (List.append_nil _).symm, .nil address first route⟩

section Next

variable (entered : Execution.enter InMemory.services (startedThread (address ++ [first]) templates)
    w = ⟨.ok (), e, v⟩) (at_e : BranchLands address first templates e route route₁)
include entered at_e

/-- The next thread waits. -/
theorem waits (waiting : allInstant templates = false)
    (others : StartsOnBoard address (first + 1) rest (started ++ [⟨first, e⟩]) join route₁ v) :
    StartsOnBoard address first (templates :: rest) started join route w := by
  obtain ⟨counted, threads, w', route', run, shown', ends, stays⟩ := others
  have same : instantBranches (templates :: rest) = instantBranches rest := by
    simp [instantBranches, waiting]
  have unfinished : e.finished = false := at_e.finished.trans waiting
  unfold StartsOnBoard
  rw [same]
  refine ⟨counted, threads, w', route', ?_, shown', fun enough => ?_, fun few => ?_⟩
  · rw [startThreads_cons entered, unfinished]
    exact run
  · simp only [branchesSet, waiting, Bool.false_eq_true, if_false]
    exact at_e.inside.2.trans (ends enough)
  · obtain ⟨counted_eq, new, rfl, others⟩ := stays few
    refine ⟨counted_eq, ⟨first, e⟩ :: new, ?_, .waits waiting at_e.stands at_e.routed at_e.kept
      at_e.lost at_e.moves others⟩
    rw [List.append_assoc, List.singleton_append]

/-- The next thread runs out and brings the group to its target. -/
theorem ends (instant : allInstant templates = true)
    (starting : join.Starting started first (rest.length + 1))
    (enough : join.completed + 1 = join.target) (hooks : hooksSucceed started)
    (inside : allCountIn (address <+: ·) started) (shown : Displays (· = route₁) v.host) :
    StartsOnBoard address first (templates :: rest) started join route w := by
  have reached : join.target ≤ join.completed + instantBranches (templates :: rest) := by
    simp only [instantBranches, instant, if_true]
    omega
  have last : join.target - join.completed = 1 := by omega
  have spared : Displays (Spared (address <+: ·) route₁) v.host :=
    ⟨shown.willing, Or.inl shown.route⟩
  obtain ⟨w', cancelled, spared'⟩ :=
    cancelThreads_within (InMemory.cancels_displays _ route₁) inside hooks spared
  refine ⟨{ join with completed := join.target, done := true }, [], w', w'.host.route, ?_,
    spared'.self, fun _ => ?_, fun few => absurd reached (Nat.not_le.mpr few)⟩
  · rw [startThreads_joins starting entered (at_e.finished.trans instant) enough cancelled rfl,
      decide_eq_true reached]
  · have unset : branchesSet (join.target - join.completed) (templates :: rest) =
        (allSet templates || false) := by
      simp [branchesSet, instant, last]
    have stopped : Moves (address <+: ·) false route₁ w'.host.route := spared'.route
    rw [unset]
    exact at_e.inside.2.trans stopped

/-- The next thread runs out and is counted. -/
theorem counts (instant : allInstant templates = true)
    (starting : join.Starting started first (rest.length + 1))
    (more : join.completed + 1 ≠ join.target)
    (others : StartsOnBoard address (first + 1) rest started
      { join with completed := join.completed + 1 } route₁ v) :
    StartsOnBoard address first (templates :: rest) started join route w := by
  obtain ⟨counted, threads, w', route', run, shown', ends, stays⟩ := others
  have target : ({ join with completed := join.completed + 1 } : Join).target = join.target := rfl
  have sum : join.completed + 1 + instantBranches rest =
      join.completed + instantBranches (templates :: rest) := by
    simp only [instantBranches, instant, if_true]
    omega
  simp only [target, sum] at run ends stays
  refine ⟨counted, threads, w', route', ?_, shown', fun reached => ?_, fun few => ?_⟩
  · rw [startThreads_counts starting rfl entered (at_e.finished.trans instant) more]
    exact run
  · have short := starting.short
    have further : (join.target - join.completed != 1) = true := by
      simp only [bne_iff_ne]
      omega
    have fewer : join.target - join.completed - 1 = join.target - (join.completed + 1) := by
      omega
    simp only [branchesSet, instant, if_true, further, Bool.true_and, fewer]
    exact at_e.inside.2.trans (ends reached)
  · obtain ⟨counted_eq, new, same_threads, others⟩ := stays few
    exact ⟨counted_eq, new, same_threads, .ended instant at_e.moves others⟩

end Next

end StartsOnBoard

theorem startThreads_board {address : List Nat} {branches : List (List Template)}
    (lands : ∀ templates ∈ branches, ∀ address, (startedThread address templates).LandsOnBoard)
    {first : Nat} {started : List Thread} {join : Join} {route : Option (List Nat)}
    {w : World InMemory} (starting : join.Starting started first branches.length)
    (hooks : hooksSucceed started) (inside : allCountIn (address <+: ·) started)
    (shown : Displays (· = route) w.host) :
    StartsOnBoard address first branches started join route w := by
  induction branches generalizing first started join route w with
  | nil => exact .nil starting.short shown
  | cons templates rest ih =>
    have rest_lands := fun ts h => lands ts (List.mem_cons_of_mem templates h)
    obtain ⟨e, v, route₁, entered, shown_v, at_e⟩ :=
      branch_lands (lands templates List.mem_cons_self) address first shown
    cases instant : allInstant templates with
    | false =>
      refine .waits entered at_e instant (ih rest_lands (starting.keep e) ?_ ?_ shown_v)
      · exact (hooksSucceed_append _ _).mpr ⟨hooks, at_e.hooks, trivial⟩
      · exact (allCountIn_append _ _).mpr ⟨inside, at_e.inside.1, trivial⟩
    | true =>
      by_cases enough : join.completed + 1 = join.target
      · exact .ends entered at_e instant starting enough hooks inside shown_v
      · exact .counts entered at_e instant starting enough
          (ih rest_lands (starting.count enough) hooks inside shown_v)

namespace Block

theorem endable_of_sleepless {b : Block} (sleepless : b.sleep? = none) (waits : b.Waits)
    (kept awaited : Bool) (able : Nat) : b.passable awaited able = b.endable kept := by
  obtain ⟨id, image, reminder, handle, hooks, text, activity⟩ := b
  cases activity with
  | sleep s => cases sleepless
  | counted remaining entered body => exact False.elim waits
  | parallel join => exact False.elim waits
  | _ => rfl

theorem sets_of_sleepless {b : Block} (sleepless : b.sleep? = none) (waits : b.Waits) :
    b.sets = false := by
  obtain ⟨id, image, reminder, handle, hooks, text, activity⟩ := b
  cases activity with
  | sleep s => cases sleepless
  | counted remaining entered body => exact False.elim waits
  | parallel join => exact False.elim waits
  | _ => rfl

theorem not_asleep {b : Block} (sleepless : b.sleep? = none) (s : Sleep) :
    b.activity ≠ .sleep s := by
  intro activity
  simp only [sleep?, activity, reduceCtorEq] at sleepless

end Block

theorem blocksSet_of_instant {b : Block} (instant : b.isInstant = true) (rest : List Block) :
    blocksSet (b :: rest) = (b.sets || blocksSet rest) := by
  rw [blocksSet, instant, Bool.true_and]

theorem blocksSet_of_waits {b : Block} (waits : b.isInstant = false) (rest : List Block) :
    blocksSet (b :: rest) = b.sets := by
  rw [blocksSet, waits, Bool.false_and, Bool.or_false]

theorem blocksEndable_of_skip {b : Block} (instant : b.isInstant = true) (rest : List Block)
    (kept : Bool) : blocksEndable kept (b :: rest) = blocksEndable kept rest := by
  simp only [blocksEndable, instant, if_true]

theorem blocksEndable_of_waits {b : Block} (waits : b.isInstant = false) (rest : List Block)
    (kept : Bool) :
    blocksEndable kept (b :: rest) = (b.endable kept && blocksEndable true rest) := by
  simp only [blocksEndable, waits, Bool.false_eq_true, if_false]

namespace Execution

variable {e e' : Execution} {b : Block} {rest : List Block}
  {route route₁ route' : Option (List Nat)}

/-- Landing of a sequence that goes on in the same call. -/
theorem LandsWith.of_advance {left : Block} {ahead : List Block} {set : Bool}
    (now : e.ahead = b :: rest)
    (endable : ∀ kept, blocksEndable kept ahead = blocksEndable kept (b :: rest))
    (sets : blocksSet (b :: rest) = (set || blocksSet ahead))
    (moves : Moves (e.address <+: ·) set route route₁)
    (lands : LandsWith ⟨e.advance left ahead, []⟩ e' route₁ route') :
    e.LandsWith e' route route' where
  routed := lands.routed
  kept := by
    rw [now, ← endable]
    exact lands.kept
  lost := by
    rw [now, ← endable]
    exact lands.lost
  moves := by
    rw [now, sets]
    exact moves.trans lands.moves

theorem LandsOnBoard.of_advance (now : e.ahead = b :: rest)
    (goes_on : ∀ route (w : World InMemory), Displays (· = route) w.host →
      ∃ left ahead w' route₁ set, e.enter InMemory.services w =
          Execution.enter InMemory.services ⟨e.advance left ahead, []⟩ w' ∧
        Displays (· = route₁) w'.host ∧
        (∀ kept, blocksEndable kept ahead = blocksEndable kept (b :: rest)) ∧
        blocksSet (b :: rest) = (set || blocksSet ahead) ∧
        Moves (e.address <+: ·) set route route₁ ∧ LandsOnBoard ⟨e.advance left ahead, []⟩) :
    e.LandsOnBoard := by
  intro route w shown
  obtain ⟨left, ahead, v, route₁, set, entered, shown_v, endable, sets, moves, lands⟩ :=
    goes_on route w shown
  obtain ⟨e', w', route', entered', shown', with_e'⟩ := lands route₁ v shown_v
  exact ⟨e', w', route', entered.trans entered', shown', with_e'.of_advance now endable sets moves⟩

theorem LandsOnBoard.of_spent (running : e.isRunning = true) (now : e.ahead = []) :
    e.LandsOnBoard := by
  intro route w shown
  have unfinished : e.finished = false := Sequence.unfinished_of_running running
  obtain ⟨w', entered, shown'⟩ := enter_nil InMemory.calm_displays now unfinished shown
  have ended (route : Option (List Nat)) :
      endable route ⟨{ e.toSequence with finished := true, handle := none }, []⟩ = true :=
    endable_nil (e := ⟨{ e.toSequence with finished := true, handle := none }, []⟩) now route
  refine ⟨_, w', route, entered, shown', ?_⟩
  exact
    { routed := by
        refine ⟨fun b s current => ?_, trivial⟩
        simp [Sequence.current?, now] at current
      kept := by
        rw [now]
        exact ended route
      lost := by
        rw [now]
        exact ended none
      moves := by
        rw [now]
        exact Spared.refl _ route }

/-- A block that leaves at once and sets no countdown. -/
theorem LandsOnBoard.of_instant (now : e.ahead = b :: rest) (instant : b.isInstant = true)
    (unset : b.sets = false)
    (goes_on : ∀ route (w : World InMemory), Displays (· = route) w.host → ∃ left w',
      e.enter InMemory.services w =
        Execution.enter InMemory.services ⟨e.advance left rest, []⟩ w' ∧
      Displays (· = route) w'.host)
    (lands : ∀ left, LandsOnBoard ⟨e.advance left rest, []⟩) : e.LandsOnBoard := by
  refine .of_advance now fun route w shown => ?_
  obtain ⟨left, w', entered, shown'⟩ := goes_on route w shown
  refine ⟨left, rest, w', route, false, entered, shown', ?_, ?_, .refl _ route, lands left⟩
  · intro kept
    rw [blocksEndable_of_skip instant]
  · rw [blocksSet_of_instant instant, unset]

/-- A block that waits for an event other than the end of a countdown. -/
theorem LandsOnBoard.of_still (now : e.ahead = b :: rest) (waits : b.Waits)
    (sleepless : b.sleep? = none) : e.LandsOnBoard := by
  intro route w shown
  obtain ⟨handle, w', entered, shown'⟩ :=
    enter_still (InMemory.calm_displays) now waits sleepless shown
  have here (kept awaited : Bool) : ({ b with handle } : Block).passable awaited 0 =
      b.endable kept := Block.endable_of_sleepless (b := b) sleepless waits kept awaited 0
  refine ⟨_, w', route, entered, shown', ?_⟩
  exact
    { routed := .with_block (fun s asleep => absurd asleep (b.not_asleep sleepless s)) trivial
      kept := by
        rw [endable_with_block, now, blocksEndable_of_waits waits.not_instant]
        exact congrArg (· && blocksEndable true rest) (here true _)
      lost := by
        rw [endable_with_block, now, blocksEndable_of_waits waits.not_instant]
        exact congrArg (· && blocksEndable true rest) (here false _)
      moves := by
        rw [now, blocksSet_of_waits waits.not_instant, Block.sets_of_sleepless sleepless waits]
        exact Spared.refl _ route }

/-- A wait whose countdown is set. -/
theorem LandsOnBoard.of_sleep {s : Sleep} (now : e.ahead = b :: rest)
    (activity : b.activity = .sleep s) (positive : 0 < s.value) : e.LandsOnBoard := by
  intro route w shown
  obtain ⟨handle, s', w', entered, shown', -, route_eq⟩ := enter_asleep InMemory.calm_displays now
    activity positive (InMemory.startCountdown_leads s.value s.unit e.address) shown
  have waits : b.isInstant = false := by simp [Block.isInstant, activity, positive]
  refine ⟨_, w', some e.address, entered, shown', ?_⟩
  exact
    { routed := by
        refine .with_block ?_ trivial
        rintro _ ⟨⟩
        exact route_eq
      kept := by
        rw [endable_with_block, now, blocksEndable_of_waits waits]
        simp [Block.passable, Block.endable, activity]
      lost := by
        rw [endable_with_block, now, blocksEndable_of_waits waits]
        simp [Block.passable, Block.endable, activity]
      moves := by
        rw [now, blocksSet_of_waits waits]
        simp only [Block.sets, activity, positive, decide_true]
        rintro _ ⟨⟩
        exact List.prefix_refl _ }

section Group

variable {join : Join} (now : e.ahead = b :: rest) (activity : b.activity = .parallel join)
  (succeed : b.HooksSucceed) (some_branch : join.branches ≠ [])
  (start : ∀ route (v : World InMemory), Displays (· = route) v.host →
    StartsOnBoard e.address 0 join.branches [] join.opened route v)
include now activity succeed some_branch start

/-- A group that runs out at once may have set a countdown first. -/
theorem LandsOnBoard.of_joined (reached : join.target ≤ instantBranches join.branches)
    (rest_lands : ∀ left, LandsOnBoard ⟨e.advance left rest, []⟩) : e.LandsOnBoard := by
  have instant : b.isInstant = true := by simp [Block.isInstant, activity, reached]
  refine .of_advance now fun route w shown => ?_
  obtain ⟨v, shown_v, entered⟩ :=
    enter_group InMemory.calm_displays now activity some_branch succeed shown
  obtain ⟨counted, threads, v', route', run, shown_v', ends, -⟩ := start route v shown_v
  have enough : join.opened.target ≤ join.opened.completed + instantBranches join.branches := by
    rw [Join.opened, Nat.zero_add]
    exact reached
  rw [decide_eq_true enough] at run
  obtain ⟨handle, w', shown', outcome⟩ :=
    entered _ InMemory.calm_displays _ counted threads v' run shown_v'
  rw [if_pos rfl] at outcome
  refine ⟨_, rest, w', route', b.sets, outcome, shown',
    fun kept => (blocksEndable_of_skip instant rest kept).symm, ?_, ?_,
    rest_lands _⟩
  · exact blocksSet_of_instant instant rest
  · simp only [Block.sets, activity]
    exact ends enough

/-- A group that is still open waits with the threads that do. -/
theorem LandsOnBoard.of_open (few : instantBranches join.branches < join.target) :
    e.LandsOnBoard := by
  have waits : b.isInstant = false := by
    simp only [Block.isInstant, activity, decide_eq_false_iff_not]
    exact Nat.not_le.mpr few
  have below : join.opened.completed + instantBranches join.branches < join.opened.target := by
    rw [Join.opened, Nat.zero_add]
    exact few
  intro route w shown
  obtain ⟨v, shown_v, entered⟩ :=
    enter_group InMemory.calm_displays now activity some_branch succeed shown
  obtain ⟨counted, threads, v', route', run, shown_v', -, stays⟩ := start route v shown_v
  obtain ⟨rfl, _, rfl, land⟩ := stays below
  rw [decide_eq_false (Nat.not_le.mpr below)] at run
  obtain ⟨handle, w', shown', outcome⟩ := entered _ InMemory.calm_displays _ _ _ v' run shown_v'
  rw [if_neg Bool.false_ne_true] at outcome
  have same (route : Option (List Nat)) (kept : Bool)
      (able : endableThreads route threads + instantBranches join.branches =
        endableBranches kept join.branches) (awaited : Bool) :
      ({ b with handle, activity := .parallel { join.opened with
        completed := join.opened.completed + instantBranches join.branches } } : Block).passable
          awaited (endableThreads route threads) = b.endable kept := by
    have sum : 0 + instantBranches join.branches + endableThreads route threads =
        endableBranches kept join.branches := by omega
    simp only [Block.passable, Block.endable, activity, Join.opened, sum]
    rfl
  refine ⟨_, w', route', outcome, shown', ?_⟩
  exact
    { routed := by
        refine .with_block ?_ land.routed
        rintro s ⟨⟩
      kept := by
        rw [endable_with_block, now, blocksEndable_of_waits waits]
        exact congrArg (· && blocksEndable true rest) (same _ true land.kept _)
      lost := by
        rw [endable_with_block, now, blocksEndable_of_waits waits]
        exact congrArg (· && blocksEndable true rest) (same _ false land.lost _)
      moves := by
        have moves := land.moves.mono fun _ => PlacedFrom.inside
        rw [← branchesSet_eq few] at moves
        rw [now, blocksSet_of_waits waits]
        simp only [Block.sets, activity]
        exact moves }

end Group

theorem LandsOnBoard.of_group {join : Join} (now : e.ahead = b :: rest)
    (activity : b.activity = .parallel join) (succeed : b.HooksSucceed)
    (threads_land : ∀ templates ∈ join.branches, ∀ address,
      (startedThread address templates).LandsOnBoard)
    (rest_lands : ∀ left, LandsOnBoard ⟨e.advance left rest, []⟩) : e.LandsOnBoard := by
  by_cases none : join.branches = []
  · have instant : b.isInstant = true := by
      simp [Block.isInstant, activity, Join.target_branchless none]
    have unset : b.sets = false := by simp [Block.sets, activity, none, branchesSet]
    refine .of_instant now instant unset (fun route w shown => ?_) rest_lands
    obtain ⟨left, w', entered, shown', -⟩ :=
      enter_branchless InMemory.calm_displays now activity none succeed shown
    exact ⟨left, w', entered, shown'⟩
  · have start (route : Option (List Nat)) (v : World InMemory)
        (shown : Displays (· = route) v.host) :
        StartsOnBoard e.address 0 join.branches [] join.opened route v :=
      startThreads_board threads_land (Join.starting_opened none) trivial trivial shown
    by_cases reached : join.target ≤ instantBranches join.branches
    · exact .of_joined now activity succeed none start reached rest_lands
    · exact .of_open now activity succeed none start (Nat.not_le.mp reached)

theorem enter_board (running : e.isRunning = true) (hooks : ∀ c ∈ e.ahead, c.HooksSucceed) :
    e.LandsOnBoard := by
  induction weight : blocksWeight e.ahead using Nat.strongRecOn generalizing e with
  | ind n ih =>
  cases now : e.ahead with
  | nil => exact .of_spent running now
  | cons b rest =>
    rw [now] at hooks weight
    have succeed := hooks b List.mem_cons_self
    have rest_hooks : ∀ c ∈ rest, c.HooksSucceed := fun c h => hooks c (List.mem_cons_of_mem b h)
    have lighter (left : Block) {ahead : List Block} (less : blocksWeight ahead < n)
        (quiet : ∀ c ∈ ahead, c.HooksSucceed) : LandsOnBoard ⟨e.advance left ahead, []⟩ :=
      ih _ less running quiet rfl
    have rest_lands (left : Block) : LandsOnBoard ⟨e.advance left rest, []⟩ := by
      refine lighter left ?_ rest_hooks
      have := b.weight_pos
      rw [blocksWeight_cons] at weight
      omega
    cases activity : b.activity with
    | task | condition | asked =>
      exact .of_still now (by simp [Block.Waits, activity]) (by simp [Block.sleep?, activity])
    | sleep s =>
      by_cases positive : 0 < s.value
      · exact .of_sleep now activity positive
      · refine .of_instant now (by simp [Block.isInstant, activity, positive])
          (by simp [Block.sets, activity, positive]) (fun route w shown => ?_) rest_lands
        obtain ⟨left, w', entered, shown', -⟩ :=
          enter_elapsed InMemory.calm_displays now activity positive succeed shown
        exact ⟨left, w', entered, shown'⟩
    | counted remaining entered body =>
      by_cases more : 0 < remaining
      · refine .of_advance now fun route w shown => ?_
        obtain ⟨left, next, w', entered', shown', -, next_hooks, next_activity, -⟩ :=
          enter_pass InMemory.calm_displays now activity more succeed shown
        have replaces := Replaces.pass activity more next_activity next_hooks rest_hooks
        refine ⟨left, _, w', route, false, entered', shown',
          blocksEndable_pass activity more next_activity, ?_, Spared.refl _ route,
          lighter left ?_ replaces.hooks⟩
        · rw [blocksSet_pass activity more next_activity, Bool.false_or]
        · rw [← weight]
          exact weight_next_pass_lt activity more next_activity rest
      · refine .of_instant now (by simp [Block.isInstant, activity, Int.not_lt.mp more])
          (by simp [Block.sets, activity, more]) (fun route w shown => ?_) rest_lands
        obtain ⟨left, w', entered', shown', -⟩ :=
          enter_exhausted InMemory.calm_displays now activity more succeed shown
        exact ⟨left, w', entered', shown'⟩
    | parallel join =>
      refine .of_group now activity succeed (fun templates mem address => ?_) rest_lands
      refine ih _ ?_ rfl (Block.hooksSucceed_ofTemplates templates) rfl
      rw [← weight]
      exact weight_startedThread_lt address activity mem rest

end Execution

end Stepwise
