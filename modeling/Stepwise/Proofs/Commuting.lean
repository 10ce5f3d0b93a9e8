import Stepwise.Proofs.Lasting
import Stepwise.Proofs.Pausing.Counting
import Stepwise.Proofs.Twins.Runs

/-!
# Events for different threads

Two events for threads of which neither is inside the other may come in either order, as long as
neither event alone ends the group at which the paths part. Each event is then told the same thread,
and gets the same numbers, only others; and whichever of the two comes second, it finds the group
counted in the same way. What the two do together, to the group and to those around it, they do in
both orders.
-/

namespace Stepwise

variable {σ : Type} {Good : σ → Prop} {services : Services σ} {k : Keeper services} {w : World σ}

/-- The path that two paths have in common, up to where they part. -/
def meet : List Nat → List Nat → List Nat
  | i :: p, j :: q => if i = j then i :: meet p q else []
  | _, _ => []

theorem meet_part {p q : List Nat} (apart : ¬ p <+: q) (apart' : ¬ q <+: p) :
    ∃ i j p' q', i ≠ j ∧ p = meet p q ++ i :: p' ∧ q = meet p q ++ j :: q' := by
  induction p generalizing q with
  | nil => exact absurd List.nil_prefix apart
  | cons i p ih =>
    cases q with
    | nil => exact absurd List.nil_prefix apart'
    | cons j q =>
      by_cases same : i = j
      · subst same
        rw [List.cons_prefix_cons] at apart apart'
        obtain ⟨i', j', p', q', other, left, right⟩ := ih (fun h => apart ⟨rfl, h⟩)
          fun h => apart' ⟨rfl, h⟩
        refine ⟨i', j', p', q', other, ?_, ?_⟩
        · rw [meet, if_pos rfl, List.cons_append, ← left]
        · rw [meet, if_pos rfl, List.cons_append, ← right]
      · refine ⟨i, j, p, q, same, ?_, ?_⟩
        · rw [meet, if_neg same, List.nil_append]
        · rw [meet, if_neg same, List.nil_append]

/-- The next event, whatever the last one was answered. -/
def Outcome.deliver (services : Services σ) (event : Event) (path : List Nat)
    (o : Outcome σ Execution Unit) : Outcome σ Execution Unit :=
  o.part.dispatch services event path o.world

/-- Nothing was there at first. -/
structure Pairing.Blank (c : Pairing services) : Prop where
  reminders : c.reminders = []
  reminders' : c.reminders' = []
  tokens : c.tokens = []
  tokens' : c.tokens' = []

/-- Both end in the same way and alike, and what was there in `w` has kept its numbers. -/
def Keeper.Agree (k : Keeper services) (w : World σ) (o o' : Outcome σ Execution Unit) : Prop :=
  ∃ c : Pairing services, c.toKeeper = k ∧ c.Blank ∧ ∃ v v',
    k.itself.naming w w ≤ c.naming v v' ∧ o.Alike c Execution.Alike v v' o'

theorem Join.tally_comm (j : Join) (x y : Execution) : (j.tally x).tally y = (j.tally y).tally x := by
  unfold tally
  split <;> split <;> rfl

theorem Join.tally_congr (j : Join) {x x' : Execution} (same : x'.finished = x.finished) :
    j.tally x' = j.tally x := by
  unfold tally
  rw [same]

theorem Thread.kept_alike {n : Naming} (t : Thread) {x x' : Execution} (executions : x.Alike n x') :
    ThreadsAlike n (t.kept x) (t.kept x') := by
  have same := ((Execution.alike_iff x x').mp executions).1.finished
  unfold kept
  rw [same]
  split
  · exact .nil
  · exact .cons executions .nil

namespace Execution

section Group

variable {e : Execution} {b : Block} {rest : List Block} {join : Join} {before after : List Thread}
  {t : Thread} {x : Execution}

theorem regrouped_alike {n : Naming} (lines : e.toSequence.Alike n e.toSequence)
    (current : b.Alike n b) (later : BlocksAlike n rest rest) (join : Join)
    {threads threads' : List Thread} (inside : ThreadsAlike n threads threads') :
    (e.regrouped b rest join threads).Alike n (e.regrouped b rest join threads') :=
  .mk (lines.with_ahead (.cons (current.regroup join) later)) inside

/-- An event for a thread of a settled group makes `x` of the thread, and the group stays. -/
structure StaysWith (services : Services σ) (event : Event) (path : List Nat) (w : World σ)
    (join : Join) (t : Thread) (x : Execution) (v : World σ) : Prop where
  delivered : t.execution.dispatch services event path w = ⟨.ok (), x, v⟩
  short : x.finished = true → join.completed + 1 ≠ join.target

theorem Settled.staysWith (reliable : services.Reliable Good) (settled : e.Settled)
    (quiet : hooksSucceed e.threads) (place : e.AtThread b rest join before t after) (event : Event)
    (path : List Nat) (good : Good w.host)
    (lasts : GroupLasts [] e (e.dispatch services event (t.branch :: path) w).part) :
    ∃ x v, StaysWith services event path w join t x v := by
  obtain ⟨x, v, delivered, -⟩ := settled.delivers reliable quiet place.mem event path good
  exact ⟨x, v, delivered, (place.lasts_iff delivered).mp lasts⟩

namespace AtThread

variable (place : e.AtThread b rest join before t after)
include place

theorem dispatch_short {event : Event} {path : List Nat} {w v : World σ}
    (stays : StaysWith services event path w join t x v) :
    e.dispatch services event (t.branch :: path) w =
      ⟨.ok (), e.regrouped b rest (join.tally x) (before ++ t.kept x ++ after), v⟩ := by
  rw [place.dispatch, stays.delivered, Outcome.bind_ok, place.afterThread_short stays.short]

/-- The place of another thread, when this one has become `x`. -/
theorem other (short : x.finished = true → join.completed + 1 ≠ join.target)
    {before' after' : List Thread} {u : Thread}
    (threads : before ++ t.kept x ++ after = before' ++ u :: after') :
    (e.regrouped b rest (join.tally x) (before' ++ u :: after')).AtThread
      { b with activity := .parallel (join.tally x) } rest (join.tally x) before' u after' where
  running := place.running
  group := ⟨rfl, rfl⟩
  threads := rfl
  is_open := by
    rw [← threads]
    exact place.is_open.tally short

/-- Another event then goes to another thread. -/
theorem deliver_other {f g : Event} {p q : List Nat} {w v v' : World σ} {y : Execution}
    {before' after' : List Thread} {u : Thread} (stays : StaysWith services f p w join t x v)
    (threads : before ++ t.kept x ++ after = before' ++ u :: after')
    (delivered : u.execution.dispatch services g q v = ⟨.ok (), y, v'⟩) :
    (e.dispatch services f (t.branch :: p) w).deliver services g (u.branch :: q) =
      (e.regrouped b rest (join.tally x) (before' ++ u :: after')).afterThread services
        { b with activity := .parallel (join.tally x) } rest (join.tally x) before' after'
        { u with execution := y } v' := by
  have next := place.other stays.short threads
  rw [Outcome.deliver, place.dispatch_short stays, threads, next.dispatch, delivered,
    Outcome.bind_ok]

/-- Two events for threads inside the same thread. -/
theorem deliver_inside {f g : Event} {p q : List Nat} {v : World σ}
    (delivered : t.execution.dispatch services f p w = ⟨.ok (), x, v⟩)
    (unfinished : x.finished = false) :
    (e.dispatch services f (t.branch :: p) w).deliver services g (t.branch :: q) =
      ((t.execution.dispatch services f p w).deliver services g q).bind
        (fun x => { e with threads := before ++ { t with execution := x } :: after })
        fun _ x w => e.afterThread services b rest join before after { t with execution := x } w := by
  have next : AtThread { e with threads := before ++ { t with execution := x } :: after } b rest
      join before { t with execution := x } after :=
    ⟨place.running, ⟨place.group.now, place.group.activity⟩, rfl, place.is_open.replace x⟩
  rw [Outcome.deliver, place.dispatch, delivered, Outcome.bind_ok, afterThread_runs unfinished]
  exact next.dispatch g q v

end AtThread

end Group

section Two

variable {e : Execution} {b : Block} {rest : List Block} {join : Join}
  {before between after : List Thread} {t u : Thread} {x y : Execution} {w1 w2 : World σ}
  {f g : Event} {p q : List Nat}

/-- The thread that is told second is told the same, and both are given the same numbers, only
others. -/
theorem deliver_either (alike : w.Alike k.itself w)
    (t_own : t.execution.Alike (k.itself.naming w w) t.execution)
    (u_own : u.execution.Alike (k.itself.naming w w) u.execution)
    (first : StaysWith services f p w join t x w1)
    (second : StaysWith services g q w join u y w2) :
    ∃ x' y' w12 w21, u.execution.dispatch services g q w1 = ⟨.ok (), y', w12⟩ ∧
      t.execution.dispatch services f p w2 = ⟨.ok (), x', w21⟩ ∧ Orders k w w1 w2 w12 w21 ∧
      x.Alike ((k.swap w w1 w2).naming w12 w21) x' ∧
      y'.Alike ((k.swap w w1 w2).naming w12 w21) y := by
  have alone := dispatch_alike f p t_own alike
  have alone' := dispatch_alike g q u_own alike
  rw [first.delivered] at alone
  rw [second.delivered] at alone'
  have later := dispatch_alike f p (t_own.mono naming_shift)
    (alike_shift alike alone'.leads.alike alone'.leads.before)
  have later' := dispatch_alike g q (u_own.mono naming_shift)
    (alike_shift alike alone.leads.alike alone.leads.before)
  rw [first.delivered] at later
  rw [second.delivered] at later'
  rcases x_later : t.execution.dispatch services f p w2 with ⟨answer, x', w21⟩
  rcases y_later : u.execution.dispatch services g q w1 with ⟨answer', y', w12⟩
  rw [x_later] at later
  rw [y_later] at later'
  obtain ⟨rfl, x_alike, leads⟩ := later
  obtain ⟨rfl, y_alike, leads'⟩ := later'
  have orders : Orders k w w1 w2 w12 w21 := ⟨alike.numbered, alike.turn, leads, leads'⟩
  exact ⟨x', y', w12, w21, rfl, rfl, orders, x_alike.mono orders.naming_first,
    y_alike.flip.mono orders.naming_second⟩

/-- Two threads of a group take one event each, and none of the two ends the group alone. -/
theorem commute_threads
    (place : e.AtThread b rest join before t (between ++ u :: after))
    (own : e.Alike (k.itself.naming w w) e) (alike : w.Alike k.itself w)
    (first : StaysWith services f p w join t x w1)
    (second : StaysWith services g q w join u y w2) :
    k.Agree w ((e.dispatch services f (t.branch :: p) w).deliver services g (u.branch :: q))
      ((e.dispatch services g (u.branch :: q) w).deliver services f (t.branch :: p)) := by
  obtain ⟨lines, inside⟩ := (alike_iff e e).mp own
  rw [place.threads, ThreadsAlike.append_self, ThreadsAlike.cons_self, ThreadsAlike.append_self,
    ThreadsAlike.cons_self] at inside
  obtain ⟨before_own, t_own, between_own, u_own, after_own⟩ := inside
  obtain ⟨x', y', w12, w21, y_later, x_later, orders, x_alike, y_alike⟩ :=
    deliver_either alike t_own u_own first second
  have old := orders.naming_old
  have blocks := (lines.mono old).ahead
  rw [place.group.now] at blocks
  obtain ⟨current, later⟩ := List.forall₂_cons.mp blocks
  have x_same := ((alike_iff _ _).mp x_alike).1.finished
  have y_same := ((alike_iff _ _).mp y_alike).1.finished
  have split : before ++ t.kept x ++ (between ++ u :: after) =
      (before ++ t.kept x ++ between) ++ u :: after := by
    simp only [List.append_assoc]
  have split' : before ++ t :: between ++ u.kept y ++ after =
      before ++ t :: (between ++ u.kept y ++ after) := by
    simp only [List.append_assoc, List.cons_append]
  refine ⟨k.swap w w1 w2, rfl, ⟨rfl, rfl, rfl, rfl⟩, w12, w21, old, ?_⟩
  rw [place.deliver_other first split y_later, place.later.deliver_other second split' x_later]
  by_cases both : x.finished = true ∧ y.finished = true
  · -- The second one may end the group, with the same threads left in both orders.
    obtain ⟨x_done, y_done⟩ := both
    rw [join.tally_congr (y_done.trans x_done.symm)]
    refine afterThread_finished_alike ?_ (current.regroup _) later orders.alike
      (y_same.symm.trans y_done) (x_same.trans x_done) ?_
    · exact (lines.mono old).with_ahead (.cons (current.regroup _) later)
    · simp only [Thread.kept, x_done, y_done, if_true, List.append_nil, List.append_assoc]
      exact (before_own.mono old).append ((between_own.mono old).append (after_own.mono old))
  · -- One of them goes on, so the other one is still short of the end of the group.
    have short : y'.finished = true → (join.tally x).completed + 1 ≠ (join.tally x).target := by
      intro y_done
      have x_runs : ¬ x.finished = true := fun x_done => both ⟨x_done, y_same.trans y_done⟩
      rw [Join.tally, if_neg x_runs]
      exact second.short (y_same.trans y_done)
    have short' : x'.finished = true → (join.tally y).completed + 1 ≠ (join.tally y).target := by
      intro x_done
      have y_runs : ¬ y.finished = true := fun y_done => both ⟨x_same.symm.trans x_done, y_done⟩
      rw [Join.tally, if_neg y_runs]
      exact first.short (x_same.symm.trans x_done)
    rw [(place.other first.short split).afterThread_short short,
      (place.later.other second.short split').afterThread_short short', Join.tally_congr _ x_same,
      ← Join.tally_congr _ y_same, Join.tally_comm]
    refine ⟨rfl, regrouped_alike (lines.mono old) current later _ ?_, .refl orders.alike⟩
    simp only [List.append_assoc]
    have ends := (u.kept_alike y_alike).append (after_own.mono old)
    exact (before_own.mono old).append
      ((t.kept_alike x_alike).append ((between_own.mono old).append ends))

end Two

section Tree

variable {e x y : Execution} {f g : Event} {r : List Nat}

/-- Two events for threads of which neither is inside the other, and none of which ends the group at
which their paths part. The induction is on the path to this group. -/
theorem Settled.commute {i j : Nat} (lower : i < j) (p q : List Nat) (settled : e.Settled)
    (quiet : hooksSucceed e.threads) (own : e.Alike (k.itself.naming w w) e)
    (alike : w.Alike k.itself w) (found : e.thread? (r ++ i :: p) = some x)
    (found' : e.thread? (r ++ j :: q) = some y)
    (lasts : GroupLasts r e (e.dispatch services f (r ++ i :: p) w).part)
    (lasts' : GroupLasts r e (e.dispatch services g (r ++ j :: q) w).part) :
    k.Agree w ((e.dispatch services f (r ++ i :: p) w).deliver services g (r ++ j :: q))
      ((e.dispatch services g (r ++ j :: q) w).deliver services f (r ++ i :: p)) := by
  induction r generalizing e with
  | nil =>
    obtain ⟨t, mem, -, rfl, -⟩ := thread?_found found
    obtain ⟨u, mem', -, rfl, -⟩ := thread?_found found'
    obtain ⟨b, rest, join, group⟩ := settled.atGroup_of_mem mem
    obtain ⟨before, later, threads⟩ := List.append_of_mem mem
    have place := settled.atThread group threads
    rw [threads] at mem'
    obtain ⟨between, after, rfl⟩ := increasing_split place.is_open.increasing mem' lower
    obtain ⟨x, w1, first⟩ := settled.staysWith k.reliable quiet place f p alike.good lasts
    obtain ⟨y, w2, second⟩ := settled.staysWith k.reliable quiet place.later g q alike.good lasts'
    exact commute_threads place own alike first second
  | cons branch r ih =>
    obtain ⟨t, mem, first, rfl, inside_x⟩ := thread?_found found
    obtain ⟨s, -, first', -, inside_y⟩ := thread?_found found'
    obtain rfl : t = s := Option.some.inj (first.symm.trans first')
    obtain ⟨b, rest, join, group⟩ := settled.atGroup_of_mem mem
    obtain ⟨before, after, threads⟩ := List.append_of_mem mem
    have place := settled.atThread group threads
    have t_settled := ((settled_iff e).mp settled).2.2 t mem
    have t_quiet := ((hooksSucceed_iff _).mp ((hooksSucceed_forall _).mp quiet t mem)).2
    obtain ⟨lines, inside⟩ := (alike_iff e e).mp own
    rw [threads, ThreadsAlike.append_self, ThreadsAlike.cons_self] at inside
    obtain ⟨before_own, t_own, after_own⟩ := inside
    obtain ⟨x, v, delivered, -⟩ :=
      settled.delivers k.reliable quiet mem f (r ++ i :: p) alike.good
    obtain ⟨y, v', delivered', -⟩ :=
      settled.delivers k.reliable quiet mem g (r ++ j :: q) alike.good
    obtain ⟨runs, inner⟩ := lasts.inside place delivered
    obtain ⟨runs', inner'⟩ := lasts'.inside place delivered'
    obtain ⟨c, rfl, blank, u, u', old, agrees⟩ := ih t_settled t_quiet t_own inside_x inside_y
      (by rw [delivered]; exact inner) (by rw [delivered']; exact inner')
    refine ⟨c, rfl, blank, u, u', old, ?_⟩
    rw [List.cons_append, List.cons_append, place.deliver_inside delivered runs,
      place.deliver_inside delivered' runs']
    have blocks := (lines.mono old).ahead
    rw [group.now] at blocks
    obtain ⟨current, later⟩ := List.forall₂_cons.mp blocks
    replace lines := lines.mono old
    replace before_own := before_own.mono old
    replace after_own := after_own.mono old
    refine agrees.bind (fun n le x x' same => ?_) fun _ x x' v v' alike le same => ?_
    · exact .mk (lines.mono le) ((before_own.mono le).append (.cons same (after_own.mono le)))
    · exact afterThread_alike (lines.mono le) (current.mono le) (BlocksAlike.mono le later) alike
        (before_own.mono le) same (after_own.mono le)

end Tree

end Execution

theorem PauseRequests.isPaused_congr {p p' : PauseRequests}
    (same : p'.outstanding.length = p.outstanding.length) : p'.isPaused = p.isPaused := by
  have none : p'.outstanding = [] ↔ p.outstanding = [] := by
    rw [← List.length_eq_zero_iff, same, List.length_eq_zero_iff]
  rw [Bool.eq_iff_iff]
  simp [isPaused, none]

namespace Run

open PauseRequests (tokenCount tokenOf)

/-- What a host can ask for is the same in both runs. Whether reminders are paused is compared as
long as no token has been given out twice. -/
structure LooksLike (book : σ → ReminderBook) (r r' : Run σ) : Prop where
  snapshot : r'.root.snapshot = r.root.snapshot
  finished : r'.root.finished = r.root.finished
  paused : r.world.Few → r'.world.Few → r'.world.pause.isPaused = r.world.pause.isPaused
  reminders : ((book r'.world.host).active.map Prod.snd).Perm
    ((book r.world.host).active.map Prod.snd)

theorem LooksLike.symm {book : σ → ReminderBook} {r r' : Run σ} (same : r.LooksLike book r') :
    r'.LooksLike book r where
  snapshot := same.snapshot.symm
  finished := same.finished.symm
  paused few few' := (same.paused few' few).symm
  reminders := same.reminders.symm

theorem looksLike_of_agree {o o' : Outcome σ Execution Unit} (agree : k.Agree w o o') :
    (ofOutcome o).2.LooksLike k.book (ofOutcome o').2 := by
  obtain ⟨c, rfl, blank, v, v', -, -, part, leads⟩ := agree
  have alike := leads.alike
  have moved := alike.moved
  rw [blank.reminders, blank.reminders'] at moved
  constructor
  case snapshot => exact part.snapshot
  case finished => exact ((Execution.alike_iff _ _).mp part).1.finished
  case paused =>
    intro few few'
    have pool := (alike.pauses few few').moved
    rw [blank.tokens, blank.tokens'] at pool
    have length := pool.values.length_eq
    simp only [PauseRequests.pool, List.length_map] at length
    exact PauseRequests.isPaused_congr length
  case reminders => exact moved.values

/-- In every state that calls can lead to, two events for threads of which neither is inside the
other lead to the same in both orders, if neither event alone ends the group at which the paths to
the threads part. -/
theorem events_commute {book : σ → ReminderBook} (reliable : services.Reliable Good)
    (keeps : services.KeepsBook book) {blocks : List HostBlock} {r : Run σ}
    (assembled : r.Assembled blocks) (good : Good r.world.host)
    (empty : book r.world.host = .empty) (calls : List Call) {p q : List Nat}
    (apart : ¬ p <+: q) (apart' : ¬ q <+: p)
    (found : (r.after services calls).root.thread? p ≠ none)
    (found' : (r.after services calls).root.thread? q ≠ none) (f g : Event)
    (lasts : Execution.GroupLasts (meet p q) (r.after services calls).root
      ((r.after services calls).perform services (.dispatch p f)).root)
    (lasts' : Execution.GroupLasts (meet p q) (r.after services calls).root
      ((r.after services calls).perform services (.dispatch q g)).root) :
    ((r.after services calls).after services [.dispatch p f, .dispatch q g]).LooksLike book
      ((r.after services calls).after services [.dispatch q g, .dispatch p f]) := by
  let k : Keeper services := ⟨Good, book, reliable, keeps⟩
  have own : (r.after services calls).Alike k.itself (r.after services calls) :=
    assembled.alike_after good empty calls
  have living := assembled.living_after reliable good calls
  generalize r.after services calls = now at *
  have some_thread : now.root.threads ≠ [] := by
    intro none
    cases p with
    | nil => exact apart List.nil_prefix
    | cons branch path =>
      apply found
      rw [Execution.thread?_cons, none]
      rfl
  obtain ⟨i, j, p', q', other, left, right⟩ := meet_part apart apart'
  obtain ⟨settled, quiet⟩ := living.staffed.threads some_thread
  obtain ⟨x, found⟩ := Option.ne_none_iff_exists'.mp found
  obtain ⟨y, found'⟩ := Option.ne_none_iff_exists'.mp found'
  generalize meet p q = common at *
  subst left right
  rcases Nat.lt_or_gt_of_ne other with lower | higher
  · exact looksLike_of_agree
      (settled.commute lower p' q' quiet own.root own.world found found' lasts lasts')
  · exact (looksLike_of_agree
      (settled.commute higher q' p' quiet own.root own.world found' found lasts' lasts)).symm

/-- Dinner for two people, one of whom has two things on the stove. -/
def twoOnStove : Run InMemory :=
  .ofWorkflow ⟨"dinner", none, none, [.parallel "both" 2 [[.task "lay the table"],
    [.parallel "stove" 2 [[(Template.sleep 9 .minutes "boil" true).withReminder ⟨3, .minutes⟩],
        [.task "stir", (Template.task "taste").withReminder ⟨1, .minutes⟩]],
      (Template.task "serve").withReminder ⟨5, .minutes⟩]]]⟩ .empty

theorem events_commute_twoOnStove :
    let now := twoOnStove.after InMemory.services [.start, .dispatch [1, 1] .done]
    (now.root.thread? [1, 0]).isSome = true ∧ (now.root.thread? [1, 1]).isSome = true ∧
      meet [1, 0] [1, 1] = [1] ∧
    (now.after InMemory.services [.dispatch [1, 0] .elapsed, .dispatch [1, 1] .done]).LooksLike
      InMemory.reminders
      (now.after InMemory.services [.dispatch [1, 1] .done, .dispatch [1, 0] .elapsed]) := by
  refine ⟨by decide +kernel, by decide +kernel, by decide, ?_⟩
  refine events_commute InMemory.reliable InMemory.keepsBook (assembled_ofWorkflow _ _)
    InMemory.willing_empty rfl _ (by decide) (by decide) ?_ ?_ _ _ ?_ ?_
  · decide +kernel
  · decide +kernel
  · decide +kernel
  · decide +kernel

/-- So many pauses that a host asks for and ends at once, the first of them with token 1. -/
def shortPauses (count : Nat) : List Call :=
  (List.range count).flatMap fun n => [.requestPause, .releasePause (n + 1)]

/-- The run with these pause requests and this journal instead of its own. -/
def repaused (r : Run σ) (pause : PauseRequests) (journal : List Entry) : Run σ :=
  { r with world := { r.world with pause, journal } }

variable (services) in
theorem shortPause_repaused (r : Run σ) (n : Nat) (journal : List Entry) :
    (r.repaused ⟨[0], n + 1⟩ journal).after services [.requestPause, .releasePause (n + 1)] =
      r.repaused ⟨[0], tokenOf (n + 2)⟩ (.pauseRequested (n + 1) :: journal) := by
  simp only [after, perform, requestPause, releasePause, World.requestPause, World.releasePause,
    World.note, repaused, PauseRequests.request_firstHeld, PauseRequests.release_firstHeld]

variable (services) in
/-- While token 0 is held, short pauses only use up tokens. -/
theorem shortPauses_repaused {r : Run σ} (first : r.world.pause = ⟨[0], 1⟩) {count : Nat}
    (few : count < tokenCount) : ∃ journal, r.after services (shortPauses count) =
      r.repaused ⟨[0], tokenOf (count + 1)⟩ journal := by
  induction count with
  | zero =>
    have same : r.repaused ⟨[0], 1⟩ r.world.journal = r := by rw [repaused, ← first]
    exact ⟨r.world.journal, same.symm⟩
  | succ count ih =>
    obtain ⟨journal, led⟩ := ih (Nat.lt_of_succ_lt few)
    have more : shortPauses (count + 1) =
        shortPauses count ++ [.requestPause, .releasePause (count + 1)] := by
      rw [shortPauses, List.range_succ, List.flatMap_append, List.flatMap_singleton]
      rfl
    have token : tokenOf (count + 1) = count + 1 := Nat.mod_eq_of_lt few
    rw [more, after_append, led, token, shortPause_repaused]
    exact ⟨_, rfl⟩

/-- Two people who rest without being reminded, the second one after some work. -/
def twoNaps : Run InMemory :=
  .ofWorkflow ⟨"rest", none, none, [.parallel "both" 2 [
    [.sleep 9 .minutes "doze" true, .task "get up"],
    [.task "tidy up", .sleep 5 .minutes "nap" true]]]⟩ .empty

/-- The first nap lasts while all other tokens are given out. It is far too long to be run. -/
noncomputable def longNap : Run InMemory :=
  twoNaps.after InMemory.services (.start :: shortPauses (tokenCount - 1))

theorem longNap_eq : longNap =
    (twoNaps.after InMemory.services [.start]).repaused ⟨[0], 0⟩ longNap.world.journal := by
  have first : (twoNaps.after InMemory.services [.start]).world.pause = ⟨[0], 1⟩ := by
    decide +kernel
  have few : tokenCount - 1 < tokenCount := Nat.sub_lt (by decide) Nat.one_pos
  have around : tokenOf (tokenCount - 1 + 1) = 0 := by decide
  obtain ⟨journal, led⟩ := shortPauses_repaused InMemory.services first few
  have lapped : longNap =
      (twoNaps.after InMemory.services [.start]).repaused ⟨[0], 0⟩ journal := by
    rw [longNap, ← List.singleton_append, after_append, led, around]
  rw [lapped]
  rfl

/-- The second nap gets the token of the first one. If the first one ends before, reminders are
paused in the end; if it ends after, it takes the pause from the second one. -/
theorem longNap_ordered :
    let rise := Call.dispatch [0] .elapsed
    let rest := Call.dispatch [1] .done
    (longNap.root.thread? [0] ≠ none ∧ longNap.root.thread? [1] ≠ none ∧
      Execution.GroupLasts (meet [0] [1]) longNap.root
        (longNap.perform InMemory.services rise).root ∧
      Execution.GroupLasts (meet [0] [1]) longNap.root
        (longNap.perform InMemory.services rest).root) ∧
    (longNap.after InMemory.services [rise, rest]).world.pause.isPaused = true ∧
      (longNap.after InMemory.services [rest, rise]).world.pause.isPaused = false := by
  -- Nothing looks at the journal, which alone is too long to be written out.
  rw [longNap_eq]
  decide +kernel

end Run

end Stepwise
