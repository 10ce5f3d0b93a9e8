import Mathlib.Data.List.Nodup
import Stepwise.Proofs.Pausing
import Stepwise.Proofs.Stores
import Stepwise.Proofs.Twins

/-!
# Worlds that are alike

A host that never refuses gives out the numbers of reminders in turn, and a run the tokens of pause
requests. So two runs that are asked the same are given numbers that stay paired, and what they have
added and removed, requested and released since they were started is the same under this pairing.
Tokens start again at zero when there were too many requests, and are not paired any more then.
-/

namespace Stepwise

variable {σ : Type} {services : Services σ}

/-- A host that never refuses and keeps a book of its reminders. -/
structure Keeper (services : Services σ) where
  Good : σ → Prop
  book : σ → ReminderBook
  reliable : services.Reliable Good
  keeps : services.KeepsBook book

/-- The numbers of one run paired with those of another with the same kind of host, and what the two
had at first. The numbers from the first ones on are those that are given out since then. -/
structure Pairing (services : Services σ) extends Keeper services where
  id : Nat → Nat
  id_injective : id.Injective
  token : Nat → Nat
  token_injective : token.Injective
  firstId : Nat
  firstToken : Nat
  reminders : Store (String × Reminder)
  reminders' : Store (String × Reminder)
  tokens : Store Unit
  tokens' : Store Unit

/-- The outstanding tokens, as a store of nothing else. -/
def PauseRequests.pool (p : PauseRequests) : Store Unit := p.outstanding.map (·, ())

namespace World

/-- There were fewer pause requests than tokens. -/
def Few (w : World σ) : Prop := pauseRequestsIn w.journal < PauseRequests.tokenCount

/-- No token is outstanding twice, and as long as there are few requests each token is new. -/
structure InTurn (w : World σ) : Prop where
  distinct : w.pause.outstanding.Nodup
  next : w.Few → w.pause.next = pauseRequestsIn w.journal
  earlier : w.Few → ∀ token ∈ w.pause.outstanding, token < w.pause.next

end World

namespace PauseRequests

variable {p : PauseRequests}

theorem pool_granted (new : p.next ∉ p.outstanding) : p.granted.pool = (p.next, ()) :: p.pool := by
  rw [pool, granted, List.insert_of_not_mem new]
  rfl

theorem pool_without (distinct : p.outstanding.Nodup) (token : Nat) :
    (p.without token).pool = p.pool.without [token] := by
  rw [pool, without, distinct.erase_eq_filter, pool, Store.without, List.filter_map]
  congr 1
  refine List.filter_congr fun other _ => ?_
  simp [bne, beq_eq_decide]

end PauseRequests

namespace Keeper

variable (k : Keeper services)

def lastId (w : World σ) : Nat := (k.book w.host).lastId

def active (w : World σ) : Store (String × Reminder) := (k.book w.host).active

/-- No active reminder has a number that is yet to be given out. -/
def Numbered (w : World σ) : Prop := ∀ item ∈ k.active w, item.1 ≤ k.lastId w

end Keeper

namespace Pairing

variable (c : Pairing services)

/-- The numbers that were given out, paired. -/
def naming (w w' : World σ) : Naming where
  ids i j := c.id i = j ∧ i ≤ c.lastId w
  tokens t u := w.Few → w'.Few → c.token t = u ∧ t < w.pause.next

/-- The next tokens are paired, and those that are outstanding have moved alike. -/
structure PausesAlike (p p' : PauseRequests) : Prop where
  next : ∀ k, c.token (p.next + k) = p'.next + k
  first : c.firstToken ≤ p.next
  moved : Store.Moved c.token c.firstToken c.tokens c.tokens' p.pool p'.pool

end Pairing

/-- The next numbers of reminders are paired, the active ones have moved alike, and so have pause
requests as long as there are few of them. -/
structure World.Alike (c : Pairing services) (w w' : World σ) : Prop where
  good : c.Good w.host
  good' : c.Good w'.host
  nextId : ∀ k, c.id (c.lastId w + 1 + k) = c.lastId w' + 1 + k
  firstId : c.firstId ≤ c.lastId w + 1
  moved : Store.Moved c.id c.firstId c.reminders c.reminders' (c.active w) (c.active w')
  numbered : c.Numbered w
  numbered' : c.Numbered w'
  turn : w.InTurn
  turn' : w'.InTurn
  pauses : w.Few → w'.Few → c.PausesAlike w.pause w'.pause

/-- No number is taken back. -/
structure Keeper.Before (k : Keeper services) (w v : World σ) : Prop where
  ids : k.lastId w ≤ k.lastId v
  requests : pauseRequestsIn w.journal ≤ pauseRequestsIn v.journal

namespace Keeper.Before

variable {k : Keeper services} {w v u : World σ}

theorem refl (w : World σ) : k.Before w w := ⟨Nat.le_refl _, Nat.le_refl _⟩

theorem trans (first : k.Before w v) (second : k.Before v u) : k.Before w u :=
  ⟨Nat.le_trans first.ids second.ids, Nat.le_trans first.requests second.requests⟩

theorem few (before : k.Before w v) (few : v.Few) : w.Few :=
  Nat.lt_of_le_of_lt before.requests few

theorem next (before : k.Before w v) (turn : w.InTurn) (turn' : v.InTurn) (few : v.Few) :
    w.pause.next ≤ v.pause.next := by
  rw [turn.next (before.few few), turn'.next few]
  exact before.requests

end Keeper.Before

namespace Pairing

/-- What was paired in these worlds is still paired in those, which are alike. -/
structure Leads (c : Pairing services) (w w' v v' : World σ) : Prop where
  alike : v.Alike c v'
  before : c.Before w v
  before' : c.Before w' v'
  names : c.naming w w' ≤ c.naming v v'

/-- The two calls have the same answer. -/
structure Answers {α : Type} (c : Pairing services) (w w' : World σ)
    (call call' : Except ServiceError α × World σ) : Prop where
  answer : call'.1 = call.1
  leads : c.Leads w w' call.2 call'.2

variable {c : Pairing services} {w w' v v' u u' : World σ}

theorem naming_le (before : c.Before w v) (before' : c.Before w' v') (turn : w.InTurn)
    (turn' : v.InTurn) : c.naming w w' ≤ c.naming v v' := by
  constructor
  · rintro i j ⟨paired, given⟩
    exact ⟨paired, Nat.le_trans given before.ids⟩
  · intro t u paired few few'
    obtain ⟨same, earlier⟩ := paired (before.few few) (before'.few few')
    exact ⟨same, Nat.lt_of_lt_of_le earlier (before.next turn turn' few)⟩

theorem leads_of (alike : w.Alike c w') (alike' : v.Alike c v') (before : c.Before w v)
    (before' : c.Before w' v') : c.Leads w w' v v' :=
  ⟨alike', before, before', naming_le before before' alike.turn alike'.turn⟩

theorem Leads.refl (alike : w.Alike c w') : c.Leads w w' w w' :=
  ⟨alike, .refl w, .refl w', le_refl _⟩

theorem Leads.trans (first : c.Leads w w' v v') (second : c.Leads v v' u u') :
    c.Leads w w' u u' :=
  ⟨second.alike, first.before.trans second.before, first.before'.trans second.before',
    le_trans first.names second.names⟩

@[elab_as_elim]
theorem Answers.elim {α : Type} {call call' : Except ServiceError α × World σ}
    {motive : Except ServiceError α × World σ → Except ServiceError α × World σ → Prop}
    (answers : c.Answers w w' call call')
    (same : ∀ answer v v', c.Leads w w' v v' → motive (answer, v) (answer, v')) :
    motive call call' := by
  obtain ⟨result, v⟩ := call
  obtain ⟨result', v'⟩ := call'
  obtain ⟨rfl, leads⟩ := answers
  exact same _ v v' leads

/-- The world differs in nothing that is paired. -/
structure Same (c : Pairing services) (w v : World σ) : Prop where
  good : c.Good v.host
  lastId : c.lastId v = c.lastId w
  active : c.active v = c.active w
  pause : v.pause = w.pause
  requests : pauseRequestsIn v.journal = pauseRequestsIn w.journal

theorem Same.trans (first : c.Same w v) (second : c.Same v u) : c.Same w u where
  good := second.good
  lastId := second.lastId.trans first.lastId
  active := second.active.trans first.active
  pause := second.pause.trans first.pause
  requests := second.requests.trans first.requests

theorem Same.numbered (same : c.Same w v) (numbered : c.Numbered w) : c.Numbered v := by
  unfold Keeper.Numbered
  rw [same.active, same.lastId]
  exact numbered

theorem inTurn_of_same (pause : v.pause = w.pause)
    (requests : pauseRequestsIn v.journal = pauseRequestsIn w.journal) (turn : w.InTurn) :
    v.InTurn := by
  obtain ⟨distinct, next, earlier⟩ := turn
  unfold World.Few at next earlier
  rw [← pause] at distinct next earlier
  rw [← requests] at next earlier
  exact ⟨distinct, next, earlier⟩

end Pairing

/-- Reminders move, and nothing else that is paired. -/
theorem World.Alike.move {c : Pairing services} {w w' v v' : World σ} (alike : w.Alike c w')
    (good : c.Good v.host) (good' : c.Good v'.host)
    (added : c.lastId w ≤ c.lastId v) (added' : c.lastId w' ≤ c.lastId v')
    (nextId : ∀ k, c.id (c.lastId v + 1 + k) = c.lastId v' + 1 + k)
    (moved : Store.Moved c.id c.firstId c.reminders c.reminders' (c.active v) (c.active v'))
    (numbered : c.Numbered v) (numbered' : c.Numbered v') (pause : v.pause = w.pause)
    (pause' : v'.pause = w'.pause)
    (requests : pauseRequestsIn v.journal = pauseRequestsIn w.journal)
    (requests' : pauseRequestsIn v'.journal = pauseRequestsIn w'.journal) :
    c.Leads w w' v v' := by
  refine Pairing.leads_of alike ?_ ⟨added, Nat.le_of_eq requests.symm⟩
    ⟨added', Nat.le_of_eq requests'.symm⟩
  constructor
  case good => exact good
  case good' => exact good'
  case nextId => exact nextId
  case firstId =>
    have first := alike.firstId
    omega
  case moved => exact moved
  case numbered => exact numbered
  case numbered' => exact numbered'
  case turn => exact Pairing.inTurn_of_same pause requests alike.turn
  case turn' => exact Pairing.inTurn_of_same pause' requests' alike.turn'
  case pauses =>
    unfold Few
    rw [requests, requests', pause, pause']
    exact alike.pauses

theorem World.Alike.same {c : Pairing services} {w w' v v' : World σ} (alike : w.Alike c w')
    (same : c.Same w v) (same' : c.Same w' v') : c.Leads w w' v v' := by
  refine alike.move same.good same'.good (Nat.le_of_eq same.lastId.symm)
    (Nat.le_of_eq same'.lastId.symm) ?_ ?_ (same.numbered alike.numbered)
    (same'.numbered alike.numbered') same.pause same'.pause same.requests same'.requests
  · rw [same.lastId, same'.lastId]
    exact alike.nextId
  · rw [same.active, same'.active]
    exact alike.moved

namespace Pairing

variable {c : Pairing services} {w w' : World σ}

theorem Same.note {v : World σ} (same : c.Same w v) {entry : Entry}
    (quiet : entry.isPauseRequest = false) : c.Same w (v.note entry) := by
  refine ⟨same.good, same.lastId, same.active, same.pause, ?_⟩
  show pauseRequestsIn (entry :: v.journal) = _
  rw [pauseRequestsIn_cons, quiet]
  exact same.requests

theorem same_refl (good : c.Good w.host) : c.Same w w := ⟨good, rfl, rfl, rfl, rfl⟩

theorem same_note (good : c.Good w.host) {entry : Entry} (quiet : entry.isPauseRequest = false) :
    c.Same w (w.note entry) :=
  (same_refl good).note quiet

theorem same_noteBuilt (good : c.Good w.host) (templates : List Template) :
    c.Same w (w.noteBuilt templates) := by
  induction templates generalizing w with
  | nil => exact same_refl good
  | cons t rest ih =>
    have noted : c.Same w (w.note (.built t)) := same_note good rfl
    have same : w.noteBuilt (t :: rest) = (w.note (.built t)).noteBuilt rest := by
      simp [World.noteBuilt, World.note]
    rw [same]
    exact noted.trans (ih noted.good)

theorem same_noteOpened (good : c.Good w.host) (branches : List (List Template)) :
    c.Same w (w.noteOpened branches) := by
  induction branches generalizing w with
  | nil => exact same_refl good
  | cons templates rest ih =>
    have opened : c.Same w (w.note (.opened none none)) := same_note good rfl
    have built := opened.trans (same_noteBuilt opened.good templates)
    exact built.trans (ih built.good)

/-- A request that leaves the book's reminders as they are is granted. -/
theorem ask_same {request : Request} {call : σ → Except ServiceError Unit × σ}
    (grants : Grants c.Good call)
    (lastId : ∀ h, (c.book (call h).2).lastId = (c.book h).lastId)
    (active : ∀ h, (c.book (call h).2).active = (c.book h).active) (good : c.Good w.host) :
    ∃ v, w.ask request call = (.ok (), v) ∧ c.Same w v := by
  obtain ⟨⟨⟩, h, called, good'⟩ := grants w.host good
  refine ⟨{ w with host := h, journal := .asked request (.ok ()) :: w.journal }, ?_, good', ?_, ?_,
    rfl, ?_⟩
  · simp only [World.ask, called]
  · have kept := lastId w.host
    rwa [called] at kept
  · have kept := active w.host
    rwa [called] at kept
  · rw [pauseRequestsIn_cons]
    rfl

theorem startCountdown_same (value : Int64) (unit : TimeUnit) (route : List Nat)
    (good : c.Good w.host) :
    ∃ v, w.startCountdown services value unit route = (.ok (), v) ∧ c.Same w v :=
  ask_same (c.reliable.startCountdown value unit route)
    (fun h => by rw [c.keeps.startCountdown]) (fun h => by rw [c.keeps.startCountdown]) good

theorem forceFinish_same (good : c.Good w.host) :
    ∃ v, w.forceFinish services = (.ok (), v) ∧ c.Same w v :=
  ask_same c.reliable.forceFinish (fun h => by rw [c.keeps.forceFinish])
    (fun h => by rw [c.keeps.forceFinish]) good

theorem cancelCountdown_same (route : List Nat) (good : c.Good w.host) :
    ∃ v, w.cancelCountdown services route = (.ok (), v) ∧ c.Same w v :=
  ask_same (c.reliable.cancelCountdown route) (fun h => by rw [c.keeps.cancelCountdown])
    (fun h => by rw [c.keeps.cancelCountdown]) good

end Pairing

namespace Keeper.Numbered

variable {k : Keeper services} {w v : World σ} (numbered : k.Numbered w)
include numbered

theorem without {id : Nat} (lastId : k.lastId v = k.lastId w)
    (active : k.active v = (k.active w).without [id]) : k.Numbered v := by
  intro item mem
  rw [active] at mem
  rw [lastId]
  exact numbered item (List.mem_of_mem_filter mem)

theorem append {item : String × Reminder} (lastId : k.lastId v = k.lastId w + 1)
    (active : k.active v = k.active w ++ [(k.lastId w + 1, item)]) : k.Numbered v := by
  intro other mem
  rw [active, List.mem_append] at mem
  rw [lastId]
  rcases mem with old | new
  · exact Nat.le_succ_of_le (numbered other old)
  · obtain rfl := List.mem_singleton.mp new
    exact Nat.le_refl _

end Keeper.Numbered

namespace Pairing

variable {c : Pairing services} {w w' : World σ}

theorem willing (c : Pairing services) {h : σ} (good : c.Good h) : (c.book h).Willing := by
  obtain ⟨a, h', granted, -⟩ := c.reliable.addReminder "" ⟨0, .seconds⟩ h good
  have answer := (c.keeps.addReminder "" ⟨0, .seconds⟩ h).1
  rw [granted, ReminderBook.add] at answer
  unfold ReminderBook.Willing
  cases failing : (c.book h).failing with
  | false => rfl
  | true =>
    rw [if_pos failing] at answer
    cases answer

theorem removeReminder_becomes (id : Nat) (good : c.Good w.host) :
    ∃ v, w.removeReminder services id = (.ok (), v) ∧ c.Good v.host ∧ c.lastId v = c.lastId w ∧
      c.active v = (c.active w).without [id] ∧ v.pause = w.pause ∧
      pauseRequestsIn v.journal = pauseRequestsIn w.journal := by
  obtain ⟨⟨⟩, h, removed, good'⟩ := c.reliable.removeReminder id w.host good
  have becomes := (c.keeps.removeReminder id w.host).2
  have unrefused : ¬ (c.book w.host).failing = true := by
    rw [c.willing good]
    exact Bool.false_ne_true
  rw [removed] at becomes
  refine ⟨{ w with host := h, journal := .asked (.removeReminder id) (.ok ()) :: w.journal }, ?_,
    good', ?_, ?_, rfl, ?_⟩
  · simp only [World.removeReminder, World.ask, removed]
  · show (c.book h).lastId = _
    rw [becomes, ReminderBook.lastId_remove]
    rfl
  · show (c.book h).active = (c.book w.host).active.filter _
    rw [becomes, ReminderBook.remove, if_neg unrefused]
    split
    · exact List.filter_congr fun item _ => by simp
    · next unknown =>
      refine (List.filter_eq_self.mpr fun item mem => ?_).symm
      have other : item.1 ≠ id := fun same => unknown (List.mem_map.mpr ⟨item, mem, same⟩)
      simpa using other
  · rw [pauseRequestsIn_cons]
    rfl

theorem addReminder_becomes (label : String) (r : Reminder) (good : c.Good w.host) :
    ∃ v, w.addReminder services label r = (.ok (c.lastId w + 1), v) ∧ c.Good v.host ∧
      c.lastId v = c.lastId w + 1 ∧
      c.active v = c.active w ++ [(c.lastId w + 1, label, r)] ∧ v.pause = w.pause ∧
      pauseRequestsIn v.journal = pauseRequestsIn w.journal := by
  obtain ⟨i, h, added, good'⟩ := c.reliable.addReminder label r w.host good
  obtain ⟨answer, becomes⟩ := c.keeps.addReminder label r w.host
  have unrefused : ¬ (c.book w.host).failing = true := by
    rw [c.willing good]
    exact Bool.false_ne_true
  rw [added, ReminderBook.add, if_neg unrefused] at answer becomes
  cases answer
  refine ⟨{ w with host := h, journal := .added label r (.ok (c.lastId w + 1)) :: w.journal },
    ?_, good', ?_, ?_,
    rfl, ?_⟩
  · simp only [World.addReminder, added]
    rfl
  · exact congrArg ReminderBook.lastId becomes
  · exact congrArg ReminderBook.active becomes
  · rw [pauseRequestsIn_cons]
    rfl

theorem setPaused_same (paused : Bool) (good : c.Good w.host) :
    ∃ v, w.setPaused services paused = (.ok (), v) ∧ c.Same w v := by
  refine ask_same (c.reliable.setPaused paused) (fun h => ?_) (fun h => ?_) good
  · rw [(c.keeps.setPaused paused h).2, ReminderBook.lastId_setPaused]
  · rw [(c.keeps.setPaused paused h).2, ReminderBook.active_setPaused]

end Pairing

namespace World.Alike

variable {c : Pairing services} {w w' : World σ} (alike : w.Alike c w')
include alike

theorem note {entry entry' : Entry} (quiet : entry.isPauseRequest = false)
    (quiet' : entry'.isPauseRequest = false) : c.Leads w w' (w.note entry) (w'.note entry') :=
  alike.same (Pairing.same_note alike.good quiet) (Pairing.same_note alike.good' quiet')

theorem removeReminder {i j : Nat} (named : (c.naming w w').ids i j) :
    c.Answers w w' (w.removeReminder services i) (w'.removeReminder services j) := by
  obtain ⟨rfl, -⟩ := named
  obtain ⟨v, removed, good, lastId, active, pause, requests⟩ :=
    c.removeReminder_becomes i alike.good
  obtain ⟨v', removed', good', lastId', active', pause', requests'⟩ :=
    c.removeReminder_becomes (c.id i) alike.good'
  rw [removed, removed']
  refine ⟨rfl, alike.move good good' (Nat.le_of_eq lastId.symm) (Nat.le_of_eq lastId'.symm) ?_ ?_
    (alike.numbered.without lastId active) (alike.numbered'.without lastId' active')
    pause pause' requests requests'⟩
  · rw [lastId, lastId']
    exact alike.nextId
  · rw [active, active']
    exact alike.moved.remove c.id_injective i

theorem addReminder (label : String) (r : Reminder) :
    ∃ i j v v', w.addReminder services label r = (.ok i, v) ∧
      w'.addReminder services label r = (.ok j, v') ∧ c.Leads w w' v v' ∧
      (c.naming v v').ids i j := by
  obtain ⟨v, added, good, lastId, active, pause, requests⟩ :=
    c.addReminder_becomes label r alike.good
  obtain ⟨v', added', good', lastId', active', pause', requests'⟩ :=
    c.addReminder_becomes label r alike.good'
  have paired : c.id (c.lastId w + 1) = c.lastId w' + 1 := alike.nextId 0
  refine ⟨_, _, v, v', added, added', ?_, paired, Nat.le_of_eq lastId.symm⟩
  refine alike.move good good' (by omega) (by omega) ?_ ?_ (alike.numbered.append lastId active)
    (alike.numbered'.append lastId' active') pause pause' requests requests'
  · intro k
    have next := alike.nextId (1 + k)
    rw [lastId, lastId']
    simpa only [Nat.add_assoc] using next
  · have add := alike.moved.add alike.firstId (label, r)
    rw [paired] at add
    rw [active, active']
    exact add.congr (List.perm_append_singleton _ _) (List.perm_append_singleton _ _)

end World.Alike

namespace World.InTurn

variable {w v : World σ} (turn : w.InTurn)
include turn

theorem next_new (few : w.Few) : w.pause.next ∉ w.pause.outstanding :=
  fun mem => Nat.lt_irrefl _ (turn.earlier few _ mem)

theorem pool (few : w.Few) : ∀ item ∈ w.pause.pool, item.1 < w.pause.next := by
  intro item mem
  obtain ⟨token, out, rfl⟩ := List.mem_map.mp mem
  exact turn.earlier few token out

theorem granted_next (pause : v.pause = w.pause.granted)
    (requests : pauseRequestsIn v.journal = pauseRequestsIn w.journal + 1) (few : v.Few) :
    w.Few ∧ v.pause.next = w.pause.next + 1 := by
  unfold Few at few ⊢
  rw [requests] at few
  have before : w.Few := Nat.lt_of_succ_lt few
  refine ⟨before, ?_⟩
  rw [pause, PauseRequests.granted, turn.next before]
  exact Nat.mod_eq_of_lt few

theorem granted (pause : v.pause = w.pause.granted)
    (requests : pauseRequestsIn v.journal = pauseRequestsIn w.journal + 1) : v.InTurn := by
  constructor
  case distinct =>
    rw [pause]
    exact List.Nodup.insert turn.distinct
  case next =>
    intro few
    obtain ⟨before, next⟩ := turn.granted_next pause requests few
    rw [next, requests, turn.next before]
  case earlier =>
    intro few token mem
    obtain ⟨before, next⟩ := turn.granted_next pause requests few
    rw [pause] at mem
    rw [next]
    rcases (w.pause.mem_granted token).mp mem with rfl | old
    · exact Nat.lt_succ_self _
    · exact Nat.lt_succ_of_lt (turn.earlier before token old)

theorem without {token : Nat} (pause : v.pause = w.pause.without token)
    (requests : pauseRequestsIn v.journal = pauseRequestsIn w.journal) : v.InTurn := by
  have few (few : v.Few) : w.Few := by
    unfold Few at few ⊢
    rwa [← requests]
  constructor
  case distinct =>
    rw [pause]
    exact turn.distinct.erase token
  case next =>
    intro after
    rw [pause, requests]
    exact turn.next (few after)
  case earlier =>
    intro after other mem
    rw [pause] at mem ⊢
    exact turn.earlier (few after) other (List.mem_of_mem_erase mem)

end World.InTurn

namespace Pairing

variable {c : Pairing services} {w w' : World σ}

theorem requestPause_becomes (good : c.Good w.host) :
    ∃ v, w.requestPause services = (.ok w.pause.next, v) ∧ c.Good v.host ∧
      c.lastId v = c.lastId w ∧ c.active v = c.active w ∧ v.pause = w.pause.granted ∧
      pauseRequestsIn v.journal = pauseRequestsIn w.journal + 1 := by
  have requests : pauseRequestsIn (.pauseRequested w.pause.next :: w.journal) =
      pauseRequestsIn w.journal + 1 := pauseRequestsIn_cons _ _
  obtain ⟨v, set, same⟩ := setPaused_same (w := w.note (.pauseRequested w.pause.next)) true good
  unfold World.requestPause PauseRequests.request
  by_cases paused : w.pause.isPaused
  · simp only [paused, if_true]
    exact ⟨_, rfl, good, rfl, rfl, rfl, requests⟩
  · simp only [paused, set]
    exact ⟨_, rfl, same.good, same.lastId, same.active, rfl, same.requests.trans requests⟩

theorem releasePause_becomes (token : Nat) (good : c.Good w.host) :
    ∃ v, w.releasePause services token = (.ok (), v) ∧ c.Good v.host ∧
      c.lastId v = c.lastId w ∧ c.active v = c.active w ∧ v.pause = w.pause.without token ∧
      pauseRequestsIn v.journal = pauseRequestsIn w.journal := by
  obtain ⟨v, set, same⟩ := setPaused_same (w := w) false good
  unfold World.releasePause PauseRequests.release
  by_cases out : token ∈ w.pause.outstanding
  · simp only [out, if_true]
    split
    · exact ⟨_, rfl, good, rfl, rfl, rfl, rfl⟩
    · simp only [set]
      exact ⟨_, rfl, same.good, same.lastId, same.active, rfl, same.requests⟩
  · have unchanged : w.pause.without token = w.pause := by
      rw [PauseRequests.without, List.erase_of_not_mem out]
    simp only [out, if_false]
    exact ⟨_, rfl, good, rfl, rfl, unchanged.symm, rfl⟩

end Pairing

namespace World.Alike

variable {c : Pairing services} {w w' v v' : World σ} (alike : w.Alike c w')
include alike

/-- Pause requests move, and nothing else that is paired. -/
theorem repause (good : c.Good v.host) (good' : c.Good v'.host) (lastId : c.lastId v = c.lastId w)
    (lastId' : c.lastId v' = c.lastId w') (active : c.active v = c.active w)
    (active' : c.active v' = c.active w')
    (requests : pauseRequestsIn w.journal ≤ pauseRequestsIn v.journal)
    (requests' : pauseRequestsIn w'.journal ≤ pauseRequestsIn v'.journal)
    (turn : v.InTurn) (turn' : v'.InTurn)
    (pauses : v.Few → v'.Few → c.PausesAlike v.pause v'.pause) : c.Leads w w' v v' := by
  refine Pairing.leads_of alike ?_ ⟨Nat.le_of_eq lastId.symm, requests⟩
    ⟨Nat.le_of_eq lastId'.symm, requests'⟩
  constructor
  case good => exact good
  case good' => exact good'
  case nextId =>
    rw [lastId, lastId']
    exact alike.nextId
  case firstId =>
    rw [lastId]
    exact alike.firstId
  case moved =>
    rw [active, active']
    exact alike.moved
  case numbered =>
    unfold Keeper.Numbered
    rw [active, lastId]
    exact alike.numbered
  case numbered' =>
    unfold Keeper.Numbered
    rw [active', lastId']
    exact alike.numbered'
  case turn => exact turn
  case turn' => exact turn'
  case pauses => exact pauses

theorem requestPause :
    ∃ t u v v', w.requestPause services = (.ok t, v) ∧ w'.requestPause services = (.ok u, v') ∧
      c.Leads w w' v v' ∧ (c.naming v v').tokens t u := by
  obtain ⟨v, requested, good, lastId, active, pause, requests⟩ :=
    c.requestPause_becomes alike.good
  obtain ⟨v', requested', good', lastId', active', pause', requests'⟩ :=
    c.requestPause_becomes alike.good'
  have paired : v.Few → v'.Few → c.PausesAlike w.pause w'.pause ∧
      v.pause.next = w.pause.next + 1 ∧ v'.pause.next = w'.pause.next + 1 ∧ w.Few ∧ w'.Few := by
    intro few few'
    obtain ⟨before, next⟩ := alike.turn.granted_next pause requests few
    obtain ⟨before', next'⟩ := alike.turn'.granted_next pause' requests' few'
    exact ⟨alike.pauses before before', next, next', before, before'⟩
  refine ⟨_, _, v, v', requested, requested', ?_, ?_⟩
  · refine alike.repause good good' lastId lastId' active active' (by omega) (by omega)
      (alike.turn.granted pause requests) (alike.turn'.granted pause' requests') ?_
    intro few few'
    obtain ⟨pauses, next, next', before, before'⟩ := paired few few'
    constructor
    case next =>
      intro k
      have paired := pauses.next (1 + k)
      rw [next, next']
      simpa only [Nat.add_assoc] using paired
    case first =>
      have first := pauses.first
      omega
    case moved =>
      have add := pauses.moved.add pauses.first ()
      rw [show c.token w.pause.next = w'.pause.next from pauses.next 0] at add
      rw [pause, pause', PauseRequests.pool_granted (alike.turn.next_new before),
        PauseRequests.pool_granted (alike.turn'.next_new before')]
      exact add
  · intro few few'
    obtain ⟨pauses, next, -⟩ := paired few few'
    refine ⟨pauses.next 0, ?_⟩
    rw [next]
    exact Nat.lt_succ_self _

theorem releasePause {t u : Nat} (paired : w.Few → w'.Few → c.token t = u) :
    c.Answers w w' (w.releasePause services t) (w'.releasePause services u) := by
  obtain ⟨v, released, good, lastId, active, pause, requests⟩ :=
    c.releasePause_becomes t alike.good
  obtain ⟨v', released', good', lastId', active', pause', requests'⟩ :=
    c.releasePause_becomes u alike.good'
  rw [released, released']
  refine ⟨rfl, alike.repause good good' lastId lastId' active active' (Nat.le_of_eq requests.symm)
    (Nat.le_of_eq requests'.symm) (alike.turn.without pause requests)
    (alike.turn'.without pause' requests') ?_⟩
  intro few few'
  unfold Few at few few'
  rw [requests] at few
  rw [requests'] at few'
  obtain ⟨next, first, moved⟩ := alike.pauses few few'
  obtain rfl := paired few few'
  rw [pause, pause']
  refine ⟨next, first, ?_⟩
  rw [PauseRequests.pool_without alike.turn.distinct,
    PauseRequests.pool_without alike.turn'.distinct]
  exact moved.remove c.token_injective t

end World.Alike

end Stepwise
