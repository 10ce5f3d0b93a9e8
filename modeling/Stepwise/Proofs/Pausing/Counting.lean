import Stepwise.Proofs.Pausing.Refusals

/-!
# Counting pause requests

Tokens are given out in turn, and after 2 ^ 32 requests the turn starts again. The outstanding
tokens count the requests that have not been released as long as none of these is as old as a whole
turn when the next request with its token comes. If one is, the two share their token, and the first
of them that is released takes the pause from the other. A release that is refused makes the count
wrong as well, since it gives up the last token and leaves the service paused.
-/

namespace Stepwise

namespace PauseRequests

variable {α : Type}

/-- The requests and the service with what they stand for: how many requests have been granted, and
which of them have not been released. Requests are numbered from zero on, and numbers do not come
again. -/
structure Tally (α : Type) where
  requests : PauseRequests
  host : α
  made : Nat
  unreleased : List Nat

def Tally.start (a : α) : Tally α := ⟨.empty, a, 0, []⟩

/-- There are as many tokens as unreleased requests, and the service is paused if there is any. -/
def Tally.Agrees (paused : α → Bool) (t : Tally α) : Prop :=
  t.requests.outstanding.length = t.unreleased.length ∧
    (paused t.host = true ↔ 0 < t.unreleased.length)

/-- The token of the request with a number. -/
def tokenOf (number : Nat) : Nat := number % tokenCount

/-- A request, or the release of what the request with a number was given. -/
inductive Turn where
  | request
  | release (number : Nat)
  deriving DecidableEq, Repr

namespace Turn

variable (setPaused : Bool → α → Except ServiceError Unit × α) (paused : α → Bool)

/-- What a turn leads to. A release that is refused has not released anything. -/
def next : Turn → Tally α → Tally α
  | .request, t =>
    let (_, requests, host) := t.requests.request setPaused t.host
    ⟨requests, host, t.made + 1, t.made :: t.unreleased⟩
  | .release number, t =>
    let (answer, requests, host) := t.requests.release setPaused (tokenOf number) t.host
    ⟨requests, host, t.made,
      match answer with
      | .ok () => t.unreleased.erase number
      | .error _ => t.unreleased⟩

def after (turns : List Turn) (t : Tally α) : Tally α :=
  turns.foldl (fun t turn => turn.next setPaused t) t

/-- Something holds of every turn at the moment at which it is taken. -/
def Throughout (holds : Turn → Tally α → Prop) : Tally α → List Turn → Prop
  | _, [] => True
  | t, turn :: rest => holds turn t ∧ Throughout holds (turn.next setPaused t) rest

/-- A request is granted, and what is released was granted and is not released yet. -/
def Fair : Turn → Tally α → Prop
  | .request, t => ∃ token, (t.requests.request setPaused t.host).1 = .ok token
  | .release number, t => number ∈ t.unreleased

/-- A request gets the token of its number. -/
def Numbered : Turn → Tally α → Prop
  | .request, t => (t.requests.request setPaused t.host).1 = .ok (tokenOf t.made)
  | .release _, _ => True

/-- A request gets a token that is not outstanding. -/
def Fresh : Turn → Tally α → Prop
  | .request, t => ∀ token, (t.requests.request setPaused t.host).1 = .ok token →
    token ∉ t.requests.outstanding
  | .release _, _ => True

/-- A token is given out at most once at a time, and the count is right after the turn. -/
def Counts (turn : Turn) (t : Tally α) : Prop :=
  turn.Fresh setPaused t ∧ (turn.next setPaused t).Agrees paused

/-- A request is made while another one is unreleased that is older by whole turns of all tokens. -/
def Laps : Turn → Tally α → Prop
  | .request, t => ∃ number ∈ t.unreleased, tokenOf number = tokenOf t.made
  | .release _, _ => False

def Refused : Turn → Tally α → Prop
  | .request, _ => False
  | .release number, t =>
    ∃ e, (t.requests.release setPaused (tokenOf number) t.host).1 = .error e

end Turn

open Turn

variable {setPaused : Bool → α → Except ServiceError Unit × α} {paused : α → Bool}

theorem Turn.after_append (earlier later : List Turn) (t : Tally α) :
    after setPaused (earlier ++ later) t = after setPaused later (after setPaused earlier t) :=
  List.foldl_append

theorem Turn.throughout_append {holds : Turn → Tally α → Prop} (earlier later : List Turn)
    (t : Tally α) : Throughout setPaused holds t (earlier ++ later) ↔
      Throughout setPaused holds t earlier ∧
        Throughout setPaused holds (after setPaused earlier t) later := by
  induction earlier generalizing t with
  | nil => exact (and_iff_right trivial).symm
  | cons turn earlier ih =>
    rw [List.cons_append, Throughout, Throughout, ih, and_assoc]
    rfl

/-- A granted request takes the next token, whoever is asked. -/
theorem request_of_ok {p : PauseRequests} {a : α} {token : Nat}
    (granted : (p.request setPaused a).1 = .ok token) :
    token = p.next ∧ (p.request setPaused a).2.1 = p.granted := by
  cases held : p.isPaused with
  | true =>
    rw [request_paused held] at granted ⊢
    exact ⟨(Except.ok.inj granted).symm, rfl⟩
  | false =>
    cases answer : (setPaused true a).1 with
    | ok u =>
      rw [request_granted held answer] at granted ⊢
      exact ⟨(Except.ok.inj granted).symm, rfl⟩
    | error e =>
      rw [request_refused held answer] at granted
      cases granted

theorem release_outstanding {p : PauseRequests} {token : Nat} (out : token ∈ p.outstanding)
    (a : α) : (p.release setPaused token a).2.1 = p.without token := by
  cases held : (p.without token).isPaused with
  | true => rw [release_held out held]
  | false => rw [release_last out held]

theorem release_next (p : PauseRequests) (token : Nat) (a : α) :
    (p.release setPaused token a).2.1.next = p.next := by
  by_cases out : token ∈ p.outstanding
  · rw [release_outstanding out]
    rfl
  · rw [release_unknown out]

namespace Tally

variable {t : Tally α} {turn : Turn} {number : Nat}

/-- Each token stands for one unreleased request, and the service does what it is told. -/
structure Sound (paused : α → Bool) (t : Tally α) : Prop where
  distinct : (t.unreleased.map tokenOf).Nodup
  shared : t.requests.outstanding.Perm (t.unreleased.map tokenOf)
  mirrors : Mirrors paused (t.requests, t.host)

theorem sound_start {a : α} (unpaused : paused a = false) : (Tally.start a).Sound paused :=
  ⟨List.nodup_nil, .nil, unpaused⟩

theorem Sound.agrees (sound : t.Sound paused) : t.Agrees paused := by
  have length := sound.shared.length_eq
  rw [List.length_map] at length
  refine ⟨length, ?_⟩
  have mirrors : paused t.host = t.requests.isPaused := sound.mirrors
  rw [mirrors, isPaused, Bool.not_eq_true', List.isEmpty_eq_false_iff, ← length,
    List.length_pos_iff]

theorem Sound.out (sound : t.Sound paused) (unreleased : number ∈ t.unreleased) :
    tokenOf number ∈ t.requests.outstanding :=
  sound.shared.mem_iff.mpr (List.mem_map_of_mem unreleased)

/-- The numbering goes on from turn to turn. -/
theorem numbering_next (turn : Turn) (fair : turn.Fair setPaused t)
    (numbering : t.requests.next = tokenOf t.made) :
    turn.Numbered setPaused t ∧
      (turn.next setPaused t).requests.next = tokenOf (turn.next setPaused t).made := by
  cases turn with
  | request =>
    obtain ⟨token, granted⟩ := fair
    obtain ⟨rfl, after⟩ := request_of_ok granted
    refine ⟨granted.trans (congrArg _ numbering), ?_⟩
    show (t.requests.request setPaused t.host).2.1.next = tokenOf (t.made + 1)
    rw [after, PauseRequests.granted, numbering]
    exact Nat.mod_add_mod t.made tokenCount 1
  | release number => exact ⟨trivial, (release_next _ _ _).trans numbering⟩

theorem Sound.request (heeds : Heeds setPaused paused) (sound : t.Sound paused)
    (numbering : t.requests.next = tokenOf t.made) (fair : Turn.request.Fair setPaused t)
    (apart : ¬ Turn.request.Laps t) :
    Turn.request.Fresh setPaused t ∧ (Turn.request.next setPaused t).Sound paused := by
  obtain ⟨token, granted⟩ := fair
  have unused : tokenOf t.made ∉ t.unreleased.map tokenOf := by
    intro used
    obtain ⟨number, mem, same⟩ := List.mem_map.mp used
    exact apart ⟨number, mem, same⟩
  have new : t.requests.next ∉ t.requests.outstanding := by
    rw [sound.shared.mem_iff, numbering]
    exact unused
  refine ⟨fun again granted => (request_of_ok granted).1 ▸ new,
    List.nodup_cons.mpr ⟨unused, sound.distinct⟩, ?_, ?_⟩
  · show (t.requests.request setPaused t.host).2.1.outstanding.Perm _
    rw [(request_of_ok granted).2, PauseRequests.granted, List.insert_of_not_mem new, numbering]
    exact sound.shared.cons _
  · rcases PauseCall.perform_mirrors heeds sound.mirrors .request with ⟨-, mirrors⟩ | ⟨never, -⟩
    · exact mirrors
    · cases never

theorem Sound.release (heeds : Heeds setPaused paused) (sound : t.Sound paused)
    (unreleased : number ∈ t.unreleased) (heeded : ¬ (Turn.release number).Refused setPaused t) :
    ((Turn.release number).next setPaused t).Sound paused := by
  have out := sound.out unreleased
  cases answer : (t.requests.release setPaused (tokenOf number) t.host).1 with
  | error e => exact absurd ⟨e, answer⟩ heeded
  | ok =>
    have left : ((Turn.release number).next setPaused t).unreleased = t.unreleased.erase number := by
      simp only [Turn.next, answer]
    have split : (t.unreleased.map tokenOf).Perm
        (tokenOf number :: (t.unreleased.erase number).map tokenOf) :=
      (List.perm_cons_erase unreleased).map tokenOf
    have distinct : (tokenOf number :: (t.unreleased.erase number).map tokenOf).Nodup :=
      split.nodup_iff.mp sound.distinct
    refine ⟨?_, ?_, ?_⟩
    · rw [left]
      exact (List.nodup_cons.mp distinct).2
    · rw [left]
      show (t.requests.release setPaused (tokenOf number) t.host).2.1.outstanding.Perm _
      rw [release_outstanding out]
      have erased := (sound.shared.trans split).erase (tokenOf number)
      rwa [List.erase_cons_head] at erased
    · rcases PauseCall.perform_mirrors heeds sound.mirrors (.release (tokenOf number)) with
        ⟨-, mirrors⟩ | ⟨refused, -⟩
      · exact mirrors
      · simp only [PauseCall.refusesRelease, answer] at refused
        cases refused

/-- A lap gives out a token that is outstanding. -/
theorem Sound.not_counts_of_laps (sound : t.Sound paused)
    (numbering : t.requests.next = tokenOf t.made) (fair : turn.Fair setPaused t)
    (laps : turn.Laps t) : ¬ turn.Counts setPaused paused t := by
  intro counts
  cases turn with
  | release number => exact laps
  | request =>
    obtain ⟨token, granted⟩ := fair
    obtain ⟨number, unreleased, same⟩ := laps
    refine counts.1 token granted ?_
    rw [(request_of_ok granted).1, numbering, ← same]
    exact sound.out unreleased

/-- What is refused stays unreleased, but its token is gone. -/
theorem not_counts_of_refused (fair : turn.Fair setPaused t)
    (refused : turn.Refused setPaused t) : ¬ turn.Counts setPaused paused t := by
  intro counts
  cases turn with
  | request => exact refused
  | release number =>
    obtain ⟨e, answer⟩ := refused
    obtain ⟨-, -, after, free⟩ := release_refused answer
    have left : ((Turn.release number).next setPaused t).unreleased = t.unreleased := by
      simp only [Turn.next, answer]
    have gone : ((Turn.release number).next setPaused t).requests.outstanding = [] := by
      show (t.requests.release setPaused (tokenOf number) t.host).2.1.outstanding = []
      rw [after]
      exact isPaused_eq_false.mp free
    have same := counts.2.1
    rw [gone, left, List.length_nil] at same
    exact List.ne_nil_of_mem fair (List.eq_nil_of_length_eq_zero same.symm)

theorem Sound.counts (heeds : Heeds setPaused paused) (sound : t.Sound paused)
    (numbering : t.requests.next = tokenOf t.made) (fair : turn.Fair setPaused t)
    (apart : ¬ turn.Laps t) (heeded : ¬ turn.Refused setPaused t) :
    turn.Counts setPaused paused t ∧ (turn.next setPaused t).Sound paused := by
  cases turn with
  | request =>
    obtain ⟨fresh, next⟩ := sound.request heeds numbering fair apart
    exact ⟨⟨fresh, next.agrees⟩, next⟩
  | release number =>
    have next := sound.release heeds fair heeded
    exact ⟨⟨trivial, next.agrees⟩, next⟩

theorem numbered_throughout (turns : List Turn) (numbering : t.requests.next = tokenOf t.made)
    (fair : Throughout setPaused (Fair setPaused) t turns) :
    Throughout setPaused (Turn.Numbered setPaused) t turns := by
  induction turns generalizing t with
  | nil => exact trivial
  | cons turn rest ih =>
    obtain ⟨numbered, next⟩ := numbering_next turn fair.1 numbering
    exact ⟨numbered, ih next fair.2⟩

theorem Sound.counts_throughout_iff (heeds : Heeds setPaused paused) (turns : List Turn)
    (sound : t.Sound paused) (numbering : t.requests.next = tokenOf t.made)
    (fair : Throughout setPaused (Fair setPaused) t turns) :
    Throughout setPaused (Counts setPaused paused) t turns ↔
      Throughout setPaused (fun turn t => ¬ turn.Laps t ∧ ¬ turn.Refused setPaused t) t turns := by
  -- The tally is sound up to the first turn at which either side fails, and there both do.
  induction turns generalizing t with
  | nil => exact Iff.rfl
  | cons turn rest ih =>
    obtain ⟨fair_now, fair_later⟩ := fair
    have next := (numbering_next turn fair_now numbering).2
    rw [Throughout, Throughout]
    constructor
    · rintro ⟨now, later⟩
      have apart : ¬ turn.Laps t :=
        fun laps => sound.not_counts_of_laps numbering fair_now laps now
      have heeded : ¬ turn.Refused setPaused t :=
        fun refused => not_counts_of_refused fair_now refused now
      have sound' := (sound.counts heeds numbering fair_now apart heeded).2
      exact ⟨⟨apart, heeded⟩, (ih sound' next fair_later).mp later⟩
    · rintro ⟨⟨apart, heeded⟩, later⟩
      obtain ⟨now, sound'⟩ := sound.counts heeds numbering fair_now apart heeded
      exact ⟨now, (ih sound' next fair_later).mpr later⟩

/-- It takes more requests than there are tokens to lap one. -/
theorem apart_throughout (turns : List Turn) (earlier : ∀ number ∈ t.unreleased, number < t.made)
    (few : t.made + turns.count .request ≤ tokenCount) :
    Throughout setPaused (fun turn t => ¬ turn.Laps t) t turns := by
  -- Up to so many requests a token is the number itself.
  induction turns generalizing t with
  | nil => exact trivial
  | cons turn rest ih =>
    cases turn with
    | request =>
      rw [List.count_cons_self] at few
      have room : t.made < tokenCount := by omega
      refine ⟨?_, ih (fun number mem => ?_) ?_⟩
      · rintro ⟨number, unreleased, same⟩
        have before := earlier number unreleased
        rw [tokenOf, tokenOf, Nat.mod_eq_of_lt room,
          Nat.mod_eq_of_lt (Nat.lt_trans before room)] at same
        exact Nat.ne_of_lt before same
      · rcases List.mem_cons.mp mem with rfl | old
        · exact Nat.lt_succ_self _
        · exact Nat.lt_succ_of_lt (earlier number old)
      · show t.made + 1 + rest.count .request ≤ tokenCount
        omega
    | release number =>
      rw [List.count_cons_of_ne (by rintro ⟨⟩)] at few
      refine ⟨id, ih (fun other mem => earlier other ?_) few⟩
      simp only [Turn.next] at mem
      split at mem
      · exact List.mem_of_mem_erase mem
      · exact mem

end Tally

/-- Requests that are granted and releases of what was given out, in any order. The tokens come in
turn. None is given out while it is outstanding, and there are as many of them as unreleased
requests, with the service paused while there is one, up to the first request that laps an
unreleased one or the first release that is refused. No request laps another among the first
2 ^ 32. -/
theorem counts_unless_lapped_or_refused (heeds : Heeds setPaused paused) {a : α}
    (unpaused : paused a = false) (turns : List Turn)
    (fair : Throughout setPaused (Fair setPaused) (.start a) turns) :
    Throughout setPaused (Turn.Numbered setPaused) (.start a) turns ∧
      (Throughout setPaused (Counts setPaused paused) (.start a) turns ↔
        Throughout setPaused (fun turn t => ¬ turn.Laps t ∧ ¬ turn.Refused setPaused t) (.start a)
          turns) ∧
      (turns.count .request ≤ tokenCount →
        Throughout setPaused (fun turn t => ¬ turn.Laps t) (.start a) turns) := by
  have numbering : (Tally.start a).requests.next = tokenOf (Tally.start a).made := rfl
  refine ⟨Tally.numbered_throughout turns numbering fair,
    (Tally.sound_start unpaused).counts_throughout_iff heeds turns numbering fair, fun few => ?_⟩
  refine Tally.apart_throughout turns (fun number mem => absurd mem List.not_mem_nil) ?_
  rwa [Tally.start, Nat.zero_add]

/-- Two requests that overlap, and a third one after the first of them has been released. -/
theorem counts_unless_lapped_or_refused_overlapping :
    let host : InMemory × List Bool := (.empty, [])
    let turns : List Turn := [.request, .request, .release 0, .request, .release 2, .release 1]
    let paused := fun h : InMemory × List Bool => h.1.reminders.paused
    let setPaused := Run.wavering.setPaused
    (paused host = false ∧ Throughout setPaused (Fair setPaused) (.start host) turns) ∧
    Throughout setPaused (Turn.Numbered setPaused) (.start host) turns ∧
      (Throughout setPaused (Counts setPaused paused) (.start host) turns ↔
        Throughout setPaused (fun turn t => ¬ turn.Laps t ∧ ¬ turn.Refused setPaused t)
          (.start host) turns) ∧
      (turns.count .request ≤ tokenCount →
        Throughout setPaused (fun turn t => ¬ turn.Laps t) (.start host) turns) := by
  intro host turns paused setPaused
  have fair : Throughout setPaused (Fair setPaused) (.start host) turns :=
    ⟨⟨0, rfl⟩, ⟨1, rfl⟩, .tail 1 (.head _), ⟨2, rfl⟩, .head _, .head _, trivial⟩
  exact ⟨⟨rfl, fair⟩, counts_unless_lapped_or_refused
    (heeds_of_keepsBookAtWill Run.keepsBookAtWill_wavering) rfl turns fair⟩

/-- So many requests that are each released at once, after the first one. -/
def rounds (count : Nat) : List Turn :=
  (List.range count).flatMap fun n => [.request, .release (n + 1)]

/-- The first request is kept, and the others have been released. -/
def Tally.firstKept (a : α) (others : Nat) : Tally α :=
  ⟨⟨[0], tokenOf (others + 1)⟩, a, others + 1, [0]⟩

variable (setPaused) in
/-- A request while token 0 is held gets the next token. -/
theorem request_firstHeld (n : Nat) (a : α) :
    (⟨[0], n + 1⟩ : PauseRequests).request setPaused a =
      (.ok (n + 1), ⟨[n + 1, 0], tokenOf (n + 2)⟩, a) := by
  rw [request_paused rfl, granted, List.insert_of_not_mem (by simp)]
  rfl

variable (setPaused) in
theorem release_firstHeld (n next : Nat) (a : α) :
    (⟨[n + 1, 0], next⟩ : PauseRequests).release setPaused (n + 1) a =
      (.ok (), ⟨[0], next⟩, a) := by
  have left : [n + 1, 0].erase (n + 1) = [0] := List.erase_cons_head ..
  rw [release_held List.mem_cons_self (by rw [without, left]; rfl), without, left]

variable (setPaused) in
theorem round_firstKept (a : α) {n : Nat} (few : n + 1 < tokenCount) :
    after setPaused [.request, .release (n + 1)] (.firstKept a n) = .firstKept a (n + 1) ∧
      Throughout setPaused (Fair setPaused) (.firstKept a n) [.request, .release (n + 1)] := by
  have token : tokenOf (n + 1) = n + 1 := Nat.mod_eq_of_lt few
  have requested : (Tally.firstKept a n).requests.request setPaused (Tally.firstKept a n).host =
      (.ok (n + 1), ⟨[n + 1, 0], tokenOf (n + 2)⟩, a) := by
    rw [Tally.firstKept, token]
    exact request_firstHeld setPaused n a
  have released : (⟨[n + 1, 0], tokenOf (n + 2)⟩ : PauseRequests).release setPaused
      (tokenOf (n + 1)) a = (.ok (), ⟨[0], tokenOf (n + 2)⟩, a) := by
    rw [token]
    exact release_firstHeld setPaused n _ a
  have now : Turn.request.next setPaused (.firstKept a n) =
      ⟨⟨[n + 1, 0], tokenOf (n + 2)⟩, a, n + 2, [n + 1, 0]⟩ := by
    simp only [Turn.next, requested]
    rfl
  have rest : (Turn.release (n + 1)).next setPaused
      ⟨⟨[n + 1, 0], tokenOf (n + 2)⟩, a, n + 2, [n + 1, 0]⟩ = .firstKept a (n + 1) := by
    simp only [Turn.next, released, List.erase_cons_head]
    rfl
  refine ⟨?_, ⟨n + 1, congrArg Prod.fst requested⟩, ?_, trivial⟩
  · rw [after, List.foldl_cons, now, List.foldl_cons, rest, List.foldl_nil]
  · rw [now]
    exact List.mem_cons_self

variable (setPaused) in
theorem rounds_firstKept (a : α) {count : Nat} (few : count < tokenCount) :
    after setPaused (rounds count) (.firstKept a 0) = .firstKept a count ∧
      Throughout setPaused (Fair setPaused) (.firstKept a 0) (rounds count) := by
  induction count with
  | zero => exact ⟨rfl, trivial⟩
  | succ count ih =>
    obtain ⟨led, fair⟩ := ih (Nat.lt_of_succ_lt few)
    have more : rounds (count + 1) = rounds count ++ [.request, .release (count + 1)] := by
      rw [rounds, List.range_succ, List.flatMap_append, List.flatMap_singleton]
      rfl
    obtain ⟨led', fair'⟩ := round_firstKept setPaused a few
    rw [more, after_append, throughout_append, led]
    exact ⟨led', fair, fair'⟩

/-- A request that is kept while so many others are made and released, and then one more. -/
def lap (others : Nat) : List Turn := .request :: (rounds others ++ [.request])

variable (setPaused) in
/-- If the others take all other tokens, the two requests have one token. -/
theorem lap_shares {others : Nat} (all : others + 1 = tokenCount) {a : α}
    (agreed : (setPaused true a).1 = .ok ()) :
    after setPaused (lap others) (.start a) =
        ⟨⟨[0], 1⟩, (setPaused true a).2, tokenCount + 1, [tokenCount, 0]⟩ ∧
      Throughout setPaused (Fair setPaused) (.start a) (lap others) := by
  have first : (Tally.start a).requests.request setPaused (Tally.start a).host =
      (.ok 0, ⟨[0], 1⟩, (setPaused true a).2) := request_granted rfl agreed
  have kept : Turn.request.next setPaused (.start a) = .firstKept (setPaused true a).2 0 := by
    simp only [Turn.next, first]
    rfl
  have token : tokenOf (others + 1) = 0 := by
    rw [all]
    exact Nat.mod_self tokenCount
  have whole : Tally.firstKept (setPaused true a).2 others =
      ⟨⟨[0], 0⟩, (setPaused true a).2, tokenCount, [0]⟩ := by
    rw [Tally.firstKept, token, all]
  obtain ⟨led, fair⟩ := rounds_firstKept setPaused (setPaused true a).2
    (Nat.lt_of_lt_of_eq others.lt_succ_self all)
  rw [whole] at led
  constructor
  · rw [after, lap, List.foldl_cons, kept, ← after, after_append, led]
    rfl
  · rw [lap, Throughout, kept, throughout_append, led]
    exact ⟨⟨0, congrArg Prod.fst first⟩, fair, ⟨0, rfl⟩, trivial⟩

theorem agrees_after {t : Tally α} (earlier : List Turn) {turn : Turn}
    (counts : Throughout setPaused (Counts setPaused paused) t (earlier ++ [turn])) :
    (after setPaused (earlier ++ [turn]) t).Agrees paused := by
  rw [after_append]
  exact ((throughout_append _ _ _).mp counts).2.1.2

/-- When the earlier one is released, the later one is left without a pause. -/
theorem lap_miscounts {others : Nat} (all : others + 1 = tokenCount) {a b : α}
    (agreed : (setPaused true a).1 = .ok ())
    (resumed : setPaused false (setPaused true a).2 = (.ok (), b)) (unpaused : paused b = false) :
    let turns := lap others ++ [.release 0]
    let t := after setPaused turns (.start a)
    Throughout setPaused (Fair setPaused) (.start a) turns ∧
      ¬ Throughout setPaused (Counts setPaused paused) (.start a) turns ∧
      t.unreleased = [tokenCount] ∧ t.requests.outstanding = [] ∧ paused t.host = false := by
  intro turns t
  obtain ⟨led, fair⟩ := lap_shares setPaused all agreed
  have gone : (⟨[0], 1⟩ : PauseRequests).release setPaused (tokenOf 0) (setPaused true a).2 =
      (.ok (), ⟨[], 1⟩, b) := by
    show (⟨[0], 1⟩ : PauseRequests).release setPaused 0 (setPaused true a).2 = _
    rw [release_last List.mem_cons_self rfl, resumed]
    rfl
  have erased : [tokenCount, 0].erase 0 = [tokenCount] := by decide
  have last : t = ⟨⟨[], 1⟩, b, tokenCount + 1, [tokenCount]⟩ := by
    show after setPaused (lap others ++ [.release 0]) (.start a) = _
    rw [after_append, led]
    simp only [after, List.foldl_cons, List.foldl_nil, Turn.next, gone, erased]
  refine ⟨(throughout_append _ _ _).mpr ⟨fair, ?_, trivial⟩, fun counts => ?_, ?_⟩
  · rw [led]
    exact .tail _ (.head _)
  · have same : t.requests.outstanding.length = t.unreleased.length := (agrees_after _ counts).1
    rw [last] at same
    cases same
  · rw [last]
    exact ⟨rfl, rfl, unpaused⟩

/-- A request is kept until all other tokens have been given out, and the next one after that loses
its pause when the first is released. A release that is refused leaves the service paused instead,
with no token left. -/
theorem lap_or_refusal_miscounts :
    let setPaused := Run.wavering.setPaused
    let paused := fun h : InMemory × List Bool => h.1.reminders.paused
    let willing : InMemory × List Bool := (.empty, [])
    let refusing : InMemory × List Bool := (.empty, [false, true])
    (let turns := lap (tokenCount - 1) ++ [.release 0]
      let t := after setPaused turns (.start willing)
      Throughout setPaused (Fair setPaused) (.start willing) turns ∧
        ¬ Throughout setPaused (Counts setPaused paused) (.start willing) turns ∧
        t.unreleased = [tokenCount] ∧ t.requests.outstanding = [] ∧ paused t.host = false) ∧
    (let turns : List Turn := [.request, .release 0]
      let t := after setPaused turns (.start refusing)
      Throughout setPaused (Fair setPaused) (.start refusing) turns ∧
        ¬ Throughout setPaused (Counts setPaused paused) (.start refusing) turns ∧
        t.requests.outstanding = [] ∧ paused t.host = true) := by
  refine ⟨lap_miscounts (Nat.sub_add_cancel (by decide)) rfl rfl rfl,
    ⟨⟨0, rfl⟩, .head _, trivial⟩, fun counts => ?_, by decide +kernel, by decide +kernel⟩
  exact absurd (agrees_after [.request] counts).1 (by decide +kernel)

end PauseRequests

end Stepwise
