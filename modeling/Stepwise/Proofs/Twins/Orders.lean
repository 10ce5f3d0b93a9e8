import Stepwise.Proofs.Twins.Worlds

/-!
# Two things in either order

A world `w` goes to `w1` when one thing is done and to `w2` when another one is, and then to `w12`
and `w21` when the other one is done as well. Each of the two things is given the same numbers in
both orders, only moved up by what was given out before. So the worlds at the end are alike, with
the numbers of the two things swapped.
-/

namespace Stepwise

variable {σ : Type} {services : Services σ}

namespace Keeper

variable (k : Keeper services)

/-- Each number is paired with itself. -/
def itself : Pairing services where
  toKeeper := k
  id := id
  id_injective := Function.injective_id
  token := id
  token_injective := Function.injective_id
  firstId := 0
  firstToken := 0
  reminders := []
  reminders' := []
  tokens := []
  tokens' := []

/-- The numbers that are new in `w` are those that are new in `v`. -/
def shift (w v : World σ) : Pairing services where
  toKeeper := k
  id := shiftFrom (k.lastId w + 1) (k.lastId v + 1)
  id_injective := shiftFrom_injective _ _
  token := shiftFrom w.pause.next v.pause.next
  token_injective := shiftFrom_injective _ _
  firstId := k.lastId w + 1
  firstToken := w.pause.next
  reminders := k.active w
  reminders' := k.active v
  tokens := w.pause.pool
  tokens' := v.pause.pool

/-- The numbers that were given out on the way to `w1` and to `w2` change places. -/
def swap (w w1 w2 : World σ) : Pairing services where
  toKeeper := k
  id := swapFrom (k.lastId w + 1) (k.lastId w1 + 1) (k.lastId w2 + 1)
  id_injective := swapFrom_injective _ _ _
  token := swapFrom w.pause.next w1.pause.next w2.pause.next
  token_injective := swapFrom_injective _ _ _
  firstId := 0
  firstToken := 0
  reminders := []
  reminders' := []
  tokens := []
  tokens' := []

end Keeper

variable {k : Keeper services}

section Later

variable {w v : World σ} (own : w.Alike k.itself w) (later : v.Alike k.itself v)
  (before : k.Before w v)
include own later before

/-- Two worlds are alike before anything new is done in them. -/
theorem alike_shift : w.Alike (k.shift w v) v := by
  have ids := before.ids
  constructor
  case good => exact own.good
  case good' => exact later.good
  case nextId =>
    intro n
    show shiftFrom (k.lastId w + 1) (k.lastId v + 1) (k.lastId w + 1 + n) = k.lastId v + 1 + n
    unfold shiftFrom
    split <;> omega
  case firstId => exact Nat.le_refl _
  case moved => exact Store.Moved.start _ _ _ _
  case numbered => exact own.numbered
  case numbered' => exact later.numbered
  case turn => exact own.turn
  case turn' => exact later.turn
  case pauses =>
    intro few few'
    have tokens := before.next own.turn later.turn few'
    refine ⟨fun n => ?_, Nat.le_refl _, Store.Moved.start _ _ _ _⟩
    show shiftFrom w.pause.next v.pause.next (w.pause.next + n) = v.pause.next + n
    unfold shiftFrom
    split <;> omega

omit own later before in
/-- What is there already keeps its numbers. -/
theorem naming_shift : k.itself.naming w w ≤ (k.shift w v).naming w v := by
  constructor
  · rintro i j ⟨rfl, given⟩
    refine ⟨if_pos (Nat.lt_succ_of_le given), given⟩
  · intro t u paired few few'
    obtain ⟨rfl, earlier⟩ := paired few few
    exact ⟨if_pos earlier, earlier⟩

end Later

/-- The same two things in either order: what leads from `w` to `w1` leads from `w2` to `w21`, and
what leads from `w` to `w2` leads from `w1` to `w12`. -/
structure Orders (k : Keeper services) (w w1 w2 w12 w21 : World σ) : Prop where
  old : k.Numbered w
  turn : w.InTurn
  first : (k.shift w w2).Leads w w2 w1 w21
  second : (k.shift w w1).Leads w w1 w2 w12

namespace Orders

variable {w w1 w2 w12 w21 : World σ} (orders : Orders k w w1 w2 w12 w21)
include orders

/-- Both orders give out as many numbers. -/
theorem lastId : k.lastId w12 + k.lastId w = k.lastId w1 + k.lastId w2 ∧
    k.lastId w21 = k.lastId w12 := by
  have first : shiftFrom (k.lastId w + 1) (k.lastId w2 + 1) (k.lastId w1 + 1) = k.lastId w21 + 1 :=
    orders.first.alike.nextId 0
  have second : shiftFrom (k.lastId w + 1) (k.lastId w1 + 1) (k.lastId w2 + 1) = k.lastId w12 + 1 :=
    orders.second.alike.nextId 0
  have le : k.lastId w ≤ k.lastId w1 := orders.first.before.ids
  have le' : k.lastId w ≤ k.lastId w2 := orders.second.before.ids
  unfold shiftFrom at first second
  split at first <;> split at second <;> omega

theorem few (few : w12.Few) (few' : w21.Few) : w.Few ∧ w1.Few ∧ w2.Few :=
  ⟨orders.first.before.few (orders.second.before'.few few), orders.second.before'.few few,
    orders.first.before'.few few'⟩

/-- Both orders give out as many tokens, if these are few. -/
theorem next (few : w12.Few) (few' : w21.Few) :
    w.pause.next ≤ w1.pause.next ∧ w.pause.next ≤ w2.pause.next ∧
      w12.pause.next + w.pause.next = w1.pause.next + w2.pause.next ∧
      w21.pause.next = w12.pause.next := by
  obtain ⟨few_w, few_w1, few_w2⟩ := orders.few few few'
  have first : shiftFrom w.pause.next w2.pause.next w1.pause.next = w21.pause.next :=
    (orders.first.alike.pauses few_w1 few').next 0
  have second : shiftFrom w.pause.next w1.pause.next w2.pause.next = w12.pause.next :=
    (orders.second.alike.pauses few_w2 few).next 0
  have le := orders.first.before.next orders.turn orders.first.alike.turn few_w1
  have le' := orders.second.before.next orders.turn orders.second.alike.turn few_w2
  unfold shiftFrom at first second
  split at first <;> split at second <;> omega

theorem alike : w12.Alike (k.swap w w1 w2) w21 := by
  obtain ⟨ids, same⟩ := orders.lastId
  have le : k.lastId w ≤ k.lastId w1 := orders.first.before.ids
  have le' : k.lastId w ≤ k.lastId w2 := orders.second.before.ids
  constructor
  case good => exact orders.second.alike.good'
  case good' => exact orders.first.alike.good'
  case nextId =>
    intro n
    show swapFrom _ _ _ (k.lastId w12 + 1 + n) = k.lastId w21 + 1 + n
    unfold swapFrom
    split_ifs <;> omega
  case firstId => exact Nat.zero_le _
  case moved =>
    refine Store.Moved.swapped (Nat.succ_le_succ le) (Nat.succ_le_succ le') ?_ ?_ ?_
      orders.first.alike.moved orders.second.alike.moved
    · exact fun item mem => Nat.lt_succ_of_le (orders.old item mem)
    · exact fun item mem => Nat.lt_succ_of_le (orders.first.alike.numbered item mem)
    · exact fun item mem => Nat.lt_succ_of_le (orders.second.alike.numbered item mem)
  case numbered => exact orders.second.alike.numbered'
  case numbered' => exact orders.first.alike.numbered'
  case turn => exact orders.second.alike.turn'
  case turn' => exact orders.first.alike.turn'
  case pauses =>
    intro few few'
    obtain ⟨few_w, few_w1, few_w2⟩ := orders.few few few'
    obtain ⟨le, le', tokens, same⟩ := orders.next few few'
    constructor
    case next =>
      intro n
      show swapFrom _ _ _ (w12.pause.next + n) = w21.pause.next + n
      unfold swapFrom
      split_ifs <;> omega
    case first => exact Nat.zero_le _
    case moved =>
      refine Store.Moved.swapped le le' ?_ ?_ ?_ (orders.first.alike.pauses few_w1 few').moved
        (orders.second.alike.pauses few_w2 few).moved
      · exact orders.turn.pool few_w
      · exact orders.first.alike.turn.pool few_w1
      · exact orders.second.alike.turn.pool few_w2

/-- What the first thing was given in `w` is paired with what it was given in `w2`. -/
theorem naming_first : (k.shift w w2).naming w1 w21 ≤ (k.swap w w1 w2).naming w12 w21 := by
  constructor
  · rintro i j ⟨paired, given⟩
    refine ⟨?_, Nat.le_trans given orders.second.before'.ids⟩
    exact (swapFrom_of_lt _ _ (Nat.lt_succ_of_le given)).trans paired
  · intro t u paired few few'
    obtain ⟨few_w, few_w1, few_w2⟩ := orders.few few few'
    obtain ⟨same, earlier⟩ := paired few_w1 few'
    have next := orders.second.before'.next orders.first.alike.turn orders.second.alike.turn' few
    refine ⟨?_, Nat.lt_of_lt_of_le earlier next⟩
    exact (swapFrom_of_lt _ _ earlier).trans same

/-- What was there before keeps its numbers. -/
theorem naming_old : k.itself.naming w w ≤ (k.swap w w1 w2).naming w12 w21 :=
  le_trans naming_shift (le_trans orders.first.names orders.naming_first)

/-- What the second thing was given in `w1` is paired with what it was given in `w`. -/
theorem naming_second :
    ((k.shift w w1).naming w2 w12).flip ≤ (k.swap w w1 w2).naming w12 w21 := by
  have le : k.lastId w ≤ k.lastId w1 := orders.first.before.ids
  have le' : k.lastId w ≤ k.lastId w2 := orders.second.before.ids
  constructor
  · rintro i j ⟨rfl, given⟩
    have given : j ≤ k.lastId w2 := given
    obtain ⟨ids, -⟩ := orders.lastId
    constructor
    · exact swapFrom_shiftFrom (Nat.succ_le_succ le) (Nat.succ_le_succ le') (Nat.lt_succ_of_le given)
    · show shiftFrom _ _ j ≤ k.lastId w12
      unfold shiftFrom
      split <;> omega
  · intro t u paired few few'
    obtain ⟨few_w, few_w1, few_w2⟩ := orders.few few few'
    obtain ⟨rfl, earlier⟩ := paired few_w2 few
    obtain ⟨le, le', tokens, -⟩ := orders.next few few'
    constructor
    · exact swapFrom_shiftFrom le le' earlier
    · show shiftFrom _ _ u < w12.pause.next
      unfold shiftFrom
      split <;> omega

end Orders

end Stepwise
