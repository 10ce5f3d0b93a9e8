import Mathlib.Data.List.Perm.Basic
import Mathlib.Logic.Function.Basic
import Mathlib.Tactic.SplitIfs

/-!
# Stores that change alike

A store numbers its items in the order in which they come. Two stores that lose the same items and
are given the same new ones differ afterwards only where they differed before, and in the numbers of
the new items. If a store is changed in one way and then in another, then the other order of the two
leads to the same items under swapped numbers.
-/

namespace Stepwise

variable {α : Type}

/-- Items under the numbers that they were given. -/
abbrev Store (α : Type) := List (Nat × α)

namespace Store

def without (gone : List Nat) (s : Store α) : Store α := s.filter (·.1 ∉ gone)

def renumber (f : Nat → Nat) (s : Store α) : Store α := s.map fun item => (f item.1, item.2)

variable {f g : Nat → Nat} {s : Store α} {gone : List Nat}

theorem renumber_congr (same : ∀ item ∈ s, f item.1 = g item.1) :
    s.renumber f = s.renumber g := by
  refine List.map_congr_left fun item mem => ?_
  rw [same item mem]

theorem renumber_self (same : ∀ item ∈ s, f item.1 = item.1) : s.renumber f = s := by
  rw [renumber_congr (g := id) same]
  exact List.map_id s

theorem renumber_renumber (s : Store α) : (s.renumber f).renumber g = s.renumber (g ∘ f) := by
  simp only [renumber, List.map_map, Function.comp_def]

theorem without_append (first second : Store α) :
    without gone (first ++ second) = first.without gone ++ second.without gone :=
  List.filter_append first second

theorem without_self (kept : ∀ item ∈ s, item.1 ∉ gone) : s.without gone = s := by
  rw [without, List.filter_eq_self]
  intro item mem
  simpa using kept item mem

theorem without_without (number : Nat) (s : Store α) :
    (s.without gone).without [number] = s.without (number :: gone) := by
  simp only [without, List.filter_filter, List.mem_cons, List.not_mem_nil, or_false, not_or,
    Bool.decide_and]

theorem without_comm (gone' : List Nat) (s : Store α) :
    (s.without gone).without gone' = (s.without gone').without gone := by
  simp only [without, List.filter_filter]
  exact List.filter_congr fun item _ => Bool.and_comm _ _

theorem without_congr {gone' : List Nat} (same : ∀ item ∈ s, item.1 ∈ gone ↔ item.1 ∈ gone') :
    s.without gone = s.without gone' := by
  refine List.filter_congr fun item mem => ?_
  simp only [same item mem]

theorem renumber_without (injective : f.Injective) (number : Nat) (s : Store α) :
    (s.without [number]).renumber f = (s.renumber f).without [f number] := by
  rw [renumber, without, renumber, without, List.filter_map]
  congr 1
  refine List.filter_congr fun item _ => ?_
  simp [injective.eq_iff]

/-- Both stores have lost the same items of those they had first, and have since been given the same
new ones. These are numbered from `floor` on, and by `f` in the second store. -/
def Moved (f : Nat → Nat) (floor : Nat) (first first' now now' : Store α) : Prop :=
  ∃ (gone : List Nat) (new : Store α), now.Perm (first.without gone ++ new) ∧
    now'.Perm (first'.without (gone.map f) ++ new.renumber f) ∧ ∀ item ∈ new, floor ≤ item.1

variable {floor : Nat} {first first' now now' : Store α}

theorem Moved.start (f : Nat → Nat) (floor : Nat) (first first' : Store α) :
    Moved f floor first first' first first' := by
  have all (s : Store α) : s.Perm (s.without [] ++ []) := by
    rw [without_self fun _ _ => List.not_mem_nil, List.append_nil]
  exact ⟨[], [], all first, all first', List.forall_mem_nil _⟩

theorem Moved.congr (moved : Moved f floor first first' now now') {later later' : Store α}
    (same : later.Perm now) (same' : later'.Perm now') :
    Moved f floor first first' later later' := by
  obtain ⟨gone, new, here, there, numbers⟩ := moved
  exact ⟨gone, new, same.trans here, same'.trans there, numbers⟩

/-- An item is added to both stores. -/
theorem Moved.add (moved : Moved f floor first first' now now') {number : Nat}
    (above : floor ≤ number) (a : α) :
    Moved f floor first first' ((number, a) :: now) ((f number, a) :: now') := by
  obtain ⟨gone, new, here, there, numbers⟩ := moved
  refine ⟨gone, (number, a) :: new, ?_, ?_, ?_⟩
  · exact (here.cons _).trans List.perm_middle.symm
  · exact (there.cons _).trans List.perm_middle.symm
  · exact List.forall_mem_cons.mpr ⟨above, numbers⟩

/-- An item is removed from both stores, if it is there. -/
theorem Moved.remove (injective : f.Injective) (moved : Moved f floor first first' now now')
    (number : Nat) :
    Moved f floor first first' (now.without [number]) (now'.without [f number]) := by
  obtain ⟨gone, new, here, there, numbers⟩ := moved
  refine ⟨number :: gone, new.without [number], ?_, ?_, ?_⟩
  · rw [← without_without number first, ← without_append]
    exact here.filter _
  · rw [List.map_cons, ← without_without (f number) first', renumber_without injective,
      ← without_append]
    exact there.filter _
  · intro item mem
    exact numbers item (List.mem_of_mem_filter mem)

/-- Stores that were empty have the same items. -/
theorem Moved.values (moved : Moved f floor [] [] now now') :
    (now'.map Prod.snd).Perm (now.map Prod.snd) := by
  obtain ⟨gone, new, here, there, -⟩ := moved
  have same : (new.renumber f).map Prod.snd = new.map Prod.snd := by
    simp only [renumber, List.map_map, Function.comp_def]
  exact ((there.map Prod.snd).trans (same ▸ List.Perm.refl _)).trans (here.map Prod.snd).symm

end Store

/-- Numbers from `start` on are moved up, so that the next one is `next`. -/
def shiftFrom (start next number : Nat) : Nat :=
  if number < start then number else number + (next - start)

/-- The numbers from `start` to `mid` and the `next - start` ones after them change places. -/
def swapFrom (start mid next number : Nat) : Nat :=
  if number < start then number
  else if number < mid then number + (next - start)
  else if number < mid + (next - start) then number - (mid - start)
  else number

theorem shiftFrom_injective (start next : Nat) : (shiftFrom start next).Injective := by
  intro i j same
  unfold shiftFrom at same
  split_ifs at same <;> omega

theorem swapFrom_injective (start mid next : Nat) : (swapFrom start mid next).Injective := by
  intro i j same
  unfold swapFrom at same
  split_ifs at same <;> omega

theorem shiftFrom_of_lt (next : Nat) {start number : Nat} (below : number < start) :
    shiftFrom start next number = number := by
  unfold shiftFrom
  rw [if_pos below]

theorem swapFrom_old (mid next : Nat) {start number : Nat} (below : number < start) :
    swapFrom start mid next number = number := by
  unfold swapFrom
  rw [if_pos below]

theorem swapFrom_of_lt (start next : Nat) {mid number : Nat} (below : number < mid) :
    swapFrom start mid next number = shiftFrom start next number := by
  unfold swapFrom shiftFrom
  rw [if_pos below]

theorem mem_map_shiftFrom (next : Nat) {start number : Nat} (below : number < start)
    (gone : List Nat) : number ∈ gone.map (shiftFrom start next) ↔ number ∈ gone := by
  rw [List.mem_map]
  constructor
  · rintro ⟨other, mem, same⟩
    unfold shiftFrom at same
    split_ifs at same
    · rwa [← same]
    · omega
  · exact fun mem => ⟨number, mem, shiftFrom_of_lt next below⟩

theorem not_mem_map_shiftFrom {start next number : Nat} (above : start ≤ number)
    (below : number < next) (gone : List Nat) : number ∉ gone.map (shiftFrom start next) := by
  rw [List.mem_map]
  rintro ⟨other, -, same⟩
  unfold shiftFrom at same
  split_ifs at same <;> omega

/-- What is removed second is an old item, or one that was added second itself. -/
theorem Store.followed {start next : Nat} {first one both new new' : Store α} {gone gone' : List Nat}
    (old : ∀ item ∈ first, item.1 < start) (lower : ∀ item ∈ one, item.1 < next)
    (above : ∀ item ∈ new, start ≤ item.1) (here : one.Perm (first.without gone ++ new))
    (there : both.Perm (one.without (gone'.map (shiftFrom start next)) ++ new')) :
    both.Perm ((first.without gone).without gone' ++ new ++ new') := by
  have old_lost : (first.without gone).without (gone'.map (shiftFrom start next)) =
      (first.without gone).without gone' := by
    refine without_congr fun item mem => ?_
    exact mem_map_shiftFrom next (old item (List.mem_of_mem_filter mem)) gone'
  have new_kept : new.without (gone'.map (shiftFrom start next)) = new := by
    refine without_self fun item mem => ?_
    have below := lower item (here.mem_iff.mpr (List.mem_append_right _ mem))
    exact not_mem_map_shiftFrom (above item mem) below gone'
  refine there.trans (List.Perm.append_right _ ((here.filter _).trans ?_))
  show (without (gone'.map (shiftFrom start next)) (first.without gone ++ new)).Perm _
  rw [without_append, old_lost, new_kept]

section Swapping

variable {start mid next : Nat} (mid_le : start ≤ mid) (next_le : start ≤ next)
include mid_le next_le

theorem swapFrom_shiftFrom {number : Nat} (below : number < next) :
    swapFrom start mid next (shiftFrom start mid number) = number := by
  unfold swapFrom shiftFrom
  split_ifs <;> omega

/-- A store goes from `first` to `one` and then to `both`, or to `other` and then to `both'`. The
two ways to go on are the same, but the numbers of what comes second are moved up. -/
theorem Store.Moved.swapped {first one other both both' : Store α}
    (old : ∀ item ∈ first, item.1 < start) (lower : ∀ item ∈ one, item.1 < mid)
    (lower' : ∀ item ∈ other, item.1 < next)
    (moved : Moved (shiftFrom start next) start first other one both')
    (moved' : Moved (shiftFrom start mid) start first one other both) :
    Moved (swapFrom start mid next) 0 [] [] both both' := by
  obtain ⟨gone, new, here, there, above⟩ := moved
  obtain ⟨gone', new', here', there', above'⟩ := moved'
  have new_lt : ∀ item ∈ new, item.1 < mid := fun item mem =>
    lower item (here.mem_iff.mpr (List.mem_append_right _ mem))
  have new'_lt : ∀ item ∈ new', item.1 < next := fun item mem =>
    lower' item (here'.mem_iff.mpr (List.mem_append_right _ mem))
  have both_eq := followed old lower above here there'
  have both'_eq := followed old lower' above' here' there
  rw [without_comm] at both'_eq
  have kept : ((first.without gone).without gone').renumber (swapFrom start mid next) =
      (first.without gone).without gone' := by
    refine renumber_self fun item mem => swapFrom_old mid next ?_
    exact old item (List.mem_of_mem_filter (List.mem_of_mem_filter mem))
  have up : new.renumber (swapFrom start mid next) = new.renumber (shiftFrom start next) :=
    renumber_congr fun item mem => swapFrom_of_lt start next (new_lt item mem)
  have down : (new'.renumber (shiftFrom start mid)).renumber (swapFrom start mid next) = new' := by
    rw [renumber_renumber]
    exact renumber_self fun item mem => swapFrom_shiftFrom mid_le next_le (new'_lt item mem)
  refine ⟨[], both, List.Perm.refl both, ?_, fun _ _ => Nat.zero_le _⟩
  show both'.Perm (both.renumber (swapFrom start mid next))
  refine both'_eq.trans (List.Perm.trans ?_ (both_eq.map _).symm)
  rw [List.map_append, List.map_append]
  show List.Perm _ (((first.without gone).without gone').renumber _ ++ new.renumber _ ++
    (new'.renumber _).renumber _)
  rw [kept, up, down, List.append_assoc, List.append_assoc]
  exact List.Perm.append_left _ List.perm_append_comm

end Swapping

end Stepwise
