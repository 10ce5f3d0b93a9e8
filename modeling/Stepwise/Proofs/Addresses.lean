import Stepwise.Proofs.Joining
import Stepwise.Proofs.Monitor

/-!
# Numbered threads

The threads of a group carry the numbers of their branches, which rise along the list, and each has
the address of the group followed by its number. Threads are taken off the list and none is moved on
it, so that a number leads to one thread only.
-/

namespace Stepwise

/-- All threads of the execution, and the threads in them, have increasing numbers and addresses to
match. -/
inductive Execution.Addressed : Execution → Prop
  | intro {e : Execution} (increasing : e.threads.Pairwise fun s t => s.branch < t.branch)
      (address : ∀ t ∈ e.threads, t.execution.address = e.address ++ [t.branch])
      (inside : ∀ t ∈ e.threads, t.execution.Addressed) : e.Addressed

/-- The same for the threads of a group at an address. -/
structure Numbered (address : List Nat) (threads : List Thread) : Prop where
  increasing : threads.Pairwise fun s t => s.branch < t.branch
  address : ∀ t ∈ threads, t.execution.address = address ++ [t.branch]
  inside : ∀ t ∈ threads, t.execution.Addressed

namespace Numbered

variable {address : List Nat} {threads before after : List Thread} {t : Thread}

theorem nil : Numbered address [] := ⟨List.Pairwise.nil, nofun, nofun⟩

theorem sublist {fewer : List Thread} (numbered : Numbered address threads)
    (sub : fewer.Sublist threads) : Numbered address fewer where
  increasing := numbered.increasing.sublist sub
  address t mem := numbered.address t (sub.subset mem)
  inside t mem := numbered.inside t (sub.subset mem)

theorem replace (numbered : Numbered address (before ++ t :: after)) {x : Execution}
    (same : x.address = t.execution.address) (addressed : x.Addressed) :
    Numbered address (before ++ { t with execution := x } :: after) where
  increasing := increasing_replace numbered.increasing x
  address s mem := by
    rcases List.mem_append.mp mem with front | back
    · exact numbered.address s (List.mem_append_left _ front)
    · rcases List.mem_cons.mp back with rfl | back
      · exact same.trans (numbered.address t (by simp))
      · exact numbered.address s (by simp [back])
  inside s mem := by
    rcases List.mem_append.mp mem with front | back
    · exact numbered.inside s (List.mem_append_left _ front)
    · rcases List.mem_cons.mp back with rfl | back
      · exact addressed
      · exact numbered.inside s (by simp [back])

theorem other_branch (numbered : Numbered address (before ++ t :: after)) {s : Thread}
    (mem : s ∈ before ++ after) : s.branch ≠ t.branch :=
  branch_ne numbered.increasing mem

theorem find_here (numbered : Numbered address (before ++ t :: after)) {s : Thread}
    (same : s.branch = t.branch) :
    (before ++ s :: after).find? (·.branch = t.branch) = some s :=
  find_increasing numbered.increasing same

theorem unique (numbered : Numbered address threads) {s : Thread} (mem : t ∈ threads)
    (mem' : s ∈ threads) (same : s.branch = t.branch) : s = t := by
  obtain ⟨before, after, rfl⟩ := List.append_of_mem mem
  rcases List.mem_append.mp mem' with front | back
  · exact absurd same (numbered.other_branch (List.mem_append_left _ front))
  · rcases List.mem_cons.mp back with here | back
    · exact here
    · exact absurd same (numbered.other_branch (List.mem_append_right _ back))

/-- The threads that a group starts with. -/
theorem threadsFrom (address : List Nat) (first : Nat) (branches : List (List Template)) :
    Numbered address (threadsFrom address first branches) ∧
      ∀ t ∈ Stepwise.threadsFrom address first branches, first ≤ t.branch := by
  induction branches generalizing first with
  | nil => exact ⟨nil, List.forall_mem_nil _⟩
  | cons templates rest ih =>
    obtain ⟨numbered, later⟩ := ih (first + 1)
    rw [Stepwise.threadsFrom]
    refine ⟨⟨List.pairwise_cons.mpr ⟨?_, numbered.increasing⟩, ?_, ?_⟩, ?_⟩
    · intro t mem
      have := later t mem
      show first < t.branch
      omega
    · intro t mem
      rcases List.mem_cons.mp mem with rfl | mem
      · rfl
      · exact numbered.address t mem
    · intro t mem
      rcases List.mem_cons.mp mem with rfl | mem
      · exact .intro List.Pairwise.nil (List.forall_mem_nil _) (List.forall_mem_nil _)
      · exact numbered.inside t mem
    · intro t mem
      rcases List.mem_cons.mp mem with rfl | mem
      · exact Nat.le_refl _
      · have := later t mem
        omega

end Numbered

namespace Execution

variable {e x : Execution}

theorem addressed_iff : e.Addressed ↔ Numbered e.address e.threads := by
  constructor
  · rintro ⟨increasing, address, inside⟩
    exact ⟨increasing, address, inside⟩
  · rintro ⟨increasing, address, inside⟩
    exact .intro increasing address inside

theorem Addressed.threadless (none : e.threads = []) : e.Addressed := by
  rw [addressed_iff, none]
  exact .nil

theorem Addressed.thread? {path : List Nat} (addressed : e.Addressed)
    (found : e.thread? path = some x) : x.Addressed ∧ x.address = e.address ++ path := by
  induction path generalizing e with
  | nil =>
    cases found
    exact ⟨addressed, (List.append_nil _).symm⟩
  | cons branch path ih =>
    obtain ⟨t, mem, -, rfl, inside⟩ := thread?_found found
    have numbered := addressed_iff.mp addressed
    obtain ⟨x_addressed, address⟩ := ih (numbered.inside t mem) inside
    rw [numbered.address t mem, List.append_assoc, List.singleton_append] at address
    exact ⟨x_addressed, address⟩

/-- A place that has the address of a sequence has all of the sequence. -/
theorem Addressed.within {place : List Nat → Prop}
    (branch : ∀ {address}, place address → ∀ n, place (address ++ [n])) (addressed : e.Addressed)
    (here : place e.address) : e.Within place := by
  induction addressed with
  | intro _ address _ ih =>
    refine (within_iff _).mpr ⟨here, (allWithin_forall _).mpr fun t mem => ih t mem ?_⟩
    rw [address t mem]
    exact branch here t.branch

end Execution

end Stepwise
