import Stepwise.Value

/-!
# Equality of values

Whether two values are equal is decided part by part.
-/

namespace Stepwise

mutual

def Value.same : Value → Value → Bool
  | .null, .null | .minusZero, .minusZero => true
  | .bool a, .bool b => a = b
  | .int i, .int j => i = j
  | .real x, .real y => x = y
  | .str s, .str t => s = t
  | .list items, .list others => sameItems items others
  | .map entries, .map others => sameEntries entries others
  | _, _ => false

def sameItems : List Value → List Value → Bool
  | [], [] => true
  | a :: as, b :: bs => a.same b && sameItems as bs
  | _, _ => false

def sameEntries : List (Value × Value) → List (Value × Value) → Bool
  | [], [] => true
  | (key, a) :: as, (name, b) :: bs => key.same name && a.same b && sameEntries as bs
  | _, _ => false

end

mutual

theorem Value.same_self : (v : Value) → v.same v = true
  | .null | .minusZero => by rw [Value.same]
  | .bool _ | .int _ | .real _ | .str _ => by rw [Value.same, decide_eq_true rfl]
  | .list items => by rw [Value.same, sameItems_self items]
  | .map entries => by rw [Value.same, sameEntries_self entries]

theorem sameItems_self : (items : List Value) → sameItems items items = true
  | [] => by rw [sameItems]
  | v :: rest => by rw [sameItems, v.same_self, sameItems_self rest]; rfl

theorem sameEntries_self : (entries : List (Value × Value)) → sameEntries entries entries = true
  | [] => by rw [sameEntries]
  | (key, v) :: rest => by
    rw [sameEntries, key.same_self, v.same_self, sameEntries_self rest]; rfl

end

mutual

theorem Value.eq_of_same : (a b : Value) → a.same b = true → a = b
  | .null, b, same => by
    cases b <;> first | rfl | cases same
  | .minusZero, b, same => by
    cases b <;> first | rfl | cases same
  | .bool a, b, same => by
    cases b <;> first | rw [of_decide_eq_true same] | cases same
  | .int i, b, same => by
    cases b <;> first | rw [of_decide_eq_true same] | cases same
  | .real x, b, same => by
    cases b <;> first | rw [of_decide_eq_true same] | cases same
  | .str s, b, same => by
    cases b <;> first | rw [of_decide_eq_true same] | cases same
  | .list items, b, same => by
    cases b <;> first | rw [eq_of_sameItems items _ same] | cases same
  | .map entries, b, same => by
    cases b <;> first | rw [eq_of_sameEntries entries _ same] | cases same

theorem eq_of_sameItems : (as bs : List Value) → sameItems as bs = true → as = bs
  | [], [], _ => rfl
  | a :: as, b :: bs, same => by
    rw [sameItems, Bool.and_eq_true] at same
    rw [a.eq_of_same b same.1, eq_of_sameItems as bs same.2]
  | [], _ :: _, same | _ :: _, [], same => by cases same

theorem eq_of_sameEntries : (as bs : List (Value × Value)) → sameEntries as bs = true → as = bs
  | [], [], _ => rfl
  | (key, a) :: as, (name, b) :: bs, same => by
    rw [sameEntries, Bool.and_eq_true, Bool.and_eq_true] at same
    rw [key.eq_of_same name same.1.1, a.eq_of_same b same.1.2, eq_of_sameEntries as bs same.2]
  | [], _ :: _, same | _ :: _, [], same => by cases same

end

instance : DecidableEq Value := fun a b =>
  decidable_of_iff (a.same b = true) ⟨a.eq_of_same b, fun same => same ▸ a.same_self⟩

end Stepwise
