import Mathlib.Tactic.SplitIfs
import Stepwise.Block

/-!
# Lengths of waits

The length of a wait is held at the ends of the range of seconds and then made into a
double-precision number. Both steps keep whether it is positive.
-/

namespace Stepwise

namespace Binary64

theorem roundedMagnitude_le (num den : Nat) : roundedMagnitude num den ≤ infiniteMagnitude := by
  unfold roundedMagnitude
  split
  · exact Nat.zero_le _
  · exact Nat.min_le_right _ _

theorem signField_ofFields {magnitude : Nat} (le : magnitude ≤ infiniteMagnitude) :
    (ofFields true magnitude).signField = true := by
  have small : magnitude + signSize < 2 ^ 64 := by
    have bound : infiniteMagnitude + signSize < 2 ^ 64 := by decide
    omega
  simp only [signField, ofFields, if_true, decide_eq_true_eq]
  rw [UInt64.toNat_ofNat_of_lt' small]
  exact Nat.le_add_left _ _

theorem isPositive_of_signField {x : Binary64} (negative : x.signField = true) :
    x.isPositive = false := by
  unfold isPositive shape
  rw [negative]
  split_ifs <;> rfl

/-- A number made from an integer is positive only if the integer is. -/
theorem isPositive_ofInt {i : Int} (le : i ≤ 0) : (ofInt i).isPositive = false := by
  rcases Int.lt_or_eq_of_le le with negative | rfl
  · rw [ofInt, ofRatio, decide_eq_true negative]
    exact isPositive_of_signField (signField_ofFields (roundedMagnitude_le _ _))
  · decide

theorem isPositive_ofFields {magnitude : Nat} (positive : 0 < magnitude)
    (le : magnitude ≤ infiniteMagnitude) : (ofFields false magnitude).isPositive = true := by
  have bound : infiniteMagnitude < signSize := by decide
  have fits : signSize < UInt64.size := by decide
  have bits : (ofFields false magnitude).bits.toNat = magnitude := by
    simp only [ofFields, Bool.false_eq_true, if_false, Nat.add_zero]
    exact UInt64.toNat_ofNat_of_lt' (by omega)
  have unsigned : (ofFields false magnitude).signField = false := by
    simp only [signField, bits, decide_eq_false_iff_not]
    omega
  have some_fraction : 0 < fractionSize := by decide
  have split := Nat.div_add_mod magnitude fractionSize
  have quotient : magnitude / fractionSize ≤ 2047 := by
    rw [infiniteMagnitude, Nat.mul_comm] at le
    exact Nat.div_le_of_le_mul le
  unfold isPositive shape
  rw [unsigned, exponentField, fractionField, bits, Nat.mod_eq_of_lt (by omega)]
  split_ifs with top whole least
  · rfl
  · rw [top] at split
    rw [infiniteMagnitude] at le
    omega
  · rw [least] at split
    simp only [Bool.not_false, Bool.true_and, decide_eq_true_eq]
    omega
  · simp only [Bool.not_false, Bool.true_and, decide_eq_true_eq]
    omega

theorem roundedMagnitude_pos {num : Nat} (positive : 0 < num) : 0 < roundedMagnitude num 1 := by
  have above : leastExponent < exponentFor num 1 := by
    have low : leastExponent < max ((num.log2 : Int) - Nat.log2 1 - 53) leastExponent := by
      have log_one : Nat.log2 1 = 0 := by decide
      rw [log_one, leastExponent]
      omega
    unfold exponentFor
    simp only
    split
    · omega
    · exact low
  have some_fraction : 0 < fractionSize := by decide
  have steps : 0 < (exponentFor num 1 - leastExponent).toNat := by omega
  have bits := Nat.mul_pos steps some_fraction
  have top : 0 < infiniteMagnitude := by decide
  unfold roundedMagnitude
  rw [if_neg (by omega)]
  simp only
  omega

theorem isPositive_ofInt_of_pos {i : Int} (positive : 0 < i) : (ofInt i).isPositive = true := by
  have unsigned : decide (i < 0) = false := by
    rw [decide_eq_false_iff_not]
    omega
  rw [ofInt, ofRatio, unsigned]
  exact isPositive_ofFields (roundedMagnitude_pos (by omega)) (roundedMagnitude_le _ _)

end Binary64

theorem TimeUnit.toSeconds_pos (unit : TimeUnit) {value : Int64} (positive : 0 < value) :
    0 < (unit.toSeconds value).toInt := by
  have value_pos : 0 < value.toInt := by
    rw [Int64.lt_iff_toInt_lt] at positive
    simpa using positive
  have product : 0 < value.toInt * unit.secondsPerUnit := by
    cases unit <;> simp only [secondsPerUnit] <;> omega
  have least : Int64.minValue.toInt = -2 ^ 63 := rfl
  have most : Int64.maxValue.toInt = 2 ^ 63 - 1 := rfl
  rw [toSeconds, saturate, Int64.toInt_ofInt_of_le (by omega) (by omega)]
  omega

theorem TimeUnit.toSeconds_nonpos (unit : TimeUnit) {value : Int64} (spent : ¬ 0 < value) :
    (unit.toSeconds value).toInt ≤ 0 := by
  have value_le : value.toInt ≤ 0 := by
    rw [Int64.lt_iff_toInt_lt] at spent
    simpa using spent
  have product : value.toInt * unit.secondsPerUnit ≤ 0 := by
    cases unit <;> simp only [secondsPerUnit] <;> omega
  have least : Int64.minValue.toInt = -2 ^ 63 := rfl
  have most : Int64.maxValue.toInt = 2 ^ 63 - 1 := rfl
  rw [toSeconds, saturate, Int64.toInt_ofInt_of_le (by omega) (by omega)]
  omega

/-- No countdown runs for a wait that is over before it starts. -/
theorem Sleep.isPositive_fullLength {value : Int64} (spent : ¬ 0 < value) (unit : TimeUnit) :
    (fullLength value unit).isPositive = false :=
  Binary64.isPositive_ofInt (unit.toSeconds_nonpos spent)

/-- A wait that starts counts down. -/
theorem Sleep.isPositive_fullLength_of_pos {value : Int64} (positive : 0 < value) (unit : TimeUnit) :
    (fullLength value unit).isPositive = true :=
  Binary64.isPositive_ofInt_of_pos (unit.toSeconds_pos positive)

end Stepwise
