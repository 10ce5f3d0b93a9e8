import Stepwise.Command
import Stepwise.Status

/-!
# Written paths

A path of branch numbers is written with a slash between two numbers. What is written is one word,
and a command that has it in front, behind an at sign, is read as the same command for that path.
Only the size of the numbers is limited, and not how many there are.
-/

namespace Stepwise

namespace Text

theorem not_isBlank_of_isDigit {c : Char} (digit : c.isDigit = true) : isBlank c = false := by
  have range : 48 ≤ c.toNat ∧ c.toNat ≤ 57 := by
    simpa [Char.isDigit, UInt32.le_iff_toNat_le] using digit
  simp only [isBlank, blankRanges, List.any_cons, List.any_nil, Bool.or_false, Bool.or_eq_false_iff,
    Bool.and_eq_false_iff, decide_eq_false_iff_not]
  omega

theorem isDigit_digits {n : Nat} {c : Char} (mem : c ∈ Nat.toDigits 10 n) : c.isDigit = true :=
  Nat.isDigit_of_mem_toDigits (by decide) (by decide) mem

/-- A number that is written can be read back, if it is not too large. -/
theorem readNumeral_toDigits {bound n : Nat} (small : n < bound) :
    readNumeral bound (Nat.toDigits 10 n) = some n := by
  have some_digit : Nat.toDigits 10 n ≠ [] := Nat.toDigits_ne_nil
  have digits : ∀ c ∈ Nat.toDigits 10 n, c.isDigit = true := fun c => isDigit_digits
  have all_digits : (Nat.toDigits 10 n).all Char.isDigit = true := List.all_eq_true.mpr digits
  have value : digitsValue (Nat.toDigits 10 n) = n := by
    rw [digitsValue, ← Nat.ofDigitChars_eq_foldl]
    exact Nat.ofDigitChars_toDigits (by decide) (by decide)
  have unsigned : dropPlus (Nat.toDigits 10 n) = Nat.toDigits 10 n := by
    unfold dropPlus
    split
    · next rest plus =>
      rw [plus] at digits
      exact absurd (digits '+' List.mem_cons_self) (by decide)
    · rfl
  simp only [readNumeral, unsigned, List.isEmpty_eq_false_iff.mpr some_digit, all_digits, value,
    small, Bool.not_true, Bool.false_eq_true, or_self, if_false, if_true]

/-- A word in front of a text, with a blank behind it. -/
theorem words_append {word : List Char} (some_letter : word ≠ [])
    (letters : ∀ c ∈ word, isBlank c = false) (rest : List Char) :
    words (word ++ ' ' :: rest) = word :: words rest := by
  have blank : words (' ' :: rest) = words rest := by
    rw [words.eq_def]
    rfl
  induction word with
  | nil => exact absurd rfl some_letter
  | cons c word ih =>
    obtain ⟨letter, others⟩ := List.forall_mem_cons.mp letters
    cases word with
    | nil =>
      show words (c :: ' ' :: rest) = _
      rw [words, letter, blank]
      rfl
    | cons d word =>
      have next : isBlank d = false := others d List.mem_cons_self
      have inner := ih (List.cons_ne_nil d word) others
      rw [List.cons_append] at inner
      rw [List.cons_append, List.cons_append, words, letter, next, inner]
      rfl

variable {α : Type} [DecidableEq α]

theorem parts_append {separator : α} {part : List α} (inside : separator ∉ part)
    (rest : List α) : parts separator (part ++ separator :: rest) = part :: parts separator rest := by
  induction part with
  | nil =>
    rw [List.nil_append, parts]
    obtain ⟨first, others, split⟩ := List.exists_cons_of_ne_nil (parts_ne_nil separator rest)
    simp only [split, if_true]
  | cons c part ih =>
    rw [List.mem_cons, not_or] at inside
    rw [List.cons_append, parts, ih inside.2]
    simp only [Ne.symm inside.1, if_false]

theorem parts_single {separator : α} {part : List α} (inside : separator ∉ part) :
    parts separator part = [part] := by
  induction part with
  | nil => rfl
  | cons c part ih =>
    rw [List.mem_cons, not_or] at inside
    rw [parts, ih inside.2]
    simp only [Ne.symm inside.1, if_false]

/-- What is put together with a separator is split into the same parts. -/
theorem parts_intercalate {separator : α} {given : List (List α)} (some_part : given ≠ [])
    (inside : ∀ part ∈ given, separator ∉ part) :
    parts separator ([separator].intercalate given) = given := by
  induction given with
  | nil => exact absurd rfl some_part
  | cons part given ih =>
    obtain ⟨here, later⟩ := List.forall_mem_cons.mp inside
    cases given with
    | nil => simpa using parts_single here
    | cons next given =>
      rw [List.intercalate_cons_cons, List.append_assoc, List.singleton_append, parts_append here,
        ih (List.cons_ne_nil next given) later]

end Text

theorem toList_pathText (path : List Nat) :
    (pathText path).toList = ['/'].intercalate (path.map (Nat.toDigits 10)) := by
  simp [pathText, String.toList_intercalate, Function.comp_def]

theorem mem_pathText {path : List Nat} {c : Char} (mem : c ∈ (pathText path).toList) :
    c = '/' ∨ c.isDigit = true := by
  rw [toList_pathText] at mem
  induction path with
  | nil => cases mem
  | cons n path ih =>
    cases path with
    | nil =>
      rw [List.map_singleton, List.intercalate_singleton] at mem
      exact Or.inr (Text.isDigit_digits mem)
    | cons m path =>
      rw [List.map_cons, List.map_cons, List.intercalate_cons_cons, List.mem_append,
        List.mem_append, List.mem_singleton] at mem
      rcases mem with (digit | slash) | later
      · exact Or.inr (Text.isDigit_digits digit)
      · exact Or.inl slash
      · exact ih later

namespace Command

theorem readNumerals {path : List Nat} (small : ∀ n ∈ path, n < branchBound) :
    (path.map (Nat.toDigits 10)).mapM (Text.readNumeral branchBound) = some path := by
  induction path with
  | nil => rfl
  | cons n path ih =>
    obtain ⟨here, later⟩ := List.forall_mem_cons.mp small
    rw [List.map_cons, List.mapM_cons, Text.readNumeral_toDigits here, ih later]
    rfl

theorem pathText_ne_nil (n : Nat) (path : List Nat) : (pathText (n :: path)).toList ≠ [] := by
  have some_digit : Nat.toDigits 10 n ≠ [] := Nat.toDigits_ne_nil
  rw [toList_pathText]
  cases path with
  | nil => simp
  | cons m path =>
    rw [List.map_cons, List.map_cons, List.intercalate_cons_cons]
    simp [some_digit]

theorem readPath_pathText {path : List Nat} (small : ∀ n ∈ path, n < branchBound) :
    readPath (pathText path).toList = .ok path := by
  cases path with
  | nil => rfl
  | cons n path =>
    have written := List.isEmpty_eq_false_iff.mpr (pathText_ne_nil n path)
    have numerals : ∀ part ∈ (n :: path).map (Nat.toDigits 10), '/' ∉ part := by
      intro part mem slash
      obtain ⟨m, -, rfl⟩ := List.mem_map.mp mem
      exact absurd (Text.isDigit_digits slash) (by decide)
    have split : Text.parts '/' (pathText (n :: path)).toList =
        (n :: path).map (Nat.toDigits 10) := by
      rw [toList_pathText]
      exact Text.parts_intercalate (List.cons_ne_nil _ _) numerals
    simp only [readPath, written, Bool.false_eq_true, if_false, split, readNumerals small]

/-- A command with an address in front is read like the words behind it, for that path. -/
theorem read_at {path : List Nat} (small : ∀ n ∈ path, n < branchBound) (text : String) :
    read ("@" ++ pathText path ++ " " ++ text) =
      readWords (some path) (Text.words text.toList) := by
  have letters : ∀ c ∈ '@' :: (pathText path).toList, Text.isBlank c = false := by
    intro c mem
    rcases List.mem_cons.mp mem with rfl | mem
    · rfl
    · rcases mem_pathText mem with rfl | digit
      · rfl
      · exact Text.not_isBlank_of_isDigit digit
  have split : Text.words ("@" ++ pathText path ++ " " ++ text).toList =
      ('@' :: (pathText path).toList) :: Text.words text.toList := by
    rw [← Text.words_append (List.cons_ne_nil _ _) letters]
    simp
  rw [read, split]
  simp only [readPath_pathText small]
  rfl

theorem control?_ne_event (word : String) (path : List Nat) (event : Event) :
    control? word ≠ some (.event path event) := by
  unfold control?
  intro found
  repeat' split at found
  all_goals cases found

/-- An address may stand before the words of an event and before no others, and it makes no other
difference to them than the path. -/
theorem readWords_at_iff (words : List (List Char)) (path : List Nat) (event : Event) :
    readWords (some path) words = .ok (.event path event) ↔
      readWords none words = .ok (.event [] event) := by
  cases words with
  | nil =>
    constructor
    · nofun
    · nofun
  | cons first rest =>
    simp only [readWords]
    cases plain : plainEvent? (Text.foldCase first) with
    | some found => simp
    | none =>
      by_cases tick : Text.foldCase first = "tick"
      · simp only [tick, if_true]
        cases readTick rest <;> simp [Except.map]
      · simp only [tick, if_false]
        constructor
        · nofun
        · intro control
          simp only [Option.isSome_none, Bool.false_eq_true, if_false] at control
          split at control
          · next command found =>
            cases control
            exact absurd found (control?_ne_event _ _ _)
          · cases control

end Command

end Stepwise
