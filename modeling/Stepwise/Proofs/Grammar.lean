import Mathlib.Data.List.TakeWhile
import Stepwise.Proofs.Decoding
import Stepwise.Proofs.Paths

/-!
# The grammar of commands

A command is read from the words of a line, and only words that the grammar allows are read: first
an address, which may be left out, and then an event, or a control word where there is no address.
On all other words the first of a list of complaints that applies is reported.
-/

namespace Stepwise

namespace Text

/-- The words of a text are its longest runs of characters that are not blank. -/
inductive InWords : List Char → List (List Char) → Prop where
  | nil : InWords [] []
  | blank {c rest ws} (blank : isBlank c = true) (later : InWords rest ws) : InWords (c :: rest) ws
  | word {word rest ws} (some_letter : word ≠ []) (letters : ∀ c ∈ word, isBlank c = false)
    (ends : ∀ c ∈ rest.head?, isBlank c = true) (later : InWords rest ws) :
    InWords (word ++ rest) (word :: ws)

theorem words_blank {c : Char} (blank : isBlank c = true) (rest : List Char) :
    words (c :: rest) = words rest := by
  rw [words.eq_def]
  simp only [blank, if_true]

theorem words_single {c : Char} (letter : isBlank c = false) {rest : List Char}
    (ends : ∀ d ∈ rest.head?, isBlank d = true) : words (c :: rest) = [c] :: words rest := by
  rw [words.eq_def]
  cases rest with
  | nil => simp only [letter, Bool.false_eq_true, if_false, words]
  | cons gap rest => simp only [letter, ends gap rfl, Bool.false_eq_true, if_false]

theorem words_letter {c next : Char} (letter : isBlank c = false) (letter' : isBlank next = false)
    {rest word : List Char} {others : List (List Char)}
    (later : words (next :: rest) = word :: others) :
    words (c :: next :: rest) = (c :: word) :: others := by
  rw [words, later, letter, letter']
  rfl

theorem words_word {word rest : List Char} (some_letter : word ≠ [])
    (letters : ∀ c ∈ word, isBlank c = false) (ends : ∀ c ∈ rest.head?, isBlank c = true) :
    words (word ++ rest) = word :: words rest := by
  induction word with
  | nil => exact absurd rfl some_letter
  | cons c word ih =>
    obtain ⟨letter, others⟩ := List.forall_mem_cons.mp letters
    cases word with
    | nil => exact words_single letter ends
    | cons next word =>
      exact words_letter letter (others next List.mem_cons_self)
        (ih (List.cons_ne_nil next word) others)

theorem InWords.words_eq {cs : List Char} {ws : List (List Char)} (split : InWords cs ws) :
    words cs = ws := by
  induction split with
  | nil => rfl
  | blank blank _ ih => rw [words_blank blank, ih]
  | word some_letter letters ends _ ih => rw [words_word some_letter letters ends, ih]

theorem exists_inWords : ∀ cs : List Char, ∃ ws, InWords cs ws
  | [] => ⟨[], .nil⟩
  | c :: rest => by
    cases first : isBlank c with
    | true =>
      obtain ⟨ws, split⟩ := exists_inWords rest
      exact ⟨ws, .blank first split⟩
    | false =>
      -- The word goes on up to the next blank, and what is behind it is shorter.
      have shorter := (List.dropWhile_suffix (fun d => !isBlank d) (l := rest)).length_le
      obtain ⟨ws, split⟩ := exists_inWords (rest.dropWhile fun d => !isBlank d)
      refine ⟨(c :: rest.takeWhile fun d => !isBlank d) :: ws, ?_⟩
      have run : InWords ((c :: rest.takeWhile fun d => !isBlank d) ++
          rest.dropWhile fun d => !isBlank d) ((c :: rest.takeWhile fun d => !isBlank d) :: ws) := by
        refine .word (List.cons_ne_nil _ _) (List.forall_mem_cons.mpr ⟨first, ?_⟩) ?_ split
        · exact fun d mem => by simpa using List.mem_takeWhile_imp mem
        · intro d mem
          have stop := List.head?_dropWhile_not (fun d => !isBlank d) rest
          rw [Option.mem_def.mp mem] at stop
          simpa using stop
      rwa [List.cons_append, List.takeWhile_append_dropWhile] at run
termination_by cs => cs.length

/-- A text has these words and no others. -/
theorem inWords_iff (cs : List Char) (ws : List (List Char)) : InWords cs ws ↔ ws = words cs := by
  constructor
  · exact fun split => split.words_eq.symm
  · rintro rfl
    obtain ⟨ws, split⟩ := exists_inWords cs
    rwa [split.words_eq]

/-- Digits, with a plus sign in front or not, whose value is below a bound. -/
def Numeral (bound : Nat) (cs : List Char) (n : Nat) : Prop :=
  ∃ digits, (cs = digits ∨ cs = '+' :: digits) ∧ digits ≠ [] ∧
    (∀ c ∈ digits, c.isDigit = true) ∧ Nat.ofDigitChars 10 digits 0 = n ∧ n < bound

theorem dropPlus_digits {digits : List Char} (all_digits : ∀ c ∈ digits, c.isDigit = true) :
    dropPlus digits = digits := by
  unfold dropPlus
  split
  · exact absurd (all_digits '+' List.mem_cons_self) (by decide)
  · rfl

theorem eq_dropPlus (cs : List Char) : cs = dropPlus cs ∨ cs = '+' :: dropPlus cs := by
  unfold dropPlus
  split
  · exact .inr rfl
  · exact .inl rfl

theorem readNumeral_eq_some_iff {bound n : Nat} {cs : List Char} :
    readNumeral bound cs = some n ↔ Numeral bound cs n := by
  have value : ∀ digits, digitsValue digits = Nat.ofDigitChars 10 digits 0 := fun digits => by
    rw [digitsValue, Nat.ofDigitChars_eq_foldl]
  simp only [readNumeral, value]
  constructor
  · intro read
    split at read
    · cases read
    · next digits =>
      rw [not_or, List.isEmpty_iff, Bool.not_eq_true, Bool.not_eq_false'] at digits
      split at read
      · next small =>
        cases read
        exact ⟨dropPlus cs, eq_dropPlus cs, digits.1, List.all_eq_true.mp digits.2, rfl, small⟩
      · cases read
  · rintro ⟨digits, written, some_digit, all_digits, rfl, small⟩
    have unsigned : dropPlus cs = digits := by
      rcases written with rfl | rfl
      · exact dropPlus_digits all_digits
      · rfl
    simp only [unsigned, List.isEmpty_eq_false_iff.mpr some_digit, List.all_eq_true.mpr all_digits,
      Bool.not_true, Bool.false_eq_true, or_self, if_false, small, if_true]

/-- The character is written small: a capital stands 32 places before its small letter, and other
characters have no other form. -/
inductive FoldsTo : Char → Char → Prop where
  | capital {c small} (first : 'A' ≤ c) (last : c ≤ 'Z') (behind : small.toNat = c.toNat + 32) :
    FoldsTo c small
  | other {c} (no_capital : ¬ ('A' ≤ c ∧ c ≤ 'Z')) : FoldsTo c c

/-- The text is the word with small letters in the place of capitals. -/
def Folds (word : List Char) (text : String) : Prop := List.Forall₂ FoldsTo word text.toList

theorem toLower_of_not_capital {c : Char} (no_capital : ¬ ('A' ≤ c ∧ c ≤ 'Z')) : c.toLower = c :=
  dif_neg no_capital

theorem toNat_toLower {c : Char} (capital : 'A' ≤ c ∧ c ≤ 'Z') :
    c.toLower.toNat = c.toNat + 32 := by
  have last : c.val.toNat ≤ 90 := capital.2
  have small : c.toLower.val = c.val + ('a'.val - 'A'.val) := congrArg Char.val (dif_pos capital)
  show c.toLower.val.toNat = c.val.toNat + 32
  rw [small, UInt32.toNat_add, Nat.mod_eq_of_lt]
  · rfl
  · show c.val.toNat + 32 < 2 ^ 32
    omega

theorem foldsTo_iff {c d : Char} : FoldsTo c d ↔ c.toLower = d := by
  constructor
  · intro folds
    cases folds with
    | capital first last behind =>
      exact Char.toNat_inj.mp ((toNat_toLower ⟨first, last⟩).trans behind.symm)
    | other no_capital => exact toLower_of_not_capital no_capital
  · rintro rfl
    by_cases capital : 'A' ≤ c ∧ c ≤ 'Z'
    · exact .capital capital.1 capital.2 (toNat_toLower capital)
    · rw [toLower_of_not_capital capital]
      exact .other capital

theorem folds_iff {word : List Char} {text : String} :
    Folds word text ↔ foldCase word = text := by
  have small : List.Forall₂ FoldsTo word text.toList ↔ word.map Char.toLower = text.toList := by
    rw [← List.forall₂_eq_eq_eq, List.forall₂_map_left_iff]
    exact ⟨fun all => all.imp fun _ _ => foldsTo_iff.mp, fun all => all.imp fun _ _ => foldsTo_iff.mpr⟩
  rw [Folds, small, foldCase]
  constructor
  · intro same
    rw [same, String.ofList_toList]
  · rintro rfl
    rw [String.toList_ofList]

variable {α : Type} [DecidableEq α]

/-- The parts of a text are what it is put together from with the separator. -/
theorem intercalate_parts (separator : α) (cs : List α) :
    [separator].intercalate (parts separator cs) = cs := by
  induction cs with
  | nil => rfl
  | cons c rest ih =>
    obtain ⟨first, others, split⟩ := List.exists_cons_of_ne_nil (parts_ne_nil separator rest)
    rw [parts, split]
    rw [split] at ih
    by_cases here : c = separator
    · simp only [here, if_true]
      rw [List.intercalate_cons_cons, ih, List.nil_append, List.singleton_append]
    · simp only [here, if_false]
      cases others with
      | nil =>
        rw [List.intercalate_singleton] at ih ⊢
        rw [ih]
      | cons next others =>
        rw [List.intercalate_cons_cons] at ih ⊢
        rw [← ih]
        rfl

end Text

namespace Command

open Text (Numeral InWords Folds folds_iff foldCase)

/-- An at sign, and behind it numerals with slashes between them, or none. -/
inductive Address : List Char → List Nat → Prop where
  | none : Address ['@'] []
  | path {numerals path} (some_numeral : numerals ≠ [])
    (values : List.Forall₂ (Numeral branchBound) numerals path) :
    Address ('@' :: ['/'].intercalate numerals) path

def eventNames : List (String × Event) :=
  [("done", .done), ("d", .done), ("yes", .yes), ("y", .yes), ("no", .no), ("n", .no),
    ("skip", .skip)]

def controlNames : List (String × Command) :=
  [("wait", .wait), ("w", .wait), ("pause", .pause), ("resume", .resume), ("status", .status),
    ("s", .status), ("help", .help), ("?", .help), ("quit", .quit), ("q", .quit), ("exit", .quit)]

/-- The words of an event, and any after them. -/
inductive EventPhrase : List (List Char) → Event → Prop where
  | named {word rest name event} (folds : Folds word name) (known : (name, event) ∈ eventNames) :
    EventPhrase (word :: rest) event
  | tick {word number rest seconds} (folds : Folds word "tick")
    (value : Binary64.read (String.ofList number) = some seconds) :
    EventPhrase (word :: number :: rest) (.tick seconds)

/-- The words of a command, and any after them. -/
inductive Phrase : List (List Char) → Command → Prop where
  | event {ws event} (phrase : EventPhrase ws event) : Phrase ws (.event [] event)
  | addressed {address ws path event} (valid : Address address path) (phrase : EventPhrase ws event) :
    Phrase (address :: ws) (.event path event)
  | control {word rest name command} (folds : Folds word name)
    (known : (name, command) ∈ controlNames) : Phrase (word :: rest) command

/-- The words without an address in front. -/
def unaddressed : List (List Char) → List (List Char)
  | ('@' :: _) :: rest => rest
  | ws => ws

/-- What may be said against some words. The number is the place among all complaints. -/
inductive Complaint : Nat → List (List Char) → CommandError → Prop where
  | noWord : Complaint 0 [] .empty
  | noPath {text rest} (wrong : ∀ path, ¬ Address ('@' :: text) path) :
    Complaint 1 (('@' :: text) :: rest) (.invalidPath (String.ofList text))
  | noCommand {text} : Complaint 2 [('@' :: text)] .empty
  | noArgument {ws word} (words : unaddressed ws = [word]) (folds : Folds word "tick") :
    Complaint 3 ws (.missingArgument "tick")
  | noNumber {ws word number rest} (words : unaddressed ws = word :: number :: rest)
    (folds : Folds word "tick") (wrong : Binary64.read (String.ofList number) = none) :
    Complaint 3 ws (.invalidNumber (String.ofList number))
  | withPath {text word rest name} (folds : Folds word name) :
    Complaint 4 (('@' :: text) :: word :: rest) (.unexpectedPath name)
  | unknown {word rest name} (folds : Folds word name) : Complaint 5 (word :: rest) (.unknown name)

/-- Of the complaints that apply it is the first one. -/
def FirstComplaint (ws : List (List Char)) (error : CommandError) : Prop :=
  ∃ place, Complaint place ws error ∧ ∀ earlier < place, ∀ other, ¬ Complaint earlier ws other

theorem Complaint.unique {place : Nat} {ws : List (List Char)} {error error' : CommandError}
    (complaint : Complaint place ws error) (complaint' : Complaint place ws error') :
    error = error' := by
  cases complaint with
  | noWord => cases complaint'; rfl
  | noPath => cases complaint'; rfl
  | noCommand => cases complaint'; rfl
  | noArgument words =>
    cases complaint' with
    | noArgument => rfl
    | noNumber words' => rw [words] at words'; cases words'
  | noNumber words =>
    cases complaint' with
    | noArgument words' => rw [words] at words'; cases words'
    | noNumber words' => rw [words] at words'; cases words'; rfl
  | withPath folds =>
    cases complaint' with
    | withPath folds' => rw [← folds_iff.mp folds, folds_iff.mp folds']
  | unknown folds =>
    cases complaint' with
    | unknown folds' => rw [← folds_iff.mp folds, folds_iff.mp folds']

theorem FirstComplaint.unique {ws : List (List Char)} {error error' : CommandError}
    (first : FirstComplaint ws error) (first' : FirstComplaint ws error') : error = error' := by
  obtain ⟨place, complaint, least⟩ := first
  obtain ⟨place', complaint', least'⟩ := first'
  rcases Nat.lt_trichotomy place place' with before | rfl | after
  · exact absurd complaint (least' place before error)
  · exact complaint.unique complaint'
  · exact absurd complaint' (least place' after error')

theorem plainEvent?_eq_some_iff {word : String} {event : Event} :
    plainEvent? word = some event ↔ (word, event) ∈ eventNames := by
  simp only [eventNames, List.mem_cons, Prod.mk.injEq, List.not_mem_nil, or_false]
  unfold plainEvent?
  constructor
  · intro found
    repeat' split at found
    all_goals cases found
    all_goals simp_all
  · rintro (⟨rfl, rfl⟩ | ⟨rfl, rfl⟩ | ⟨rfl, rfl⟩ | ⟨rfl, rfl⟩ | ⟨rfl, rfl⟩ | ⟨rfl, rfl⟩ |
      ⟨rfl, rfl⟩) <;> rfl

theorem control?_eq_some_iff {word : String} {command : Command} :
    control? word = some command ↔ (word, command) ∈ controlNames := by
  simp only [controlNames, List.mem_cons, Prod.mk.injEq, List.not_mem_nil, or_false]
  unfold control?
  constructor
  · intro found
    repeat' split at found
    all_goals cases found
    all_goals simp_all
  · rintro (⟨rfl, rfl⟩ | ⟨rfl, rfl⟩ | ⟨rfl, rfl⟩ | ⟨rfl, rfl⟩ | ⟨rfl, rfl⟩ | ⟨rfl, rfl⟩ |
      ⟨rfl, rfl⟩ | ⟨rfl, rfl⟩ | ⟨rfl, rfl⟩ | ⟨rfl, rfl⟩ | ⟨rfl, rfl⟩) <;> rfl

theorem eventNames_apart : ∀ p ∈ eventNames, p.1 ≠ "tick" ∧ ∀ q ∈ controlNames, p.1 ≠ q.1 := by
  decide

theorem controlNames_apart : ∀ q ∈ controlNames, q.1 ≠ "tick" := by decide

theorem numerals_ne_nil {numerals : List (List Char)} {path : List Nat} (some_numeral : numerals ≠ [])
    (values : List.Forall₂ (Numeral branchBound) numerals path) :
    ['/'].intercalate numerals ≠ [] := by
  cases values with
  | nil => exact absurd rfl some_numeral
  | @cons numeral n numerals path value values =>
    have first : numeral ≠ [] := by
      obtain ⟨digits, rfl | rfl, some_digit, -⟩ := value
      · exact some_digit
      · exact List.cons_ne_nil _ _
    cases numerals with
    | nil => rwa [List.intercalate_singleton]
    | cons next numerals =>
      rw [List.intercalate_cons_cons, List.append_assoc]
      exact List.append_ne_nil_of_left_ne_nil first _

theorem no_slash {numerals : List (List Char)} {path : List Nat}
    (values : List.Forall₂ (Numeral branchBound) numerals path) :
    ∀ numeral ∈ numerals, '/' ∉ numeral := by
  induction values with
  | nil => exact List.forall_mem_nil _
  | cons value _ ih =>
    refine List.forall_mem_cons.mpr ⟨fun slash => ?_, ih⟩
    obtain ⟨digits, written, -, all_digits, -⟩ := value
    rcases written with rfl | rfl
    · exact absurd (all_digits '/' slash) (by decide)
    · rcases List.mem_cons.mp slash with plus | slash
      · exact absurd plus (by decide)
      · exact absurd (all_digits '/' slash) (by decide)

theorem readPath_eq_ok_iff {text : List Char} {path : List Nat} :
    readPath text = .ok path ↔ Address ('@' :: text) path := by
  have values_iff : ∀ numerals : List (List Char),
      numerals.mapM (Text.readNumeral branchBound) = some path ↔
        List.Forall₂ (Numeral branchBound) numerals path := by
    intro numerals
    rw [mapM_eq_some_iff]
    simp only [Text.readNumeral_eq_some_iff]
  unfold readPath
  constructor
  · intro read
    split at read
    · next none =>
      cases read
      rw [List.isEmpty_iff.mp none]
      exact .none
    · split at read
      · next found =>
        cases read
        have address := Address.path (Text.parts_ne_nil '/' text) ((values_iff _).mp found)
        rwa [Text.intercalate_parts] at address
      · cases read
  · intro address
    cases address with
    | none => rfl
    | path some_numeral values =>
      have written := List.isEmpty_eq_false_iff.mpr (numerals_ne_nil some_numeral values)
      simp only [written, Bool.false_eq_true, if_false,
        Text.parts_intercalate some_numeral (no_slash values), (values_iff _).mpr values]

theorem error_of_readPath {text : List Char} {error : CommandError}
    (refused : readPath text = .error error) :
    error = .invalidPath (String.ofList text) ∧ ∀ path, ¬ Address ('@' :: text) path := by
  constructor
  · unfold readPath at refused
    split at refused
    · cases refused
    · split at refused <;> cases refused
      rfl
  · intro path address
    rw [readPath_eq_ok_iff.mpr address] at refused
    cases refused

/-- Behind an address only an event is read, and without one a control word as well. -/
theorem readWords_eq_ok_iff {path : Option (List Nat)} {ws : List (List Char)} {command : Command} :
    readWords path ws = .ok command ↔
      (∃ event, EventPhrase ws event ∧ command = .event (path.getD []) event) ∨
        (path = none ∧
          ∃ word rest, ws = word :: rest ∧ (Text.foldCase word, command) ∈ controlNames) := by
  cases ws with
  | nil =>
    refine iff_of_false nofun ?_
    rintro (⟨_, phrase, -⟩ | ⟨-, _, _, none, -⟩)
    · cases phrase
    · cases none
  | cons word rest =>
    simp only [readWords]
    constructor
    · intro read
      cases plain : plainEvent? (Text.foldCase word) with
      | some event =>
        simp only [plain] at read
        cases read
        have phrase : EventPhrase (word :: rest) event :=
          .named (folds_iff.mpr rfl) (plainEvent?_eq_some_iff.mp plain)
        exact .inl ⟨event, phrase, rfl⟩
      | none =>
        simp only [plain] at read
        split at read
        · next tick =>
          cases rest with
          | nil => cases read
          | cons number rest =>
            cases value : Binary64.read (String.ofList number) with
            | none =>
              simp only [readTick, value] at read
              cases read
            | some seconds =>
              simp only [readTick, value] at read
              cases read
              exact .inl ⟨.tick seconds, .tick (folds_iff.mpr tick) value, rfl⟩
        · split at read
          · cases read
          · next unaddressed =>
            split at read
            · next found =>
              cases read
              refine .inr ⟨?_, word, rest, rfl, control?_eq_some_iff.mp found⟩
              exact Option.not_isSome_iff_eq_none.mp unaddressed
            · cases read
    · rintro (⟨event, phrase, rfl⟩ | ⟨rfl, _, _, same, name⟩)
      · cases phrase with
        | named folds known =>
          simp only [folds_iff.mp folds, plainEvent?_eq_some_iff.mpr known]
        | tick folds value =>
          simp only [folds_iff.mp folds, plainEvent?, readTick, value, Except.map]
          rfl
      · cases same
        have plain : plainEvent? (Text.foldCase word) = none := by
          refine Option.eq_none_iff_forall_ne_some.mpr fun event found => ?_
          exact (eventNames_apart _ (plainEvent?_eq_some_iff.mp found)).2 _ name rfl
        have other : Text.foldCase word ≠ "tick" := controlNames_apart _ name
        simp only [plain, other, if_false, Option.isSome_none, Bool.false_eq_true,
          control?_eq_some_iff.mpr name]

theorem error_of_readWords {path : Option (List Nat)} {word : List Char} {rest : List (List Char)}
    {error : CommandError} (refused : readWords path (word :: rest) = .error error) :
    (Text.foldCase word = "tick" ∧ ((rest = [] ∧ error = .missingArgument "tick") ∨
        ∃ number more, rest = number :: more ∧ Binary64.read (String.ofList number) = none ∧
          error = .invalidNumber (String.ofList number))) ∨
      (Text.foldCase word ≠ "tick" ∧
        error = if path.isSome then .unexpectedPath (Text.foldCase word)
          else .unknown (Text.foldCase word)) := by
  simp only [readWords] at refused
  split at refused
  · cases refused
  · split at refused
    · next tick =>
      refine .inl ⟨tick, ?_⟩
      cases rest with
      | nil =>
        cases refused
        exact .inl ⟨rfl, rfl⟩
      | cons number rest =>
        cases value : Binary64.read (String.ofList number) with
        | none =>
          simp only [readTick, value] at refused
          cases refused
          exact .inr ⟨number, rest, rfl, value, rfl⟩
        | some seconds =>
          simp only [readTick, value] at refused
          cases refused
    · next other =>
      refine .inr ⟨other, ?_⟩
      split at refused
      · next addressed =>
        cases refused
        rw [if_pos addressed]
      · next unaddressed =>
        split at refused
        · cases refused
        · cases refused
          rw [if_neg unaddressed]

def Plain (ws : List (List Char)) : Prop := ∀ text rest, ws ≠ ('@' :: text) :: rest

theorem addressed_or_plain (ws : List (List Char)) :
    (∃ text rest, ws = ('@' :: text) :: rest) ∨ Plain ws := by
  by_cases addressed : ∃ text rest, ws = ('@' :: text) :: rest
  · exact .inl addressed
  · exact .inr fun text rest same => addressed ⟨text, rest, same⟩

theorem unaddressed_plain {ws : List (List Char)} (plain : Plain ws) : unaddressed ws = ws := by
  unfold unaddressed
  split
  · exact absurd rfl (plain _ _)
  · rfl

theorem Address.head {address : List Char} {path : List Nat} (valid : Address address path) :
    ∃ text, address = '@' :: text := by
  cases valid with
  | none => exact ⟨[], rfl⟩
  | path => exact ⟨_, rfl⟩

/-- No command starts with an at sign. -/
theorem lower_at (text : List Char) :
    (∀ event, (Text.foldCase ('@' :: text), event) ∉ eventNames) ∧
      (∀ command, (Text.foldCase ('@' :: text), command) ∉ controlNames) ∧
      Text.foldCase ('@' :: text) ≠ "tick" := by
  have first : (Text.foldCase ('@' :: text)).toList.head? = some '@' := by
    rw [Text.foldCase, String.toList_ofList]
    rfl
  refine ⟨fun event name => ?_, fun command name => ?_, fun name => ?_⟩
  · exact (by decide : ∀ p ∈ eventNames, p.1.toList.head? ≠ some '@') _ name first
  · exact (by decide : ∀ q ∈ controlNames, q.1.toList.head? ≠ some '@') _ name first
  · rw [name] at first
    exact absurd first (by decide)

theorem phrase_addressed_iff {text : List Char} {rest : List (List Char)} {command : Command} :
    Phrase (('@' :: text) :: rest) command ↔
      ∃ path, Address ('@' :: text) path ∧
        ∃ event, EventPhrase rest event ∧ command = .event path event := by
  obtain ⟨no_event, no_control, no_tick⟩ := lower_at text
  constructor
  · intro phrase
    cases phrase with
    | event phrase =>
      cases phrase with
      | named folds known => exact absurd (folds_iff.mp folds ▸ known) (no_event _)
      | tick folds => exact absurd (folds_iff.mp folds) no_tick
    | addressed valid phrase => exact ⟨_, valid, _, phrase, rfl⟩
    | control folds known => exact absurd (folds_iff.mp folds ▸ known) (no_control _)
  · rintro ⟨path, valid, event, phrase, rfl⟩
    exact .addressed valid phrase

theorem phrase_plain_iff {ws : List (List Char)} (plain : Plain ws) {command : Command} :
    Phrase ws command ↔
      (∃ event, EventPhrase ws event ∧ command = .event [] event) ∨
        ∃ word rest, ws = word :: rest ∧ (Text.foldCase word, command) ∈ controlNames := by
  constructor
  · intro phrase
    cases phrase with
    | event phrase => exact .inl ⟨_, phrase, rfl⟩
    | addressed valid =>
      obtain ⟨text, rfl⟩ := valid.head
      exact absurd rfl (plain _ _)
    | control folds known => exact .inr ⟨_, _, rfl, folds_iff.mp folds ▸ known⟩
  · rintro (⟨event, phrase, rfl⟩ | ⟨word, rest, rfl, name⟩)
    · exact .event phrase
    · exact .control (folds_iff.mpr rfl) name

variable {line : String}

theorem read_addressed {text : List Char} {rest : List (List Char)}
    (words : Text.words line.toList = ('@' :: text) :: rest) :
    read line = (readPath text).bind fun path => readWords (some path) rest := by
  rw [read, words]
  rfl

theorem read_plain (plain : Plain (Text.words line.toList)) :
    read line = readWords none (Text.words line.toList) := by
  unfold read
  split
  · next text rest words => exact absurd words (plain text rest)
  · rfl

theorem read_eq_ok_iff {command : Command} :
    read line = .ok command ↔ Phrase (Text.words line.toList) command := by
  rcases addressed_or_plain (Text.words line.toList) with ⟨text, rest, words⟩ | plain
  · rw [read_addressed words, words, phrase_addressed_iff]
    constructor
    · intro found
      cases address : readPath text with
      | error error =>
        rw [address] at found
        cases found
      | ok path =>
        rw [address] at found
        refine ⟨path, readPath_eq_ok_iff.mp address, ?_⟩
        rcases readWords_eq_ok_iff.mp found with phrase | ⟨none, -⟩
        · exact phrase
        · cases none
    · rintro ⟨path, valid, phrase⟩
      rw [readPath_eq_ok_iff.mpr valid]
      exact readWords_eq_ok_iff.mpr (.inl phrase)
  · rw [read_plain plain, phrase_plain_iff plain, readWords_eq_ok_iff]
    simp only [true_and, Option.getD_none]

/-- Behind a good address the words are complained about like others, but for the last complaint. -/
theorem firstComplaint_addressed {text : List Char} {path : List Nat} {rest : List (List Char)}
    {error : CommandError} (valid : Address ('@' :: text) path)
    (refused : readWords (some path) rest = .error error) :
    FirstComplaint (('@' :: text) :: rest) error := by
  -- There is a word, and the path is good.
  have not_earlier : ∀ earlier < 2, ∀ other, ¬ Complaint earlier (('@' :: text) :: rest) other := by
    intro earlier before other complaint
    cases complaint with
    | noPath wrong => exact wrong path valid
    | _ => omega
  cases rest with
  | nil =>
    cases refused
    exact ⟨2, .noCommand, not_earlier⟩
  | cons word rest =>
    have not_before : ∀ earlier < 3, ∀ other,
        ¬ Complaint earlier (('@' :: text) :: word :: rest) other := by
      intro earlier before other complaint
      rcases Nat.lt_or_eq_of_le (Nat.le_of_lt_succ before) with less | rfl
      · exact not_earlier earlier less other complaint
      · cases complaint
    rcases error_of_readWords refused with ⟨tick, missing⟩ | ⟨other, rfl⟩
    · rcases missing with ⟨rfl, rfl⟩ | ⟨number, more, rfl, wrong, rfl⟩
      · exact ⟨3, .noArgument rfl (folds_iff.mpr tick), not_before⟩
      · exact ⟨3, .noNumber rfl (folds_iff.mpr tick) wrong, not_before⟩
    · refine ⟨4, .withPath (folds_iff.mpr rfl), fun earlier before error complaint => ?_⟩
      rcases Nat.lt_or_eq_of_le (Nat.le_of_lt_succ before) with less | rfl
      · exact not_before earlier less error complaint
      · cases complaint with
        | noArgument words folds =>
          cases words
          exact other (folds_iff.mp folds)
        | noNumber words folds =>
          cases words
          exact other (folds_iff.mp folds)

theorem firstComplaint_plain {ws : List (List Char)} {error : CommandError} (plain : Plain ws)
    (refused : readWords none ws = .error error) : FirstComplaint ws error := by
  cases ws with
  | nil =>
    cases refused
    exact ⟨0, .noWord, fun earlier before => absurd before (Nat.not_lt_zero earlier)⟩
  | cons word rest =>
    have bare := unaddressed_plain plain
    -- There is a word, and the complaints about paths need an at sign.
    have not_before : ∀ earlier < 3, ∀ other, ¬ Complaint earlier (word :: rest) other := by
      intro earlier before other complaint
      cases complaint with
      | noPath | noCommand => exact plain _ _ rfl
      | _ => omega
    rcases error_of_readWords refused with ⟨tick, missing⟩ | ⟨other, rfl⟩
    · rcases missing with ⟨rfl, rfl⟩ | ⟨number, more, rfl, wrong, rfl⟩
      · exact ⟨3, .noArgument bare (folds_iff.mpr tick), not_before⟩
      · exact ⟨3, .noNumber bare (folds_iff.mpr tick) wrong, not_before⟩
    · refine ⟨5, .unknown (folds_iff.mpr rfl), fun earlier before error complaint => ?_⟩
      cases complaint with
      | noArgument words folds =>
        rw [bare] at words
        cases words
        exact other (folds_iff.mp folds)
      | noNumber words folds =>
        rw [bare] at words
        cases words
        exact other (folds_iff.mp folds)
      | withPath | noPath | noCommand => exact plain _ _ rfl
      | unknown => omega

theorem firstComplaint_of_read {error : CommandError} (refused : read line = .error error) :
    FirstComplaint (Text.words line.toList) error := by
  rcases addressed_or_plain (Text.words line.toList) with ⟨text, rest, words⟩ | plain
  · rw [read_addressed words] at refused
    rw [words]
    cases address : readPath text with
    | error wrong =>
      rw [address] at refused
      cases refused
      obtain ⟨rfl, invalid⟩ := error_of_readPath address
      refine ⟨1, .noPath invalid, fun earlier before error complaint => ?_⟩
      rw [Nat.lt_one_iff.mp before] at complaint
      cases complaint
    | ok path =>
      rw [address] at refused
      exact firstComplaint_addressed (readPath_eq_ok_iff.mp address) refused
  · rw [read_plain plain] at refused
    exact firstComplaint_plain plain refused

/-- A line has its words and no others, it is read as a command just if they are a phrase for it,
and otherwise the first complaint about them is reported. -/
theorem read_grammar (line : String) :
    ∃ ws, (∀ ws', InWords line.toList ws' ↔ ws' = ws) ∧
      (∀ command, read line = .ok command ↔ Phrase ws command) ∧
      ∀ error, read line = .error error ↔
        (∀ command, ¬ Phrase ws command) ∧ FirstComplaint ws error := by
  refine ⟨Text.words line.toList, Text.inWords_iff line.toList, fun _ => read_eq_ok_iff,
    fun error => ?_⟩
  constructor
  · intro refused
    refine ⟨fun command phrase => ?_, firstComplaint_of_read refused⟩
    rw [read_eq_ok_iff.mpr phrase] at refused
    cases refused
  · rintro ⟨no_phrase, first⟩
    cases answer : read line with
    | ok command => exact absurd (read_eq_ok_iff.mp answer) (no_phrase command)
    | error other => rw [(firstComplaint_of_read answer).unique first]

end Command

end Stepwise
