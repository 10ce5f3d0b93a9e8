import Stepwise.Program

/-!
# The scan of the arguments

The words on the command line can be cut into arguments in one way only: a script takes the word
behind it for its path, whatever that looks like, and every other word stands alone. The first
argument that asks for help or for the version, or that is wrong after those before it, decides. If
there is none, the options are those that the arguments stand for, and as long as there is one
script at most the order of the arguments makes no difference.
-/

namespace Stepwise

open Invocation (startsWithDash)

/-- A word on its own, or a script with its path, which can be missing at the end. -/
inductive Argument where
  | word (text : String)
  | script (path : String)
  | pathless
  deriving DecidableEq, Repr

namespace Argument

def words : Argument → List String
  | word text => [text]
  | script path => ["--script", path]
  | pathless => ["--script"]

/-- The arguments that some words are cut into. -/
def cut : List String → List Argument
  | [] => []
  | text :: rest =>
    if text = "--script" then
      match rest with
      | [] => [.pathless]
      | path :: rest => .script path :: cut rest
    else .word text :: cut rest

/-- The arguments are made of the words. No script stands without a path, but for the last word. -/
structure Cuts (ws : List String) (args : List Argument) : Prop where
  whole : args.flatMap words = ws
  apart : .word "--script" ∉ args
  ends : ∀ before after, args = before ++ .pathless :: after → after = []

def named? : Argument → Option String
  | word text => if startsWithDash text then none else some text
  | _ => none

def script? : Argument → Option String
  | script path => some path
  | _ => none

/-- The words that are no options. -/
def names (args : List Argument) : List String := args.filterMap named?

def scripts (args : List Argument) : List String := args.filterMap script?

def helpNames : List String := ["--help", "-h"]

def versionNames : List String := ["--version", "-V"]

/-- The flags with the options that set them. -/
def flags : List (List String × (Options → Bool)) :=
  [(["--skip-sleep"], Options.skipSleep), (["--json"], Options.json),
    (["--validate"], Options.validateOnly), (["--verbose", "-v"], Options.verbose)]

def flagNames : List String := flags.flatMap (·.1)

/-- What an argument asks for, and what is written then. -/
inductive Asks : Argument → Invocation → String → Prop where
  | help {text} (name : text ∈ helpNames) : Asks (.word text) .help Invocation.usage
  | version {text} (name : text ∈ versionNames) :
    Asks (.word text) .version (About.name ++ " " ++ About.version)

/-- What is wrong with an argument that comes after some others. -/
inductive Faulty (earlier : List Argument) : Argument → ArgumentError → Prop where
  | missing : Faulty earlier .pathless .missingScript
  | unknown {text} (dashed : startsWithDash text = true)
    (strange : text ∉ helpNames ++ versionNames ++ flagNames) :
    Faulty earlier (.word text) (.unknownOption text)
  | second {text} (name : startsWithDash text = false) (named : names earlier ≠ []) :
    Faulty earlier (.word text) (.unexpected text)

/-- Nothing is wrong with any argument. -/
def Faultless (args : List Argument) : Prop :=
  ∀ earlier a later error, args = earlier ++ a :: later → ¬ a.Faulty earlier error

/-- Every script has its path, every other option sets a flag, and there is one name at most. -/
structure Acceptable (args : List Argument) : Prop where
  complete : .pathless ∉ args
  known : ∀ text, .word text ∈ args → startsWithDash text = true → text ∈ flagNames
  single : (names args).length ≤ 1

/-- The options that some arguments stand for. -/
structure Settings (args : List Argument) (o : Options) : Prop where
  flags : ∀ flag ∈ flags, flag.2 o = true ↔ ∃ name ∈ flag.1, .word name ∈ args
  script : o.script = (scripts args).getLast?
  workflow : o.workflow = (names args).head?.getD "workflow.yaml"

/-- After the argument nothing more is read, and this is the answer. -/
inductive Ends (earlier : List Argument) (a : Argument) :
    Except ArgumentError Invocation → Prop where
  | asked {answer shown} (asks : a.Asks answer shown) : Ends earlier a (.ok answer)
  | faulty {error} (faulty : a.Faulty earlier error) : Ends earlier a (.error error)

/-- The first argument that ends the reading gives the answer, or else all of them together. -/
inductive Reading (args : List Argument) : Except ArgumentError Invocation → Prop where
  | ends {earlier a later answer} (split : args = earlier ++ a :: later)
    (acceptable : Acceptable earlier) (ends : a.Ends earlier answer) : Reading args answer
  | run {o} (acceptable : Acceptable args) (settings : Settings args o) :
    Reading args (.ok (.run o))

theorem cut_word {text : String} (plain : text ≠ "--script") (rest : List String) :
    cut (text :: rest) = .word text :: cut rest := by
  rw [cut.eq_def]
  simp only [plain, if_false]

namespace Cuts

variable {ws : List String} {a : Argument} {args : List Argument}

theorem nil : Cuts [] [] :=
  ⟨rfl, List.not_mem_nil, fun before _ none => by cases before <;> cases none⟩

theorem cons (cuts : Cuts ws args) (plain : a ≠ .word "--script") (complete : a ≠ .pathless) :
    Cuts (a.words ++ ws) (a :: args) := by
  refine ⟨?_, ?_, fun before after split => ?_⟩
  · rw [List.flatMap_cons, cuts.whole]
  · rintro (_ | ⟨_, mem⟩)
    · exact plain rfl
    · exact cuts.apart mem
  · cases before with
    | nil => exact absurd (List.cons.inj split).1 complete
    | cons _ before => exact cuts.ends before after (List.cons.inj split).2

theorem pathless : Cuts ["--script"] [.pathless] := by
  refine ⟨rfl, by decide, fun before after split => ?_⟩
  cases before with
  | nil => exact (List.cons.inj split).2.symm
  | cons _ before => cases before <;> cases split

theorem further (cuts : Cuts ws (a :: args)) : Cuts (args.flatMap words) args := by
  refine ⟨rfl, fun mem => cuts.apart (List.mem_cons_of_mem _ mem), fun before after split => ?_⟩
  exact cuts.ends (a :: before) after (by rw [split, List.cons_append])

theorem plain {text : String} (cuts : Cuts ws (.word text :: args)) : text ≠ "--script" :=
  fun same => cuts.apart (same ▸ List.mem_cons_self)

theorem cut_eq (cuts : Cuts ws args) : cut ws = args := by
  induction args generalizing ws with
  | nil =>
    rw [← cuts.whole]
    rfl
  | cons a args ih =>
    rw [← cuts.whole, List.flatMap_cons]
    cases a with
    | word text =>
      rw [words, List.singleton_append, cut_word cuts.plain, ih cuts.further]
    | script path =>
      calc cut ("--script" :: path :: args.flatMap words)
        _ = .script path :: cut (args.flatMap words) := rfl
        _ = .script path :: args := by rw [ih cuts.further]
    | pathless =>
      rw [cuts.ends [] args rfl]
      rfl

end Cuts

theorem cuts_cut : ∀ ws : List String, Cuts ws (cut ws)
  | [] => .nil
  | [text] => by
    by_cases script : text = "--script"
    · subst script
      exact .pathless
    · rw [cut_word script]
      exact Cuts.nil.cons (fun same => script (word.inj same)) nofun
  | text :: path :: rest => by
    by_cases script : text = "--script"
    · subst script
      exact (cuts_cut rest).cons (a := .script path) nofun nofun
    · rw [cut_word script]
      exact (cuts_cut (path :: rest)).cons (fun same => script (word.inj same)) nofun

/-- Some words can be cut into arguments in one way only. -/
theorem cuts_iff (ws : List String) (args : List Argument) : Cuts ws args ↔ args = cut ws := by
  constructor
  · exact fun cuts => cuts.cut_eq.symm
  · rintro rfl
    exact cuts_cut ws

section Acceptance

variable {earlier later args : List Argument} {a : Argument} {text : String}

theorem names_append : names (earlier ++ later) = names earlier ++ names later :=
  List.filterMap_append

theorem scripts_append : scripts (earlier ++ later) = scripts earlier ++ scripts later :=
  List.filterMap_append

theorem names_named (name : startsWithDash text = false) : names [.word text] = [text] := by
  simp only [names, List.filterMap_cons, named?, name, Bool.false_eq_true, if_false,
    List.filterMap_nil]

theorem names_dashed (dashed : startsWithDash text = true) : names [.word text] = [] := by
  simp only [names, List.filterMap_cons, named?, dashed, if_true, List.filterMap_nil]

theorem mem_helpNames : text ∈ helpNames ↔ text = "--help" ∨ text = "-h" := by
  simp only [helpNames, List.mem_cons, List.not_mem_nil, or_false]

theorem mem_versionNames : text ∈ versionNames ↔ text = "--version" ∨ text = "-V" := by
  simp only [versionNames, List.mem_cons, List.not_mem_nil, or_false]

theorem asking_dashed (asking : text ∈ helpNames ++ versionNames) :
    startsWithDash text = true ∧ text ∉ flagNames :=
  (by decide : ∀ text ∈ helpNames ++ versionNames, startsWithDash text = true ∧ text ∉ flagNames)
    text asking

theorem flag_dashed (flag : text ∈ flagNames) : startsWithDash text = true :=
  (by decide : ∀ text ∈ flagNames, startsWithDash text = true) text flag

theorem not_flag_of_name (name : startsWithDash text = false) : text ∉ flagNames := by
  intro flag
  rw [flag_dashed flag] at name
  cases name

theorem not_asking_of_name (name : startsWithDash text = false) :
    text ∉ helpNames ++ versionNames := by
  intro asking
  rw [(asking_dashed asking).1] at name
  cases name

theorem not_version_of_help (help : text ∈ helpNames) : text ∉ versionNames :=
  (by decide : ∀ text ∈ helpNames, text ∉ versionNames) text help

theorem asks_word_iff :
    (∃ answer shown, (word text).Asks answer shown) ↔ text ∈ helpNames ++ versionNames := by
  constructor
  · rintro ⟨_, _, asks⟩
    cases asks with
    | help name => exact List.mem_append_left _ name
    | version name => exact List.mem_append_right _ name
  · intro name
    rcases List.mem_append.mp name with help | version
    · exact ⟨_, _, .help help⟩
    · exact ⟨_, _, .version version⟩

namespace Acceptable

theorem nil : Acceptable [] := ⟨List.not_mem_nil, nofun, Nat.zero_le 1⟩

theorem of_append (acceptable : Acceptable (earlier ++ later)) : Acceptable earlier := by
  obtain ⟨complete, known, single⟩ := acceptable
  refine ⟨fun mem => complete (List.mem_append_left _ mem),
    fun text mem => known text (List.mem_append_left _ mem), ?_⟩
  rw [names_append, List.length_append] at single
  omega

/-- Nothing acceptable asks for help or for the version. -/
theorem unasked (acceptable : Acceptable args) (mem : a ∈ args) {answer shown} :
    ¬ a.Asks answer shown := by
  intro asks
  cases a with
  | word text =>
    obtain ⟨dashed, no_flag⟩ := asking_dashed (asks_word_iff.mp ⟨_, _, asks⟩)
    exact no_flag (acceptable.known text mem dashed)
  | script | pathless => cases asks

theorem unnamed (acceptable : Acceptable (earlier ++ [.word text]))
    (name : startsWithDash text = false) : names earlier = [] := by
  have single := acceptable.single
  rw [names_append, names_named name, List.length_append, List.length_singleton] at single
  exact List.length_eq_zero_iff.mp (by omega)

theorem not_ends (acceptable : Acceptable (earlier ++ [a]))
    {answer : Except ArgumentError Invocation} : ¬ a.Ends earlier answer := by
  intro ends
  cases ends with
  | asked asks => exact acceptable.unasked List.mem_concat_self asks
  | faulty faulty =>
    cases faulty with
    | missing => exact acceptable.complete List.mem_concat_self
    | unknown dashed strange =>
      exact strange (List.mem_append_right _ (acceptable.known _ List.mem_concat_self dashed))
    | second name named => exact named (acceptable.unnamed name)

theorem concat (acceptable : Acceptable earlier) (complete : a ≠ .pathless)
    (known : ∀ text, a = .word text → startsWithDash text = true → text ∈ flagNames)
    (single : names [a] = [] ∨ names earlier = []) : Acceptable (earlier ++ [a]) := by
  refine ⟨?_, fun text mem => ?_, ?_⟩
  · rw [List.mem_append, List.mem_singleton]
    exact not_or.mpr ⟨acceptable.complete, complete.symm⟩
  · rcases List.mem_append.mp mem with old | new
    · exact acceptable.known text old
    · exact known text (List.mem_singleton.mp new).symm
  · rw [names_append]
    rcases single with unnamed | unnamed
    · rw [unnamed, List.append_nil]
      exact acceptable.single
    · rw [unnamed, List.nil_append]
      exact List.length_filterMap_le named? [a]

/-- One more argument is acceptable just if the reading does not end there. -/
theorem concat_iff :
    Acceptable (earlier ++ [a]) ↔ Acceptable earlier ∧ ∀ answer, ¬ a.Ends earlier answer := by
  constructor
  · exact fun acceptable => ⟨acceptable.of_append, fun _ => acceptable.not_ends⟩
  · rintro ⟨acceptable, goes_on⟩
    cases a with
    | pathless => exact absurd (.faulty .missing) (goes_on _)
    | script path => exact acceptable.concat nofun nofun (.inl rfl)
    | word text =>
      refine acceptable.concat nofun ?_ ?_
      · rintro _ ⟨⟩ dashed
        refine Decidable.byContradiction fun no_flag => ?_
        -- A dashed word that is no flag asks for something or is unknown.
        by_cases asking : text ∈ helpNames ++ versionNames
        · obtain ⟨_, _, asks⟩ := asks_word_iff.mpr asking
          exact goes_on _ (.asked asks)
        · refine goes_on _ (.faulty (.unknown dashed fun mem => ?_))
          exact (List.mem_append.mp mem).elim asking no_flag
      · cases dashed : startsWithDash text with
        | true => exact .inl (names_dashed dashed)
        | false =>
          refine .inr (Decidable.byContradiction fun named => ?_)
          exact goes_on _ (.faulty (.second dashed named))

theorem not_ends_within (acceptable : Acceptable args) (split : args = earlier ++ a :: later)
    {answer : Except ArgumentError Invocation} : ¬ a.Ends earlier answer := by
  rw [split, ← List.singleton_append, ← List.append_assoc] at acceptable
  exact acceptable.of_append.not_ends

theorem faultless (acceptable : Acceptable args) : Faultless args := by
  intro earlier a later error split faulty
  exact acceptable.not_ends_within split (.faulty faulty)

end Acceptable

theorem Asks.unique {answer answer' : Invocation} {shown shown' : String}
    (asks : a.Asks answer shown) (asks' : a.Asks answer' shown') : answer = answer' := by
  cases asks with
  | help name =>
    cases asks' with
    | help => rfl
    | version name' => exact absurd name' (not_version_of_help name)
  | version name =>
    cases asks' with
    | help name' => exact absurd name (not_version_of_help name')
    | version => rfl

theorem Faulty.unasked {error : ArgumentError} (faulty : a.Faulty earlier error)
    {answer : Invocation} {shown : String} : ¬ a.Asks answer shown := by
  intro asks
  cases faulty with
  | missing => cases asks
  | unknown dashed strange =>
    exact strange (List.mem_append_left _ (asks_word_iff.mp ⟨_, _, asks⟩))
  | second name => exact not_asking_of_name name (asks_word_iff.mp ⟨_, _, asks⟩)

theorem Faulty.unique {error error' : ArgumentError} (faulty : a.Faulty earlier error)
    (faulty' : a.Faulty earlier error') : error = error' := by
  cases faulty with
  | missing => cases faulty'; rfl
  | unknown dashed =>
    cases faulty' with
    | unknown => rfl
    | second name => rw [dashed] at name; cases name
  | second name =>
    cases faulty' with
    | unknown dashed => rw [dashed] at name; cases name
    | second => rfl

theorem Ends.unique {answer answer' : Except ArgumentError Invocation}
    (ends : a.Ends earlier answer) (ends' : a.Ends earlier answer') : answer = answer' := by
  cases ends with
  | asked asks =>
    cases ends' with
    | asked asks' => rw [asks.unique asks']
    | faulty faulty => exact absurd asks faulty.unasked
  | faulty faulty =>
    cases ends' with
    | asked asks => exact absurd asks faulty.unasked
    | faulty faulty' => rw [faulty.unique faulty']

end Acceptance

/-- Setting a flag changes nothing else. -/
theorem setFlag?_of_mem {text : String} (name : text ∈ flagNames) (o : Options) :
    ∃ o', o.setFlag? text = some o' ∧ o'.script = o.script ∧ o'.workflow = o.workflow ∧
      ∀ flag ∈ flags, flag.2 o' = true ↔ flag.2 o = true ∨ text ∈ flag.1 := by
  simp only [flagNames, flags, List.flatMap_cons, List.flatMap_nil, List.mem_append,
    List.mem_cons, List.not_mem_nil, or_false] at name
  rcases name with rfl | rfl | rfl | rfl | rfl <;> exact ⟨_, rfl, rfl, rfl, by simp [flags]⟩

theorem setFlag?_eq_none_iff {text : String} {o : Options} :
    o.setFlag? text = none ↔ text ∉ flagNames := by
  constructor
  · intro none name
    obtain ⟨o', found, -⟩ := setFlag?_of_mem name o
    rw [none] at found
    cases found
  · intro no_flag
    simp only [flagNames, flags, List.flatMap_cons, List.flatMap_nil, List.mem_append,
      List.mem_cons, List.not_mem_nil, or_false, not_or] at no_flag
    obtain ⟨skip, json, validate, verbose, short⟩ := no_flag
    simp only [Options.setFlag?, skip, json, validate, verbose, short, or_self, if_false]

theorem flag_with {flag : List String × (Options → Bool)} (mem : flag ∈ flags) {o : Options}
    {workflow : String} {script : Option String} :
    flag.2 { o with workflow := workflow, script := script } = flag.2 o := by
  simp only [flags, List.mem_cons, List.not_mem_nil, or_false] at mem
  rcases mem with rfl | rfl | rfl | rfl <;> rfl

namespace Settings

variable {earlier : List Argument} {a : Argument} {o o' : Options}

theorem nil : Settings [] .default := by
  have unset : ∀ flag ∈ Argument.flags, flag.2 .default = false := by decide
  refine ⟨fun flag mem => ?_, rfl, rfl⟩
  rw [unset flag mem]
  exact iff_of_false nofun nofun

theorem concat (settings : Settings earlier o)
    (set : ∀ flag ∈ Argument.flags,
      flag.2 o' = true ↔ flag.2 o = true ∨ ∃ name ∈ flag.1, a = .word name)
    (script : o'.script = a.script?.or o.script)
    (workflow : o'.workflow = (names earlier ++ names [a]).head?.getD "workflow.yaml") :
    Settings (earlier ++ [a]) o' := by
  refine ⟨fun flag mem => ?_, ?_, ?_⟩
  · rw [set flag mem, settings.flags flag mem, ← exists_or]
    simp only [List.mem_append, List.mem_singleton, and_or_left, eq_comm]
  · rw [script, settings.script, scripts_append, List.getLast?_append]
    cases a <;> rfl
  · rw [workflow, names_append]

theorem unique (settings : Settings earlier o) (settings' : Settings earlier o') : o = o' := by
  have same : ∀ flag ∈ Argument.flags, flag.2 o = flag.2 o' := fun flag mem =>
    Bool.eq_iff_iff.mpr ((settings.flags flag mem).trans (settings'.flags flag mem).symm)
  have skip := same _ (.head _)
  have json := same _ (.tail _ (.head _))
  have validate := same _ (.tail _ (.tail _ (.head _)))
  have verbose := same _ (.tail _ (.tail _ (.tail _ (.head _))))
  have script := settings.script.trans settings'.script.symm
  have workflow := settings.workflow.trans settings'.workflow.symm
  cases o
  cases o'
  simp_all

end Settings

/-- What has been gathered from some arguments. -/
structure Gathered (earlier : List Argument) (o : Options) (named : Bool) : Prop where
  settings : Settings earlier o
  named_iff : named = true ↔ names earlier ≠ []

namespace Gathered

variable {earlier : List Argument} {o : Options} {named : Bool} {text : String}

theorem nil : Gathered [] .default false :=
  ⟨.nil, iff_of_false nofun fun named => named rfl⟩

theorem script (gathered : Gathered earlier o named) (path : String) :
    Gathered (earlier ++ [.script path]) { o with script := some path } named := by
  obtain ⟨settings, named_iff⟩ := gathered
  have unnamed : names [.script path] = [] := rfl
  refine ⟨settings.concat (fun flag mem => ?_) rfl ?_, ?_⟩
  · rw [flag_with mem]
    exact (or_iff_left nofun).symm
  · rw [unnamed, List.append_nil]
    exact settings.workflow
  · rw [named_iff, names_append, unnamed, List.append_nil]

theorem flag (gathered : Gathered earlier o named) (name : text ∈ flagNames) :
    ∃ o', o.setFlag? text = some o' ∧ Gathered (earlier ++ [.word text]) o' named := by
  obtain ⟨settings, named_iff⟩ := gathered
  obtain ⟨o', found, same_script, same_workflow, set⟩ := setFlag?_of_mem name o
  have unnamed := names_dashed (flag_dashed name)
  refine ⟨o', found, settings.concat (fun flag mem => ?_) same_script ?_, ?_⟩
  · rw [set flag mem]
    simp only [word.injEq, exists_eq_right']
  · rw [unnamed, List.append_nil, same_workflow, settings.workflow]
  · rw [named_iff, names_append, unnamed, List.append_nil]

theorem name (gathered : Gathered earlier o named) (name : startsWithDash text = false)
    (first : names earlier = []) :
    Gathered (earlier ++ [.word text]) { o with workflow := text } true := by
  obtain ⟨settings, named_iff⟩ := gathered
  refine ⟨settings.concat (fun flag mem => ?_) rfl ?_, ?_⟩
  · rw [flag_with mem]
    refine (or_iff_left ?_).symm
    rintro ⟨other, found, same⟩
    cases same
    exact not_flag_of_name name (List.mem_flatMap.mpr ⟨flag, mem, found⟩)
  · rw [first, names_named name]
    rfl
  · rw [names_append, first, names_named name]
    exact iff_of_true rfl (List.cons_ne_nil _ _)

end Gathered

section Reading

variable {earlier args : List Argument} {a : Argument} {o : Options} {named : Bool}

theorem readFrom_asked {answer : Invocation} {shown : String} (asks : a.Asks answer shown)
    (rest : List String) : Invocation.readFrom o named (a.words ++ rest) = .ok answer := by
  rw [Invocation.readFrom.eq_def]
  cases asks with
  | help name => exact if_pos (mem_helpNames.mp name)
  | @version text name =>
    have no_help : ¬ (text = "--help" ∨ text = "-h") := fun help =>
      not_version_of_help (mem_helpNames.mpr help) name
    exact (if_neg no_help).trans (if_pos (mem_versionNames.mp name))

theorem readFrom_script (path : String) (rest : List String) :
    Invocation.readFrom o named ("--script" :: path :: rest) =
      Invocation.readFrom { o with script := some path } named rest := rfl

theorem readFrom_word {text : String} (plain : text ≠ "--script")
    (not_asking : text ∉ helpNames ++ versionNames) (rest : List String) :
    Invocation.readFrom o named (text :: rest) =
      match o.setFlag? text with
      | some o => Invocation.readFrom o named rest
      | none =>
        if startsWithDash text then .error (.unknownOption text)
        else if named then .error (.unexpected text)
        else Invocation.readFrom { o with workflow := text } true rest := by
  obtain ⟨not_help, not_version⟩ := not_or.mp (mt List.mem_append.mpr not_asking)
  have no_help := mt mem_helpNames.mpr not_help
  have no_version := mt mem_versionNames.mpr not_version
  rw [Invocation.readFrom.eq_def]
  exact (if_neg no_help).trans ((if_neg no_version).trans (if_neg plain))

theorem readFrom_ends (gathered : Gathered earlier o named)
    {answer : Except ArgumentError Invocation} (ends : a.Ends earlier answer)
    (plain : a ≠ .word "--script") {rest : List String} (last : a = .pathless → rest = []) :
    Invocation.readFrom o named (a.words ++ rest) = answer := by
  cases ends with
  | asked asks => exact readFrom_asked asks rest
  | faulty faulty =>
    cases faulty with
    | missing =>
      rw [last rfl]
      rfl
    | @unknown text dashed strange =>
      obtain ⟨not_asking, no_flag⟩ := not_or.mp (mt List.mem_append.mpr strange)
      rw [words, List.singleton_append, readFrom_word (fun same => plain (same ▸ rfl)) not_asking,
        setFlag?_eq_none_iff.mpr no_flag]
      simp only [dashed, if_true]
    | @second text name already =>
      rw [words, List.singleton_append, readFrom_word (fun same => plain (same ▸ rfl))
        (not_asking_of_name name), setFlag?_eq_none_iff.mpr (not_flag_of_name name)]
      simp only [name, gathered.named_iff.mpr already, Bool.false_eq_true, if_false, if_true]

theorem readFrom_goes_on (gathered : Gathered earlier o named) (plain : a ≠ .word "--script")
    (acceptable : Acceptable (earlier ++ [a])) :
    ∃ o' named', Gathered (earlier ++ [a]) o' named' ∧ ∀ rest,
      Invocation.readFrom o named (a.words ++ rest) = Invocation.readFrom o' named' rest := by
  cases a with
  | pathless => exact absurd List.mem_concat_self acceptable.complete
  | script path => exact ⟨_, _, gathered.script path, readFrom_script path⟩
  | word text =>
    have unscripted : text ≠ "--script" := fun same => plain (same ▸ rfl)
    have not_asking : text ∉ helpNames ++ versionNames := fun asking => by
      obtain ⟨_, _, asks⟩ := asks_word_iff.mpr asking
      exact acceptable.unasked List.mem_concat_self asks
    cases dashed : startsWithDash text with
    | true =>
      obtain ⟨o', found, gathered'⟩ :=
        gathered.flag (acceptable.known text List.mem_concat_self dashed)
      refine ⟨o', named, gathered', fun rest => ?_⟩
      rw [words, List.singleton_append, readFrom_word unscripted not_asking, found]
    | false =>
      have first := acceptable.unnamed dashed
      have unnamed : named ≠ true := fun already => gathered.named_iff.mp already first
      refine ⟨_, true, gathered.name dashed first, fun rest => ?_⟩
      rw [words, List.singleton_append, readFrom_word unscripted not_asking,
        setFlag?_eq_none_iff.mpr (not_flag_of_name dashed)]
      simp only [dashed, unnamed, Bool.false_eq_true, if_false]

/-- What has been gathered is what the arguments so far stand for, up to the one that ends it. -/
theorem reading_readFrom {ws : List String} (cuts : Cuts ws args) (acceptable : Acceptable earlier)
    (gathered : Gathered earlier o named) :
    Reading (earlier ++ args) (Invocation.readFrom o named ws) := by
  induction args generalizing ws earlier o named with
  | nil =>
    rw [← cuts.whole, List.append_nil]
    exact .run acceptable gathered.settings
  | cons a args ih =>
    have plain : a ≠ .word "--script" := fun same => cuts.apart (same ▸ List.mem_cons_self)
    have last : a = .pathless → args.flatMap words = [] := fun same => by
      rw [cuts.ends [] args (by rw [same]; rfl)]
      rfl
    rw [← cuts.whole, List.flatMap_cons]
    -- Either the argument joins the acceptable ones before it, or the reading ends here.
    by_cases goes_on : Acceptable (earlier ++ [a])
    · obtain ⟨o', named', gathered', same⟩ := readFrom_goes_on gathered plain goes_on
      have later := ih cuts.further goes_on gathered'
      rwa [List.append_assoc, List.singleton_append, ← same] at later
    · rw [Acceptable.concat_iff, not_and, Classical.not_forall] at goes_on
      obtain ⟨answer, ends⟩ := goes_on acceptable
      rw [Classical.not_not] at ends
      rw [readFrom_ends gathered ends plain last]
      exact .ends rfl acceptable ends

/-- Of two places in a list that are not the same one comes before the other. -/
theorem same_or_before {α : Type} {earlier earlier' later later' : List α} {a a' : α}
    (same : earlier ++ a :: later = earlier' ++ a' :: later') :
    (earlier = earlier' ∧ a = a') ∨ (∃ rest, earlier' = earlier ++ a :: rest) ∨
      ∃ rest, earlier = earlier' ++ a' :: rest := by
  rcases List.append_eq_append_iff.mp same with ⟨rest, longer, tail⟩ | ⟨rest, longer, tail⟩
  · cases rest with
    | nil => exact .inl ⟨by rw [longer, List.append_nil], (List.cons.inj tail).1⟩
    | cons b rest => exact .inr (.inl ⟨rest, by rw [longer, (List.cons.inj tail).1]⟩)
  · cases rest with
    | nil => exact .inl ⟨by rw [longer, List.append_nil], (List.cons.inj tail).1.symm⟩
    | cons b rest => exact .inr (.inr ⟨rest, by rw [longer, (List.cons.inj tail).1]⟩)

theorem Reading.unique {answer answer' : Except ArgumentError Invocation}
    (reading : Reading args answer) (reading' : Reading args answer') : answer = answer' := by
  cases reading with
  | ends split acceptable ends =>
    cases reading' with
    | ends split' acceptable' ends' =>
      rcases same_or_before (split.symm.trans split') with ⟨rfl, rfl⟩ | ⟨_, longer⟩ | ⟨_, longer⟩
      · exact ends.unique ends'
      · exact absurd ends (acceptable'.not_ends_within longer)
      · exact absurd ends' (acceptable.not_ends_within longer)
    | run acceptable' => exact absurd ends (acceptable'.not_ends_within split)
  | run acceptable settings =>
    cases reading' with
    | ends split' _ ends' => exact absurd ends' (acceptable.not_ends_within split')
    | run _ settings' => rw [settings.unique settings']

/-- The words are read as their arguments say. -/
theorem read_eq_iff {ws : List String} {answer : Except ArgumentError Invocation} :
    Invocation.read ws = answer ↔ Reading (cut ws) answer := by
  have reading : Reading (cut ws) (Invocation.read ws) :=
    reading_readFrom (cuts_cut ws) .nil .nil
  constructor
  · rintro rfl
    exact reading
  · exact reading.unique

end Reading

section Orders

variable {args args' : List Argument}

theorem Acceptable.perm (acceptable : Acceptable args) (order : args'.Perm args) :
    Acceptable args' := by
  refine ⟨fun mem => acceptable.complete (order.mem_iff.mp mem),
    fun text mem => acceptable.known text (order.mem_iff.mp mem), ?_⟩
  rw [names, (order.filterMap named?).length_eq]
  exact acceptable.single

theorem eq_of_perm_of_length_le_one {α : Type} {l l' : List α} (order : l.Perm l')
    (short : l.length ≤ 1) : l = l' := by
  match l with
  | [] => exact (List.nil_perm.mp order).symm
  | [_] => exact (List.singleton_perm.mp order)
  | _ :: _ :: _ => exact absurd short (by simp)

/-- With one script at most the options do not depend on the order of the arguments. -/
theorem Settings.perm {o : Options} (settings : Settings args o) (acceptable : Acceptable args')
    (order : args'.Perm args) (short : (scripts args').length ≤ 1) : Settings args' o := by
  have same_names : names args' = names args :=
    eq_of_perm_of_length_le_one (order.filterMap named?) acceptable.single
  have same_scripts : scripts args' = scripts args :=
    eq_of_perm_of_length_le_one (order.filterMap script?) short
  refine ⟨fun flag mem => ?_, ?_, ?_⟩
  · rw [settings.flags flag mem]
    simp only [order.mem_iff]
  · rw [same_scripts, settings.script]
  · rw [same_names, settings.workflow]

theorem Acceptable.cuts (acceptable : Acceptable args) : Cuts (args.flatMap words) args := by
  refine ⟨rfl, fun mem => ?_, fun before after split => ?_⟩
  · exact absurd (acceptable.known _ mem (by decide)) (by decide)
  · refine absurd ?_ acceptable.complete
    rw [split]
    exact List.mem_append_right _ List.mem_cons_self

end Orders

end Argument

namespace Invocation

open Argument

variable {ws : List String}

/-- What is asked for before anything is wrong is given, or what was asked for before it. -/
theorem stops_of_asks {earlier later : List Argument} {a : Argument} {answer : Invocation}
    {shown : String} (split : cut ws = earlier ++ a :: later) (faultless : Faultless earlier)
    (asks : a.Asks answer shown) : read ws = .ok .help ∨ read ws = .ok .version := by
  obtain ⟨given, found⟩ : ∃ given, read ws = given := ⟨_, rfl⟩
  rw [found]
  cases read_eq_iff.mp found with
  | run acceptable =>
    have mem : a ∈ cut ws := split ▸ List.mem_append_right _ List.mem_cons_self
    exact absurd asks (acceptable.unasked mem)
  | ends split' acceptable' ends =>
    cases ends with
    | asked asks' =>
      cases asks' with
      | help => exact .inl rfl
      | version => exact .inr rfl
    | faulty faulty =>
      -- The error would come before what is asked for, at it, or behind it.
      rcases same_or_before (split'.symm.trans split) with ⟨-, rfl⟩ | ⟨_, longer⟩ | ⟨_, longer⟩
      · exact absurd asks faulty.unasked
      · exact absurd faulty (faultless _ _ _ _ longer)
      · have mem := longer ▸ List.mem_append_right _ List.mem_cons_self
        exact absurd asks (acceptable'.unasked mem)

theorem stops_iff :
    read ws = .ok .help ∨ read ws = .ok .version ↔
      ∃ earlier a later answer shown, cut ws = earlier ++ a :: later ∧ Faultless earlier ∧
        a.Asks answer shown := by
  have asked : ∀ answer, read ws = .ok answer → (∀ o, answer ≠ .run o) →
      ∃ earlier a later answer shown, cut ws = earlier ++ a :: later ∧ Faultless earlier ∧
        a.Asks answer shown := by
    intro answer found no_run
    cases read_eq_iff.mp found with
    | run => exact absurd rfl (no_run _)
    | ends split acceptable ends =>
      cases ends with
      | asked asks => exact ⟨_, _, _, _, _, split, acceptable.faultless, asks⟩
  constructor
  · rintro (found | found)
    · exact asked .help found nofun
    · exact asked .version found nofun
  · rintro ⟨earlier, a, later, answer, shown, split, faultless, asks⟩
    exact stops_of_asks split faultless asks

theorem read_of_asks {earlier later : List Argument} {a : Argument} {answer : Invocation}
    {shown : String} (split : cut ws = earlier ++ a :: later) (acceptable : Acceptable earlier)
    (asks : a.Asks answer shown) :
    read ws = .ok answer ∧ ∀ paint, Program.start paint ws = .finish [.line shown] := by
  have found : read ws = .ok answer := read_eq_iff.mpr (.ends split acceptable (.asked asks))
  refine ⟨found, fun paint => ?_⟩
  cases asks <;> rw [Program.start, found]

theorem options_iff : (∃ o, read ws = .ok (.run o)) ↔ Acceptable (cut ws) := by
  constructor
  · rintro ⟨o, found⟩
    cases read_eq_iff.mp found with
    | run acceptable => exact acceptable
    | ends split acceptable ends =>
      cases ends with
      | asked asks => cases asks
  · intro acceptable
    obtain ⟨answer, found⟩ : ∃ answer, read ws = answer := ⟨_, rfl⟩
    cases read_eq_iff.mp found with
    | run => exact ⟨_, found⟩
    | ends split _ ends => exact absurd ends (acceptable.not_ends_within split)

theorem settings_of_read {o : Options} (found : read ws = .ok (.run o)) :
    Settings (cut ws) o := by
  cases read_eq_iff.mp found with
  | run _ settings => exact settings
  | ends split acceptable ends =>
    cases ends with
    | asked asks => cases asks

theorem read_reordered {o : Options} {args : List Argument} (found : read ws = .ok (.run o))
    (order : args.Perm (cut ws)) (short : (scripts args).length ≤ 1) :
    read (args.flatMap words) = .ok (.run o) := by
  have acceptable : Acceptable args := (options_iff.mp ⟨o, found⟩).perm order
  rw [read_eq_iff, acceptable.cuts.cut_eq]
  exact .run acceptable ((settings_of_read found).perm acceptable order short)

theorem read_error_iff {error : ArgumentError} :
    read ws = .error error ↔
      ∃ earlier a later, cut ws = earlier ++ a :: later ∧ Acceptable earlier ∧
        a.Faulty earlier error := by
  rw [read_eq_iff]
  constructor
  · intro reading
    cases reading with
    | ends split acceptable ends =>
      cases ends with
      | faulty faulty => exact ⟨_, _, _, split, acceptable, faulty⟩
  · rintro ⟨earlier, a, later, split, acceptable, faulty⟩
    exact .ends split acceptable (.faulty faulty)

/-- The words behind the name of the program can be cut into arguments in one way only. Help or the
version is given just if one of the arguments asks for it and nothing is wrong before it, and then
for the first one that asks. Otherwise there are options just if all arguments are acceptable, and
these are what they stand for, in whatever order they are, as long as there is one script at most.
If they are not, the error is that of the first one that is wrong. -/
theorem read_arguments (ws : List String) :
    (∀ args, Cuts ws args ↔ args = cut ws) ∧
    (read ws = .ok .help ∨ read ws = .ok .version ↔
      ∃ earlier a later answer shown, cut ws = earlier ++ a :: later ∧ Faultless earlier ∧
        a.Asks answer shown) ∧
    (∀ earlier a later answer shown, cut ws = earlier ++ a :: later → Acceptable earlier →
      a.Asks answer shown →
        read ws = .ok answer ∧ ∀ paint, Program.start paint ws = .finish [.line shown]) ∧
    ((∃ o, read ws = .ok (.run o)) ↔ Acceptable (cut ws)) ∧
    (∀ o, read ws = .ok (.run o) → Settings (cut ws) o) ∧
    (∀ o args, read ws = .ok (.run o) → args.Perm (cut ws) → (scripts args).length ≤ 1 →
      read (args.flatMap words) = .ok (.run o)) ∧
    ∀ error, read ws = .error error ↔
      ∃ earlier a later, cut ws = earlier ++ a :: later ∧ Acceptable earlier ∧
        a.Faulty earlier error := by
  refine ⟨cuts_iff ws, stops_iff, ?_, options_iff, fun _ => settings_of_read, ?_,
    fun _ => read_error_iff⟩
  · intro earlier a later answer shown split acceptable asks
    exact read_of_asks split acceptable asks
  · intro o args found order short
    exact read_reordered found order short

/-- A script that is called like an option, with a name that comes before and a flag that comes
after it. -/
theorem read_arguments_shuffled :
    read ["--json", "tea.yaml", "--script", "--help", "-v"] =
        .ok (.run ⟨"tea.yaml", some "--help", false, true, false, true⟩) ∧
      [Argument.word "-v", .script "--help", .word "tea.yaml", .word "--json"].Perm
        (cut ["--json", "tea.yaml", "--script", "--help", "-v"]) ∧
      read ["-v", "--script", "--help", "tea.yaml", "--json"] =
        .ok (.run ⟨"tea.yaml", some "--help", false, true, false, true⟩) ∧
      read ["tea.yaml", "-V", "--help", "--what"] = .ok .version := by
  have found : read ["--json", "tea.yaml", "--script", "--help", "-v"] =
      .ok (.run ⟨"tea.yaml", some "--help", false, true, false, true⟩) := rfl
  have order : [Argument.word "-v", .script "--help", .word "tea.yaml", .word "--json"].Perm
      (cut ["--json", "tea.yaml", "--script", "--help", "-v"]) := by decide
  obtain ⟨-, -, -, -, -, reordered, -⟩ :=
    read_arguments ["--json", "tea.yaml", "--script", "--help", "-v"]
  obtain ⟨-, -, asked, -⟩ := read_arguments ["tea.yaml", "-V", "--help", "--what"]
  refine ⟨found, order, reordered _ _ found order (by decide), ?_⟩
  have named : Acceptable [.word "tea.yaml"] := by
    refine ⟨by decide, fun text mem dashed => ?_, by decide⟩
    cases List.mem_singleton.mp mem
    cases dashed
  exact (asked _ _ _ _ _ rfl named (.version (.tail _ (.head _)))).1

end Invocation

end Stepwise
