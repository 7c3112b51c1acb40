import PivotCoefficients.CommandLine.Arguments

/-!
# The grammar of options

A command line is a list of phrases, each an option as a whole in one of its
spellings, and perhaps `--` at the end. `IsAdmissible` says which lists of
phrases make choices, `choices` which ones they make, and `AsksFor` which run they
ask for; the order of the phrases is not asked. `Requests` says which arguments ask
for help or for the version.
-/
namespace PivotCoefficients.CommandLine

/-- An option as a whole. -/
inductive Phrase where
  /-- `--name=value` -/
  | joined (o : ValueOption) (value : String)
  /-- `--name value` -/
  | separate (o : ValueOption) (value : String)
  /-- `--name` -/
  | switch (s : Switch)
  /-- `-v`, with one letter more for each further count -/
  | counted (more : Nat)
  deriving DecidableEq, Repr

namespace Phrase

def spell : Phrase → List String
  | .joined o value => ["--" ++ o.name ++ "=" ++ value]
  | .separate o value => ["--" ++ o.name, value]
  | .switch s => ["--" ++ s.name]
  | .counted more => [String.ofList ('-' :: List.replicate (more + 1) 'v')]

/-- The option with its value, in either spelling. -/
def value? (o : ValueOption) : Phrase → Option String
  | .joined p value => if p = o then some value else none
  | .separate p value => if p = o then some value else none
  | _ => none

def verbosity : Phrase → Nat
  | .switch .verbose => 1
  | .counted more => more + 1
  | _ => 0

/-- The value can be written as it is spelled. As an argument of its own it may not begin
with a minus sign, unless it is that sign alone. -/
def IsSpellable : Phrase → Prop
  | .separate _ value => value.toList.head? = some '-' → value = "-"
  | _ => True

end Phrase

/-- A value that its option accepts. Scenarios are named exactly, targets in either case. -/
def IsValid (value : String) : ValueOption → Prop
  | .scenario => ∃ s : Scenario, s.name = value
  | .target => ∃ t : Target, t.name = value.map Char.toLower
  | .arrayName => True
  | .comment => True

/-- Letters of which the first that does not raise the verbosity is `V` or `h`. -/
inductive RequestLetters : List Char → Prop where
  | version (rest : List Char) : RequestLetters ('V' :: rest)
  | help (rest : List Char) : RequestLetters ('h' :: rest)
  | verbose {letters : List Char} : RequestLetters letters → RequestLetters ('v' :: letters)

/-- An argument that asks for help or for the version, by name or by letter. -/
inductive IsRequest : String → Prop where
  | version : IsRequest "--version"
  | help : IsRequest "--help"
  | short {letters : List Char} :
    RequestLetters letters → IsRequest (String.ofList ('-' :: letters))

/-- After some whole options, which may be mistaken, an argument asks for help or for
the version. -/
inductive Requests : List String → Prop where
  | here {argument : String} (rest : List String) :
    IsRequest argument → Requests (argument :: rest)
  | later (p : Phrase) {rest : List String} :
    p.IsSpellable → Requests rest → Requests (p.spell ++ rest)

/-- The phrases give valid values, give no option twice but the counted one, and
ask for neither the version nor help. -/
structure IsAdmissible (phrases : List Phrase) : Prop where
  spellable : ∀ p ∈ phrases, p.IsSpellable
  valid : ∀ o, ∀ v ∈ phrases.filterMap (Phrase.value? o), IsValid v o
  value_once : ∀ o, (phrases.filterMap (Phrase.value? o)).length ≤ 1
  strict_once : phrases.count (.switch .strict) ≤ 1
  list_once : phrases.count (.switch .list) ≤ 1
  no_version : .switch .version ∉ phrases
  no_help : .switch .help ∉ phrases

/-- What the phrases choose. -/
def choices (phrases : List Phrase) : Choices where
  scenario := (phrases.findSome? (Phrase.value? .scenario)).bind
    (fun v => (Scenario.ofName v).toOption)
  target := (phrases.findSome? (Phrase.value? .target)).bind (fun v => (Target.ofName v).toOption)
  arrayName := phrases.findSome? (Phrase.value? .arrayName)
  comment := phrases.findSome? (Phrase.value? .comment)
  strict := phrases.contains (.switch .strict)
  list := phrases.contains (.switch .list)
  verbosity := phrases.foldr (fun p n => p.verbosity + n) 0

/-- The run that phrases ask for: what they name, or the usual where they name nothing.
There is no option for the indent. -/
structure AsksFor (phrases : List Phrase) (scenario : Scenario) (style : ArrayStyle) : Prop where
  scenario_name : scenario.name =
    (phrases.findSome? (Phrase.value? .scenario)).getD "fundamental"
  target_name : style.target.name =
    ((phrases.findSome? (Phrase.value? .target)).getD "c").map Char.toLower
  array_name : style.arrayName = (phrases.findSome? (Phrase.value? .arrayName)).getD "P"
  comment : style.comment = phrases.findSome? (Phrase.value? .comment)
  indent : style.indent = "    "

/-- The arguments that spell the phrases, with `--` at the end if `dashed`. -/
def spellAll (phrases : List Phrase) (dashed : Bool) : List String :=
  phrases.flatMap Phrase.spell ++ if dashed then ["--"] else []

theorem choices_nil : choices [] = {} := rfl

end PivotCoefficients.CommandLine
