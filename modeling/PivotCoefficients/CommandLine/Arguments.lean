import PivotCoefficients.ArrayLiteral.Emission
import PivotCoefficients.Scenario

/-!
# Command line arguments

Arguments are read from left to right, and the first that ends the reading
decides: a request for the version or for help, or a mistake. An option that
takes a value has it after an equals sign or as the next argument; a value of
its own must not begin with a minus sign, unless it is that sign alone. Every
option but the counted one may be given once. There are no other arguments, and
`--` may only come last.
-/
namespace PivotCoefficients.CommandLine

/-- The options that take a value. -/
inductive ValueOption where
  | scenario
  | target
  | arrayName
  | comment
  deriving DecidableEq, Repr

namespace ValueOption

def all : List ValueOption := [.scenario, .target, .arrayName, .comment]

def name : ValueOption → String
  | .scenario => "scenario"
  | .target => "target"
  | .arrayName => "array-name"
  | .comment => "comment"

def ofName? (name : String) : Option ValueOption :=
  all.find? (fun o => o.name = name)

end ValueOption

/-- The options that stand alone. -/
inductive Switch where
  | strict
  | list
  | verbose
  | version
  | help
  deriving DecidableEq, Repr

namespace Switch

def all : List Switch := [.strict, .list, .verbose, .version, .help]

def name : Switch → String
  | .strict => "strict"
  | .list => "list"
  | .verbose => "verbose"
  | .version => "version"
  | .help => "help"

def ofName? (name : String) : Option Switch :=
  all.find? (fun s => s.name = name)

def ofLetter? : Char → Option Switch
  | 'v' => some .verbose
  | 'V' => some .version
  | 'h' => some .help
  | _ => none

end Switch

inductive UsageError where
  | unknownOption (text : String)
  | unexpectedArgument (text : String)
  | missingValue (o : ValueOption)
  | unexpectedValue (s : Switch)
  | invalidValue (o : ValueOption) (reason : String)
  | repeatedOption (name : String)
  deriving DecidableEq, Repr

def UsageError.message : UsageError → String
  | .unknownOption text => "unknown option `" ++ text ++ "`"
  | .unexpectedArgument text => "unexpected argument `" ++ text ++ "`"
  | .missingValue o => "`--" ++ o.name ++ "` needs a value"
  | .unexpectedValue s => "`--" ++ s.name ++ "` takes no value"
  | .invalidValue o reason => "invalid value for `--" ++ o.name ++ "`: " ++ reason
  | .repeatedOption name => "`--" ++ name ++ "` may be given only once"

/-- What ends the reading before all arguments are read. -/
inductive Stop where
  | usage (e : UsageError)
  | version
  | help
  deriving DecidableEq, Repr

/-- What the options read so far have chosen. -/
structure Choices where
  scenario : Option Scenario := none
  target : Option Target := none
  arrayName : Option String := none
  comment : Option String := none
  strict : Bool := false
  list : Bool := false
  verbosity : Nat := 0
  deriving DecidableEq, Repr

namespace Choices

/-- Refuses an option that was given before. -/
def once (name : String) (given : Bool) (c : Choices) : Except Stop Choices :=
  if given then .error (.usage (.repeatedOption name)) else .ok c

def give (c : Choices) (o : ValueOption) (value : String) : Except Stop Choices :=
  match o with
  | .scenario =>
    match Scenario.ofName value with
    | .ok s => once o.name c.scenario.isSome { c with scenario := some s }
    | .error e => .error (.usage (.invalidValue o e.message))
  | .target =>
    match Target.ofName value with
    | .ok t => once o.name c.target.isSome { c with target := some t }
    | .error e => .error (.usage (.invalidValue o e.message))
  | .arrayName => once o.name c.arrayName.isSome { c with arrayName := some value }
  | .comment => once o.name c.comment.isSome { c with comment := some value }

def turn (c : Choices) : Switch → Except Stop Choices
  | .strict => once Switch.strict.name c.strict { c with strict := true }
  | .list => once Switch.list.name c.list { c with list := true }
  | .verbose => .ok { c with verbosity := c.verbosity + 1 }
  | .version => .error .version
  | .help => .error .help

def turnLetters (c : Choices) : List Char → Except Stop Choices
  | [] => .ok c
  | l :: rest =>
    match Switch.ofLetter? l with
    | some s =>
      match c.turn s with
      | .ok c => c.turnLetters rest
      | .error e => .error e
    | none => .error (.usage (.unknownOption (String.ofList ['-', l])))

/-- What is emitted, with the usual values for options that were not given. -/
def style (c : Choices) : ArrayStyle :=
  let usual : ArrayStyle := {}
  { usual with
    arrayName := c.arrayName.getD usual.arrayName
    comment := c.comment
    target := c.target.getD usual.target }

end Choices

/-- The form of one argument. -/
inductive Word where
  /-- `--` -/
  | dashes
  /-- `--name` or `--name=value` -/
  | long (name : String) (value : Option String)
  /-- `-` with letters -/
  | short (letters : List Char)
  /-- anything else -/
  | plain (text : String)
  deriving DecidableEq, Repr

namespace Word

/-- What follows two minus signs, split at its first equals sign. -/
def ofLong (cs : List Char) : Word :=
  match cs.dropWhile (· ≠ '=') with
  | [] => .long (String.ofList cs) none
  | _ :: value => .long (String.ofList (cs.takeWhile (· ≠ '='))) (some (String.ofList value))

def ofArgument (argument : String) : Word :=
  match argument.toList with
  | ['-', '-'] => .dashes
  | '-' :: '-' :: rest => ofLong rest
  | '-' :: l :: rest => .short (l :: rest)
  | _ => .plain argument

def isPlain : Word → Bool
  | .plain _ => true
  | _ => false

end Word

def Choices.read (c : Choices) : List String → Except Stop Choices
  | [] => .ok c
  | argument :: rest =>
    match Word.ofArgument argument with
    | .plain text => .error (.usage (.unexpectedArgument text))
    | .dashes =>
      match rest with
      | [] => .ok c
      | next :: _ => .error (.usage (.unexpectedArgument next))
    | .short letters =>
      match c.turnLetters letters with
      | .ok c => c.read rest
      | .error e => .error e
    | .long name value =>
      match ValueOption.ofName? name, Switch.ofName? name with
      | some o, _ =>
        match value, rest with
        | some value, rest =>
          match c.give o value with
          | .ok c => c.read rest
          | .error e => .error e
        | none, [] => .error (.usage (.missingValue o))
        | none, value :: rest =>
          if (Word.ofArgument value).isPlain then
            match c.give o value with
            | .ok c => c.read rest
            | .error e => .error e
          else
            .error (.usage (.missingValue o))
      | none, some s =>
        match value with
        | some _ => .error (.usage (.unexpectedValue s))
        | none =>
          match c.turn s with
          | .ok c => c.read rest
          | .error e => .error e
      | none, none => .error (.usage (.unknownOption ("--" ++ name)))

/-- The choices that a whole list of arguments makes. -/
def read (arguments : List String) : Except Stop Choices :=
  Choices.read {} arguments

end PivotCoefficients.CommandLine
