import PivotCoefficients.CommandLine.Arguments
import PivotCoefficients.Run

/-!
# Responses of the program

The response to a list of arguments is an exit status, the text for standard
output and a line for standard error. Mistakes in the arguments exit with 2 and
failures of a run with 1; both leave standard output empty.
The text of the help is left out, and the answer to a request for it is empty.
-/
namespace PivotCoefficients.CommandLine

structure Response where
  exitStatus : Nat
  output : String
  diagnostic : String := ""
  deriving DecidableEq, Repr

/-- Pads a text with blanks on the right, up to a width. -/
def padRight (width : Nat) (text : String) : String :=
  text ++ String.ofList (List.replicate (width - text.length) ' ')

/-- One line for each scenario: its name and what it computes. -/
def listing : String :=
  String.join (Scenario.all.map (fun s => padRight 20 s.name ++ s.description ++ "\n"))

def versionLine : String := "coeffgen 0.1.0\n"

def Choices.execute (c : Choices) : Except Failure String :=
  if c.list then
    .ok listing
  else
    let scenario := c.scenario.getD .initial
    match scenario.run c.style with
    | .ok output => output.release scenario c.strict
    | .error e => .error (.derivation scenario e)

def respond (arguments : List String) : Response :=
  match read arguments with
  | .error .version => { exitStatus := 0, output := versionLine }
  | .error .help => { exitStatus := 0, output := "" }
  | .error (.usage e) => { exitStatus := 2, output := "", diagnostic := "error: " ++ e.message }
  | .ok choices =>
    match choices.execute with
    | .ok text => { exitStatus := 0, output := text }
    | .error e => { exitStatus := 1, output := "", diagnostic := "error: " ++ e.message }

end PivotCoefficients.CommandLine
