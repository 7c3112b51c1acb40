import PivotCoefficients.ArrayLiteral.Emission
import PivotCoefficients.Scenario

/-!
# Runs

A run derives the coefficients of a scenario and emits them. In strict mode a
table whose leading coefficient vanishes is refused.
-/
namespace PivotCoefficients

inductive Failure where
  | derivation (scenario : Scenario) (cause : DerivationError)
  | degenerate (scenario : Scenario) (pivot : Symbol) (maxDegree : Nat)
  deriving DecidableEq, Repr

def Failure.message : Failure → String
  | .derivation scenario cause => "scenario `" ++ scenario.name ++ "`: " ++ cause.message
  | .degenerate scenario pivot maxDegree =>
    "scenario `" ++ scenario.name ++ "`: coefficient collector: leading coefficient of `" ++
      pivot.name ++ "^" ++ Decimal.digits maxDegree ++ "` vanishes identically"

structure Output where
  table : CoefficientTable
  text : String
  deriving DecidableEq

/-- The text of the output, unless strictness forbids its table. -/
def Output.release (o : Output) (scenario : Scenario) (strict : Bool) : Except Failure String :=
  if strict && o.table.isDegenerate then
    .error (.degenerate scenario o.table.pivot o.table.maxDegree)
  else
    .ok o.text

/-- Derives the coefficients of a scenario and emits them. -/
def Scenario.run (scenario : Scenario) (style : ArrayStyle) : Except DerivationError Output := do
  let derivation ← scenario.derivation
  let table ← derivation.coefficients
  return ⟨table, table.emit style⟩

end PivotCoefficients
