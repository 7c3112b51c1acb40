import PivotCoefficients.Decimal

/-!
# Errors

`DerivationError` says why a derivation cannot go on; each cause names the component
that found it. `Fault` is a misuse of the library itself: a fraction over zero or
a matrix index that does not exist.
-/
namespace PivotCoefficients

/-- The part of the program that reports an error. -/
inductive Component where
  | symbolTable
  | expressionAlgebra
  | matrixAlgebra
  | coefficientCollector
  deriving DecidableEq, Repr

def Component.text : Component → String
  | .symbolTable => "symbol table"
  | .expressionAlgebra => "expression algebra"
  | .matrixAlgebra => "matrix algebra"
  | .coefficientCollector => "coefficient collector"

inductive Kind where
  | number
  | symbol
  | expression
  | matrix
  deriving DecidableEq, Repr

def Kind.text : Kind → String
  | .number => "a number"
  | .symbol => "a symbol"
  | .expression => "an expression"
  | .matrix => "a matrix"

/-- What an operation needs of its operands. -/
inductive Requirement where
  | scalar
  | matrix
  | sameShape
  | someScalar
  deriving DecidableEq, Repr

def Requirement.text : Requirement → String
  | .scalar => "a number, symbol or expression"
  | .matrix => "a matrix"
  | .sameShape => "two matrices or two scalars"
  | .someScalar => "at least one scalar operand"

/-- What an operation was given instead. -/
inductive Finding where
  | kind (k : Kind)
  | twoMatrices
  deriving DecidableEq, Repr

def Finding.text : Finding → String
  | .kind k => k.text
  | .twoMatrices => "two matrices"

inductive DerivationError where
  /-- An operand of the wrong kind. -/
  | typeMismatch (component : Component) (operation : String) (expected : Requirement)
      (found : Finding)
  /-- A name that is not declared, or not bound. -/
  | unknownSymbol (name : String)
  /-- The pivot occurs with an exponent above the declared maximum. -/
  | degreeOverflow (pivot : String) (degree maxDegree : Nat)
  deriving DecidableEq, Repr

namespace DerivationError

def component : DerivationError → Component
  | .typeMismatch c _ _ _ => c
  | .unknownSymbol _ => .symbolTable
  | .degreeOverflow _ _ _ => .coefficientCollector

/-- The line shown to the user, which begins with the component. -/
def message : DerivationError → String
  | .typeMismatch c operation expected found =>
    c.text ++ ": `" ++ operation ++ "` expects " ++ expected.text ++ ", found " ++ found.text
  | .unknownSymbol name => "symbol table: unknown symbol `" ++ name ++ "`"
  | .degreeOverflow pivot degree maxDegree =>
    "coefficient collector: pivot `" ++ pivot ++ "` appears with degree " ++
      Decimal.digits degree ++ ", but the maximum degree was declared as " ++
      Decimal.digits maxDegree

end DerivationError

/-- A request that has no answer because an argument lies outside its range. -/
inductive Fault where
  | zeroDenominator
  | indexOutOfBounds (index : Nat)
  deriving DecidableEq, Repr

def Fault.message : Fault → String
  | .zeroDenominator => "denominator cannot be zero"
  | .indexOutOfBounds index =>
    "index out of bounds: the len is 3 but the index is " ++ Decimal.digits index

end PivotCoefficients
