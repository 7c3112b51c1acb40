import PivotCoefficients.Expression.Arithmetic
import PivotCoefficients.Matrix3

/-!
# Operands checked by kind

Equations are assembled from operands of four kinds: numbers, symbols,
expressions and matrices of expressions. The first three are scalars and count
as expressions in arithmetic. An operation on operands of the wrong kind
reports what it needs, what it found and which part of the algebra noticed.
-/
namespace PivotCoefficients

inductive Operand where
  | number (q : Rat)
  | symbol (s : Symbol)
  | expression (e : Expression)
  | matrix (m : Matrix3 Expression)
  deriving DecidableEq

namespace Operand

def kind : Operand → Kind
  | .number _ => .number
  | .symbol _ => .symbol
  | .expression _ => .expression
  | .matrix _ => .matrix

def mismatch (component : Component) (operation : String) (expected : Requirement)
    (found : Operand) : DerivationError :=
  .typeMismatch component operation expected (.kind found.kind)

/-- The scalar as an expression; a matrix is refused on behalf of `operation`. -/
def asScalar (component : Component) (operation : String) :
    Operand → Except DerivationError Expression
  | .number q => .ok (.constant q)
  | .symbol s => .ok (.ofSymbol s)
  | .expression e => .ok e
  | .matrix m => .error (mismatch component operation .scalar (.matrix m))

def asExpression (x : Operand) (operation : String) : Except DerivationError Expression :=
  x.asScalar .expressionAlgebra operation

/-- The matrix; a scalar is refused on behalf of `operation`. -/
def asMatrix (operation : String) : Operand → Except DerivationError (Matrix3 Expression)
  | .matrix m => .ok m
  | x => .error (mismatch .matrixAlgebra operation .matrix x)

/-- A matrix of nine scalars, the first row first. -/
def ofEntries (entries : Vector Operand 9) : Except DerivationError Operand := do
  let scalars ← entries.mapM (asScalar .matrixAlgebra "matrix")
  return .matrix (.ofRowMajor scalars)

/-- Two scalars are added as expressions, two matrices entry by entry. -/
def add : Operand → Operand → Except DerivationError Operand
  | .matrix m, .matrix n => .ok (.matrix (m + n))
  | .matrix _, y => .error (mismatch .matrixAlgebra "add" .sameShape y)
  | x, .matrix _ => .error (mismatch .matrixAlgebra "add" .sameShape x)
  | x, y => do return .expression ((← x.asExpression "add") + (← y.asExpression "add"))

def sub : Operand → Operand → Except DerivationError Operand
  | .matrix m, .matrix n => .ok (.matrix (m - n))
  | .matrix _, y => .error (mismatch .matrixAlgebra "sub" .sameShape y)
  | x, .matrix _ => .error (mismatch .matrixAlgebra "sub" .sameShape x)
  | x, y => do return .expression ((← x.asExpression "sub") - (← y.asExpression "sub"))

/-- A product of scalars, or a matrix scaled by a scalar on either side. -/
def multiply : Operand → Operand → Except DerivationError Operand
  | .matrix _, .matrix _ =>
    .error (.typeMismatch .matrixAlgebra "multiply" .someScalar .twoMatrices)
  | .matrix m, k => do return .matrix (m.scale (← k.asExpression "multiply"))
  | k, .matrix m => do return .matrix (m.scale (← k.asExpression "multiply"))
  | x, y => do return .expression ((← x.asExpression "multiply") * (← y.asExpression "multiply"))

def power (x : Operand) (n : Nat) : Except DerivationError Operand := do
  return .expression ((← x.asExpression "power").pow n)

def scale (x : Operand) (k : Rat) : Except DerivationError Operand :=
  match x with
  | .matrix m => .ok (.matrix (m.scale (.constant k)))
  | x => do return .expression ((← x.asExpression "scale").scale k)

def neg (x : Operand) : Except DerivationError Operand :=
  x.scale (-1)

def determinant (x : Operand) : Except DerivationError Operand := do
  return .expression (← x.asMatrix "determinant").det

end Operand

end PivotCoefficients
