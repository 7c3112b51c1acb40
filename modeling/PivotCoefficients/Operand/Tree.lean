import PivotCoefficients.Operand

/-!
# Trees of operations

A tree says how an operand is assembled from others. It is evaluated from the
leaves up, left before right, and stops at the first error. Beside that stands
the kind that a tree has by rule, for which no operand is assembled.
-/
namespace PivotCoefficients

inductive OperandTree where
  | leaf (x : Operand)
  | matrix (entries : Fin 9 → OperandTree)
  | add (l r : OperandTree)
  | sub (l r : OperandTree)
  | multiply (l r : OperandTree)
  | power (t : OperandTree) (n : Nat)
  | scale (t : OperandTree) (k : Rat)
  | neg (t : OperandTree)
  | determinant (t : OperandTree)

namespace Kind

/-- The kind of a sum or difference: two scalars or two matrices. -/
def ofSum (operation : String) : Kind → Kind → Except DerivationError Kind
  | .matrix, .matrix => .ok .matrix
  | .matrix, l => .error (.typeMismatch .matrixAlgebra operation .sameShape (.kind l))
  | k, .matrix => .error (.typeMismatch .matrixAlgebra operation .sameShape (.kind k))
  | _, _ => .ok .expression

/-- The kind of a product, of which one factor at most is a matrix. -/
def ofProduct : Kind → Kind → Except DerivationError Kind
  | .matrix, .matrix => .error (.typeMismatch .matrixAlgebra "multiply" .someScalar .twoMatrices)
  | .matrix, _ => .ok .matrix
  | _, .matrix => .ok .matrix
  | _, _ => .ok .expression

def ofPower : Kind → Except DerivationError Kind
  | .matrix => .error (.typeMismatch .expressionAlgebra "power" .scalar (.kind .matrix))
  | _ => .ok .expression

def ofScale : Kind → Kind
  | .matrix => .matrix
  | _ => .expression

def ofDeterminant : Kind → Except DerivationError Kind
  | .matrix => .ok .expression
  | k => .error (.typeMismatch .matrixAlgebra "determinant" .matrix (.kind k))

def ofEntries (kinds : List Kind) : Except DerivationError Kind :=
  if .matrix ∈ kinds then
    .error (.typeMismatch .matrixAlgebra "matrix" .scalar (.kind .matrix))
  else
    .ok .matrix

end Kind

namespace OperandTree

def evaluate : OperandTree → Except DerivationError Operand
  | .leaf x => .ok x
  | .matrix entries => do
    Operand.ofEntries (← (Vector.ofFn id).mapM (fun i => (entries i).evaluate))
  | .add l r => do (← l.evaluate).add (← r.evaluate)
  | .sub l r => do (← l.evaluate).sub (← r.evaluate)
  | .multiply l r => do (← l.evaluate).multiply (← r.evaluate)
  | .power t n => do (← t.evaluate).power n
  | .scale t k => do (← t.evaluate).scale k
  | .neg t => do (← t.evaluate).neg
  | .determinant t => do (← t.evaluate).determinant

/-- The kind of the tree by rule, or the mismatch at the first operation that has none. -/
def kind : OperandTree → Except DerivationError Kind
  | .leaf x => .ok x.kind
  | .matrix entries => do
    Kind.ofEntries (← (Vector.ofFn id).mapM (fun i => (entries i).kind)).toList
  | .add l r => do Kind.ofSum "add" (← l.kind) (← r.kind)
  | .sub l r => do Kind.ofSum "sub" (← l.kind) (← r.kind)
  | .multiply l r => do Kind.ofProduct (← l.kind) (← r.kind)
  | .power t _ => do Kind.ofPower (← t.kind)
  | .scale t _ => return Kind.ofScale (← t.kind)
  | .neg t => return Kind.ofScale (← t.kind)
  | .determinant t => do Kind.ofDeterminant (← t.kind)

end OperandTree

end PivotCoefficients
