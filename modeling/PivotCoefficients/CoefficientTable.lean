import PivotCoefficients.Expression.Arithmetic

/-!
# Coefficients by powers of a pivot

A table holds, for each degree up to a declared maximum, the coefficient of
that power of the pivot. The table is dense: a power that does not occur has the
zero expression. `collect` takes an expression apart into such a table and
`toExpression` puts it together again.
-/
namespace PivotCoefficients

/-- Coefficients by ascending degree. There is one at least, that of degree zero. -/
structure CoefficientTable where
  pivot : Symbol
  coefficients : List Expression
  nonempty : coefficients ≠ []
  deriving DecidableEq

namespace CoefficientTable

def size (t : CoefficientTable) : Nat := t.coefficients.length

def maxDegree (t : CoefficientTable) : Nat := t.size - 1

def get? (t : CoefficientTable) (degree : Nat) : Option Expression :=
  t.coefficients[degree]?

/-- The coefficient of the maximum degree. -/
def leading (t : CoefficientTable) : Expression :=
  t.coefficients.getLast t.nonempty

/-- The leading coefficient vanishes, so the declared degree is too high. -/
def isDegenerate (t : CoefficientTable) : Bool :=
  t.leading.isZero

def entries (t : CoefficientTable) : List (Nat × Expression) :=
  t.coefficients.zipIdx.map (fun c => (c.2, c.1))

/-- The running sum `sum + c₀ * power + c₁ * power * pivot + ⋯`. -/
def sumFrom (pivot : Expression) (power sum : Expression) : List Expression → Expression
  | [] => sum
  | c :: rest => sumFrom pivot (power * pivot) (sum + c * power) rest

/-- The sum of the coefficients times their powers of the pivot. -/
def toExpression (t : CoefficientTable) : Expression :=
  sumFrom (Expression.ofSymbol t.pivot) Expression.one Expression.zero t.coefficients

theorem size_pos (t : CoefficientTable) : 0 < t.size :=
  List.length_pos_iff.mpr t.nonempty

theorem maxDegree_add_one (t : CoefficientTable) : t.maxDegree + 1 = t.size :=
  Nat.sub_add_cancel t.size_pos

end CoefficientTable

namespace Expression

/-- The coefficient of the given power of `pivot`: the terms with that exponent,
taken without the pivot. -/
def coefficientOfPower (e : Expression) (pivot : Symbol) (degree : Nat) : Expression :=
  ofTerms ((e.terms.filter (fun t => t.1.exponent pivot = degree)).map
    (fun t => (t.1.without pivot, t.2)))

/-- The coefficients of the powers of `pivot` from zero to `maxDegree`, unless a
higher power occurs. -/
def collect (e : Expression) (pivot : Symbol) (maxDegree : Nat) :
    Except DerivationError CoefficientTable :=
  if maxDegree < e.degreeIn pivot then
    .error (.degreeOverflow pivot.name (e.degreeIn pivot) maxDegree)
  else
    .ok
      { pivot
        coefficients := (List.range (maxDegree + 1)).map (e.coefficientOfPower pivot)
        nonempty := by simp }

end Expression

end PivotCoefficients
