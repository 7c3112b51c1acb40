import PivotCoefficients.Expression.Basic

/-!
# Expressions as text

Every text of an expression has the same frame. The first term carries a minus
sign directly in front when it is negative; the others follow after ` + ` or
` - `. Within the frame each term is written from its monomial and the
magnitude of its coefficient.
-/
namespace PivotCoefficients.Expression

def leadingSign (c : Rat) : String :=
  if Rational.isNegative c then "-" else ""

def joiningSign (c : Rat) : String :=
  if Rational.isNegative c then " - " else " + "

/-- The terms within the frame of signs, each written by `body`. -/
def signedSum (body : Monomial → Rat → String) : List Term → String
  | [] => ""
  | (m, c) :: rest =>
    leadingSign c ++ body m (Rational.magnitude c) ++
      String.join (rest.map (fun t => joiningSign t.2 ++ body t.1 (Rational.magnitude t.2)))

/-- A coefficient and a monomial joined by `*`. Of the two a factor of one is
left out unless it is all there is. -/
def termText (m : Monomial) (c : Rat) : String :=
  if m.isOne then Rational.text c
  else if c = 1 then m.text
  else Rational.text c ++ "*" ++ m.text

/-- The terms with their signs, or `0`. -/
def text (e : Expression) : String :=
  if e.isZero then "0" else signedSum termText e.terms

end PivotCoefficients.Expression
