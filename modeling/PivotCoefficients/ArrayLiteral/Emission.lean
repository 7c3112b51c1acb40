import PivotCoefficients.ArrayLiteral.Target
import PivotCoefficients.CoefficientTable
import PivotCoefficients.Expression.Text

/-!
# Emission of coefficient tables

A table is emitted as an array literal with its coefficients as elements, by
ascending degree. Powers are written out as products, since not every target
has an operator for them.
-/
namespace PivotCoefficients

namespace Monomial

def factorNames (m : Monomial) : List String :=
  m.factors.flatMap (fun f => List.replicate f.2 f.1.name)

end Monomial

namespace Expression

/-- A magnitude and a monomial as a product, without a unit magnitude before factors. -/
def renderTerm (s : Spelling) (m : Monomial) (magnitude : Rat) : String :=
  if m.isOne then s.scalar magnitude
  else if magnitude = 1 then "*".intercalate m.factorNames
  else s.scalar magnitude ++ "*" ++ "*".intercalate m.factorNames

def render (e : Expression) (s : Spelling) : String :=
  if e.isZero then s.zero else signedSum (renderTerm s) e.terms

end Expression

/-- What may be chosen about an emitted array. -/
structure ArrayStyle where
  arrayName : String := "P"
  /-- The text of the comment line, where it is not to be the default. -/
  comment : Option String := none
  target : Target := .initial
  indent : String := "    "
  deriving DecidableEq, Repr

namespace ArrayStyle

def defaultComment (style : ArrayStyle) (pivot : Symbol) : String :=
  "Coefficients in ascending powers of " ++ pivot.name ++ ", i.e. " ++ style.arrayName ++
    "[N]*" ++ pivot.name ++ "^N."

def commentFor (style : ArrayStyle) (pivot : Symbol) : String :=
  style.comment.getD (style.defaultComment pivot)

end ArrayStyle

namespace CoefficientTable

def elementLine (s : Spelling) (indent : String) (e : Expression) : String :=
  indent ++ e.render s ++ s.separator

/-- The lines of the array literal, without their line ends. -/
def lines (t : CoefficientTable) (style : ArrayStyle) (s : Spelling) : List String :=
  s.comment (style.commentFor t.pivot) :: s.openArray style.arrayName t.size ::
    (t.coefficients.map (elementLine s style.indent) ++ [s.closeArray])

/-- The array literal in the given spelling, every line ended. -/
def emitWith (t : CoefficientTable) (style : ArrayStyle) (s : Spelling) : String :=
  String.join ((t.lines style s).map (· ++ "\n"))

/-- The array literal in the target of the style. -/
def emit (t : CoefficientTable) (style : ArrayStyle) : String :=
  t.emitWith style style.target.spelling

end CoefficientTable

end PivotCoefficients
