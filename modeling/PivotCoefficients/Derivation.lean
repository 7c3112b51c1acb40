import PivotCoefficients.CoefficientTable
import PivotCoefficients.SymbolTable

/-!
# Derivations

A derivation is an equation `equation = 0` with the symbols declared for it, the
pivot to solve for and the degree expected in the pivot. Its coefficients are
collected once every symbol in use is known to be declared.
-/
namespace PivotCoefficients

structure Derivation where
  symbols : SymbolTable
  equation : Expression
  pivot : Symbol
  maxDegree : Nat

/-- The coefficients of the equation by powers of the pivot. The pivot is checked
first, then the symbols of the equation in ascending order, then the degree. -/
def Derivation.coefficients (d : Derivation) : Except DerivationError CoefficientTable := do
  d.symbols.require d.pivot
  d.equation.symbols.forM d.symbols.require
  d.equation.collect d.pivot d.maxDegree

end PivotCoefficients
