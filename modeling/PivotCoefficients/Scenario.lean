import PivotCoefficients.Derivation
import PivotCoefficients.Operand

/-!
# Scenarios

The equations the program knows. Each declares its symbols, assembles its
equation from operands and names the pivot; all three are cubic in it.
-/
namespace PivotCoefficients

inductive Scenario where
  /-- A fundamental matrix on the line `F1 + z*F2`. -/
  | fundamental
  /-- A fundamental matrix on the segment from `F2` to `F1`. -/
  | fundamentalConvex
  /-- The squared focal length of a rotating camera. -/
  | panography
  deriving DecidableEq, Repr

structure UnknownScenario where
  name : String
  deriving DecidableEq, Repr

namespace Scenario

def all : List Scenario := [.fundamental, .fundamentalConvex, .panography]

def initial : Scenario := .fundamental

def name : Scenario → String
  | .fundamental => "fundamental"
  | .fundamentalConvex => "fundamental-convex"
  | .panography => "panography"

def description : Scenario → String
  | .fundamental => "det(F1 + z*F2) over two symbolic 3x3 matrices, pivot z"
  | .fundamentalConvex =>
    "det(alpha*F1 + (1 - alpha)*F2) over two symbolic 3x3 matrices, pivot alpha"
  | .panography => "(a12+f2)^2 (b1+f2)(b2+f2) - (b12+f2)^2 (a1+f2)(a2+f2), pivot f2"

/-- The scenario of that name, which is written exactly. -/
def ofName (name : String) : Except UnknownScenario Scenario :=
  match all.find? (fun s => s.name = name) with
  | some s => .ok s
  | none => .error ⟨name⟩

theorem ofName_eq_ok_iff {name : String} {s : Scenario} : ofName name = .ok s ↔ s.name = name := by
  unfold ofName
  constructor
  · intro h
    split at h
    · next hfind =>
      obtain rfl := Except.ok.inj h
      have hname := List.find?_some hfind
      exact of_decide_eq_true hname
    · cases h
  · rintro rfl
    cases s <;> rfl

end Scenario

def UnknownScenario.message (e : UnknownScenario) : String :=
  "unknown scenario `" ++ e.name ++ "` (expected one of: " ++
    ", ".intercalate (Scenario.all.map Scenario.name) ++ ")"

namespace Scenario

/-- The entries of `F1`, the first row first. -/
def firstMatrix : Vector String 9 := #v["a", "b", "c", "d", "e", "f", "g", "h", "i"]

def secondMatrix : Vector String 9 := #v["j", "k", "l", "m", "n", "o", "p", "q", "r"]

/-- Dot products and squared norms of the image rays. -/
def rayProducts : List String := ["a12", "a1", "a2", "b12", "b1", "b2"]

def symbolOperand (symbols : SymbolTable) (name : String) : Except DerivationError Operand := do
  return .symbol (← symbols.lookup name)

def symbolMatrix (symbols : SymbolTable) (names : Vector String 9) :
    Except DerivationError Operand := do
  Operand.ofEntries (← names.mapM (symbolOperand symbols))

/-- The table with the entries of both matrices, then the pivot. -/
def matrixSymbols (pivot : String) : Symbol × SymbolTable :=
  let symbols := (SymbolTable.empty.declareAll firstMatrix.toList).2
  let symbols := (symbols.declareAll secondMatrix.toList).2
  symbols.declare pivot

/-- `det(F1 + z*F2)` -/
def fundamentalDerivation : Except DerivationError Derivation := do
  let (pivot, symbols) := matrixSymbols "z"
  let f1 ← symbolMatrix symbols firstMatrix
  let f2 ← symbolMatrix symbols secondMatrix
  let pencil ← f1.add (← (Operand.symbol pivot).multiply f2)
  let equation ← (← pencil.determinant).asExpression "determinant"
  return ⟨symbols, equation, pivot, 3⟩

/-- `det(alpha*F1 + (1 - alpha)*F2)` -/
def convexDerivation : Except DerivationError Derivation := do
  let (pivot, symbols) := matrixSymbols "alpha"
  let f1 ← symbolMatrix symbols firstMatrix
  let f2 ← symbolMatrix symbols secondMatrix
  let alpha := Operand.symbol pivot
  let complement ← (Operand.number 1).sub alpha
  let pencil ← (← alpha.multiply f1).add (← complement.multiply f2)
  let equation ← (← pencil.determinant).asExpression "determinant"
  return ⟨symbols, equation, pivot, 3⟩

/-- `(p + f2)^2 * (q + f2) * (r + f2)` for the symbols called `p`, `q` and `r` -/
def shiftedProduct (symbols : SymbolTable) (pivot : Symbol) (p q r : String) :
    Except DerivationError Operand := do
  let shifted (name : String) : Except DerivationError Operand := do
    (← symbolOperand symbols name).add (.symbol pivot)
  let square ← (← shifted p).power 2
  (← square.multiply (← shifted q)).multiply (← shifted r)

/-- The difference of two products of degree four, whose leading terms cancel. -/
def panographyDerivation : Except DerivationError Derivation := do
  let (pivot, symbols) := SymbolTable.empty.declare "f2"
  let symbols := (symbols.declareAll rayProducts).2
  let left ← shiftedProduct symbols pivot "a12" "b1" "b2"
  let right ← shiftedProduct symbols pivot "b12" "a1" "a2"
  let equation ← (← left.sub right).asExpression "sub"
  return ⟨symbols, equation, pivot, 3⟩

def derivation : Scenario → Except DerivationError Derivation
  | .fundamental => fundamentalDerivation
  | .fundamentalConvex => convexDerivation
  | .panography => panographyDerivation

end Scenario

end PivotCoefficients
