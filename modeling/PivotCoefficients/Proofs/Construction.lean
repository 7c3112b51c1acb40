import PivotCoefficients.Proofs.Expression.Support
import PivotCoefficients.Proofs.Matrix3.Entries
import PivotCoefficients.Proofs.Operand.Results

/-!
# Constructions

A construction makes monomials, expressions, coefficient tables, matrices and
operands, each by one operation on what it has made before. Whatever the
operations and their order, every monomial and every expression it makes is in
canonical form, those inside of tables, matrices and operands included.
-/
namespace PivotCoefficients

inductive Item where
  | monomial (m : Monomial)
  | expression (e : Expression)
  | table (t : CoefficientTable)
  | matrix (m : Matrix3 Expression)
  | operand (x : Operand)

/-- `Step made x`: one operation on items of `made` has the result `x`. -/
inductive Step (made : List Item) : Item → Prop
  | monomialOne : Step made (.monomial .one)
  | monomialVar (s : Symbol) : Step made (.monomial (.var s))
  | monomialOfFactors (fs : List (Symbol × Nat)) : Step made (.monomial (.ofFactors fs))
  | monomialMul {m n} : .monomial m ∈ made → .monomial n ∈ made → Step made (.monomial (m * n))
  | monomialExtract {m} (s : Symbol) : .monomial m ∈ made → Step made (.monomial (m.extract s).2)
  | monomialOfTerm {e t} : .expression e ∈ made → t ∈ e.terms → Step made (.monomial t.1)
  | ofTerms {ts : List Term} : (∀ t ∈ ts, .monomial t.1 ∈ made) →
      Step made (.expression (.ofTerms ts))
  | zero : Step made (.expression .zero)
  | one : Step made (.expression .one)
  | constant (c : Rat) : Step made (.expression (.constant c))
  | ofSymbol (s : Symbol) : Step made (.expression (.ofSymbol s))
  | ofMonomial {m} : .monomial m ∈ made → Step made (.expression (.ofMonomial m))
  | add {a b} : .expression a ∈ made → .expression b ∈ made → Step made (.expression (a + b))
  | sub {a b} : .expression a ∈ made → .expression b ∈ made → Step made (.expression (a - b))
  | neg {a} : .expression a ∈ made → Step made (.expression (-a))
  | scale {a} (k : Rat) : .expression a ∈ made → Step made (.expression (a.scale k))
  | mul {a b} : .expression a ∈ made → .expression b ∈ made → Step made (.expression (a * b))
  | pow {a} (n : Nat) : .expression a ∈ made → Step made (.expression (a.pow n))
  | substitute {e v} (s : Symbol) : .expression e ∈ made → .expression v ∈ made →
      Step made (.expression (e.substitute s v))
  | collect {e t} (p : Symbol) (n : Nat) : .expression e ∈ made → e.collect p n = .ok t →
      Step made (.table t)
  | tableEntry {t e} (d : Nat) : .table t ∈ made → t.get? d = some e → Step made (.expression e)
  | tableLeading {t} : .table t ∈ made → Step made (.expression t.leading)
  | tableToExpression {t} : .table t ∈ made → Step made (.expression t.toExpression)
  | matrixOfFn {f : Fin 3 → Fin 3 → Expression} : (∀ i j, .expression (f i j) ∈ made) →
      Step made (.matrix (.ofFn f))
  | matrixEntry {m} (i j : Fin 3) : .matrix m ∈ made → Step made (.expression (m.entry i j))
  | matrixSetEntry {m e} (i j : Fin 3) : .matrix m ∈ made → .expression e ∈ made →
      Step made (.matrix (m.setEntry i j e))
  | matrixTranspose {m} : .matrix m ∈ made → Step made (.matrix m.transpose)
  | matrixSwapRows {m} (i j : Fin 3) : .matrix m ∈ made → Step made (.matrix (m.swapRows i j))
  | matrixScaleRow {m k} (i : Fin 3) : .matrix m ∈ made → .expression k ∈ made →
      Step made (.matrix (m.scaleRow i k))
  | matrixAdd {m n} : .matrix m ∈ made → .matrix n ∈ made → Step made (.matrix (m + n))
  | matrixSub {m n} : .matrix m ∈ made → .matrix n ∈ made → Step made (.matrix (m - n))
  | matrixScale {m k} : .matrix m ∈ made → .expression k ∈ made → Step made (.matrix (m.scale k))
  | matrixDet {m} : .matrix m ∈ made → Step made (.expression m.det)
  | operandNumber (q : Rat) : Step made (.operand (.number q))
  | operandSymbol (s : Symbol) : Step made (.operand (.symbol s))
  | operandExpression {e} : .expression e ∈ made → Step made (.operand (.expression e))
  | operandMatrix {m} : .matrix m ∈ made → Step made (.operand (.matrix m))
  | operandOfEntries {entries : Vector Operand 9} {z} :
      (∀ i : Fin 9, .operand (entries.get i) ∈ made) → Operand.ofEntries entries = .ok z →
      Step made (.operand z)
  | operandAdd {x y z} : .operand x ∈ made → .operand y ∈ made → x.add y = .ok z →
      Step made (.operand z)
  | operandSub {x y z} : .operand x ∈ made → .operand y ∈ made → x.sub y = .ok z →
      Step made (.operand z)
  | operandMultiply {x y z} : .operand x ∈ made → .operand y ∈ made → x.multiply y = .ok z →
      Step made (.operand z)
  | operandPower {x z} (n : Nat) : .operand x ∈ made → x.power n = .ok z → Step made (.operand z)
  | operandScale {x z} (k : Rat) : .operand x ∈ made → x.scale k = .ok z → Step made (.operand z)
  | operandNeg {x z} : .operand x ∈ made → x.neg = .ok z → Step made (.operand z)
  | operandDeterminant {x z} : .operand x ∈ made → x.determinant = .ok z → Step made (.operand z)
  | operandAsExpression {x e} (operation : String) : .operand x ∈ made →
      x.asExpression operation = .ok e → Step made (.expression e)
  | operandAsMatrix {x m} (operation : String) : .operand x ∈ made →
      x.asMatrix operation = .ok m → Step made (.matrix m)

/-- The items made by a sequence of operations, the last one first. -/
inductive Construction : List Item → Prop
  | start : Construction []
  | step {made x} : Construction made → Step made x → Construction (x :: made)

def Monomial.IsConstructible (m : Monomial) : Prop :=
  ∃ made, Construction made ∧ .monomial m ∈ made

/-- Some construction makes the expression. -/
def Expression.IsConstructible (e : Expression) : Prop :=
  ∃ made, Construction made ∧ .expression e ∈ made

def Operand.IsCanonical : Operand → Prop
  | .number _ => True
  | .symbol _ => True
  | .expression e => e.IsCanonical
  | .matrix m => m.ForallEntries Expression.IsCanonical

def Item.IsCanonical : Item → Prop
  | .monomial m => m.IsCanonical
  | .expression e => e.IsCanonical
  | .table t => ∀ e ∈ t.coefficients, e.IsCanonical
  | .matrix m => m.ForallEntries Expression.IsCanonical
  | .operand x => x.IsCanonical

end PivotCoefficients
