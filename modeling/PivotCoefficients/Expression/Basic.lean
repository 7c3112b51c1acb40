import PivotCoefficients.Monomial
import PivotCoefficients.Rational

/-!
# Expanded expressions

An expression is a polynomial written out as a sum of terms, each a monomial
with its coefficient. The terms descend in the order of monomials, no monomial
stands twice and no coefficient is zero; `IsCanonical` states this. Expressions
of that form are equal exactly when they are the same polynomial.
-/
namespace PivotCoefficients

/-- A monomial with its coefficient. -/
abbrev Term := Monomial × Rat

structure Expression where
  terms : List Term
  deriving DecidableEq, Repr

namespace Expression

/-- Strictly descending canonical monomials with coefficients other than zero. -/
def IsCanonical (e : Expression) : Prop :=
  e.terms.Pairwise (fun a b => compare a.1 b.1 = .gt) ∧
    ∀ t ∈ e.terms, t.1.IsCanonical ∧ t.2 ≠ 0

instance (e : Expression) : Decidable e.IsCanonical := by
  unfold IsCanonical
  infer_instance

/-- The sum of the listed terms, in any order and with repeats. -/
def ofTerms (ts : List Term) : Expression :=
  ⟨(FormalSum.gather (ts.mergeSort (fun a b => (compare b.1 a.1).isLE))).filter (fun t => t.2 ≠ 0)⟩

def zero : Expression := ⟨[]⟩

def constant (c : Rat) : Expression :=
  if c = 0 then zero else ⟨[(Monomial.one, c)]⟩

def one : Expression := constant 1

def ofMonomial (m : Monomial) : Expression := ⟨[(m, 1)]⟩

def ofSymbol (s : Symbol) : Expression := ofMonomial (Monomial.var s)

def isZero (e : Expression) : Bool := e.terms.isEmpty

def isOne (e : Expression) : Bool :=
  match e.terms with
  | [(m, c)] => m.isOne && c == 1
  | _ => false

def size (e : Expression) : Nat := e.terms.length

/-- The coefficient of a monomial, zero when it does not occur. -/
def coefficient (e : Expression) (m : Monomial) : Rat :=
  FormalSum.amount m e.terms

/-- The largest exponent of `s` in any term, zero for the zero expression. -/
def degreeIn (e : Expression) (s : Symbol) : Nat :=
  e.terms.foldr (fun t d => max (t.1.exponent s) d) 0

/-- The symbols that occur, ascending and each once. -/
def symbols (e : Expression) : List Symbol :=
  (e.terms.flatMap (fun t => t.1.symbols)).eraseDups.mergeSort (fun s t => (compare s t).isLE)

@[simp] theorem terms_zero : zero.terms = [] := rfl

@[simp] theorem terms_ofSymbol (s : Symbol) :
    (ofSymbol s).terms = [(Monomial.var s, 1)] := rfl

theorem terms_constant {c : Rat} (h : c ≠ 0) : (constant c).terms = [(Monomial.one, c)] := by
  simp [constant, h]

@[simp] theorem constant_zero : constant 0 = zero := rfl

theorem isZero_iff (e : Expression) : e.isZero ↔ e = zero := by
  cases e
  simp [isZero, zero]

theorem isCanonical_zero : zero.IsCanonical := by simp [IsCanonical]

theorem isCanonical_constant (c : Rat) : (constant c).IsCanonical := by
  by_cases h : c = 0
  · simp [h, isCanonical_zero]
  · simp [IsCanonical, terms_constant h, h, Monomial.isCanonical_one]

end Expression

end PivotCoefficients
