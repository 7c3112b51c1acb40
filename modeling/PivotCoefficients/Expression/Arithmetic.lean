import Std.Data.HashMap
import PivotCoefficients.Expression.Basic

/-!
# Arithmetic of expressions

Sums are merged term by term from two sorted lists. Products are collected by
monomial in an accumulator, which has no order of its own, and sorted
afterwards. Every result is expanded at once and again in canonical form.
-/
namespace PivotCoefficients.Expression

/-- The sum of two coefficients, or nothing when they cancel. -/
def addCoefficients (c d : Rat) : Option Rat :=
  if c + d = 0 then none else some (c + d)

def add (a b : Expression) : Expression :=
  ⟨FormalSum.merge (fun m n => compare n m) addCoefficients a.terms b.terms⟩

def neg (a : Expression) : Expression :=
  ⟨a.terms.map (fun t => (t.1, -t.2))⟩

def sub (a b : Expression) : Expression := a.add b.neg

def scale (a : Expression) (k : Rat) : Expression :=
  if k = 0 then zero else ⟨a.terms.map (fun t => (t.1, t.2 * k))⟩

def products (a b : Expression) : List Term :=
  a.terms.flatMap (fun s => b.terms.map (fun t => (s.1 * t.1, s.2 * t.2)))

def accumulate (ts : List Term) : Std.HashMap Monomial Rat :=
  ts.foldl (fun acc t => acc.alter t.1 (fun c => some (c.getD 0 + t.2))) ∅

def mul (a b : Expression) : Expression :=
  ofTerms (accumulate (a.products b)).toList

instance : Add Expression := ⟨add⟩
instance : Sub Expression := ⟨sub⟩
instance : Neg Expression := ⟨neg⟩
instance : Mul Expression := ⟨mul⟩

def pow (a : Expression) (n : Nat) : Expression :=
  power one a n

theorem terms_add (a b : Expression) :
    (a + b).terms = FormalSum.merge (fun m n => compare n m) addCoefficients a.terms b.terms := rfl

@[simp] theorem terms_neg (a : Expression) : (-a).terms = a.terms.map (fun t => (t.1, -t.2)) := rfl

theorem sub_eq (a b : Expression) : a - b = a + -b := rfl

theorem mul_eq (a b : Expression) : a * b = ofTerms (accumulate (a.products b)).toList := rfl

@[simp] theorem add_zero (a : Expression) : a + zero = a := by
  cases a
  simp [HAdd.hAdd, Add.add, add]

@[simp] theorem scale_zero (a : Expression) : a.scale 0 = zero := by
  simp [scale]

end PivotCoefficients.Expression
