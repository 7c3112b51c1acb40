import PivotCoefficients.Decimal
import PivotCoefficients.FormalSum
import PivotCoefficients.Symbol

/-!
# Monomials

A monomial is a product of symbol powers. Its factors are listed by ascending
symbol, each symbol once and with an exponent of at least one; `IsCanonical`
states this. The empty list is the monomial 1.
-/
namespace PivotCoefficients

structure Monomial where
  factors : List (Symbol × Nat)
  deriving DecidableEq, Hashable, Repr

namespace Monomial

/-- Ascending symbols, and no exponent zero. -/
def IsCanonical (m : Monomial) : Prop :=
  m.factors.Pairwise (fun a b => compare a.1 b.1 = .lt) ∧ ∀ f ∈ m.factors, 0 < f.2

instance (m : Monomial) : Decidable m.IsCanonical := by
  unfold IsCanonical
  infer_instance

def one : Monomial := ⟨[]⟩

def var (s : Symbol) : Monomial := ⟨[(s, 1)]⟩

/-- The product of the listed powers, in any order and with repeats. -/
def ofFactors (fs : List (Symbol × Nat)) : Monomial :=
  ⟨FormalSum.gather
    ((fs.filter (fun f => 0 < f.2)).mergeSort (fun a b => (compare a.1 b.1).isLE))⟩

def isOne (m : Monomial) : Bool := m.factors.isEmpty

/-- Searches factors in ascending order for the exponent of `s`, up to the place
where `s` would stand. -/
def exponentIn (s : Symbol) : List (Symbol × Nat) → Nat
  | [] => 0
  | (t, e) :: rest =>
    match compare s t with
    | .lt => 0
    | .eq => e
    | .gt => exponentIn s rest

/-- The exponent of `s`, zero when `s` does not occur. -/
def exponent (m : Monomial) (s : Symbol) : Nat :=
  exponentIn s m.factors

def totalDegree (m : Monomial) : Nat :=
  m.factors.foldr (fun f d => f.2 + d) 0

def symbols (m : Monomial) : List Symbol :=
  m.factors.map Prod.fst

def mul (m n : Monomial) : Monomial :=
  ⟨FormalSum.merge compare (fun d e => some (d + e)) m.factors n.factors⟩

instance : Mul Monomial := ⟨mul⟩

def without (m : Monomial) (s : Symbol) : Monomial :=
  ⟨m.factors.filter (fun f => f.1 ≠ s)⟩

def extract (m : Monomial) (s : Symbol) : Nat × Monomial :=
  (m.exponent s, m.without s)

/-- Of two factors the one of the smaller symbol is the greater, and of two powers
of one symbol the higher. -/
def compareFactor (a b : Symbol × Nat) : Ordering :=
  (compare b.1 a.1).then (compare a.2 b.2)

/-- Lexicographic order: the first symbol whose exponents differ decides for the
larger exponent. A symbol that does not occur has the exponent zero, so factors
win against none, and the monomial 1 is the least. -/
instance : Ord Monomial := ⟨fun m n => List.compareLex compareFactor m.factors n.factors⟩

def factorText (f : Symbol × Nat) : String :=
  if f.2 = 1 then f.1.name else f.1.name ++ "^" ++ Decimal.digits f.2

def text (m : Monomial) : String :=
  if m.isOne then "1" else "*".intercalate (m.factors.map factorText)

@[simp] theorem factors_one : one.factors = [] := rfl

@[simp] theorem factors_var (s : Symbol) : (var s).factors = [(s, 1)] := rfl

@[simp] theorem exponent_one (s : Symbol) : one.exponent s = 0 := rfl

theorem factors_mul (m n : Monomial) :
    (m * n).factors = FormalSum.merge compare (fun d e => some (d + e)) m.factors n.factors := rfl

theorem compare_eq (m n : Monomial) :
    compare m n = List.compareLex compareFactor m.factors n.factors := rfl

theorem isCanonical_one : one.IsCanonical := by simp [IsCanonical]

theorem isCanonical_var (s : Symbol) : (var s).IsCanonical := by simp [IsCanonical]

end Monomial

end PivotCoefficients
