import PivotCoefficients.Expression.Arithmetic
import PivotCoefficients.Power.Table

/-!
# Evaluation and substitution

A binding gives rational values to some symbols. Evaluation under it is exact,
and fails at the first symbol it meets that has no value: terms are read in
order, and the factors of a term in order. Substitution puts an expression in
the place of a symbol; each power of that expression is multiplied out once, when
a term first needs it.
-/
namespace PivotCoefficients

/-- The values of the symbols that have one. -/
abbrev Binding := Symbol → Option Rat

namespace Binding

/-- Of two values listed for one symbol the later counts. -/
def ofList (l : List (Symbol × Rat)) : Binding :=
  fun s => l.reverse.lookup s

def get (ρ : Binding) (s : Symbol) : Except DerivationError Rat :=
  match ρ s with
  | some x => .ok x
  | none => .error (.unknownSymbol s.name)

/-- The binding that gives `s` the value `x` and is `ρ` elsewhere. -/
def set (ρ : Binding) (s : Symbol) (x : Rat) : Binding :=
  fun t => if t = s then some x else ρ t

theorem get_of_eq_some {ρ : Binding} {s : Symbol} {x : Rat} (h : ρ s = some x) :
    ρ.get s = .ok x := by
  simp [get, h]

theorem get_of_eq_none {ρ : Binding} {s : Symbol} (h : ρ s = none) :
    ρ.get s = .error (.unknownSymbol s.name) := by
  simp [get, h]

end Binding

namespace Monomial

/-- `c` times the powers of the listed symbols. -/
def evaluateFactors (ρ : Binding) (c : Rat) : List (Symbol × Nat) → Except DerivationError Rat
  | [] => .ok c
  | (s, n) :: rest =>
    match ρ.get s with
    | .ok x => evaluateFactors ρ (c * Rational.pow x n) rest
    | .error e => .error e

end Monomial

namespace Expression

/-- `total` plus the values of the listed terms. -/
def evaluateTerms (ρ : Binding) (total : Rat) : List Term → Except DerivationError Rat
  | [] => .ok total
  | (m, c) :: rest =>
    match Monomial.evaluateFactors ρ c m.factors with
    | .ok x => evaluateTerms ρ (total + x) rest
    | .error e => .error e

def evaluate (e : Expression) (ρ : Binding) : Except DerivationError Rat :=
  evaluateTerms ρ 0 e.terms

/-- A term with `v` in the place of `s`, multiplied out. -/
def substituteTerm (s : Symbol) (v : Expression) (t : Term) : List Term :=
  match t.1.exponent s with
  | 0 => [t]
  | n => (repeatedProduct one v n).terms.map (fun u => (t.1.without s * u.1, t.2 * u.2))

/-- The listed terms with `v` in the place of `s`, multiplied out one after another.
The powers of `v` are kept for the terms that follow. -/
def substituteTerms (s : Symbol) (v : Expression) : PowerTable one v → List Term → List Term
  | _, [] => []
  | powers, t :: rest =>
    match t.1.exponent s with
    | 0 => t :: substituteTerms s v powers rest
    | n =>
      let (power, powers) := powers.find n
      power.terms.map (fun u => (t.1.without s * u.1, t.2 * u.2)) ++
        substituteTerms s v powers rest

/-- The expression with `v` in the place of `s`, expanded. -/
def substitute (e : Expression) (s : Symbol) (v : Expression) : Expression :=
  ofTerms (substituteTerms s v (.start one v) e.terms)

/-- Whatever powers the table holds, each term is multiplied out as it would be alone. -/
theorem substituteTerms_eq (s : Symbol) (v : Expression) (powers : PowerTable one v)
    (ts : List Term) : substituteTerms s v powers ts = ts.flatMap (substituteTerm s v) := by
  induction ts generalizing powers with
  | nil => rfl
  | cons t ts ih =>
    rw [substituteTerms, List.flatMap_cons, substituteTerm]
    split
    · rw [ih, List.singleton_append]
    · simp only [ih, PowerTable.find_fst]

theorem substitute_eq (e : Expression) (s : Symbol) (v : Expression) :
    e.substitute s v = ofTerms (e.terms.flatMap (substituteTerm s v)) :=
  congrArg ofTerms (substituteTerms_eq s v _ e.terms)

end Expression

end PivotCoefficients
