import PivotCoefficients.Formula.Basic
import PivotCoefficients.Proofs.Expression.Evaluation

/-!
# Polynomials of formulas

A formula is a polynomial as well as an expression is. Working the formula out
with expressions keeps the polynomial, and so does computing its value.
-/
namespace PivotCoefficients.Formula

open MvPolynomial

/-- The symbols that a formula names, from left to right. -/
def names : Formula → List Symbol
  | .number _ => []
  | .name s => [s]
  | .neg f => f.names
  | .add f g => f.names ++ g.names
  | .sub f g => f.names ++ g.names
  | .mul f g => f.names ++ g.names

noncomputable def polynomial : Formula → MvPolynomial Symbol ℚ
  | .number q => C q
  | .name s => X s
  | .neg f => -f.polynomial
  | .add f g => f.polynomial + g.polynomial
  | .sub f g => f.polynomial - g.polynomial
  | .mul f g => f.polynomial * g.polynomial

theorem polynomial_toExpression (f : Formula) : f.toExpression.polynomial = f.polynomial := by
  induction f with
  | number q => exact Expression.polynomial_constant q
  | name s => exact Expression.polynomial_ofSymbol s
  | neg f ih => rw [toExpression, Expression.polynomial_neg, ih, polynomial]
  | add f g ihf ihg => rw [toExpression, Expression.polynomial_add, ihf, ihg, polynomial]
  | sub f g ihf ihg => rw [toExpression, Expression.polynomial_sub, ihf, ihg, polynomial]
  | mul f g ihf ihg => rw [toExpression, Expression.polynomial_mul, ihf, ihg, polynomial]

theorem isCanonical_toExpression (f : Formula) : f.toExpression.IsCanonical := by
  induction f with
  | number q => exact Expression.isCanonical_constant q
  | name s => exact Expression.isCanonical_ofSymbol s
  | neg f ih => exact ih.neg
  | add f g ihf ihg => exact ihf.add ihg
  | sub f g ihf ihg => exact ihf.sub ihg
  | mul f g ihf ihg => exact ihf.mul ihg

theorem evaluate_eq {ρ : Binding} {v : Symbol → ℚ} {f : Formula}
    (h : ∀ s ∈ f.names, ρ s = some (v s)) : f.evaluate ρ = .ok (eval v f.polynomial) := by
  induction f with
  | number q => simp [evaluate, polynomial]
  | name s =>
    rw [evaluate, Binding.get_of_eq_some (h s (by simp [names])), polynomial, eval_X]
  | neg f ih =>
    rw [evaluate, ih h, polynomial, map_neg]
    rfl
  | add f g ihf ihg =>
    obtain ⟨hf, hg⟩ := List.forall_mem_append.mp h
    rw [evaluate, ihf hf, ihg hg, polynomial, map_add]
    rfl
  | sub f g ihf ihg =>
    obtain ⟨hf, hg⟩ := List.forall_mem_append.mp h
    rw [evaluate, ihf hf, ihg hg, polynomial, map_sub]
    rfl
  | mul f g ihf ihg =>
    obtain ⟨hf, hg⟩ := List.forall_mem_append.mp h
    rw [evaluate, ihf hf, ihg hg, polynomial, map_mul]
    rfl

end PivotCoefficients.Formula
