import Mathlib.Algebra.MvPolynomial.Eval
import PivotCoefficients.Proofs.Expression.Support

/-!
# Evaluation is evaluation of the polynomial

Where all symbols of an expression have values, evaluation succeeds with the
value of the polynomial, whatever form the expression has.
-/
namespace PivotCoefficients

open FormalSum MvPolynomial

namespace Binding

/-- The values of the symbols, zero for those without one. -/
def values (ρ : Binding) (s : Symbol) : ℚ := (ρ s).getD 0

theorem eq_some_values {ρ : Binding} {s : Symbol} (h : (ρ s).isSome) :
    ρ s = some (ρ.values s) := by
  obtain ⟨x, hx⟩ := Option.isSome_iff_exists.mp h
  simp [values, hx]

end Binding

namespace Monomial

variable {ρ : Binding} {v : Symbol → ℚ}

theorem evaluateFactors_eq {fs : List (Symbol × ℕ)} (h : ∀ f ∈ fs, ρ f.1 = some (v f.1)) (c : ℚ) :
    evaluateFactors ρ c fs = .ok (c * (fs.map (fun f => v f.1 ^ f.2)).prod) := by
  induction fs generalizing c with
  | nil => simp [evaluateFactors]
  | cons f fs ih =>
    obtain ⟨s, n⟩ := f
    have h' := List.forall_mem_cons.mp h
    simp only [evaluateFactors, Binding.get_of_eq_some h'.1, ih h'.2, Rational.pow_eq]
    simp [mul_assoc]

theorem prod_amounts (v : Symbol → ℚ) (fs : List (Symbol × ℕ)) :
    (amounts fs).prod (fun s n => v s ^ n) = (fs.map (fun f => v f.1 ^ f.2)).prod := by
  induction fs with
  | nil => simp [amounts]
  | cons f fs ih =>
    obtain ⟨s, n⟩ := f
    rw [amounts] at ih ⊢
    rw [total_cons, Finsupp.prod_add_index' (by simp) (by simp [pow_add]), ih]
    simp

theorem eval_weight (v : Symbol → ℚ) (m : Monomial) (c : ℚ) :
    eval v (m.weight c) = c * (m.factors.map (fun f => v f.1 ^ f.2)).prod := by
  rw [weight_apply, eval_monomial, exponents, prod_amounts]

end Monomial

namespace Expression

variable {ρ : Binding} {v : Symbol → ℚ}

theorem evaluateTerms_eq {ts : List Term} (h : ∀ t ∈ ts, ∀ f ∈ t.1.factors, ρ f.1 = some (v f.1))
    (x : ℚ) : evaluateTerms ρ x ts = .ok (x + eval v (total Monomial.weight ts)) := by
  induction ts generalizing x with
  | nil => simp [evaluateTerms]
  | cons t ts ih =>
    obtain ⟨m, c⟩ := t
    have h' := List.forall_mem_cons.mp h
    simp only [evaluateTerms, Monomial.evaluateFactors_eq h'.1, ih h'.2, total_cons, map_add,
      Monomial.eval_weight, add_assoc]

/-- An expression whose symbols have values has the value of its polynomial. -/
theorem evaluate_eq {e : Expression} (h : ∀ s ∈ e.symbols, ρ s = some (v s)) :
    e.evaluate ρ = .ok (eval v e.polynomial) := by
  rw [evaluate, evaluateTerms_eq, Rat.zero_add, polynomial]
  intro t ht f hf
  exact h f.1 (mem_symbols_iff.mpr ⟨t, ht, List.mem_map_of_mem hf⟩)

theorem evaluate_eq_values {e : Expression} (h : ∀ s ∈ e.symbols, (ρ s).isSome) :
    e.evaluate ρ = .ok (eval ρ.values e.polynomial) :=
  evaluate_eq (fun s hs => Binding.eq_some_values (h s hs))

end Expression

end PivotCoefficients
