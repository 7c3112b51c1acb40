import PivotCoefficients.Derivation
import PivotCoefficients.Proofs.CoefficientTable.Collection
import PivotCoefficients.Proofs.Except
import PivotCoefficients.Proofs.Expression.Evaluation

/-!
# Successful derivations

A derivation has coefficients when its pivot and the symbols of its equation are
declared and the equation has no power of the pivot above the declared degree.
The coefficients are those that collection gives, so that their values, each
times the power of the pivot, add up to the value of the equation.
-/
namespace PivotCoefficients

open MvPolynomial

theorem SymbolTable.require_eq_ok_iff {t : SymbolTable} {s : Symbol} :
    t.require s = .ok () ↔ t.contains s.name := by
  unfold require
  split_ifs with h <;> simp [h]

namespace Derivation

variable {d : Derivation} {t : CoefficientTable} {ρ : Binding}

theorem coefficients_eq_ok_iff :
    d.coefficients = .ok t ↔
      d.symbols.contains d.pivot.name ∧
        (∀ s ∈ d.equation.symbols, d.symbols.contains s.name) ∧
        d.equation.collect d.pivot d.maxDegree = .ok t := by
  unfold coefficients
  rw [bind_eq_ok_iff]
  simp only [bind_eq_ok_iff, ← SymbolTable.require_eq_ok_iff]
  constructor
  · rintro ⟨⟨⟩, hpivot, ⟨⟩, hsymbols, hcollect⟩
    exact ⟨hpivot, list_forM_eq_ok_iff.mp hsymbols, hcollect⟩
  · rintro ⟨hpivot, hsymbols, hcollect⟩
    exact ⟨(), hpivot, (), list_forM_eq_ok_iff.mpr hsymbols, hcollect⟩

theorem maxDegree_of_coefficients (h : d.coefficients = .ok t) : t.maxDegree = d.maxDegree :=
  Expression.maxDegree_of_collect (coefficients_eq_ok_iff.mp h).2.2

theorem pivot_of_coefficients (h : d.coefficients = .ok t) : t.pivot = d.pivot :=
  (Expression.collect_eq_ok (coefficients_eq_ok_iff.mp h).2.2).2.1

theorem list_of_coefficients (h : d.coefficients = .ok t) :
    t.coefficients =
      (List.range (t.maxDegree + 1)).map (d.equation.coefficientOfPower d.pivot) := by
  rw [maxDegree_of_coefficients h]
  exact (Expression.collect_eq_ok (coefficients_eq_ok_iff.mp h).2.2).2.2

theorem get?_of_coefficients (h : d.coefficients = .ok t) {i : ℕ} (hi : i ≤ t.maxDegree) :
    t.get? i = some (d.equation.coefficientOfPower d.pivot i) := by
  rw [maxDegree_of_coefficients h] at hi
  exact (Expression.get?_collect_eq_some_iff (coefficients_eq_ok_iff.mp h).2.2).mpr ⟨hi, rfl⟩

theorem isDegenerate_iff_of_coefficients (h : d.coefficients = .ok t) :
    t.isDegenerate ↔ d.equation.coefficientOfPower d.pivot d.maxDegree = .zero :=
  Expression.isDegenerate_iff_of_collect (coefficients_eq_ok_iff.mp h).2.2

theorem contains_of_mem_coefficientOfPower (h : d.coefficients = .ok t) {i : ℕ} {s : Symbol}
    (hs : s ∈ (d.equation.coefficientOfPower d.pivot i).symbols) :
    d.symbols.contains s.name :=
  (coefficients_eq_ok_iff.mp h).2.1 s (Expression.mem_symbols_of_mem_coefficientOfPower hs).1

/-- Where the declared symbols have values, the values of the coefficients times
the powers of the pivot add up to the value of the equation. -/
theorem exists_values (hd : d.equation.IsCanonical) (h : d.coefficients = .ok t) {x : ℚ}
    (hρ : ∀ s : Symbol, d.symbols.contains s.name → (ρ s).isSome) (hx : ρ d.pivot = some x) :
    ∃ values : ℕ → ℚ,
      (∀ i, (d.equation.coefficientOfPower d.pivot i).evaluate ρ = .ok (values i)) ∧
        d.equation.evaluate ρ =
          .ok (∑ i ∈ Finset.range (t.maxDegree + 1), values i * x ^ i) := by
  obtain ⟨-, hsymbols, hcollect⟩ := coefficients_eq_ok_iff.mp h
  have hdegree : d.equation.degreeIn d.pivot ≤ t.maxDegree := by
    rw [maxDegree_of_coefficients h]
    exact (Expression.collect_eq_ok hcollect).1
  have hpivot : ρ.values d.pivot = x := by simp [Binding.values, hx]
  refine ⟨fun i => eval ρ.values (d.equation.coefficientOfPower d.pivot i).polynomial, ?_, ?_⟩
  · intro i
    exact Expression.evaluate_eq_values fun s hs => hρ s (contains_of_mem_coefficientOfPower h hs)
  · rw [Expression.evaluate_eq_values fun s hs => hρ s (hsymbols s hs),
      ← hd.sum_eval_coefficientOfPower hdegree ρ.values, hpivot]

end Derivation

end PivotCoefficients
