import Mathlib.Tactic.Linarith
import PivotCoefficients.Proofs.Scenario.Equation
import PivotCoefficients.Run

/-!
# Leading coefficients of the scenarios

Every scenario is cubic in its pivot, and not of a lower degree: there are values
of its symbols for which the left side has a third power of the pivot. So a run
succeeds, and strictness forbids none of its tables.
-/
namespace PivotCoefficients

open MvPolynomial

namespace Expression

variable {e : Expression} {p : Symbol}

theorem IsCanonical.eval_coefficientOfPower_congr (he : e.IsCanonical) (d : ℕ)
    {v w : Symbol → ℚ} (h : ∀ s, s ≠ p → v s = w s) :
    eval v (e.coefficientOfPower p d).polynomial =
      eval w (e.coefficientOfPower p d).polynomial := by
  refine hom_congr_vars ?_ ?_ rfl
  · ext
    simp
  · intro s hs _
    rw [← (he.coefficientOfPower p d).mem_symbols_iff_mem_vars] at hs
    rw [eval_X, eval_X, h s (mem_symbols_of_mem_coefficientOfPower hs).2]

end Expression

namespace Scenario

/-- Values of the declared names for which the left side has a third power of the
pivot: `F1 = 0` and `F2 = 1`, or the other way round, or only `a12 = 1`. -/
def sampleValues (t : ℚ) : Scenario → String → ℚ
  | .fundamental => fun name => if name = "z" then t else if name ∈ ["j", "n", "r"] then 1 else 0
  | .fundamentalConvex =>
    fun name => if name = "alpha" then t else if name ∈ ["a", "e", "i"] then 1 else 0
  | .panography => fun name => if name = "f2" then t else if name = "a12" then 1 else 0

theorem sampleValues_pivot (s : Scenario) (t : ℚ) : s.sampleValues t s.pivot.name = t := by
  cases s <;> simp [sampleValues, pivot]

theorem sampleValues_congr (s : Scenario) (t u : ℚ) {name : String} (h : name ≠ s.pivot.name) :
    s.sampleValues t name = s.sampleValues u name := by
  cases s <;> simp_all [sampleValues, pivot]

theorem leftSide_sampleValues (s : Scenario) :
    ∃ a b : ℚ, a ≠ 0 ∧ ∀ t, s.leftSide (s.sampleValues t) t = a * t ^ 3 + b * t ^ 2 := by
  cases s with
  | fundamental =>
    refine ⟨1, 0, by decide, fun t => ?_⟩
    simp [leftSide, sampleValues, firstValues, secondValues, Matrix.det_fin_three]
    ring
  | fundamentalConvex =>
    refine ⟨1, 0, by decide, fun t => ?_⟩
    simp [leftSide, sampleValues, firstValues, secondValues, Matrix.det_fin_three]
    ring
  | panography =>
    refine ⟨2, 1, by decide, fun t => ?_⟩
    simp [leftSide, sampleValues]
    ring

theorem coefficientOfPower_three_ne_zero (s : Scenario) :
    s.equation.coefficientOfPower s.pivot 3 ≠ .zero := by
  intro hzero
  obtain ⟨a, b, ha, hside⟩ := s.leftSide_sampleValues
  have hcanonical := s.isCanonical_equation
  -- the values of the coefficients are the same for all values of the pivot
  let c : ℕ → ℚ := fun d => eval (fun x : Symbol => s.sampleValues 0 x.name)
    (s.equation.coefficientOfPower s.pivot d).polynomial
  have hsum : ∀ t : ℚ, ∑ d ∈ Finset.range 4, c d * t ^ d = a * t ^ 3 + b * t ^ 2 := by
    intro t
    have hvalue := hcanonical.sum_eval_coefficientOfPower s.degreeIn_equation_le
      (fun x : Symbol => s.sampleValues t x.name)
    rw [eval_equation, s.sampleValues_pivot, hside] at hvalue
    rw [← hvalue]
    refine Finset.sum_congr rfl fun d _ => ?_
    congr 1
    refine hcanonical.eval_coefficientOfPower_congr d fun x hx => ?_
    exact s.sampleValues_congr 0 t fun hname => hx (congrArg Symbol.mk hname)
  have hthree : c 3 = 0 := by
    change eval _ (s.equation.coefficientOfPower s.pivot 3).polynomial = 0
    rw [hzero, Expression.polynomial_zero, map_zero]
  -- without a third power the third difference vanishes
  have h0 := hsum 0
  have h1 := hsum 1
  have h2 := hsum 2
  have h3 := hsum 3
  simp only [Finset.sum_range_succ, Finset.sum_range_zero, hthree] at h0 h1 h2 h3
  refine ha ?_
  linarith

/-- A scenario's table may be released even under strictness. -/
theorem exists_run (s : Scenario) (style : ArrayStyle) :
    ∃ o, s.run style = .ok o ∧ o.table.isDegenerate = false := by
  obtain ⟨t, ht⟩ := s.exists_coefficients
  refine ⟨⟨t, t.emit style⟩, ?_, ?_⟩
  · rw [run, derivation_eq]
    change (Derivation.coefficients _ >>= _) = _
    rw [ht]
    rfl
  · rw [Bool.eq_false_iff, ne_eq, Derivation.isDegenerate_iff_of_coefficients ht]
    exact s.coefficientOfPower_three_ne_zero

end Scenario

end PivotCoefficients
