import PivotCoefficients.Proofs.CoefficientTable.Terms
import PivotCoefficients.Proofs.Derivation.Errors
import PivotCoefficients.Run

/-!
# Overstated degrees

The coefficient of the highest power that occurs is never zero: its terms are terms of
the equation, and no two of them cancel. So the last entry of a table vanishes exactly
when the declared degree is above the degree of the equation, or when the equation has
no terms at all. These are the tables that strictness forbids.
-/
namespace PivotCoefficients

namespace Expression

variable {e : Expression} {p : Symbol}

theorem coefficientOfPower_zero (p : Symbol) (d : ℕ) : zero.coefficientOfPower p d = zero := by
  simp [coefficientOfPower, ofTerms, zero]

theorem exists_exponent_eq_degreeIn (h : e ≠ zero) (p : Symbol) :
    ∃ t ∈ e.terms, t.1.exponent p = e.degreeIn p := by
  rcases Nat.eq_zero_or_pos (e.degreeIn p) with hdegree | hdegree
  · have hterms : e.terms ≠ [] := fun hnil => h (congrArg Expression.mk hnil)
    obtain ⟨t, ht⟩ := List.exists_mem_of_ne_nil _ hterms
    have hle := degreeIn_le_iff.mp hdegree.le t ht
    exact ⟨t, ht, hdegree ▸ Nat.le_zero.mp hle⟩
  · exact (isGreatest_degreeIn hdegree).1

theorem IsCanonical.coefficientOfPower_ne_zero (he : e.IsCanonical) {t : Term}
    (ht : t ∈ e.terms) : e.coefficientOfPower p (t.1.exponent p) ≠ zero := by
  intro hzero
  have hmem : (t.1.without p, t.2) ∈ (e.coefficientOfPower p (t.1.exponent p)).terms := by
    rw [he.terms_coefficientOfPower]
    exact List.mem_map_of_mem (List.mem_filter.mpr ⟨ht, decide_eq_true rfl⟩)
  rw [hzero] at hmem
  cases hmem

end Expression

namespace Derivation

variable {d : Derivation} {t : CoefficientTable}

/-- The declared degree is above that of the equation, or the equation is zero. -/
def OverstatesDegree (d : Derivation) : Prop :=
  d.equation = .zero ∨ d.equation.degreeIn d.pivot < d.maxDegree

theorem isDegenerate_iff_overstatesDegree (hequation : d.equation.IsCanonical)
    (h : d.coefficients = .ok t) : t.isDegenerate ↔ d.OverstatesDegree := by
  rw [isDegenerate_iff_of_coefficients h]
  constructor
  · intro hzero
    by_contra hnot
    obtain ⟨hne, hdegree⟩ := not_or.mp hnot
    obtain ⟨u, hu, hexponent⟩ := Expression.exists_exponent_eq_degreeIn hne d.pivot
    have hle := (Expression.collect_eq_ok (coefficients_eq_ok_iff.mp h).2.2).1
    have hmax : u.1.exponent d.pivot = d.maxDegree := by omega
    exact hequation.coefficientOfPower_ne_zero hu (hmax ▸ hzero)
  · rintro (hzero | hdegree)
    · rw [hzero, Expression.coefficientOfPower_zero]
    · exact Expression.coefficientOfPower_of_degreeIn_lt hdegree

/-- Strictness forbids exactly the tables of overstated degrees, with a message that
names the pivot and the declared degree. All else is released as it is. -/
theorem release_outcome (hequation : d.equation.IsConstructible) (h : d.coefficients = .ok t)
    (scenario : Scenario) (text : String) :
    (t.isDegenerate ↔ d.OverstatesDegree) ∧
    (d.OverstatesDegree → ∃ failure,
      Output.release ⟨t, text⟩ scenario true = .error failure ∧
        failure.message = "scenario `" ++ scenario.name ++
          "`: coefficient collector: leading coefficient of `" ++ d.pivot.name ++ "^" ++
          Decimal.digits d.maxDegree ++ "` vanishes identically") ∧
    (¬ d.OverstatesDegree → Output.release ⟨t, text⟩ scenario true = .ok text) ∧
    Output.release ⟨t, text⟩ scenario false = .ok text := by
  have hdegenerate := isDegenerate_iff_overstatesDegree hequation.isCanonical h
  refine ⟨hdegenerate, fun hover => ?_, fun hnot => ?_, rfl⟩
  · refine ⟨.degenerate scenario d.pivot d.maxDegree, ?_, rfl⟩
    simp [Output.release, hdegenerate.mpr hover, pivot_of_coefficients h,
      maxDegree_of_coefficients h]
  · have hfalse : t.isDegenerate = false := Bool.eq_false_iff.mpr (hdegenerate.not.mpr hnot)
    simp [Output.release, hfalse]

/-- An equation of degree one, of which degree two is declared. -/
theorem release_outcome_linear :
    let a : Symbol := ⟨"a"⟩
    let z : Symbol := ⟨"z"⟩
    let d : Derivation :=
      ⟨.ofHistory ["z", "a"], ⟨[(⟨[(a, 1), (z, 1)]⟩, 1), (.one, -2)]⟩, z, 2⟩
    d.equation.IsConstructible ∧ d.OverstatesDegree ∧ ∃ t, d.coefficients = .ok t ∧
      t.isDegenerate ∧ Output.release ⟨t, "text"⟩ .panography false = .ok "text" ∧
      ∃ failure, Output.release ⟨t, "text"⟩ .panography true = .error failure ∧
        failure.message = "scenario `panography`: coefficient collector: " ++
          "leading coefficient of `z^2` vanishes identically" := by
  intro a z d
  have hequation : d.equation.IsConstructible :=
    Expression.isConstructible_iff.mpr (by decide +kernel)
  have hover : d.OverstatesDegree := Or.inr (by decide)
  have hdeclared : ∀ t ∈ d.equation.terms, ∀ s ∈ t.1.symbols, s.name ∈ ["z", "a"] := by decide
  obtain ⟨t, ht, -⟩ := exists_coefficients_of_exponent_le (d := d)
    (SymbolTable.contains_ofHistory_iff.mpr (by decide))
    (fun s hs => SymbolTable.contains_ofHistory_iff.mpr
      (Expression.forall_mem_symbols_iff.mpr hdeclared s hs)) (by decide)
  obtain ⟨hdegenerate, herror, -, hlenient⟩ := release_outcome hequation ht .panography "text"
  obtain ⟨failure, hfailure, hmessage⟩ := herror hover
  refine ⟨hequation, hover, t, ht, hdegenerate.mpr hover, hlenient, failure, hfailure, ?_⟩
  rw [hmessage]
  decide

end Derivation

end PivotCoefficients
