import PivotCoefficients.Proofs.CoefficientTable.Uniqueness
import PivotCoefficients.Proofs.Expression.Substitution

/-!
# Substitution by coefficients

An expression is put in the place of a symbol in two ways: term by term, with a table
of powers that grows by one factor at a time, or by collecting the coefficients of the
symbol and multiplying each by its power, which comes of repeated squaring. Both give
the same terms.
-/
namespace PivotCoefficients.Expression

open MvPolynomial

variable {e v : Expression} {s : Symbol} {n : ℕ}

namespace IsCanonical

theorem sum_polynomial_substitute (he : e.IsCanonical) (h : e.degreeIn s ≤ n) (v : Expression) :
    ∑ d ∈ Finset.range (n + 1), (e.coefficientOfPower s d).polynomial * v.polynomial ^ d =
      (e.substitute s v).polynomial := by
  have hpower : ∀ d, bind₁ (substituted s v) ((e.coefficientOfPower s d).polynomial * X s ^ d) =
      (e.coefficientOfPower s d).polynomial * v.polynomial ^ d := by
    intro d
    rw [map_mul, bind₁_of_mem_supported (he.polynomial_coefficientOfPower_mem d), map_pow,
      bind₁_X_right, substituted_self]
  rw [he.polynomial_substitute, ← he.sum_coefficientOfPower h, map_sum]
  exact (Finset.sum_congr rfl fun d _ => hpower d).symm

theorem substitute_zero (he : e.IsCanonical) (s : Symbol) :
    e.substitute s zero = e.coefficientOfPower s 0 := by
  apply (he.substitute isCanonical_zero s).eq_of_polynomial_eq (he.coefficientOfPower s 0)
  rw [← he.sum_polynomial_substitute (le_refl (e.degreeIn s)), Finset.sum_range_succ']
  simp

theorem substitute_ofSymbol_self (he : e.IsCanonical) (s : Symbol) :
    e.substitute s (ofSymbol s) = e := by
  apply (he.substitute (isCanonical_ofSymbol s) s).eq_of_polynomial_eq he
  rw [← he.sum_polynomial_substitute (le_refl (e.degreeIn s)), polynomial_ofSymbol,
    he.sum_coefficientOfPower (le_refl (e.degreeIn s))]

theorem sum_polynomial_timesPowersOf_collect {t : CoefficientTable} (he : e.IsCanonical)
    (h : e.collect s n = .ok t) (v : Expression) :
    ((timesPowersOf v t.coefficients).map polynomial).sum = (e.substitute s v).polynomial := by
  obtain ⟨hdegree, -, hlist⟩ := collect_eq_ok h
  rw [sum_polynomial_timesPowersOf, ← he.sum_polynomial_substitute hdegree, hlist,
    List.length_map, List.length_range]
  apply Finset.sum_congr rfl
  intro d hd
  have hlt : d < n + 1 := Finset.mem_range.mp hd
  simp [hlt]

end IsCanonical

/-- An expression with `v` in the place of a symbol is the sum of its coefficients of that
symbol times their powers of `v`, in whatever order they are added up. With zero in this
place it is the first coefficient, and with the symbol itself it is the expression. -/
theorem substitute_eq_sum_of_collect (he : e.IsConstructible) (hv : v.IsConstructible)
    (h : e.degreeIn s ≤ n) :
    ∃ t, e.collect s n = .ok t ∧ t.size = n + 1 ∧
      (∀ r, IsSumOf (timesPowersOf v t.coefficients) r ↔ r = e.substitute s v) ∧
      t.get? 0 = some (e.substitute s zero) ∧ e.substitute s (ofSymbol s) = e := by
  have he := he.isCanonical
  have hv := hv.isCanonical
  obtain ⟨t, ht⟩ := collect_of_degreeIn_le h
  refine ⟨t, ht, size_of_collect ht, ?_, ?_, he.substitute_ofSymbol_self s⟩
  · have hparts := isCanonical_of_mem_timesPowersOf hv (he.of_mem_collect ht)
    have hsum := he.sum_polynomial_timesPowersOf_collect ht v
    exact IsSumOf.iff_eq hparts (he.substitute hv s) hsum.symm
  · rw [he.substitute_zero]
    exact (get?_collect_eq_some_iff ht).mpr ⟨Nat.zero_le n, rfl⟩

/-- The value contains the symbol and makes the squares of the other one cancel, and the
degree is declared too high. -/
theorem substitute_eq_sum_of_collect_cancelling :
    let x : Symbol := ⟨"x"⟩
    let y : Symbol := ⟨"y"⟩
    let e : Expression :=
      ⟨[(⟨[(x, 3), (y, 1)]⟩, 1 / 3), (⟨[(x, 2)]⟩, 1), (⟨[(x, 1), (y, 1)]⟩, -1), (.one, 5)]⟩
    let v : Expression := ⟨[(.var x, -1), (.var y, 1)]⟩
    e.IsConstructible ∧ v.IsConstructible ∧ e.degreeIn x ≤ 4 ∧
      ∃ t, e.collect x 4 = .ok t ∧ t.size = 4 + 1 ∧
        (∀ r, IsSumOf (timesPowersOf v t.coefficients) r ↔ r = e.substitute x v) ∧
        t.get? 0 = some (e.substitute x zero) ∧ e.substitute x (ofSymbol x) = e := by
  intro x y e v
  have he : e.IsConstructible := isConstructible_iff.mpr (by decide +kernel)
  have hv : v.IsConstructible := isConstructible_iff.mpr (by decide +kernel)
  have hdegree : e.degreeIn x ≤ 4 := by decide
  exact ⟨he, hv, hdegree, substitute_eq_sum_of_collect he hv hdegree⟩

end PivotCoefficients.Expression
