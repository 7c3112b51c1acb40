import Mathlib.Algebra.MvPolynomial.CommRing
import Mathlib.Algebra.MvPolynomial.Supported
import PivotCoefficients.Proofs.Expression.Support

/-!
# Bounds on symbols and degrees

Sums and products have no other symbols than their parts, and no higher degrees
than the degrees of the parts allow. For canonical expressions these bounds on
the polynomial are bounds on the symbols and degrees that are read off the terms.
-/
namespace PivotCoefficients.Expression

open MvPolynomial

variable {a b e : Expression}

section Symbols

variable {S : Subalgebra ℚ (MvPolynomial Symbol ℚ)}

theorem polynomial_add_mem (ha : a.polynomial ∈ S) (hb : b.polynomial ∈ S) :
    (a + b).polynomial ∈ S := by
  rw [polynomial_add]
  exact S.add_mem ha hb

theorem polynomial_sub_mem (ha : a.polynomial ∈ S) (hb : b.polynomial ∈ S) :
    (a - b).polynomial ∈ S := by
  rw [polynomial_sub]
  exact S.sub_mem ha hb

theorem polynomial_neg_mem (ha : a.polynomial ∈ S) : (-a).polynomial ∈ S := by
  rw [polynomial_neg]
  exact S.neg_mem ha

theorem polynomial_mul_mem (ha : a.polynomial ∈ S) (hb : b.polynomial ∈ S) :
    (a * b).polynomial ∈ S := by
  rw [polynomial_mul]
  exact S.mul_mem ha hb

theorem polynomial_pow_mem (ha : a.polynomial ∈ S) (n : ℕ) : (a.pow n).polynomial ∈ S := by
  rw [polynomial_pow]
  exact S.pow_mem ha n

theorem polynomial_scale_mem (ha : a.polynomial ∈ S) (k : ℚ) : (a.scale k).polynomial ∈ S := by
  rw [polynomial_scale]
  exact S.mul_mem ha (S.algebraMap_mem k)

theorem polynomial_constant_mem (c : ℚ) : (constant c).polynomial ∈ S := by
  rw [polynomial_constant]
  exact S.algebraMap_mem c

theorem IsCanonical.polynomial_mem_supported (he : e.IsCanonical) {T : Set Symbol}
    (h : ∀ s ∈ e.symbols, s ∈ T) : e.polynomial ∈ supported ℚ T :=
  mem_supported.mpr fun s hs => h s (he.mem_symbols_iff_mem_vars.mpr hs)

theorem IsCanonical.polynomial_mem_supported_of_notMem (he : e.IsCanonical) {s : Symbol}
    (hs : s ∉ e.symbols) : e.polynomial ∈ supported ℚ {t : Symbol | t ≠ s} := by
  apply he.polynomial_mem_supported
  rintro t ht rfl
  exact hs ht

theorem IsCanonical.mem_of_mem_symbols (he : e.IsCanonical) {T : Set Symbol}
    (h : e.polynomial ∈ supported ℚ T) {s : Symbol} (hs : s ∈ e.symbols) : s ∈ T :=
  mem_supported.mp h (he.mem_symbols_iff_mem_vars.mp hs)

end Symbols

section Degrees

variable {s : Symbol} {m n : ℕ}

theorem degreeOf_add_le_of_le (ha : degreeOf s a.polynomial ≤ n)
    (hb : degreeOf s b.polynomial ≤ n) : degreeOf s (a + b).polynomial ≤ n := by
  rw [polynomial_add]
  exact (degreeOf_add_le s _ _).trans (max_le ha hb)

theorem degreeOf_sub_le_of_le (ha : degreeOf s a.polynomial ≤ n)
    (hb : degreeOf s b.polynomial ≤ n) : degreeOf s (a - b).polynomial ≤ n := by
  rw [polynomial_sub]
  exact (degreeOf_sub_le s _ _).trans (max_le ha hb)

theorem degreeOf_mul_le_of_le (ha : degreeOf s a.polynomial ≤ m)
    (hb : degreeOf s b.polynomial ≤ n) : degreeOf s (a * b).polynomial ≤ m + n := by
  rw [polynomial_mul]
  exact (degreeOf_mul_le s _ _).trans (Nat.add_le_add ha hb)

namespace IsCanonical

theorem degreeIn_add_le (ha : a.IsCanonical) (hb : b.IsCanonical) (ha' : a.degreeIn s ≤ n)
    (hb' : b.degreeIn s ≤ n) : (a + b).degreeIn s ≤ n := by
  rw [ha.degreeIn_eq_degreeOf] at ha'
  rw [hb.degreeIn_eq_degreeOf] at hb'
  rw [(ha.add hb).degreeIn_eq_degreeOf]
  exact degreeOf_add_le_of_le ha' hb'

theorem degreeIn_mul_le (ha : a.IsCanonical) (hb : b.IsCanonical) (ha' : a.degreeIn s ≤ m)
    (hb' : b.degreeIn s ≤ n) : (a * b).degreeIn s ≤ m + n := by
  rw [ha.degreeIn_eq_degreeOf] at ha'
  rw [hb.degreeIn_eq_degreeOf] at hb'
  rw [(ha.mul hb).degreeIn_eq_degreeOf]
  exact degreeOf_mul_le_of_le ha' hb'

theorem degreeIn_scale_le (ha : a.IsCanonical) (k : ℚ) (ha' : a.degreeIn s ≤ n) :
    (a.scale k).degreeIn s ≤ n := by
  rw [ha.degreeIn_eq_degreeOf] at ha'
  rw [(ha.scale k).degreeIn_eq_degreeOf, polynomial_scale]
  have hmul := degreeOf_mul_le s a.polynomial (C k)
  rw [degreeOf_C] at hmul
  omega

end IsCanonical

theorem degreeOf_eq_zero_of_mem_supported {p : MvPolynomial Symbol ℚ}
    (h : p ∈ supported ℚ {t : Symbol | t ≠ s}) : degreeOf s p = 0 := by
  by_contra hne
  have hs : s ∈ p.vars := mem_vars_iff_degreeOf_ne_zero.mpr hne
  exact mem_supported.mp h hs rfl

theorem coeff_eq_zero_of_mem_supported {p : MvPolynomial Symbol ℚ}
    (h : p ∈ supported ℚ {t : Symbol | t ≠ s}) {d : Symbol →₀ ℕ} (hd : d s ≠ 0) :
    coeff d p = 0 := by
  by_contra hne
  have hle := monomial_le_degreeOf s (MvPolynomial.mem_support_iff.mpr hne)
  rw [degreeOf_eq_zero_of_mem_supported h] at hle
  exact hd (Nat.le_zero.mp hle)

theorem degreeOf_mul_X_pow_le {p : MvPolynomial Symbol ℚ}
    (h : p ∈ supported ℚ {t : Symbol | t ≠ s}) (n : ℕ) : degreeOf s (p * X s ^ n) ≤ n := by
  have hmul := degreeOf_mul_le s p (X s ^ n)
  rw [degreeOf_eq_zero_of_mem_supported h, degreeOf_X_self_pow] at hmul
  omega

end Degrees

end PivotCoefficients.Expression
