import Mathlib.Algebra.MvPolynomial.NoZeroDivisors
import PivotCoefficients.Proofs.Construction.Canonical
import PivotCoefficients.Proofs.Expression.Symbols
import PivotCoefficients.Proofs.Monomial.Lexicographic

/-!
# What products keep

Terms of a product may cancel, but not the outermost ones. The product of the two
greatest monomials is greater than every other product of two monomials, so nothing
can meet it, and likewise for the two least. Degrees add up for every symbol, whether
or not it decides the order, since polynomials over the rationals have no zero divisors.
-/
namespace PivotCoefficients.Expression

open MvPolynomial

variable {a b e : Expression} {o : Ordering} {t u v : Term}

/-- The term stands outermost on one side: all other monomials compare to its own as `o`. -/
structure IsExtreme (o : Ordering) (e : Expression) (t : Term) : Prop where
  mem : t ∈ e.terms
  compare_eq : ∀ u ∈ e.terms, u.1 ≠ t.1 → compare u.1 t.1 = o

section Extremes

theorem IsExtreme.unique (he : e.IsCanonical) (ho : o ≠ .eq) (ht : e.IsExtreme o t)
    (hu : e.IsExtreme o u) : t = u := by
  have hkey : t.1 = u.1 := by
    by_contra hne
    have htu : compare t.1 u.1 = o := hu.compare_eq t ht.mem hne
    have hut : compare u.1 t.1 = o := ht.compare_eq u hu.mem (Ne.symm hne)
    have hswap : compare t.1 u.1 = (compare u.1 t.1).swap := Std.OrientedCmp.eq_swap
    rw [htu, hut] at hswap
    cases o with
    | lt => cases hswap
    | eq => exact ho rfl
    | gt => cases hswap
  have hcoefficient : t.2 = u.2 := by
    rw [← he.coefficient_of_mem ht.mem, hkey, he.coefficient_of_mem hu.mem]
  exact Prod.ext hkey hcoefficient

theorem IsCanonical.isExtreme_of_head? (he : e.IsCanonical) (h : e.terms.head? = some t) :
    e.IsExtreme .lt t := by
  obtain ⟨rest, hterms⟩ := List.head?_eq_some_iff.mp h
  have hpairwise := he.1
  rw [hterms, List.pairwise_cons] at hpairwise
  refine ⟨List.mem_of_head? h, fun u hu hne => ?_⟩
  rw [hterms] at hu
  rcases List.mem_cons.mp hu with rfl | hu
  · exact absurd rfl hne
  · exact Std.OrientedCmp.gt_iff_lt.mp (hpairwise.1 u hu)

theorem IsCanonical.isExtreme_of_getLast? (he : e.IsCanonical)
    (h : e.terms.getLast? = some t) : e.IsExtreme .gt t := by
  obtain ⟨front, hterms⟩ := List.getLast?_eq_some_iff.mp h
  have hpairwise := he.1
  rw [hterms, List.pairwise_append] at hpairwise
  refine ⟨List.mem_of_getLast? h, fun u hu hne => ?_⟩
  rw [hterms] at hu
  rcases List.mem_append.mp hu with hu | hu
  · exact hpairwise.2.2 u hu t List.mem_cons_self
  · obtain rfl := List.mem_singleton.mp hu
    exact absurd rfl hne

theorem IsCanonical.head?_eq_some_iff (he : e.IsCanonical) :
    e.terms.head? = some t ↔ e.IsExtreme .lt t := by
  refine ⟨he.isExtreme_of_head?, fun ht => ?_⟩
  have hne : e.terms ≠ [] := List.ne_nil_of_mem ht.mem
  have hhead := List.head?_eq_some_head hne
  exact hhead.trans (congrArg some ((he.isExtreme_of_head? hhead).unique he (by decide) ht))

theorem IsCanonical.getLast?_eq_some_iff (he : e.IsCanonical) :
    e.terms.getLast? = some t ↔ e.IsExtreme .gt t := by
  refine ⟨he.isExtreme_of_getLast?, fun ht => ?_⟩
  have hne : e.terms ≠ [] := List.ne_nil_of_mem ht.mem
  have hlast := List.getLast?_eq_some_getLast hne
  exact hlast.trans (congrArg some ((he.isExtreme_of_getLast? hlast).unique he (by decide) ht))

end Extremes

section Products

theorem exists_of_mem_terms_mul (h : t ∈ (a * b).terms) :
    ∃ u ∈ a.terms, ∃ v ∈ b.terms, t.1 = u.1 * v.1 := by
  rw [mul_eq] at h
  refine forall_key_ofTerms (fun m => ∃ u ∈ a.terms, ∃ v ∈ b.terms, m = u.1 * v.1) ?_ t h
  refine forall_key_accumulate (fun m => ∃ u ∈ a.terms, ∃ v ∈ b.terms, m = u.1 * v.1) ?_
  intro w hw
  obtain ⟨u, hu, hw⟩ := List.mem_flatMap.mp hw
  obtain ⟨v, hv, rfl⟩ := List.mem_map.mp hw
  exact ⟨u, hu, v, hv, rfl⟩

namespace IsExtreme

/-- Every other product of two monomials compares to that of the extremes as they do. -/
theorem compare_mul (ha : a.IsCanonical) (hb : b.IsCanonical) (hu : a.IsExtreme o u)
    (hv : b.IsExtreme o v) {r s : Term} (hr : r ∈ a.terms) (hs : s ∈ b.terms)
    (hne : ¬ (r.1 = u.1 ∧ s.1 = v.1)) : compare (r.1 * s.1) (u.1 * v.1) = o := by
  have hrm := ha.monomial_of_mem hr
  have hsm := hb.monomial_of_mem hs
  have hum := ha.monomial_of_mem hu.mem
  have hvm := hb.monomial_of_mem hv.mem
  have hfirst : r.1 ≠ u.1 → compare (r.1 * s.1) (u.1 * s.1) = o := fun hru =>
    (Monomial.compare_mul_right hrm hum hsm).trans (hu.compare_eq r hr hru)
  have hsecond : s.1 ≠ v.1 → compare (u.1 * s.1) (u.1 * v.1) = o := fun hsv =>
    (Monomial.compare_mul_left hsm hvm hum).trans (hv.compare_eq s hs hsv)
  by_cases hru : r.1 = u.1
  · rw [hru]
    exact hsecond fun hsv => hne ⟨hru, hsv⟩
  · by_cases hsv : s.1 = v.1
    · rw [← hsv]
      exact hfirst hru
    · exact Monomial.compare_trans (hfirst hru) (hsecond hsv)

/-- No other pair of terms contributes to the product of the extremes. -/
theorem coefficient_mul (ha : a.IsCanonical) (hb : b.IsCanonical) (ho : o ≠ .eq)
    (hu : a.IsExtreme o u) (hv : b.IsExtreme o v) :
    (a * b).coefficient (u.1 * v.1) = u.2 * v.2 := by
  have hum := ha.monomial_of_mem hu.mem
  have hvm := hb.monomial_of_mem hv.mem
  rw [(ha.mul hb).coefficient_eq (hum.mul hvm), polynomial_mul, Monomial.exponents_mul,
    coeff_mul, Finset.sum_eq_single (u.1.exponents, v.1.exponents)]
  · rw [← ha.coefficient_eq hum, ← hb.coefficient_eq hvm, ha.coefficient_of_mem hu.mem,
      hb.coefficient_of_mem hv.mem]
  · rintro ⟨d, f⟩ hdf hother
    -- another pair of terms with the same product would have to compare to it as `o`
    by_contra hcoeff
    obtain ⟨r, hr, rfl⟩ := (ha.mem_support_iff d).mp
      (MvPolynomial.mem_support_iff.mpr (left_ne_zero_of_mul hcoeff))
    obtain ⟨s, hs, rfl⟩ := (hb.mem_support_iff f).mp
      (MvPolynomial.mem_support_iff.mpr (right_ne_zero_of_mul hcoeff))
    have hproduct : r.1 * s.1 = u.1 * v.1 := by
      apply ((ha.monomial_of_mem hr).mul (hb.monomial_of_mem hs)).eq_of_exponents_eq (hum.mul hvm)
      rw [Monomial.exponents_mul, Monomial.exponents_mul]
      exact Finset.HasAntidiagonal.mem_antidiagonal.mp hdf
    have hcompare := hu.compare_mul ha hb hv hr hs fun hsame =>
      hother (by rw [hsame.1, hsame.2])
    have hself : compare (u.1 * v.1) (u.1 * v.1) = .eq := Std.ReflCmp.compare_self
    rw [hproduct, hself] at hcompare
    exact ho hcompare.symm
  · intro hnone
    exact (hnone (Finset.HasAntidiagonal.mem_antidiagonal.mpr rfl)).elim

theorem mul (ha : a.IsCanonical) (hb : b.IsCanonical) (ho : o ≠ .eq) (hu : a.IsExtreme o u)
    (hv : b.IsExtreme o v) : (a * b).IsExtreme o (u.1 * v.1, u.2 * v.2) where
  mem := by
    have hne : u.2 * v.2 ≠ 0 := mul_ne_zero (ha.2 u hu.mem).2 (hb.2 v hv.mem).2
    exact ((ha.mul hb).mem_terms_iff _ _).mpr ⟨hne, hu.coefficient_mul ha hb ho hv⟩
  compare_eq := by
    intro w hw hne
    obtain ⟨r, hr, s, hs, hw⟩ := exists_of_mem_terms_mul hw
    rw [hw] at hne ⊢
    exact hu.compare_mul ha hb hv hr hs fun hsame => hne (by rw [hsame.1, hsame.2])

end IsExtreme

namespace IsCanonical

theorem mul_ne_zero (ha : a.IsCanonical) (hb : b.IsCanonical) (ha0 : a ≠ zero)
    (hb0 : b ≠ zero) : a * b ≠ zero := by
  rw [ne_eq, ← (ha.mul hb).polynomial_eq_zero_iff, polynomial_mul, mul_eq_zero, not_or,
    ha.polynomial_eq_zero_iff, hb.polynomial_eq_zero_iff]
  exact ⟨ha0, hb0⟩

theorem degreeIn_mul (ha : a.IsCanonical) (hb : b.IsCanonical) (ha0 : a ≠ zero)
    (hb0 : b ≠ zero) (s : Symbol) : (a * b).degreeIn s = a.degreeIn s + b.degreeIn s := by
  rw [(ha.mul hb).degreeIn_eq_degreeOf, polynomial_mul,
    degreeOf_mul_eq (ha.polynomial_eq_zero_iff.not.mpr ha0) (hb.polynomial_eq_zero_iff.not.mpr hb0),
    ha.degreeIn_eq_degreeOf, hb.degreeIn_eq_degreeOf]

theorem degreeIn_pow (ha : a.IsCanonical) (ha0 : a ≠ zero) (n : ℕ) (s : Symbol) :
    (a.pow n).degreeIn s = n * a.degreeIn s := by
  rw [(ha.pow n).degreeIn_eq_degreeOf, polynomial_pow,
    degreeOf_pow_eq _ _ _ (ha.polynomial_eq_zero_iff.not.mpr ha0), ha.degreeIn_eq_degreeOf]

theorem mem_symbols_mul_iff (ha : a.IsCanonical) (hb : b.IsCanonical) (ha0 : a ≠ zero)
    (hb0 : b ≠ zero) (s : Symbol) : s ∈ (a * b).symbols ↔ s ∈ a.symbols ∨ s ∈ b.symbols := by
  rw [(ha.mul hb).mem_symbols_iff_degreeIn_ne_zero, ha.degreeIn_mul hb ha0 hb0,
    ha.mem_symbols_iff_degreeIn_ne_zero, hb.mem_symbols_iff_degreeIn_ne_zero]
  omega

end IsCanonical

end Products

/-- The first and the last term of `p` are the products of those of `a` and `b`, its degrees
are the sums of theirs, and its symbols, in ascending order, are the symbols of both. -/
structure IsProductWithoutLoss (a b p : Expression) : Prop where
  ne_zero : p ≠ zero
  head? : ∃ u v, a.terms.head? = some u ∧ b.terms.head? = some v ∧
    p.terms.head? = some (u.1 * v.1, u.2 * v.2)
  getLast? : ∃ u v, a.terms.getLast? = some u ∧ b.terms.getLast? = some v ∧
    p.terms.getLast? = some (u.1 * v.1, u.2 * v.2)
  degreeIn : ∀ s, p.degreeIn s = a.degreeIn s + b.degreeIn s
  symbols_ascending : p.symbols.Pairwise (fun s t => compare s t = .lt)
  mem_symbols : ∀ s, s ∈ p.symbols ↔ s ∈ a.symbols ∨ s ∈ b.symbols

/-- Constructed expressions other than zero are multiplied without loss, and so powers of
them have a multiple of their degree. -/
theorem mul_isProductWithoutLoss (ha : a.IsConstructible) (hb : b.IsConstructible)
    (ha0 : a ≠ zero) (hb0 : b ≠ zero) :
    IsProductWithoutLoss a b (a * b) ∧ ∀ n s, (a.pow n).degreeIn s = n * a.degreeIn s := by
  have ha := ha.isCanonical
  have hb := hb.isCanonical
  have hterms : ∀ {e : Expression}, e ≠ zero → e.terms ≠ [] := fun he hnil =>
    he (congrArg Expression.mk hnil)
  refine ⟨?_, ha.degreeIn_pow ha0⟩
  constructor
  case ne_zero => exact ha.mul_ne_zero hb ha0 hb0
  case head? =>
    have hu := List.head?_eq_some_head (hterms ha0)
    have hv := List.head?_eq_some_head (hterms hb0)
    refine ⟨_, _, hu, hv, (ha.mul hb).head?_eq_some_iff.mpr ?_⟩
    exact (ha.isExtreme_of_head? hu).mul ha hb (by decide) (hb.isExtreme_of_head? hv)
  case getLast? =>
    have hu := List.getLast?_eq_some_getLast (hterms ha0)
    have hv := List.getLast?_eq_some_getLast (hterms hb0)
    refine ⟨_, _, hu, hv, (ha.mul hb).getLast?_eq_some_iff.mpr ?_⟩
    exact (ha.isExtreme_of_getLast? hu).mul ha hb (by decide) (hb.isExtreme_of_getLast? hv)
  case degreeIn => exact ha.degreeIn_mul hb ha0 hb0
  case symbols_ascending => exact pairwise_symbols_lt _
  case mem_symbols => exact ha.mem_symbols_mul_iff hb ha0 hb0

/-- The terms between the outermost ones cancel, and the second symbol does not decide the
order. -/
theorem mul_isProductWithoutLoss_cancelling :
    let x : Symbol := ⟨"x"⟩
    let y : Symbol := ⟨"y"⟩
    let a : Expression := ⟨[(.var x, 1), (⟨[(y, 2)]⟩, 1 / 2)]⟩
    let b : Expression := ⟨[(.var x, 1), (⟨[(y, 2)]⟩, -1 / 2)]⟩
    a.IsConstructible ∧ b.IsConstructible ∧ a ≠ zero ∧ b ≠ zero ∧
      IsProductWithoutLoss a b (a * b) ∧
      ∀ n s, (a.pow n).degreeIn s = n * a.degreeIn s := by
  intro x y a b
  have ha : a.IsConstructible := isConstructible_iff.mpr (by decide +kernel)
  have hb : b.IsConstructible := isConstructible_iff.mpr (by decide +kernel)
  have ha0 : a ≠ zero := by decide
  have hb0 : b ≠ zero := by decide
  exact ⟨ha, hb, ha0, hb0, mul_isProductWithoutLoss ha hb ha0 hb0⟩

end PivotCoefficients.Expression
