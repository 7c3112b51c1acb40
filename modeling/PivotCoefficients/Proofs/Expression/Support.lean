import Mathlib.Algebra.MvPolynomial.Variables
import Mathlib.Order.Bounds.Basic
import PivotCoefficients.Proofs.Expression.Polynomial

/-!
# Canonical expressions and their polynomials

A canonical expression lists the support of its polynomial: its coefficients,
its symbols and its degrees are those of the polynomial. In particular the
polynomial determines it.
-/
namespace PivotCoefficients.Expression

open FormalSum MvPolynomial

theorem amount_eq_coeff {ts : List Term} (hts : ∀ t ∈ ts, t.1.IsCanonical) {m : Monomial}
    (hm : m.IsCanonical) : amount m ts = coeff m.exponents (total Monomial.weight ts) := by
  induction ts with
  | nil => simp
  | cons t ts ih =>
    obtain ⟨n, c⟩ := t
    have hts' := List.forall_mem_cons.mp hts
    have hexp : n.exponents = m.exponents ↔ n = m :=
      ⟨hts'.1.eq_of_exponents_eq hm, congrArg Monomial.exponents⟩
    rw [amount, total_cons, coeff_add, Monomial.weight_apply, coeff_monomial, ← ih hts'.2]
    by_cases h : n = m
    · simp [h]
    · simp [h, hexp]

section Canonical

variable {e a b : Expression}

namespace IsCanonical

theorem monomial_of_mem (he : e.IsCanonical) {t : Term} (ht : t ∈ e.terms) : t.1.IsCanonical :=
  (he.2 t ht).1

theorem coefficient_eq (he : e.IsCanonical) {m : Monomial} (hm : m.IsCanonical) :
    e.coefficient m = coeff m.exponents e.polynomial :=
  amount_eq_coeff (fun _ => he.monomial_of_mem) hm

theorem coefficient_of_mem (he : e.IsCanonical) {t : Term} (ht : t ∈ e.terms) :
    e.coefficient t.1 = t.2 :=
  (isCanonical_iff.mp he).1.hasDistinctKeys.amount_of_mem ht

theorem mem_terms_iff (he : e.IsCanonical) (m : Monomial) (c : ℚ) :
    (m, c) ∈ e.terms ↔ c ≠ 0 ∧ e.coefficient m = c :=
  (isCanonical_iff.mp he).1.hasDistinctKeys.mem_iff (fun t ht => (he.2 t ht).2) m c

/-- Canonical expressions of the same polynomial are equal. -/
theorem eq_of_polynomial_eq (ha : a.IsCanonical) (hb : b.IsCanonical)
    (h : a.polynomial = b.polynomial) : a = b := by
  have hterms : a.terms = b.terms := by
    refine IsSorted.eq_of_amount_eq (isCanonical_iff.mp ha).1 (isCanonical_iff.mp hb).1
      (fun t ht => (ha.2 t ht).2) (fun t ht => (hb.2 t ht).2) ?_
    intro m
    by_cases hm : m.IsCanonical
    · have hcoeff := ha.coefficient_eq hm
      rw [h, ← hb.coefficient_eq hm] at hcoeff
      exact hcoeff
    · have hne : ∀ {e : Expression}, e.IsCanonical → ∀ t ∈ e.terms, t.1 ≠ m := by
        rintro e he t ht rfl
        exact hm (he.monomial_of_mem ht)
      rw [amount_eq_zero (hne ha), amount_eq_zero (hne hb)]
  cases a
  cases b
  exact congrArg Expression.mk hterms

theorem polynomial_eq_zero_iff (he : e.IsCanonical) : e.polynomial = 0 ↔ e = zero :=
  ⟨he.eq_of_polynomial_eq isCanonical_zero, congrArg polynomial⟩

theorem mem_support_iff (he : e.IsCanonical) (d : Symbol →₀ ℕ) :
    d ∈ e.polynomial.support ↔ ∃ t ∈ e.terms, t.1.exponents = d := by
  constructor
  · intro hd
    by_contra hnone
    refine MvPolynomial.mem_support_iff.mp hd ?_
    change coeffAddMonoidHom d (total Monomial.weight e.terms) = 0
    rw [map_total, total]
    apply List.sum_eq_zero
    intro x hx
    obtain ⟨t, ht, rfl⟩ := List.mem_map.mp hx
    have hne : t.1.exponents ≠ d := fun h => hnone ⟨t, ht, h⟩
    simp [Monomial.weight_apply, coeff_monomial, hne]
  · rintro ⟨t, ht, rfl⟩
    rw [MvPolynomial.mem_support_iff, ← he.coefficient_eq (he.monomial_of_mem ht),
      he.coefficient_of_mem ht]
    exact (he.2 t ht).2

end IsCanonical

theorem mem_symbols_iff {s : Symbol} :
    s ∈ e.symbols ↔ ∃ t ∈ e.terms, s ∈ t.1.symbols := by
  simp [symbols]

theorem forall_mem_symbols_iff {P : Symbol → Prop} :
    (∀ s ∈ e.symbols, P s) ↔ ∀ t ∈ e.terms, ∀ s ∈ t.1.symbols, P s := by
  constructor
  · exact fun h t ht s hs => h s (mem_symbols_iff.mpr ⟨t, ht, hs⟩)
  · intro h s hs
    obtain ⟨t, ht, hst⟩ := mem_symbols_iff.mp hs
    exact h t ht s hst

theorem notMem_symbols_iff {s : Symbol} :
    s ∉ e.symbols ↔ ∀ t ∈ e.terms, s ∉ t.1.symbols := by
  simp [mem_symbols_iff]

theorem degreeIn_le_iff {s : Symbol} {n : ℕ} :
    e.degreeIn s ≤ n ↔ ∀ t ∈ e.terms, t.1.exponent s ≤ n := by
  obtain ⟨ts⟩ := e
  induction ts with
  | nil => simp [degreeIn]
  | cons t ts ih => simpa [degreeIn] using fun _ => ih

/-- A degree other than zero is the largest exponent of any term. -/
theorem isGreatest_degreeIn {s : Symbol} (h : 0 < e.degreeIn s) :
    IsGreatest {k | ∃ t ∈ e.terms, t.1.exponent s = k} (e.degreeIn s) := by
  have hle := degreeIn_le_iff.mp (le_refl (e.degreeIn s))
  constructor
  · by_contra hnone
    have hless : e.degreeIn s ≤ e.degreeIn s - 1 := by
      refine degreeIn_le_iff.mpr fun t ht => ?_
      have hne : t.1.exponent s ≠ e.degreeIn s := fun heq => hnone ⟨t, ht, heq⟩
      have hlt := Nat.lt_of_le_of_ne (hle t ht) hne
      omega
    omega
  · rintro k ⟨t, ht, rfl⟩
    exact hle t ht

namespace IsCanonical

theorem mem_symbols_iff_mem_vars (he : e.IsCanonical) {s : Symbol} :
    s ∈ e.symbols ↔ s ∈ e.polynomial.vars := by
  rw [mem_symbols_iff, mem_vars_iff_mem_support]
  constructor
  · rintro ⟨t, ht, hs⟩
    refine ⟨t.1.exponents, (he.mem_support_iff _).mpr ⟨t, ht, rfl⟩, ?_⟩
    exact Finsupp.mem_support_iff.mpr (((he.monomial_of_mem ht).mem_symbols_iff s).mp hs)
  · rintro ⟨d, hd, hs⟩
    obtain ⟨t, ht, rfl⟩ := (he.mem_support_iff d).mp hd
    refine ⟨t, ht, ((he.monomial_of_mem ht).mem_symbols_iff s).mpr ?_⟩
    exact Finsupp.mem_support_iff.mp hs

theorem degreeIn_eq_degreeOf (he : e.IsCanonical) (s : Symbol) :
    e.degreeIn s = degreeOf s e.polynomial := by
  apply eq_of_forall_ge_iff
  intro n
  rw [degreeIn_le_iff, degreeOf_le_iff]
  constructor
  · intro h d hd
    obtain ⟨t, ht, rfl⟩ := (he.mem_support_iff d).mp hd
    rw [← (he.monomial_of_mem ht).exponent_eq]
    exact h t ht
  · intro h t ht
    rw [(he.monomial_of_mem ht).exponent_eq]
    exact h _ ((he.mem_support_iff _).mpr ⟨t, ht, rfl⟩)

theorem mem_symbols_iff_degreeIn_ne_zero (he : e.IsCanonical) {s : Symbol} :
    s ∈ e.symbols ↔ e.degreeIn s ≠ 0 := by
  rw [he.mem_symbols_iff_mem_vars, he.degreeIn_eq_degreeOf, mem_vars_iff_degreeOf_ne_zero]

end IsCanonical

end Canonical

theorem one_eq_ofMonomial : one = ofMonomial .one := by
  simp [one, constant, ofMonomial]

theorem ofMonomial_mul {m n : Monomial} (hm : m.IsCanonical) (hn : n.IsCanonical) :
    ofMonomial m * ofMonomial n = ofMonomial (m * n) := by
  have hmul := (isCanonical_ofMonomial hm).mul (isCanonical_ofMonomial hn)
  apply hmul.eq_of_polynomial_eq (isCanonical_ofMonomial (hm.mul hn))
  simp [monomial_mul]

end PivotCoefficients.Expression
