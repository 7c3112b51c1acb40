import Mathlib.Data.Finsupp.Basic
import PivotCoefficients.Monomial.Order
import PivotCoefficients.Proofs.FormalSum.Amount

/-!
# Monomials as exponent functions

A monomial gives each symbol an exponent, zero but for finitely many. Products
add these functions and taking a symbol out erases it. Canonical monomials are
equal when they give the same exponents, and their search for an exponent
answers with the value of the function.
-/
namespace PivotCoefficients.Monomial

open FormalSum

noncomputable def exponents (m : Monomial) : Symbol →₀ ℕ :=
  amounts m.factors

theorem exponents_apply (m : Monomial) (s : Symbol) : m.exponents s = amount s m.factors :=
  amounts_apply m.factors s

@[simp] theorem exponents_one : one.exponents = 0 := rfl

@[simp] theorem exponents_var (s : Symbol) : (var s).exponents = Finsupp.single s 1 := by
  simp [exponents, amounts]

@[simp] theorem exponents_mul (m n : Monomial) :
    (m * n).exponents = m.exponents + n.exponents := by
  rw [exponents, factors_mul, amounts]
  refine total_merge _ ?_ _ _
  intro s d e
  exact map_add (Finsupp.singleAddHom s) d e

theorem exponents_ofFactors (fs : List (Symbol × ℕ)) :
    (ofFactors fs).exponents = amounts fs := by
  rw [exponents, ofFactors, amounts, total_gather_mergeSort]
  apply total_filter
  intro f hf
  simpa using Nat.pos_of_ne_zero hf

@[simp] theorem exponents_ofFactors_singleton (s : Symbol) (d : ℕ) :
    (ofFactors [(s, d)]).exponents = Finsupp.single s d := by
  simp [exponents_ofFactors, amounts]

theorem exponents_without (m : Monomial) (s : Symbol) :
    (m.without s).exponents = m.exponents.erase s := by
  rw [exponents, without, amounts, total_filter_key _ (· ≠ s), exponents, amounts]
  change _ = Finsupp.eraseAddHom s _
  rw [map_total]
  congr 1
  funext t
  ext n
  by_cases h : t = s
  · simp [h]
  · simp [h, Finsupp.erase_single_ne (Ne.symm h)]

theorem exponentIn_eq_amount {s : Symbol} {fs : List (Symbol × ℕ)} (h : IsSorted compare fs) :
    exponentIn s fs = amount s fs := by
  induction fs with
  | nil => rfl
  | cons f fs ih =>
    obtain ⟨t, n⟩ := f
    have h' := List.pairwise_cons.mp h
    cases hc : compare s t with
    | lt => simp [exponentIn, hc, h.amount_eq_zero_of_lt hc]
    | eq =>
      obtain rfl := Std.LawfulEqCmp.eq_of_compare hc
      simp [exponentIn, h.amount_head]
    | gt =>
      have hts : t ≠ s := by
        rintro rfl
        simp at hc
      simp [exponentIn, hc, amount, hts, ih h'.2]

namespace IsCanonical

variable {m n : Monomial}

theorem exponent_eq (hm : m.IsCanonical) (s : Symbol) : m.exponent s = m.exponents s := by
  rw [exponents_apply]
  exact exponentIn_eq_amount hm.1

theorem factor_ne_zero (hm : m.IsCanonical) : ∀ f ∈ m.factors, f.2 ≠ 0 := by
  intro f hf
  exact Nat.ne_of_gt (hm.2 f hf)

theorem eq_of_exponents_eq (hm : m.IsCanonical) (hn : n.IsCanonical)
    (h : m.exponents = n.exponents) : m = n := by
  have hfactors : m.factors = n.factors := by
    refine IsSorted.eq_of_amount_eq hm.1 hn.1 hm.factor_ne_zero hn.factor_ne_zero ?_
    intro s
    rw [← exponents_apply, ← exponents_apply, h]
  cases m
  cases n
  exact congrArg Monomial.mk hfactors

theorem mem_factors_iff (hm : m.IsCanonical) (s : Symbol) (d : ℕ) :
    (s, d) ∈ m.factors ↔ d ≠ 0 ∧ m.exponents s = d := by
  rw [exponents_apply]
  exact (IsSorted.hasDistinctKeys hm.1).mem_iff hm.factor_ne_zero s d

theorem mem_symbols_iff (hm : m.IsCanonical) (s : Symbol) : s ∈ m.symbols ↔ m.exponents s ≠ 0 := by
  rw [symbols, List.mem_map]
  constructor
  · rintro ⟨⟨t, d⟩, hf, rfl⟩
    have h := (hm.mem_factors_iff t d).mp hf
    exact h.2 ▸ h.1
  · intro h
    exact ⟨(s, m.exponents s), (hm.mem_factors_iff s _).mpr ⟨h, rfl⟩, rfl⟩

/-- A monomial is what remains without a symbol times the power of that symbol. -/
theorem exponents_without_add (hm : m.IsCanonical) (s : Symbol) :
    (m.without s).exponents + Finsupp.single s (m.exponent s) = m.exponents := by
  rw [exponents_without, hm.exponent_eq, Finsupp.erase_add_single]

theorem without_mul_ofFactors (hm : m.IsCanonical) (s : Symbol) :
    m.without s * ofFactors [(s, m.exponent s)] = m := by
  apply ((hm.without s).mul (isCanonical_ofFactors _)).eq_of_exponents_eq hm
  rw [exponents_mul, exponents_ofFactors_singleton, hm.exponents_without_add]

theorem ofFactors_factors (hm : m.IsCanonical) : ofFactors m.factors = m := by
  apply (isCanonical_ofFactors _).eq_of_exponents_eq hm
  rw [exponents_ofFactors, exponents]

theorem mul_comm (hm : m.IsCanonical) (hn : n.IsCanonical) : m * n = n * m := by
  apply (hm.mul hn).eq_of_exponents_eq (hn.mul hm)
  rw [exponents_mul, exponents_mul, add_comm]

end IsCanonical

theorem ofFactors_zero (s : Symbol) : ofFactors [(s, 0)] = one := by
  apply (isCanonical_ofFactors _).eq_of_exponents_eq isCanonical_one
  simp

theorem ofFactors_mul_var (s : Symbol) (d : ℕ) :
    ofFactors [(s, d)] * var s = ofFactors [(s, d + 1)] := by
  have hmul := (isCanonical_ofFactors [(s, d)]).mul (isCanonical_var s)
  apply hmul.eq_of_exponents_eq (isCanonical_ofFactors _)
  simp [Finsupp.single_add]

end PivotCoefficients.Monomial
