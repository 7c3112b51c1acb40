import Mathlib.Algebra.MvPolynomial.CommRing
import PivotCoefficients.Expression.Canonical
import PivotCoefficients.Proofs.Monomial.Exponents
import PivotCoefficients.Proofs.Power

/-!
# Expressions as polynomials

An expression stands for a polynomial in its symbols. The operations on
expressions are the operations of the polynomial ring, whatever the form of
their arguments, and canonical expressions of the same polynomial are equal.
-/
namespace PivotCoefficients

open FormalSum MvPolynomial

/-- A coefficient times the monomial, as a polynomial. -/
noncomputable def Monomial.weight (m : Monomial) : ℚ →+ MvPolynomial Symbol ℚ :=
  (monomial m.exponents).toAddMonoidHom

theorem Monomial.weight_apply (m : Monomial) (c : ℚ) : m.weight c = monomial m.exponents c := rfl

@[simp] theorem Monomial.weight_mul (m n : Monomial) (c d : ℚ) :
    (m * n).weight (c * d) = m.weight c * n.weight d := by
  simp [weight_apply]

namespace Expression

/-- The polynomial that the terms add up to. -/
noncomputable def polynomial (e : Expression) : MvPolynomial Symbol ℚ :=
  total Monomial.weight e.terms

theorem total_ofTerms {M : Type*} [AddCommMonoid M] (f : Monomial → ℚ →+ M) (ts : List Term) :
    total f (ofTerms ts).terms = total f ts := by
  rw [ofTerms, total_filter _ (by simp), total_gather_mergeSort]

@[simp] theorem polynomial_ofTerms (ts : List Term) :
    (ofTerms ts).polynomial = total Monomial.weight ts :=
  total_ofTerms _ ts

@[simp] theorem polynomial_zero : zero.polynomial = 0 := rfl

@[simp] theorem polynomial_constant (c : ℚ) : (constant c).polynomial = C c := by
  by_cases h : c = 0
  · simp [h]
  · simp [polynomial, terms_constant h, Monomial.weight_apply]

@[simp] theorem polynomial_one : one.polynomial = 1 :=
  polynomial_constant 1

@[simp] theorem polynomial_ofMonomial (m : Monomial) :
    (ofMonomial m).polynomial = monomial m.exponents 1 := by
  simp [polynomial, ofMonomial, Monomial.weight_apply]

@[simp] theorem polynomial_ofSymbol (s : Symbol) : (ofSymbol s).polynomial = X s := by
  rw [ofSymbol, polynomial_ofMonomial, Monomial.exponents_var]
  rfl

variable (a b : Expression)

theorem total_add {M : Type*} [AddCommMonoid M] (f : Monomial → ℚ →+ M) :
    total f (a + b).terms = total f a.terms + total f b.terms := by
  rw [terms_add]
  refine total_merge _ ?_ _ _
  intro m c d
  rw [addCoefficients, ← map_add]
  split_ifs with h
  · simp [h]
  · rfl

@[simp] theorem polynomial_add : (a + b).polynomial = a.polynomial + b.polynomial :=
  total_add a b _

theorem total_map_mul (ts : List Term) (k : ℚ) :
    total Monomial.weight (ts.map (fun t => (t.1, t.2 * k))) = total Monomial.weight ts * C k := by
  induction ts with
  | nil => simp
  | cons t ts ih =>
    obtain ⟨m, c⟩ := t
    simp [ih, add_mul, Monomial.weight_apply, mul_comm (monomial _ _), C_mul_monomial, mul_comm c]

@[simp] theorem polynomial_scale (k : ℚ) : (a.scale k).polynomial = a.polynomial * C k := by
  by_cases h : k = 0
  · simp [h]
  · rw [scale, if_neg h]
    exact total_map_mul a.terms k

@[simp] theorem polynomial_neg : (-a).polynomial = -a.polynomial := by
  have h := total_map_mul a.terms (-1)
  simp only [mul_neg, mul_one, C_neg, C_1] at h
  rw [polynomial, terms_neg, h, polynomial]

@[simp] theorem polynomial_sub : (a - b).polynomial = a.polynomial - b.polynomial := by
  rw [sub_eq, polynomial_add, polynomial_neg, sub_eq_add_neg]

theorem total_map_term_mul (m : Monomial) (c : ℚ) :
    total Monomial.weight (b.terms.map (fun t => (m * t.1, c * t.2))) =
      m.weight c * b.polynomial := by
  rw [polynomial, total, total, List.map_map, ← List.sum_map_mul_left]
  simp [Function.comp_def]

theorem total_products :
    total Monomial.weight (a.products b) = a.polynomial * b.polynomial := by
  rw [products, total_flatMap, polynomial, total, ← List.sum_map_mul_right]
  simp only [total_map_term_mul]

/-- The accumulator holds the amount of every monomial. -/
theorem amount_accumulate (ts : List Term) (m : Monomial) :
    amount m (accumulate ts).toList = amount m ts := by
  have hfold : ∀ acc : Std.HashMap Monomial ℚ,
      (ts.foldl (fun acc t => acc.alter t.1 (fun c => some (c.getD 0 + t.2))) acc).getD m 0 =
        acc.getD m 0 + amount m ts := by
    induction ts with
    | nil => simp
    | cons t ts ih =>
      intro acc
      rw [List.foldl_cons, ih, Std.HashMap.getD_alter, amount]
      by_cases h : t.1 = m
      · simp [h, Std.HashMap.getD_eq_getD_getElem?, add_assoc]
      · simp [h]
  rw [amount_toList, accumulate, hfold, Std.HashMap.getD_empty, Rat.zero_add]

@[simp] theorem polynomial_mul : (a * b).polynomial = a.polynomial * b.polynomial := by
  rw [mul_eq, polynomial_ofTerms, ← total_products]
  exact total_eq_of_amount_eq _ (amount_accumulate _)

@[simp] theorem polynomial_pow (n : ℕ) : (a.pow n).polynomial = a.polynomial ^ n :=
  map_power polynomial_mul polynomial_one a n

@[simp] theorem polynomial_repeatedProduct (n : ℕ) :
    (repeatedProduct one a n).polynomial = a.polynomial ^ n :=
  map_repeatedProduct polynomial_mul polynomial_one a n

end Expression

end PivotCoefficients
