import PivotCoefficients.Proofs.Construction.Canonical

/-!
# Laws of exponents

The rounds of repeated squaring multiply in an order that depends on the bits of the
exponent. Where a product does not depend on the order of its factors, they give
what multiplying one factor after another gives, and so obey the laws of exponents.
Products of rationals are of that kind, and so are products of canonical expressions.
-/
namespace PivotCoefficients

universe u v

/-- `pow` multiplies as many factors as the exponent says, beginning with `one`, and obeys
the laws of exponents for `a` and `b`. -/
structure ObeysPowerLaws {R : Type u} [Mul R] (one : R) (pow : R → ℕ → R) (a b : R) : Prop where
  eq_repeatedProduct : ∀ n, pow a n = repeatedProduct one a n
  pow_zero : pow a 0 = one
  pow_add : ∀ m n, pow a (m + n) = pow a m * pow a n
  pow_mul : ∀ m n, pow (pow a m) n = pow a (m * n)
  mul_pow : ∀ n, pow (a * b) n = pow a n * pow b n

section Transfer

variable {R : Type u} {M : Type v} [Mul R] [CommMonoid M]

/-- The laws hold for values that a multiplicative map into a commutative monoid tells
apart, if products do not leave them. -/
theorem obeysPowerLaws_of_injOn {P : R → Prop} {φ : R → M} {one a b : R}
    (hφ : ∀ a b, φ (a * b) = φ a * φ b) (hone : φ one = 1)
    (hinj : ∀ {a b}, P a → P b → φ a = φ b → a = b)
    (hPone : P one) (hPmul : ∀ {a b}, P a → P b → P (a * b)) (ha : P a) (hb : P b) :
    ObeysPowerLaws one (power one) a b := by
  -- powers have the property as well, so each law may be read off the images under `φ`
  have hpower : ∀ {c}, P c → ∀ n, P (power one c n) :=
    fun hc _ => PowerState.run_of_forall_mul hPmul hPone hc
  constructor
  case eq_repeatedProduct =>
    intro n
    apply hinj (hpower ha n) (repeatedProduct_of_forall_mul hPmul hPone ha n)
    rw [map_power hφ hone, map_repeatedProduct hφ hone]
  case pow_zero => exact power_zero one a
  case pow_add =>
    intro m n
    apply hinj (hpower ha _) (hPmul (hpower ha m) (hpower ha n))
    simp only [hφ, map_power hφ hone, pow_add]
  case pow_mul =>
    intro m n
    apply hinj (hpower (hpower ha m) n) (hpower ha _)
    simp only [map_power hφ hone, pow_mul]
  case mul_pow =>
    intro n
    apply hinj (hpower (hPmul ha hb) n) (hPmul (hpower ha n) (hpower hb n))
    simp only [hφ, map_power hφ hone, mul_pow]

end Transfer

theorem Rational.obeysPowerLaws (p q : ℚ) : ObeysPowerLaws 1 Rational.pow p q :=
  obeysPowerLaws_of_injOn (P := fun _ => True) (φ := id) (fun _ _ => rfl) rfl
    (fun _ _ h => h) trivial (fun _ _ => trivial) trivial trivial

theorem Expression.IsCanonical.obeysPowerLaws {a b : Expression} (ha : a.IsCanonical)
    (hb : b.IsCanonical) : ObeysPowerLaws Expression.one Expression.pow a b :=
  obeysPowerLaws_of_injOn Expression.polynomial_mul Expression.polynomial_one
    IsCanonical.eq_of_polynomial_eq Expression.isCanonical_one .mul ha hb

/-- Powers of rationals and of constructed expressions are repeated products, the power zero
of zero included, and obey the laws of exponents. -/
theorem powers_obeyLaws :
    (∀ p q : ℚ, ObeysPowerLaws 1 Rational.pow p q) ∧
      ∀ a b : Expression, a.IsConstructible → b.IsConstructible →
        ObeysPowerLaws Expression.one Expression.pow a b := by
  refine ⟨Rational.obeysPowerLaws, fun a b ha hb => ?_⟩
  exact ha.isCanonical.obeysPowerLaws hb.isCanonical

/-- Two expressions whose product cancels in the middle, and zero beside a rational. -/
theorem powers_obeyLaws_cancelling :
    let x : Monomial := .var ⟨"x"⟩
    let y : Monomial := .var ⟨"y"⟩
    let a : Expression := ⟨[(x, 1), (y, 1 / 2)]⟩
    let b : Expression := ⟨[(x, 1), (y, -1 / 2)]⟩
    a.IsConstructible ∧ b.IsConstructible ∧ ObeysPowerLaws 1 Rational.pow 0 (-2 / 3) ∧
      ObeysPowerLaws Expression.one Expression.pow a b := by
  intro x y a b
  have ha : a.IsConstructible := Expression.isConstructible_iff.mpr (by decide +kernel)
  have hb : b.IsConstructible := Expression.isConstructible_iff.mpr (by decide +kernel)
  exact ⟨ha, hb, powers_obeyLaws.1 0 (-2 / 3), powers_obeyLaws.2 a b ha hb⟩

end PivotCoefficients
