import PivotCoefficients.Proofs.Construction.Canonical

/-!
# Ring laws

Sums are merged and products are gathered, sorted and cleared of zeros, so the two
sides of a law come about in different ways. As both are canonical and stand for
one polynomial, they are equal term by term.
-/
namespace PivotCoefficients.Expression

/-- The laws of a commutative ring for three expressions, and of the operations that
it defines. -/
structure ObeysRingLaws (a b c : Expression) : Prop where
  add_comm : a + b = b + a
  add_assoc : a + b + c = a + (b + c)
  add_zero : a + zero = a
  add_neg : a + -a = zero
  sub_eq : a - b = a + -b
  add_sub_cancel : a + b - b = a
  mul_comm : a * b = b * a
  mul_assoc : a * b * c = a * (b * c)
  mul_one : a * one = a
  mul_zero : a * zero = zero
  mul_add : a * (b + c) = a * b + a * c
  scale_eq : ∀ k, a.scale k = a * constant k

variable {a b c : Expression}

theorem IsCanonical.obeysRingLaws (ha : a.IsCanonical) (hb : b.IsCanonical)
    (hc : c.IsCanonical) : ObeysRingLaws a b c where
  add_comm := by
    apply (ha.add hb).eq_of_polynomial_eq (hb.add ha)
    simp only [polynomial_add]
    ring
  add_assoc := by
    apply ((ha.add hb).add hc).eq_of_polynomial_eq (ha.add (hb.add hc))
    simp only [polynomial_add]
    ring
  add_zero := Expression.add_zero a
  add_neg := by
    apply (ha.add ha.neg).eq_of_polynomial_eq isCanonical_zero
    simp
  sub_eq := Expression.sub_eq a b
  add_sub_cancel := by
    apply ((ha.add hb).sub hb).eq_of_polynomial_eq ha
    simp
  mul_comm := by
    apply (ha.mul hb).eq_of_polynomial_eq (hb.mul ha)
    simp only [polynomial_mul]
    ring
  mul_assoc := by
    apply ((ha.mul hb).mul hc).eq_of_polynomial_eq (ha.mul (hb.mul hc))
    simp only [polynomial_mul]
    ring
  mul_one := by
    apply (ha.mul isCanonical_one).eq_of_polynomial_eq ha
    simp
  mul_zero := by
    apply (ha.mul isCanonical_zero).eq_of_polynomial_eq isCanonical_zero
    simp
  mul_add := by
    apply (ha.mul (hb.add hc)).eq_of_polynomial_eq ((ha.mul hb).add (ha.mul hc))
    simp only [polynomial_mul, polynomial_add]
    ring
  scale_eq := by
    intro k
    apply (ha.scale k).eq_of_polynomial_eq (ha.mul (isCanonical_constant k))
    simp

/-- Constructed expressions form a commutative ring. -/
theorem obeysRingLaws_of_isConstructible (ha : a.IsConstructible) (hb : b.IsConstructible)
    (hc : c.IsConstructible) : ObeysRingLaws a b c :=
  ha.isCanonical.obeysRingLaws hb.isCanonical hc.isCanonical

/-- Terms that cancel in sums and in products. -/
theorem obeysRingLaws_of_isConstructible_cancelling :
    let x : Symbol := ⟨"x"⟩
    let y : Symbol := ⟨"y"⟩
    let a : Expression := ⟨[(.var x, 1), (.var y, 1 / 2)]⟩
    let b : Expression := ⟨[(.var x, 1), (.var y, -1 / 2)]⟩
    let c : Expression := ⟨[(.var x, -1), (.one, 3)]⟩
    a.IsConstructible ∧ b.IsConstructible ∧ c.IsConstructible ∧ ObeysRingLaws a b c := by
  intro x y a b c
  have ha : a.IsConstructible := isConstructible_iff.mpr (by decide +kernel)
  have hb : b.IsConstructible := isConstructible_iff.mpr (by decide +kernel)
  have hc : c.IsConstructible := isConstructible_iff.mpr (by decide +kernel)
  exact ⟨ha, hb, hc, obeysRingLaws_of_isConstructible ha hb hc⟩

end PivotCoefficients.Expression
