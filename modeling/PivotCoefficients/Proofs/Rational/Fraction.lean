import Mathlib.Algebra.Order.Field.Basic
import Mathlib.Algebra.Order.Field.Rat
import Mathlib.Algebra.Order.Ring.Cast
import Mathlib.Data.Int.CharZero
import PivotCoefficients.Proofs.Power

/-!
# Fractions beside rationals

Fractions of integers are added and multiplied here as they are by hand, with
nothing cancelled and the denominator of any sign. The rational that a fraction
reduces to is in lowest terms over a positive denominator. Each operation on
rationals gives what the fraction computed by hand reduces to, and the questions
asked of rationals are settled by multiplying across.
-/
namespace PivotCoefficients

namespace Rational

variable {q : ℚ}

theorem isInteger_iff_eq_intCast : isInteger q ↔ ∃ n : ℤ, q = n := by
  rw [isInteger, beq_iff_eq]
  constructor
  · intro h
    exact ⟨q.num, ((Rat.den_eq_one_iff q).mp h).symm⟩
  · rintro ⟨n, rfl⟩
    exact Rat.den_intCast n

theorem isNegative_iff_neg : isNegative q ↔ q < 0 := by
  rw [isNegative, decide_eq_true_iff, Rat.num_neg]

end Rational

/-- A numerator over a denominator of any sign. -/
structure Fraction where
  num : ℤ
  den : ℤ
  deriving DecidableEq, Repr

namespace Fraction

variable (x y : Fraction)

def add : Fraction := ⟨x.num * y.den + y.num * x.den, x.den * y.den⟩

def sub : Fraction := ⟨x.num * y.den - y.num * x.den, x.den * y.den⟩

def mul : Fraction := ⟨x.num * y.num, x.den * y.den⟩

def neg : Fraction := ⟨-x.num, x.den⟩

def abs : Fraction := ⟨x.num.natAbs, x.den.natAbs⟩

def pow (n : ℕ) : Fraction := ⟨x.num ^ n, x.den ^ n⟩

/-- The rational is the fraction in lowest terms over a positive denominator. -/
structure ReducesTo (x : Fraction) (q : ℚ) : Prop where
  den_ne_zero : x.den ≠ 0
  den_pos : 0 < q.den
  coprime : q.num.natAbs.Coprime q.den
  cross : q.num * x.den = x.num * q.den

variable {x y} {p q : ℚ}

theorem reducesTo_iff : x.ReducesTo q ↔ x.den ≠ 0 ∧ q = x.num / x.den := by
  have hcross (hden : x.den ≠ 0) : q.num * x.den = x.num * q.den ↔ q = x.num / x.den := by
    have hq : (q.den : ℚ) ≠ 0 := Nat.cast_ne_zero.mpr q.den_nz
    have hx : (x.den : ℚ) ≠ 0 := Int.cast_ne_zero.mpr hden
    conv_rhs => rw [← Rat.num_div_den q, div_eq_div_iff hq hx]
    rw [← Rat.intCast_inj]
    push_cast
    rfl
  constructor
  · intro h
    exact ⟨h.den_ne_zero, (hcross h.den_ne_zero).mp h.cross⟩
  · rintro ⟨hden, hq⟩
    exact ⟨hden, q.den_pos, q.reduced, (hcross hden).mpr hq⟩

theorem reducesTo_div {a b : ℤ} (hb : b ≠ 0) : ReducesTo ⟨a, b⟩ (a / b) :=
  reducesTo_iff.mpr ⟨hb, rfl⟩

theorem reducesTo_num_den (q : ℚ) : ReducesTo ⟨q.num, q.den⟩ q :=
  reducesTo_iff.mpr ⟨Int.natCast_ne_zero.mpr q.den_nz, (Rat.num_div_den q).symm⟩

theorem reducesTo_intCast (n : ℤ) : ReducesTo ⟨n, 1⟩ n :=
  reducesTo_iff.mpr ⟨one_ne_zero, by simp⟩

namespace ReducesTo

theorem eq_div (h : x.ReducesTo q) : q = x.num / x.den := (reducesTo_iff.mp h).2

theorem cast_den_ne_zero (h : x.ReducesTo q) : (x.den : ℚ) ≠ 0 :=
  Int.cast_ne_zero.mpr h.den_ne_zero

theorem add (hp : x.ReducesTo p) (hq : y.ReducesTo q) : (x.add y).ReducesTo (p + q) := by
  refine reducesTo_iff.mpr ⟨mul_ne_zero hp.den_ne_zero hq.den_ne_zero, ?_⟩
  rw [hp.eq_div, hq.eq_div, div_add_div _ _ hp.cast_den_ne_zero hq.cast_den_ne_zero]
  simp [Fraction.add, mul_comm]

theorem neg (hp : x.ReducesTo p) : x.neg.ReducesTo (-p) := by
  refine reducesTo_iff.mpr ⟨hp.den_ne_zero, ?_⟩
  rw [hp.eq_div, ← neg_div]
  simp [Fraction.neg]

theorem sub (hp : x.ReducesTo p) (hq : y.ReducesTo q) : (x.sub y).ReducesTo (p - q) := by
  have hsub : x.sub y = x.add y.neg := by
    simp [Fraction.sub, Fraction.add, Fraction.neg, sub_eq_add_neg]
  rw [hsub, sub_eq_add_neg]
  exact hp.add hq.neg

theorem mul (hp : x.ReducesTo p) (hq : y.ReducesTo q) : (x.mul y).ReducesTo (p * q) := by
  refine reducesTo_iff.mpr ⟨mul_ne_zero hp.den_ne_zero hq.den_ne_zero, ?_⟩
  rw [hp.eq_div, hq.eq_div, div_mul_div_comm]
  simp [Fraction.mul]

theorem abs (hp : x.ReducesTo p) : x.abs.ReducesTo (Rational.magnitude p) := by
  have hden : (Rational.magnitude p).den = p.den := Rational.den_magnitude p
  constructor
  case den_ne_zero => simpa [Fraction.abs] using hp.den_ne_zero
  case den_pos => exact hden ▸ hp.den_pos
  case coprime =>
    rw [Rational.num_magnitude, Int.natAbs_natCast, hden]
    exact hp.coprime
  case cross =>
    have hcross := congrArg Int.natAbs hp.cross
    rw [Int.natAbs_mul, Int.natAbs_mul, Int.natAbs_natCast] at hcross
    simp only [Fraction.abs, Rational.num_magnitude, hden]
    rw [← Int.natCast_mul, ← Int.natCast_mul, hcross]

theorem pow (hp : x.ReducesTo p) (n : ℕ) : (x.pow n).ReducesTo (Rational.pow p n) := by
  refine reducesTo_iff.mpr ⟨pow_ne_zero n hp.den_ne_zero, ?_⟩
  rw [Rational.pow_eq, hp.eq_div, div_pow]
  simp [Fraction.pow]

theorem mul_dens (hp : x.ReducesTo p) (c : ℤ) : p * (x.den * c : ℤ) = (x.num * c : ℤ) := by
  rw [hp.eq_div]
  push_cast
  rw [← mul_assoc, div_mul_cancel₀ _ hp.cast_den_ne_zero]

theorem eq_iff (hp : x.ReducesTo p) (hq : y.ReducesTo q) :
    p = q ↔ x.num * y.den = y.num * x.den := by
  rw [hp.eq_div, hq.eq_div, div_eq_div_iff hp.cast_den_ne_zero hq.cast_den_ne_zero]
  exact_mod_cast Iff.rfl

theorem lt_iff (hp : x.ReducesTo p) (hq : y.ReducesTo q) (hpos : 0 < x.den * y.den) :
    p < q ↔ x.num * y.den < y.num * x.den := by
  have hpos' : (0 : ℚ) < (x.den * y.den : ℤ) := Int.cast_pos.mpr hpos
  rw [← mul_lt_mul_iff_left₀ hpos', hp.mul_dens, mul_comm x.den, hq.mul_dens, Int.cast_lt]

theorem compare_eq (hp : x.ReducesTo p) (hq : y.ReducesTo q) (hpos : 0 < x.den * y.den) :
    Rational.compare p q = compare (x.num * y.den) (y.num * x.den) := by
  unfold Rational.compare
  simp only [hp.lt_iff hq hpos, hp.eq_iff hq]
  rfl

theorem compare_eq_of_den_neg (hp : x.ReducesTo p) (hq : y.ReducesTo q)
    (hneg : x.den * y.den < 0) :
    Rational.compare p q = compare (y.num * x.den) (x.num * y.den) := by
  have hflip : ReducesTo ⟨-x.num, -x.den⟩ p := by
    refine reducesTo_iff.mpr ⟨neg_ne_zero.mpr hp.den_ne_zero, ?_⟩
    rw [Int.cast_neg, Int.cast_neg, neg_div_neg_eq, hp.eq_div]
  rw [hflip.compare_eq hq (by simpa using hneg)]
  simp only [compare, compareOfLessAndEq, neg_mul, mul_neg, neg_lt_neg_iff, neg_inj,
    eq_comm (a := x.num * y.den)]

theorem isInteger_iff (hq : x.ReducesTo q) : Rational.isInteger q ↔ x.den ∣ x.num := by
  rw [Rational.isInteger_iff_eq_intCast]
  have heq (n : ℤ) : q = n ↔ x.num = n * x.den := by
    simpa using hq.eq_iff (reducesTo_intCast n)
  simp only [heq, dvd_def, mul_comm]

theorem isNegative_iff (hq : x.ReducesTo q) : Rational.isNegative q ↔ x.num * x.den < 0 := by
  rw [Rational.isNegative_iff_neg, hq.eq_div, div_neg_iff, mul_neg_iff]
  simp only [Int.cast_pos, Int.cast_lt_zero]

end ReducesTo

/-- Rationals are calculated with, compared and asked about as the fractions that reduce to
them say. -/
structure GovernsExactly (x y : Fraction) (p q : ℚ) : Prop where
  add : (x.add y).ReducesTo (p + q)
  sub : (x.sub y).ReducesTo (p - q)
  mul : (x.mul y).ReducesTo (p * q)
  neg : x.neg.ReducesTo (-p)
  abs : x.abs.ReducesTo (Rational.magnitude p)
  pow : ∀ n, (x.pow n).ReducesTo (Rational.pow p n)
  eq_iff : p = q ↔ x.num * y.den = y.num * x.den
  compare_eq : 0 < x.den * y.den →
    Rational.compare p q = compare (x.num * y.den) (y.num * x.den)
  compare_eq_of_den_neg : x.den * y.den < 0 →
    Rational.compare p q = compare (y.num * x.den) (x.num * y.den)
  isInteger_iff : Rational.isInteger p ↔ x.den ∣ x.num
  isNegative_iff : Rational.isNegative p ↔ x.num * x.den < 0

theorem ReducesTo.governsExactly (hp : x.ReducesTo p) (hq : y.ReducesTo q) :
    GovernsExactly x y p q where
  add := hp.add hq
  sub := hp.sub hq
  mul := hp.mul hq
  neg := hp.neg
  abs := hp.abs
  pow := hp.pow
  eq_iff := hp.eq_iff hq
  compare_eq := hp.compare_eq hq
  compare_eq_of_den_neg := hp.compare_eq_of_den_neg hq
  isInteger_iff := hp.isInteger_iff
  isNegative_iff := hp.isNegative_iff

end Fraction
end PivotCoefficients
