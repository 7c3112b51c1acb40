import Mathlib.Algebra.Field.Rat
import PivotCoefficients.Power.Table
import PivotCoefficients.Rational

/-!
# Powers by repeated squaring are powers

The rounds keep the product of the result and the pending power of the square.
This is stated through a multiplicative map into a monoid, since the values the
rounds compute with need not form one. Repeated products go to the same powers.
-/
namespace PivotCoefficients

universe u v

variable {R : Type u} {M : Type v} [Mul R] [Monoid M]

/-- One round takes the lowest bit of the exponent into the result and leaves the others to
the square. -/
theorem PowerState.map_next {φ : R → M} (hφ : ∀ a b, φ (a * b) = φ a * φ b) (s : PowerState R) :
    φ s.next.result * φ s.next.square ^ s.next.exponent =
      φ s.result * φ s.square ^ s.exponent := by
  have hbits : s.exponent % 2 + 2 * (s.exponent / 2) = s.exponent := Nat.mod_add_div _ 2
  have hsquare : φ s.next.square ^ (s.exponent / 2) = φ s.square ^ (2 * (s.exponent / 2)) := by
    by_cases hhalf : s.exponent / 2 = 0
    · simp [hhalf]
    · rw [PowerState.next, if_neg hhalf, hφ, ← pow_two, pow_mul]
  have hresult : φ s.next.result = φ s.result * φ s.square ^ (s.exponent % 2) := by
    by_cases hbit : s.exponent % 2 = 1
    · rw [PowerState.next, if_pos hbit, hφ, hbit, pow_one]
    · have hzero : s.exponent % 2 = 0 := by omega
      rw [PowerState.next, if_neg hbit, hzero, pow_zero, mul_one]
  rw [PowerState.next_exponent, hsquare, hresult, mul_assoc, ← pow_add, hbits]

theorem PowerState.map_run {φ : R → M} (hφ : ∀ a b, φ (a * b) = φ a * φ b) (s : PowerState R) :
    φ s.run = φ s.result * φ s.square ^ s.exponent := by
  fun_induction PowerState.run s with
  | case1 s h => rw [h, pow_zero, mul_one]
  | case2 s h ih => rw [ih, s.map_next hφ]

theorem map_power {φ : R → M} (hφ : ∀ a b, φ (a * b) = φ a * φ b) {one : R} (hone : φ one = 1)
    (a : R) (n : ℕ) : φ (power one a n) = φ a ^ n := by
  rw [power, PowerState.map_run hφ, hone, one_mul]

theorem map_repeatedProduct {φ : R → M} (hφ : ∀ a b, φ (a * b) = φ a * φ b) {one : R}
    (hone : φ one = 1) (a : R) (n : ℕ) : φ (repeatedProduct one a n) = φ a ^ n := by
  induction n with
  | zero => rw [repeatedProduct, hone, pow_zero]
  | succ n ih => rw [repeatedProduct, hφ, ih, pow_succ]

@[simp] theorem Rational.pow_eq (q : ℚ) (n : ℕ) : Rational.pow q n = q ^ n :=
  map_power (φ := id) (fun _ _ => rfl) rfl q n

end PivotCoefficients
