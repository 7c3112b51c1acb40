/-!
# Powers by repeated squaring

The exponent is read from its lowest bit. Each round multiplies the square of
the round into the result when the bit is set, and squares only while bits are
left, so nothing larger than the answer is ever formed.
-/
namespace PivotCoefficients

universe u

/-- The product gathered so far, the current square and the exponent still to be read. -/
structure PowerState (R : Type u) where
  result : R
  square : R
  exponent : Nat
  deriving DecidableEq, Repr

namespace PowerState

variable {R : Type u} [Mul R]

/-- One round: reads the lowest bit and squares unless it was the last one. -/
def next (s : PowerState R) : PowerState R where
  result := if s.exponent % 2 = 1 then s.result * s.square else s.result
  square := if s.exponent / 2 = 0 then s.square else s.square * s.square
  exponent := s.exponent / 2

theorem next_result (s : PowerState R) :
    s.next.result = if s.exponent % 2 = 1 then s.result * s.square else s.result := rfl

theorem next_square (s : PowerState R) :
    s.next.square = if s.exponent / 2 = 0 then s.square else s.square * s.square := rfl

@[simp] theorem next_exponent (s : PowerState R) : s.next.exponent = s.exponent / 2 := rfl

def run (s : PowerState R) : R :=
  if s.exponent = 0 then s.result else s.next.run
termination_by s.exponent
decreasing_by simp only [next_exponent]; omega

/-- Every state the rounds pass through, from `s` to the last one. -/
def trace (s : PowerState R) : List (PowerState R) :=
  if s.exponent = 0 then [s] else s :: s.next.trace
termination_by s.exponent
decreasing_by simp only [next_exponent]; omega

theorem run_of_exponent_eq_zero {s : PowerState R} (h : s.exponent = 0) : s.run = s.result := by
  rw [run, if_pos h]

theorem run_next {s : PowerState R} (h : s.exponent ≠ 0) : s.next.run = s.run := by
  rw [run.eq_1 s, if_neg h]

/-- What products keep, the rounds keep. -/
theorem run_of_forall_mul {P : R → Prop} (hmul : ∀ {a b}, P a → P b → P (a * b)) {s : PowerState R}
    (hresult : P s.result) (hsquare : P s.square) : P s.run := by
  fun_induction run s with
  | case1 s h => exact hresult
  | case2 s h ih =>
    refine ih ?_ ?_
    · simp only [next]
      split
      · exact hmul hresult hsquare
      · exact hresult
    · simp only [next]
      split
      · exact hsquare
      · exact hmul hsquare hsquare

end PowerState

/-- The `n`th power of `a`, where `one` is the empty product. -/
def power {R : Type u} [Mul R] (one a : R) (n : Nat) : R :=
  PowerState.run ⟨one, a, n⟩

@[simp] theorem power_zero {R : Type u} [Mul R] (one a : R) : power one a 0 = one :=
  PowerState.run_of_exponent_eq_zero rfl

end PivotCoefficients
