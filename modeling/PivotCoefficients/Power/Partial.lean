import PivotCoefficients.Power

/-!
# Powers by a product that may fail

Where some products cannot be formed, repeated squaring stops at the first of them. It
gives the power when every product that its rounds ask for can be formed, and these can
be read off the states that the rounds pass through.
-/
namespace PivotCoefficients

universe u

namespace PowerState

variable {R : Type u}

/-- The result of a round, when the bit that is read asks for a product and it can be formed. -/
def nextResult? (mul? : R → R → Option R) (s : PowerState R) : Option R :=
  if s.exponent % 2 = 1 then mul? s.result s.square else some s.result

def nextSquare? (mul? : R → R → Option R) (s : PowerState R) : Option R :=
  if s.exponent / 2 = 0 then some s.square else mul? s.square s.square

def run? (mul? : R → R → Option R) (s : PowerState R) : Option R :=
  if s.exponent = 0 then some s.result
  else
    (s.nextResult? mul?).bind fun result =>
      (s.nextSquare? mul?).bind fun square =>
        run? mul? ⟨result, square, s.exponent / 2⟩
termination_by s.exponent
decreasing_by omega

/-- The pairs that a round multiplies: the result with the square for a bit that is set, and
the square with itself while bits are left. -/
def factors (s : PowerState R) : List (R × R) :=
  (if s.exponent % 2 = 1 then [(s.result, s.square)] else []) ++
    if s.exponent / 2 = 0 then [] else [(s.square, s.square)]

theorem mem_factors_iff {s : PowerState R} {p : R × R} :
    p ∈ s.factors ↔ s.exponent % 2 = 1 ∧ p = (s.result, s.square) ∨
      s.exponent / 2 ≠ 0 ∧ p = (s.square, s.square) := by
  unfold factors
  rw [List.mem_append]
  split <;> split <;> simp [*]

theorem of_run?_eq_some {P : R → Prop} {mul? : R → R → Option R}
    (hmul : ∀ {a b c}, mul? a b = some c → P a → P b → P c) {s : PowerState R} {r : R}
    (hresult : P s.result) (hsquare : P s.square) (h : s.run? mul? = some r) : P r := by
  fun_induction run? mul? s with
  | case1 s hzero => exact Option.some.inj h ▸ hresult
  | case2 s hpos ih =>
    obtain ⟨result, hres, h⟩ := Option.bind_eq_some_iff.mp h
    obtain ⟨square, hsq, h⟩ := Option.bind_eq_some_iff.mp h
    refine ih result square ?_ ?_ h
    · rw [nextResult?] at hres
      split at hres
      · exact hmul hres hresult hsquare
      · exact Option.some.inj hres ▸ hresult
    · rw [nextSquare?] at hsq
      split at hsq
      · exact Option.some.inj hsq ▸ hsquare
      · exact hmul hsq hsquare hsquare

variable [Mul R]

/-- What a round keeps, every state has that the rounds pass through. -/
theorem forall_mem_trace {P : PowerState R → Prop}
    (hnext : ∀ s, s.exponent ≠ 0 → P s → P s.next) {s : PowerState R} (hs : P s) :
    ∀ t ∈ s.trace, P t := by
  fun_induction trace s with
  | case1 s h => exact List.forall_mem_singleton.mpr hs
  | case2 s h ih => exact List.forall_mem_cons.mpr ⟨hs, ih (hnext s h hs)⟩

theorem next?_eq_some {mul? : R → R → Option R} {s : PowerState R}
    (h : ∀ p ∈ s.factors, mul? p.1 p.2 = some (p.1 * p.2)) :
    s.nextResult? mul? = some s.next.result ∧ s.nextSquare? mul? = some s.next.square := by
  constructor
  · rw [nextResult?, next_result]
    split
    · next hbit => exact h _ (mem_factors_iff.mpr (.inl ⟨hbit, rfl⟩))
    · rfl
  · rw [nextSquare?, next_square]
    split
    · rfl
    · next hhalf => exact h _ (mem_factors_iff.mpr (.inr ⟨hhalf, rfl⟩))

theorem run?_eq_some_run {mul? : R → R → Option R} {s : PowerState R}
    (h : ∀ t ∈ s.trace, ∀ p ∈ t.factors, mul? p.1 p.2 = some (p.1 * p.2)) :
    s.run? mul? = some s.run := by
  fun_induction trace s with
  | case1 s hzero => rw [run?, if_pos hzero, run_of_exponent_eq_zero hzero]
  | case2 s hpos ih =>
    obtain ⟨hs, hrest⟩ := List.forall_mem_cons.mp h
    obtain ⟨hresult, hsquare⟩ := next?_eq_some hs
    rw [run?, if_neg hpos, hresult, hsquare, ← run_next hpos]
    exact ih hrest

/-- Where products are what they should be, so is the power that is given. -/
theorem eq_run_of_run?_eq_some {mul? : R → R → Option R}
    (hmul : ∀ {a b c}, mul? a b = some c → c = a * b) {s : PowerState R} {r : R}
    (h : s.run? mul? = some r) : r = s.run := by
  fun_induction run? mul? s with
  | case1 s hzero => rw [run_of_exponent_eq_zero hzero, ← Option.some.inj h]
  | case2 s hpos ih =>
    obtain ⟨result, hres, h⟩ := Option.bind_eq_some_iff.mp h
    obtain ⟨square, hsq, h⟩ := Option.bind_eq_some_iff.mp h
    have hresult : result = s.next.result := by
      rw [nextResult?] at hres
      rw [next_result]
      split at hres
      · next hbit => rw [if_pos hbit, hmul hres]
      · next hbit => rw [if_neg hbit, ← Option.some.inj hres]
    have hsquare : square = s.next.square := by
      rw [nextSquare?] at hsq
      rw [next_square]
      split at hsq
      · next hhalf => rw [if_pos hhalf, ← Option.some.inj hsq]
      · next hhalf => rw [if_neg hhalf, hmul hsq]
    rw [ih result square h, hresult, hsquare, ← run_next hpos]
    rfl

end PowerState

def power? {R : Type u} (mul? : R → R → Option R) (one a : R) (n : Nat) : Option R :=
  PowerState.run? mul? ⟨one, a, n⟩

end PivotCoefficients
