import PivotCoefficients.Power.Partial
import PivotCoefficients.Proofs.Expression.Bounds
import PivotCoefficients.Proofs.Expression.Products

/-!
# Degrees on the way to a power

Repeated squaring holds a result and a square. As long as the exponent has bits left, the
result and as many squares as the exponent says have no higher degree together than the
power, and the square is not squared again after the last bit. So exponents that fit into
some width at the end have fitted all the way: they overflow when the power has one that
does, and only then.
-/
namespace PivotCoefficients

universe u v

namespace PowerState

variable {R : Type u} {ι : Type v} {P : R → Prop} {size : ι → R → ℕ} {bound : ι → ℕ}
  {s : PowerState R}

/-- By each of the measures, the square is within the bound, and so is the result together
with what is left to multiply it with. -/
structure IsWithin (P : R → Prop) (size : ι → R → ℕ) (bound : ι → ℕ) (s : PowerState R) :
    Prop where
  result : P s.result
  square : P s.square
  size_square_le : ∀ i, size i s.square ≤ bound i
  size_le : ∀ i, size i s.result + s.exponent * size i s.square ≤ bound i

namespace IsWithin

theorem add_mul_size_square_le (h : IsWithin P size bound s) {k : ℕ} (hk : k ≤ s.exponent)
    (i : ι) : size i s.result + k * size i s.square ≤ bound i :=
  (Nat.add_le_add_left (Nat.mul_le_mul_right _ hk) _).trans (h.size_le i)

theorem size_result_le (h : IsWithin P size bound s) (i : ι) : size i s.result ≤ bound i :=
  (Nat.le_add_right _ _).trans (h.size_le i)

theorem of_mem_factors (h : IsWithin P size bound s) {p : R × R} (hp : p ∈ s.factors) :
    P p.1 ∧ P p.2 ∧ ∀ i, size i p.1 + size i p.2 ≤ bound i := by
  rcases mem_factors_iff.mp hp with ⟨hbit, rfl⟩ | ⟨hhalf, rfl⟩
  · refine ⟨h.result, h.square, fun i => ?_⟩
    have hone := h.add_mul_size_square_le (k := 1) (by omega) i
    rwa [Nat.one_mul] at hone
  · refine ⟨h.square, h.square, fun i => ?_⟩
    have htwo := h.add_mul_size_square_le (k := 2) (by omega) i
    rw [Nat.two_mul] at htwo
    exact (Nat.le_add_left _ _).trans htwo

section Round

variable [Mul R] (hmul : ∀ {a b}, P a → P b → P (a * b))
  (hsize : ∀ i {a b}, P a → P b → size i (a * b) ≤ size i a + size i b)
  (h : IsWithin P size bound s)

include hmul hsize h

theorem result_next : P s.next.result ∧
    ∀ i, size i s.next.result ≤ size i s.result + s.exponent % 2 * size i s.square := by
  rw [next_result]
  by_cases hbit : s.exponent % 2 = 1
  · simp only [hbit, if_true, Nat.one_mul]
    exact ⟨hmul h.result h.square, fun i => hsize i h.result h.square⟩
  · rw [if_neg hbit]
    exact ⟨h.result, fun _ => Nat.le_add_right _ _⟩

/-- The square is squared only where two of it are left to multiply with. -/
theorem square_next : P s.next.square ∧ (∀ i, size i s.next.square ≤ bound i) ∧
    ∀ i, s.exponent / 2 * size i s.next.square ≤ s.exponent / 2 * (2 * size i s.square) := by
  rw [next_square]
  by_cases hhalf : s.exponent / 2 = 0
  · simp only [hhalf, if_true, Nat.zero_mul, le_refl]
    exact ⟨h.square, h.size_square_le, fun _ => trivial⟩
  · rw [if_neg hhalf]
    have hdouble : ∀ i, size i (s.square * s.square) ≤ 2 * size i s.square := by
      intro i
      rw [Nat.two_mul]
      exact hsize i h.square h.square
    have htwo : ∀ i, 2 * size i s.square ≤ bound i := fun i =>
      (Nat.le_add_left _ _).trans (h.add_mul_size_square_le (by omega) i)
    exact ⟨hmul h.square h.square, fun i => (hdouble i).trans (htwo i),
      fun i => Nat.mul_le_mul_left _ (hdouble i)⟩

/-- One round takes from what is left to multiply what it adds to the result. -/
theorem next : IsWithin P size bound s.next := by
  obtain ⟨hresult, hresult_le⟩ := h.result_next hmul hsize
  obtain ⟨hsquare, hsquare_le, hpending_le⟩ := h.square_next hmul hsize
  refine ⟨hresult, hsquare, hsquare_le, fun i => ?_⟩
  calc size i s.next.result + s.exponent / 2 * size i s.next.square
      ≤ size i s.result + s.exponent % 2 * size i s.square +
          s.exponent / 2 * (2 * size i s.square) := Nat.add_le_add (hresult_le i) (hpending_le i)
    _ = size i s.result + (s.exponent % 2 + 2 * (s.exponent / 2)) * size i s.square := by ring
    _ = size i s.result + s.exponent * size i s.square := by rw [Nat.mod_add_div]
    _ ≤ bound i := h.size_le i

end Round

end IsWithin

end PowerState

namespace Monomial

/-- No two exponents that the product adds are more than the limit together. -/
def AddsWithin (limit : ℕ) (m n : Monomial) : Prop :=
  ∀ f ∈ m.factors, ∀ g ∈ n.factors, f.1 = g.1 → f.2 + g.2 ≤ limit

instance (limit : ℕ) (m n : Monomial) : Decidable (AddsWithin limit m n) :=
  inferInstanceAs (Decidable (∀ f ∈ m.factors, ∀ g ∈ n.factors, f.1 = g.1 → f.2 + g.2 ≤ limit))

theorem IsCanonical.factor_eq_exponent {m : Monomial} (hm : m.IsCanonical) {f : Symbol × ℕ}
    (hf : f ∈ m.factors) : f.2 = m.exponent f.1 := by
  rw [hm.exponent_eq]
  exact ((hm.mem_factors_iff f.1 f.2).mp hf).2.symm

end Monomial

namespace Expression

open PowerState

variable {a b e : Expression} {limit n : ℕ}

/-- No monomials of the two are multiplied with exponents beyond the limit. -/
def MultipliesWithin (limit : ℕ) (a b : Expression) : Prop :=
  ∀ t ∈ a.terms, ∀ u ∈ b.terms, t.1.AddsWithin limit u.1

instance (limit : ℕ) (a b : Expression) : Decidable (MultipliesWithin limit a b) :=
  inferInstanceAs (Decidable (∀ t ∈ a.terms, ∀ u ∈ b.terms, t.1.AddsWithin limit u.1))

/-- The product with exponents of limited width, unless some sum of two exponents overflows. -/
def mulWithin? (limit : ℕ) (a b : Expression) : Option Expression :=
  if a.MultipliesWithin limit b then some (a * b) else none

def powWithin? (limit : ℕ) (e : Expression) (n : ℕ) : Option Expression :=
  power? (mulWithin? limit) one e n

theorem mulWithin?_eq_some_iff {p : Expression} :
    mulWithin? limit a b = some p ↔ a.MultipliesWithin limit b ∧ p = a * b := by
  unfold mulWithin?
  split_ifs with h
  · simp [h, eq_comm]
  · simp [h]

theorem degreeIn_one (s : Symbol) : one.degreeIn s = 0 := by
  simp [one, degreeIn, terms_constant]

theorem exponent_le_degreeIn {t : Term} (ht : t ∈ e.terms) (s : Symbol) :
    t.1.exponent s ≤ e.degreeIn s :=
  degreeIn_le_iff.mp le_rfl t ht

/-- Degrees that are within the limit together leave no sum of exponents to overflow. -/
theorem IsCanonical.multipliesWithin (ha : a.IsCanonical) (hb : b.IsCanonical)
    (h : ∀ s, a.degreeIn s + b.degreeIn s ≤ limit) : a.MultipliesWithin limit b := by
  rintro t ht u hu ⟨s, d⟩ hd ⟨_, k⟩ hk rfl
  rw [(ha.monomial_of_mem ht).factor_eq_exponent hd, (hb.monomial_of_mem hu).factor_eq_exponent hk]
  exact (Nat.add_le_add (exponent_le_degreeIn ht s) (exponent_le_degreeIn hu s)).trans (h s)

theorem IsCanonical.degreeIn_mul_le_of_multipliesWithin (ha : a.IsCanonical)
    (hb : b.IsCanonical) (h : a.MultipliesWithin limit b) {s : Symbol}
    (ha' : a.degreeIn s ≤ limit) (hb' : b.degreeIn s ≤ limit) : (a * b).degreeIn s ≤ limit := by
  rw [degreeIn_le_iff]
  intro t ht
  obtain ⟨u, hu, v, hv, htuv⟩ := exists_of_mem_terms_mul ht
  have hum := ha.monomial_of_mem hu
  have hvm := hb.monomial_of_mem hv
  rw [htuv, (hum.mul hvm).exponent_eq, Monomial.exponents_mul, Finsupp.add_apply]
  by_cases hus : u.1.exponents s = 0
  · rw [hus, Nat.zero_add, ← hvm.exponent_eq]
    exact (exponent_le_degreeIn hv s).trans hb'
  · by_cases hvs : v.1.exponents s = 0
    · rw [hvs, Nat.add_zero, ← hum.exponent_eq]
      exact (exponent_le_degreeIn hu s).trans ha'
    · exact h u hu v hv (s, _) ((hum.mem_factors_iff s _).mpr ⟨hus, rfl⟩) (s, _)
        ((hvm.mem_factors_iff s _).mpr ⟨hvs, rfl⟩) rfl

/-- The degrees of the power bound all that is multiplied on the way to it. -/
theorem IsCanonical.isWithin_of_mem_trace (he : e.IsCanonical) (hn : 1 ≤ n) :
    ∀ state ∈ PowerState.trace ⟨one, e, n⟩,
      state.IsWithin IsCanonical (fun s a => a.degreeIn s) (fun s => n * e.degreeIn s) := by
  apply forall_mem_trace
  · intro state _ hstate
    exact hstate.next .mul fun s _ _ ha hb => IsCanonical.degreeIn_mul_le ha hb le_rfl le_rfl
  · refine ⟨isCanonical_one, he, fun s => Nat.le_mul_of_pos_left _ hn, fun s => ?_⟩
    simp only [degreeIn_one, Nat.zero_add, le_refl]

theorem IsCanonical.multipliesWithin_of_mem_trace (he : e.IsCanonical) (hn : 1 ≤ n)
    (h : ∀ s, n * e.degreeIn s ≤ limit) :
    ∀ state ∈ PowerState.trace ⟨one, e, n⟩, ∀ p ∈ state.factors,
      p.1.MultipliesWithin limit p.2 := by
  intro state hstate p hp
  obtain ⟨hfirst, hsecond, hle⟩ := (he.isWithin_of_mem_trace hn state hstate).of_mem_factors hp
  exact hfirst.multipliesWithin hsecond fun s => (hle s).trans (h s)

theorem IsCanonical.powWithin?_of_mul_degreeIn_le (he : e.IsCanonical) (hn : 1 ≤ n)
    (h : ∀ s, n * e.degreeIn s ≤ limit) : e.powWithin? limit n = some (e.pow n) := by
  apply run?_eq_some_run
  intro state hstate p hp
  exact mulWithin?_eq_some_iff.mpr ⟨he.multipliesWithin_of_mem_trace hn h state hstate p hp, rfl⟩

theorem eq_pow_of_powWithin? {p : Expression} (h : e.powWithin? limit n = some p) :
    p = e.pow n :=
  eq_run_of_run?_eq_some (fun h => (mulWithin?_eq_some_iff.mp h).2) h

theorem IsCanonical.degreeIn_le_of_powWithin? (he : e.IsCanonical)
    (hle : ∀ s, e.degreeIn s ≤ limit) {p : Expression} (h : e.powWithin? limit n = some p) :
    ∀ s, p.degreeIn s ≤ limit := by
  suffices hp : p.IsCanonical ∧ ∀ s, p.degreeIn s ≤ limit from hp.2
  refine of_run?_eq_some (P := fun a => a.IsCanonical ∧ ∀ s, a.degreeIn s ≤ limit) ?_ ?_
    ⟨he, hle⟩ h
  · rintro a b c hc ⟨ha, ha'⟩ ⟨hb, hb'⟩
    obtain ⟨hwithin, rfl⟩ := mulWithin?_eq_some_iff.mp hc
    exact ⟨ha.mul hb, fun s =>
      ha.degreeIn_mul_le_of_multipliesWithin hb hwithin (ha' s) (hb' s)⟩
  · exact ⟨isCanonical_one, fun s => (degreeIn_one s).trans_le (Nat.zero_le _)⟩

theorem IsCanonical.mul_degreeIn_le (he : e.IsCanonical)
    (h : ∀ s, (e.pow n).degreeIn s ≤ limit) (s : Symbol) : n * e.degreeIn s ≤ limit := by
  by_cases he0 : e = zero
  · subst he0
    exact Nat.zero_le _
  · rw [← he.degreeIn_pow he0]
    exact h s

theorem IsCanonical.powWithin?_eq_some_iff (he : e.IsCanonical) (hn : 1 ≤ n)
    (hle : ∀ s, e.degreeIn s ≤ limit) :
    e.powWithin? limit n = some (e.pow n) ↔ ∀ s, (e.pow n).degreeIn s ≤ limit :=
  ⟨he.degreeIn_le_of_powWithin? hle, fun h =>
    he.powWithin?_of_mul_degreeIn_le hn (he.mul_degreeIn_le h)⟩

theorem IsCanonical.powWithin?_eq_none_iff (he : e.IsCanonical) (hn : 1 ≤ n)
    (hle : ∀ s, e.degreeIn s ≤ limit) :
    e.powWithin? limit n = none ↔ ∃ s, limit < (e.pow n).degreeIn s := by
  have hnone : e.powWithin? limit n = none ↔ ¬ e.powWithin? limit n = some (e.pow n) := by
    cases hp : e.powWithin? limit n with
    | none => simp
    | some p => simp [eq_pow_of_powWithin? hp]
  rw [hnone, he.powWithin?_eq_some_iff hn hle]
  simp only [not_forall, not_le]

/-- On the way to a power no value has a higher degree than the power may have. With
exponents of limited width, no sum of two exponents overflows if the power fits, and so
the power is given exactly when it fits. -/
theorem pow_overflowsOnlyAtTheEnd (he : e.IsConstructible) (hn : 1 ≤ n) :
    (∀ state ∈ PowerState.trace ⟨one, e, n⟩, ∀ s,
      state.result.degreeIn s ≤ n * e.degreeIn s ∧ state.square.degreeIn s ≤ n * e.degreeIn s) ∧
    (∀ limit, (∀ s, n * e.degreeIn s ≤ limit) →
      (∀ state ∈ PowerState.trace ⟨one, e, n⟩, ∀ p ∈ state.factors,
        p.1.MultipliesWithin limit p.2) ∧ e.powWithin? limit n = some (e.pow n)) ∧
    ∀ limit, (∀ s, e.degreeIn s ≤ limit) →
      (e.powWithin? limit n = some (e.pow n) ↔ ∀ s, (e.pow n).degreeIn s ≤ limit) ∧
      (e.powWithin? limit n = none ↔ ∃ s, limit < (e.pow n).degreeIn s) := by
  have he := he.isCanonical
  refine ⟨?_, ?_, ?_⟩
  · intro state hstate s
    have hwithin := he.isWithin_of_mem_trace hn state hstate
    exact ⟨hwithin.size_result_le s, hwithin.size_square_le s⟩
  · intro limit h
    exact ⟨he.multipliesWithin_of_mem_trace hn h, he.powWithin?_of_mul_degreeIn_le hn h⟩
  · intro limit hle
    exact ⟨he.powWithin?_eq_some_iff hn hle, he.powWithin?_eq_none_iff hn hle⟩

/-- The third power has the largest exponent of 32 bits, which one more square would exceed. -/
theorem pow_overflowsOnlyAtTheEnd_third :
    let e : Expression := ⟨[(⟨[(⟨"x"⟩, 1431655765)]⟩, 1), (⟨[(⟨"y"⟩, 2)]⟩, -1 / 2)]⟩
    e.IsConstructible ∧ 1 ≤ 3 ∧ (∀ s, 3 * e.degreeIn s ≤ 4294967295) ∧
      (∀ state ∈ PowerState.trace ⟨one, e, 3⟩, ∀ s,
        state.result.degreeIn s ≤ 3 * e.degreeIn s ∧
          state.square.degreeIn s ≤ 3 * e.degreeIn s) ∧
      (∀ state ∈ PowerState.trace ⟨one, e, 3⟩, ∀ p ∈ state.factors,
        p.1.MultipliesWithin 4294967295 p.2) ∧
      e.powWithin? 4294967295 3 = some (e.pow 3) ∧
      (∀ s, e.degreeIn s ≤ 4294967294) ∧ e.powWithin? 4294967294 3 = none := by
  intro e
  have he : e.IsConstructible := isConstructible_iff.mpr (by decide +kernel)
  have hdegree : ∀ s, e.degreeIn s ≤ 1431655765 := by
    intro s
    simp only [e, degreeIn_le_iff, List.forall_mem_cons, Monomial.exponent, Monomial.exponentIn]
    refine ⟨?_, ?_, by simp⟩ <;> split <;> decide
  obtain ⟨hvalues, hfits, hexact⟩ := pow_overflowsOnlyAtTheEnd he (n := 3) (by decide)
  have hlimit : ∀ s, 3 * e.degreeIn s ≤ 4294967295 := fun s => Nat.mul_le_mul_left 3 (hdegree s)
  obtain ⟨hfactors, hpow⟩ := hfits 4294967295 hlimit
  have hless : ∀ s, e.degreeIn s ≤ 4294967294 := fun s => (hdegree s).trans (by decide)
  have hover : 4294967294 < (e.pow 3).degreeIn ⟨"x"⟩ := by
    rw [he.isCanonical.degreeIn_pow (by decide)]
    decide
  exact ⟨he, by decide, hlimit, hvalues, hfactors, hpow, hless,
    (hexact 4294967294 hless).2.mpr ⟨_, hover⟩⟩

end Expression

end PivotCoefficients
