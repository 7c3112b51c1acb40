import Mathlib.Algebra.MvPolynomial.Monad
import Mathlib.Algebra.MvPolynomial.Supported
import PivotCoefficients.Proofs.CoefficientTable.Collection
import PivotCoefficients.Proofs.Construction.Canonical
import PivotCoefficients.Proofs.Expression.Symbols

/-!
# Substitution

To put an expression in the place of a symbol is to substitute its polynomial. So
the result has the value of the original expression where the symbol has the value
of what was put in its place, be the symbol free in that or not.
-/
namespace PivotCoefficients

open FormalSum MvPolynomial

/-- The polynomials that the symbols stand for after a substitution. -/
noncomputable def Expression.substituted (s : Symbol) (v : Expression) :
    Symbol → MvPolynomial Symbol ℚ :=
  Function.update X s v.polynomial

@[simp] theorem Expression.substituted_self (s : Symbol) (v : Expression) :
    substituted s v s = v.polynomial :=
  Function.update_self ..

theorem Expression.substituted_of_ne {s t : Symbol} (h : t ≠ s) (v : Expression) :
    substituted s v t = X t :=
  Function.update_of_ne h ..

theorem Expression.bind₁_of_mem_supported {s : Symbol} {p : MvPolynomial Symbol ℚ}
    (hp : p ∈ supported ℚ {t : Symbol | t ≠ s}) (v : Expression) :
    bind₁ (substituted s v) p = p := by
  let φ : MvPolynomial Symbol ℚ →+* MvPolynomial Symbol ℚ := (bind₁ (substituted s v)).toRingHom
  have hconstants : φ.comp C = (RingHom.id _).comp C := by
    ext c
    simp [φ]
  have hsymbols : ∀ t ∈ p.vars, t ∈ p.vars → φ (X t) = RingHom.id _ (X t) := by
    intro t ht _
    have hts : t ≠ s := mem_supported.mp hp ht
    simp [φ, substituted_of_ne hts]
  exact hom_congr_vars hconstants hsymbols rfl

namespace Monomial

variable {m : Monomial} {s : Symbol}

theorem bind₁_weight_without (v : Expression) (c : ℚ) :
    bind₁ (Expression.substituted s v) ((m.without s).weight c) = (m.without s).weight c := by
  refine Expression.bind₁_of_mem_supported (mem_supported.mpr ?_) v
  rintro t ht rfl
  obtain ⟨d, hd, ht⟩ := (mem_vars_iff_mem_support _).mp ht
  obtain rfl := Finset.mem_singleton.mp (support_monomial_subset hd)
  rw [exponents_without] at ht
  simp at ht

theorem bind₁_weight (hm : m.IsCanonical) (v : Expression) (c : ℚ) :
    bind₁ (Expression.substituted s v) (m.weight c) =
      (m.without s).weight c * v.polynomial ^ m.exponent s := by
  rw [← Expression.weight_without hm s, map_mul, bind₁_weight_without, map_pow, bind₁_X_right,
    Expression.substituted_self]

end Monomial

namespace Expression

variable {e v : Expression} {s : Symbol} {ρ : Binding}

theorem total_substituteTerm {t : Term} (ht : t.1.IsCanonical) :
    total Monomial.weight (substituteTerm s v t) =
      (t.1.without s).weight t.2 * v.polynomial ^ t.1.exponent s := by
  rw [substituteTerm]
  split
  · next hzero =>
    have hwithout := weight_without ht s t.2
    rw [hzero] at hwithout ⊢
    simpa [total] using hwithout.symm
  · rw [total_map_term_mul, polynomial_repeatedProduct]

theorem IsCanonical.polynomial_substitute (he : e.IsCanonical) (s : Symbol) (v : Expression) :
    (e.substitute s v).polynomial = bind₁ (substituted s v) e.polynomial := by
  rw [substitute_eq, polynomial_ofTerms, total_flatMap, polynomial, total, map_list_sum,
    List.map_map]
  congr 1
  apply List.map_congr_left
  intro t ht
  have hcanonical := he.monomial_of_mem ht
  exact (total_substituteTerm hcanonical).trans (Monomial.bind₁_weight hcanonical v t.2).symm

/-- The value of the result is the value of the expression where the symbol has the
value of what is put in its place. -/
theorem IsCanonical.eval_substitute (he : e.IsCanonical) (s : Symbol) (v : Expression)
    (w : Symbol → ℚ) :
    eval w (e.substitute s v).polynomial =
      eval (Function.update w s (eval w v.polynomial)) e.polynomial := by
  have hvalues : (fun t => eval w (substituted s v t)) =
      Function.update w s (eval w v.polynomial) := by
    funext t
    by_cases hts : t = s
    · rw [hts, substituted_self, Function.update_self]
    · rw [substituted_of_ne hts, Function.update_of_ne hts, eval_X]
  rw [he.polynomial_substitute, ← hvalues]
  exact eval₂Hom_bind₁ _ _ _ _

end Expression

theorem Binding.values_set (ρ : Binding) (s : Symbol) (x : ℚ) :
    (ρ.set s x).values = Function.update ρ.values s x := by
  funext t
  by_cases hts : t = s
  · rw [hts, Function.update_self]
    simp [values, set]
  · rw [Function.update_of_ne hts]
    simp [values, set, hts]

namespace Expression

variable {e v : Expression} {s : Symbol} {ρ : Binding}

/-- Where the symbols of `v` have values, and those of `e` apart from `s`, the expression
`e` with `v` in the place of `s` has the value of `e` where `s` has the value of `v`. -/
theorem evaluate_substitute (he : e.IsConstructible) (hρv : ∀ t ∈ v.symbols, (ρ t).isSome)
    (hρe : ∀ t ∈ e.symbols, t ≠ s → (ρ t).isSome) :
    ∃ x y, v.evaluate ρ = .ok x ∧ (e.substitute s v).evaluate ρ = .ok y ∧
      e.evaluate (ρ.set s x) = .ok y := by
  have hsubstitute : (e.substitute s v).ForallSymbols (fun t => (ρ t).isSome) :=
    he.isCanonical.forallSymbols_substitute hρe hρv
  have hset : ∀ x, ∀ t ∈ e.symbols, (ρ.set s x t).isSome := by
    intro x t ht
    by_cases hts : t = s
    · simp [Binding.set, hts]
    · simpa [Binding.set, hts] using hρe t ht hts
  refine ⟨_, _, evaluate_eq_values hρv, evaluate_eq_values hsubstitute, ?_⟩
  rw [evaluate_eq_values (hset _), Binding.values_set, he.isCanonical.eval_substitute]

/-- The value contains the symbol, which occurs to the powers zero, one and three. -/
theorem evaluate_substitute_self :
    let x : Symbol := ⟨"x"⟩
    let y : Symbol := ⟨"y"⟩
    let e : Expression := ⟨[(⟨[(x, 3)]⟩, 1), (⟨[(x, 1), (y, 2)]⟩, -2), (.var y, 5)]⟩
    let v : Expression := ⟨[(.var x, 1), (.one, -1 / 2)]⟩
    let ρ := Binding.ofList [(x, 2), (y, 1 / 3)]
    e.IsConstructible ∧ (∀ t ∈ v.symbols, (ρ t).isSome) ∧
      (∀ t ∈ e.symbols, t ≠ x → (ρ t).isSome) ∧
      ∃ u w, v.evaluate ρ = .ok u ∧ (e.substitute x v).evaluate ρ = .ok w ∧
        e.evaluate (ρ.set x u) = .ok w := by
  intro x y e v ρ
  have he : e.IsConstructible := isConstructible_iff.mpr (by decide +kernel)
  have hρv : ∀ t ∈ v.symbols, (ρ t).isSome := by decide +kernel
  have hρe : ∀ t ∈ e.symbols, t ≠ x → (ρ t).isSome :=
    forallSymbols_iff.mpr
      (show ∀ t ∈ e.terms, ∀ r ∈ t.1.symbols, r ≠ x → (ρ r).isSome by decide +kernel)
  exact ⟨he, hρv, hρe, evaluate_substitute he hρv hρe⟩

end Expression

end PivotCoefficients
