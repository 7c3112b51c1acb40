import PivotCoefficients.Proofs.Construction.Canonical
import PivotCoefficients.Proofs.Expression.Bounds
import PivotCoefficients.Proofs.Expression.Evaluation

/-!
# Values of results

Where two expressions have values, so has every result of an operation on them: it
has no symbols but theirs, and its value is that of the operation on their values.
-/
namespace PivotCoefficients

open MvPolynomial

namespace Monomial

variable {ρ : Binding} {c x : ℚ}

theorem isSome_of_evaluateFactors {fs : List (Symbol × ℕ)}
    (h : evaluateFactors ρ c fs = .ok x) : ∀ f ∈ fs, (ρ f.1).isSome := by
  induction fs generalizing c with
  | nil => simp
  | cons f fs ih =>
    obtain ⟨s, n⟩ := f
    cases hs : ρ s with
    | none =>
      rw [evaluateFactors, Binding.get_of_eq_none hs] at h
      cases h
    | some y =>
      rw [evaluateFactors, Binding.get_of_eq_some hs] at h
      exact List.forall_mem_cons.mpr ⟨Option.isSome_iff_exists.mpr ⟨y, hs⟩, ih h⟩

end Monomial

namespace Expression

variable {ρ : Binding} {a b e : Expression} {x y : ℚ}

theorem isSome_of_evaluateTerms {ts : List Term} {total : ℚ}
    (h : evaluateTerms ρ total ts = .ok x) :
    ∀ t ∈ ts, ∀ f ∈ t.1.factors, (ρ f.1).isSome := by
  induction ts generalizing total with
  | nil => simp
  | cons t ts ih =>
    obtain ⟨m, c⟩ := t
    cases hm : Monomial.evaluateFactors ρ c m.factors with
    | error err => simp [evaluateTerms, hm] at h
    | ok y =>
      simp only [evaluateTerms, hm] at h
      exact List.forall_mem_cons.mpr ⟨Monomial.isSome_of_evaluateFactors hm, ih h⟩

theorem isSome_of_evaluate (h : e.evaluate ρ = .ok x) : ∀ s ∈ e.symbols, (ρ s).isSome := by
  intro s hs
  obtain ⟨t, ht, hst⟩ := mem_symbols_iff.mp hs
  obtain ⟨f, hf, rfl⟩ := List.mem_map.mp hst
  exact isSome_of_evaluateTerms h t ht f hf

theorem eval_of_evaluate (h : e.evaluate ρ = .ok x) : eval ρ.values e.polynomial = x :=
  Except.ok.inj ((evaluate_eq_values (isSome_of_evaluate h)).symm.trans h)

/-- What is made of two expressions, a number and an exponent by one operation each. -/
def results (a b : Expression) (k : ℚ) (n : ℕ) : List Expression :=
  [a + b, a - b, -a, a * b, a.scale k, a.pow n]

section Results

variable {k : ℚ} {n : ℕ}

theorem forall_mem_results {P : Expression → Prop} :
    (∀ r ∈ results a b k n, P r) ↔
      P (a + b) ∧ P (a - b) ∧ P (-a) ∧ P (a * b) ∧ P (a.scale k) ∧ P (a.pow n) := by
  simp [results]

theorem isCanonical_of_mem_results (ha : a.IsCanonical) (hb : b.IsCanonical) :
    ∀ r ∈ results a b k n, r.IsCanonical :=
  forall_mem_results.mpr
    ⟨ha.add hb, ha.sub hb, ha.neg, ha.mul hb, ha.scale k, ha.pow n⟩

theorem polynomial_mem_of_mem_results {S : Subalgebra ℚ (MvPolynomial Symbol ℚ)}
    (ha : a.polynomial ∈ S) (hb : b.polynomial ∈ S) :
    ∀ r ∈ results a b k n, r.polynomial ∈ S :=
  forall_mem_results.mpr
    ⟨polynomial_add_mem ha hb, polynomial_sub_mem ha hb, polynomial_neg_mem ha,
      polynomial_mul_mem ha hb, polynomial_scale_mem ha k, polynomial_pow_mem ha n⟩

theorem mem_symbols_of_mem_results (ha : a.IsCanonical) (hb : b.IsCanonical) :
    ∀ r ∈ results a b k n, ∀ s ∈ r.symbols, s ∈ a.symbols ∨ s ∈ b.symbols := by
  intro r hr s hs
  have hrcanonical := isCanonical_of_mem_results ha hb r hr
  apply hrcanonical.mem_of_mem_symbols (T := {s | s ∈ a.symbols ∨ s ∈ b.symbols}) _ hs
  apply polynomial_mem_of_mem_results _ _ r hr
  · exact ha.polynomial_mem_supported fun _ => Or.inl
  · exact hb.polynomial_mem_supported fun _ => Or.inr

theorem evaluate_of_mem_results (ha : a.IsCanonical) (hb : b.IsCanonical)
    (hx : a.evaluate ρ = .ok x) (hy : b.evaluate ρ = .ok y) :
    ∀ r ∈ results a b k n, r.evaluate ρ = .ok (eval ρ.values r.polynomial) := by
  intro r hr
  apply evaluate_eq_values
  intro s hs
  rcases mem_symbols_of_mem_results ha hb r hr s hs with hs | hs
  · exact isSome_of_evaluate hx s hs
  · exact isSome_of_evaluate hy s hs

/-- Where two constructed expressions have values, so have all results of operations
on them. They have no other symbols, and the values are the results of the operations
on the values. -/
theorem evaluate_results (ha : a.IsConstructible) (hb : b.IsConstructible)
    (hx : a.evaluate ρ = .ok x) (hy : b.evaluate ρ = .ok y) (k : ℚ) (n : ℕ) :
    (∀ r ∈ results a b k n, ∀ s ∈ r.symbols, s ∈ a.symbols ∨ s ∈ b.symbols) ∧
      (a + b).evaluate ρ = .ok (x + y) ∧ (a - b).evaluate ρ = .ok (x - y) ∧
      (-a).evaluate ρ = .ok (-x) ∧ (a * b).evaluate ρ = .ok (x * y) ∧
      (a.scale k).evaluate ρ = .ok (k * x) ∧ (a.pow n).evaluate ρ = .ok (Rational.pow x n) := by
  have hvalues := forall_mem_results.mp
    (evaluate_of_mem_results (k := k) (n := n) ha.isCanonical hb.isCanonical hx hy)
  simp only [polynomial_add, polynomial_sub, polynomial_neg, polynomial_mul, polynomial_scale,
    polynomial_pow, map_add, map_sub, map_neg, map_mul, map_pow, eval_C, eval_of_evaluate hx,
    eval_of_evaluate hy] at hvalues
  rw [Rational.pow_eq, mul_comm k]
  exact ⟨mem_symbols_of_mem_results ha.isCanonical hb.isCanonical, hvalues⟩

/-- One of the two values is zero and is raised to the power zero, and one symbol has a
value that is not needed. -/
theorem evaluate_results_zero :
    let x : Symbol := ⟨"x"⟩
    let y : Symbol := ⟨"y"⟩
    let a : Expression := ⟨[(⟨[(x, 1), (y, 2)]⟩, 3)]⟩
    let b : Expression := ⟨[(⟨[(y, 1)]⟩, -2), (.one, 1)]⟩
    let ρ := Binding.ofList [(x, 0), (y, 5 / 2), (⟨"z"⟩, 7)]
    a.IsConstructible ∧ b.IsConstructible ∧ a.evaluate ρ = .ok 0 ∧ b.evaluate ρ = .ok (-4) ∧
      (∀ r ∈ results a b (2 / 3) 0, ∀ s ∈ r.symbols, s ∈ a.symbols ∨ s ∈ b.symbols) ∧
      (a + b).evaluate ρ = .ok (0 + -4) ∧ (a - b).evaluate ρ = .ok (0 - -4) ∧
      (-a).evaluate ρ = .ok (-0) ∧ (a * b).evaluate ρ = .ok (0 * -4) ∧
      (a.scale (2 / 3)).evaluate ρ = .ok (2 / 3 * 0) ∧
      (a.pow 0).evaluate ρ = .ok (Rational.pow 0 0) := by
  intro x y a b ρ
  have ha : a.IsConstructible := isConstructible_iff.mpr (by decide +kernel)
  have hb : b.IsConstructible := isConstructible_iff.mpr (by decide +kernel)
  have hρx : ρ.get x = .ok 0 := rfl
  have hρy : ρ.get y = .ok (5 / 2) := rfl
  have hx : a.evaluate ρ = .ok 0 := by
    simp [a, evaluate, evaluateTerms, Monomial.evaluateFactors, hρx, hρy]
  have hy : b.evaluate ρ = .ok (-4) := by
    norm_num [b, evaluate, evaluateTerms, Monomial.evaluateFactors, hρy]
  exact ⟨ha, hb, hx, hy, evaluate_results ha hb hx hy (2 / 3) 0⟩

end Results

end Expression

end PivotCoefficients
