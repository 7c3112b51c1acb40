import Mathlib.Algebra.CharZero.Infinite
import Mathlib.Algebra.MvPolynomial.Funext
import Mathlib.Algebra.Order.Ring.Rat
import PivotCoefficients.Proofs.Construction.Canonical
import PivotCoefficients.Proofs.Expression.Evaluation

/-!
# Equal expressions and equal values

Expressions are equal exactly when they have the same values. That equal values
suffice rests on two facts: a polynomial over the rationals is determined by its
values, and a canonical expression by its polynomial.
-/
namespace PivotCoefficients

open MvPolynomial

theorem Binding.ofList_map (v : Symbol → ℚ) {s : Symbol} {l : List Symbol} (hs : s ∈ l) :
    Binding.ofList (l.map (fun t => (t, v t))) s = some (v s) := by
  rw [Binding.ofList, ← List.map_reverse]
  have hs' : s ∈ l.reverse := List.mem_reverse.mpr hs
  generalize l.reverse = r at hs' ⊢
  induction r with
  | nil => simp at hs'
  | cons t r ih =>
    by_cases h : s = t
    · simp [h]
    · have hr : s ∈ r := (List.mem_cons.mp hs').resolve_left h
      have hst : (s == t) = false := by simpa using h
      simpa [List.lookup_cons, hst] using ih hr

namespace Expression

/-- Whatever values the symbols of both are bound to, both have one and the same value. -/
def HaveEqualValues (a b : Expression) : Prop :=
  ∀ l : List (Symbol × Rat), (∀ s ∈ a.symbols ++ b.symbols, (Binding.ofList l s).isSome) →
    ∃ x, a.evaluate (.ofList l) = .ok x ∧ b.evaluate (.ofList l) = .ok x

variable {a b : Expression}

theorem HaveEqualValues.polynomial_eq (h : HaveEqualValues a b) : a.polynomial = b.polynomial := by
  apply MvPolynomial.funext
  intro v
  let l := (a.symbols ++ b.symbols).map (fun s => (s, v s))
  have hl : ∀ s ∈ a.symbols ++ b.symbols, Binding.ofList l s = some (v s) :=
    fun s hs => Binding.ofList_map v hs
  obtain ⟨x, hax, hbx⟩ := h l (fun s hs => by simp [hl s hs])
  rw [evaluate_eq (fun s hs => hl s (List.mem_append_left _ hs))] at hax
  rw [evaluate_eq (fun s hs => hl s (List.mem_append_right _ hs))] at hbx
  exact Except.ok.inj (hax.trans hbx.symm)

/-- Constructed expressions are equal exactly when they have equal values. -/
theorem eq_iff_haveEqualValues (ha : a.IsConstructible) (hb : b.IsConstructible) :
    a = b ↔ HaveEqualValues a b := by
  constructor
  · rintro rfl l hl
    have hvalue := evaluate_eq_values (fun s hs => hl s (List.mem_append_left _ hs))
    exact ⟨_, hvalue, hvalue⟩
  · intro h
    exact ha.isCanonical.eq_of_polynomial_eq hb.isCanonical h.polynomial_eq

/-- Two ways to write a difference of squares. -/
theorem eq_iff_haveEqualValues_squares :
    let x := ofSymbol ⟨"x"⟩
    let a := (x + one) * (x - one)
    let b := x.pow 2 - one
    a.IsConstructible ∧ b.IsConstructible ∧ (a = b ↔ HaveEqualValues a b) := by
  intro x a b
  have hx : x.IsCanonical := isCanonical_ofSymbol _
  have ha : a.IsConstructible := isConstructible_iff.mpr
    ((hx.add isCanonical_one).mul (hx.sub isCanonical_one))
  have hb : b.IsConstructible := isConstructible_iff.mpr ((hx.pow 2).sub isCanonical_one)
  exact ⟨ha, hb, eq_iff_haveEqualValues ha hb⟩

end Expression

end PivotCoefficients
