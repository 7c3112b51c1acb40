import PivotCoefficients.Proofs.ArrayLiteral.Rendering
import PivotCoefficients.Proofs.Construction.Canonical

/-!
# What a rendered expression denotes

Rendering unrolls powers, leaves out units and moves signs between terms. The formula
of the text is therefore another than the one that built the expression, but working
it out gives the expression back, term by term. Texts thus tell expressions apart.
-/
namespace PivotCoefficients

open Formula

/-- The text is a sum of the target's grammar, and worked out it is the expression,
however it is taken apart and also as it is read. -/
structure Target.Denotes (target : Target) (text : String) (e : Expression) : Prop where
  exists_isSum : ∃ f, target.IsSum text f
  toExpression_eq : ∀ f, target.IsSum text f → f.toExpression = e
  read : (read? text).map toExpression = some e

theorem Target.Denotes.unique {target : Target} {text : String} {e e' : Expression}
    (h : target.Denotes text e) (h' : target.Denotes text e') : e' = e :=
  Option.some.inj (h'.read.symm.trans h.read)

namespace Expression

variable {e : Expression}

theorem IsCanonical.toExpression_formula (he : e.IsCanonical) :
    e.formula.toExpression = e := by
  apply (isCanonical_toExpression e.formula).eq_of_polynomial_eq he
  rw [polynomial_toExpression, polynomial_formula]

theorem IsCanonical.denotes_render (he : e.IsCanonical) (hid : ∀ s ∈ e.symbols, s.isIdentifier)
    (target : Target) : target.Denotes (e.render target.spelling) e where
  exists_isSum := ⟨e.formula, he.isSum_render hid target⟩
  toExpression_eq := by
    intro f hf
    have hread := he.read?_render hid target
    obtain rfl : f = e.formula := Option.some.inj (hf.read?_eq.symm.trans hread)
    exact he.toExpression_formula
  read := by rw [he.read?_render hid target, Option.map_some, he.toExpression_formula]

/-- A constructed expression over identifiers is what its text denotes, and no other
such expression has this text. -/
theorem render_denotes (he : e.IsConstructible) (hid : ∀ s ∈ e.symbols, s.isIdentifier)
    (target : Target) :
    target.Denotes (e.render target.spelling) e ∧
      ∀ e' : Expression, e'.IsConstructible → (∀ s ∈ e'.symbols, s.isIdentifier) →
        e'.render target.spelling = e.render target.spelling → e' = e := by
  have hdenotes := he.isCanonical.denotes_render hid target
  refine ⟨hdenotes, ?_⟩
  intro e' he' hid' htext
  have hdenotes' := he'.isCanonical.denotes_render hid' target
  rw [htext] at hdenotes'
  exact hdenotes.unique hdenotes'

/-- A negative fraction in front, a power, units and names that begin alike. -/
theorem render_denotes_fraction :
    let x : Symbol := ⟨"x"⟩
    let x1 : Symbol := ⟨"x1"⟩
    let e : Expression :=
      ⟨[(⟨[(x, 2), (x1, 1)]⟩, -3 / 2), (⟨[(x, 1)]⟩, 1), (⟨[(x1, 1)]⟩, -1), (.one, -7)]⟩
    e.IsConstructible ∧ (∀ s ∈ e.symbols, s.isIdentifier) ∧
      Target.rust.Denotes "-(3.0/2.0)*x*x*x1 + x - x1 - 7.0" e ∧
      ∀ e' : Expression, e'.IsConstructible → (∀ s ∈ e'.symbols, s.isIdentifier) →
        e'.render Target.rust.spelling = "-(3.0/2.0)*x*x*x1 + x - x1 - 7.0" → e' = e := by
  intro x x1 e
  have he : e.IsConstructible := isConstructible_iff.mpr (by decide +kernel)
  have hid : ∀ s ∈ e.symbols, s.isIdentifier := forall_mem_symbols_iff.mpr (by decide)
  have htext : e.render Target.rust.spelling = "-(3.0/2.0)*x*x*x1 + x - x1 - 7.0" := by
    decide +kernel
  have hdenotes := render_denotes he hid .rust
  rw [htext] at hdenotes
  exact ⟨he, hid, hdenotes⟩

end Expression

end PivotCoefficients
