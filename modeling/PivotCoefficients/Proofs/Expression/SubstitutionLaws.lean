import PivotCoefficients.Proofs.Expression.Bounds
import PivotCoefficients.Proofs.Expression.Substitution

/-!
# Laws of substitution

Substitution commutes with every operation: what it does to the terms of a result,
after terms were merged or cancelled, it does to the terms of the arguments before.
Two substitutions may change places when the value of the later one is put into that
of the earlier one first, and does not bring the symbol of the earlier one back.
-/
namespace PivotCoefficients.Expression

open MvPolynomial

/-- To put `v` in the place of `s` in the result of an operation is to apply the operation to
the arguments with `v` in this place. -/
structure CommutesWithSubstitution (s : Symbol) (v a b : Expression) : Prop where
  constant : ∀ c, (constant c).substitute s v = constant c
  add : (a + b).substitute s v = a.substitute s v + b.substitute s v
  sub : (a - b).substitute s v = a.substitute s v - b.substitute s v
  neg : (-a).substitute s v = -a.substitute s v
  mul : (a * b).substitute s v = a.substitute s v * b.substitute s v
  scale : ∀ k, (a.scale k).substitute s v = (a.substitute s v).scale k
  pow : ∀ n, (a.pow n).substitute s v = (a.substitute s v).pow n

variable {a b e r v w : Expression} {s t : Symbol}

namespace IsCanonical

theorem substitute_eq_of_bind₁_eq (he : e.IsCanonical) (hv : v.IsCanonical) (hr : r.IsCanonical)
    (h : bind₁ (substituted s v) e.polynomial = r.polynomial) : e.substitute s v = r :=
  (he.substitute hv s).eq_of_polynomial_eq hr ((he.polynomial_substitute s v).trans h)

theorem commutesWithSubstitution (ha : a.IsCanonical) (hb : b.IsCanonical) (hv : v.IsCanonical)
    (s : Symbol) : CommutesWithSubstitution s v a b := by
  have hav := ha.substitute hv s
  have hbv := hb.substitute hv s
  constructor
  case constant =>
    intro c
    apply (isCanonical_constant c).substitute_eq_of_bind₁_eq hv (isCanonical_constant c)
    rw [polynomial_constant, bind₁_C_right]
  case add =>
    apply (ha.add hb).substitute_eq_of_bind₁_eq hv (hav.add hbv)
    rw [polynomial_add, polynomial_add, map_add, ha.polynomial_substitute,
      hb.polynomial_substitute]
  case sub =>
    apply (ha.sub hb).substitute_eq_of_bind₁_eq hv (hav.sub hbv)
    rw [polynomial_sub, polynomial_sub, map_sub, ha.polynomial_substitute,
      hb.polynomial_substitute]
  case neg =>
    apply ha.neg.substitute_eq_of_bind₁_eq hv hav.neg
    rw [polynomial_neg, polynomial_neg, map_neg, ha.polynomial_substitute]
  case mul =>
    apply (ha.mul hb).substitute_eq_of_bind₁_eq hv (hav.mul hbv)
    rw [polynomial_mul, polynomial_mul, map_mul, ha.polynomial_substitute,
      hb.polynomial_substitute]
  case scale =>
    intro k
    apply (ha.scale k).substitute_eq_of_bind₁_eq hv (hav.scale k)
    rw [polynomial_scale, polynomial_scale, map_mul, bind₁_C_right, ha.polynomial_substitute]
  case pow =>
    intro n
    apply (ha.pow n).substitute_eq_of_bind₁_eq hv (hav.pow n)
    rw [polynomial_pow, polynomial_pow, map_pow, ha.polynomial_substitute]

theorem bind₁_of_notMem (hw : w.IsCanonical) (hs : s ∉ w.symbols) (v : Expression) :
    bind₁ (substituted s v) w.polynomial = w.polynomial :=
  bind₁_of_mem_supported (hw.polynomial_mem_supported_of_notMem hs) v

/-- What a symbol stands for after the one substitution and the other. -/
theorem bind₁_substituted (hv : v.IsCanonical) (hw : w.IsCanonical) (hst : s ≠ t)
    (hs : s ∉ w.symbols) (u : Symbol) :
    bind₁ (substituted t w) (substituted s v u) =
      bind₁ (substituted s (v.substitute t w)) (substituted t w u) := by
  by_cases hus : u = s
  · rw [hus, substituted_self, substituted_of_ne hst, bind₁_X_right, substituted_self,
      hv.polynomial_substitute]
  · by_cases hut : u = t
    · -- `w` is put in first on the right, and has no `s`
      rw [hut, substituted_self, substituted_of_ne hst.symm, bind₁_X_right, substituted_self,
        hw.bind₁_of_notMem hs]
    · rw [substituted_of_ne hus, substituted_of_ne hut, bind₁_X_right, bind₁_X_right,
        substituted_of_ne hut, substituted_of_ne hus]

theorem substitute_substitute (ha : a.IsCanonical) (hv : v.IsCanonical) (hw : w.IsCanonical)
    (hst : s ≠ t) (hs : s ∉ w.symbols) :
    (a.substitute s v).substitute t w = (a.substitute t w).substitute s (v.substitute t w) := by
  have hleft := (ha.substitute hv s).substitute hw t
  have hright := (ha.substitute hw t).substitute (hv.substitute hw t) s
  apply hleft.eq_of_polynomial_eq hright
  rw [(ha.substitute hv s).polynomial_substitute, ha.polynomial_substitute, bind₁_bind₁,
    (ha.substitute hw t).polynomial_substitute, ha.polynomial_substitute, bind₁_bind₁]
  simp only [bind₁_substituted hv hw hst hs]

end IsCanonical

/-- Substitution is a homomorphism for the operations on expressions, and two
substitutions obey the substitution lemma. -/
theorem substitute_obeys_laws (ha : a.IsConstructible) (hb : b.IsConstructible)
    (hv : v.IsConstructible) (hw : w.IsConstructible) (s t : Symbol) :
    CommutesWithSubstitution s v a b ∧ (s ≠ t → s ∉ w.symbols →
      (a.substitute s v).substitute t w =
        (a.substitute t w).substitute s (v.substitute t w)) := by
  have ha := ha.isCanonical
  have hv := hv.isCanonical
  constructor
  · exact ha.commutesWithSubstitution hb.isCanonical hv s
  · intro hst hs
    exact ha.substitute_substitute hv hw.isCanonical hst hs

/-- The first value contains both symbols, so the second substitution changes it, and the
sum of the two expressions cancels. -/
theorem substitute_obeys_laws_interacting :
    let x : Symbol := ⟨"x"⟩
    let y : Symbol := ⟨"y"⟩
    let z : Symbol := ⟨"z"⟩
    let a : Expression := ⟨[(⟨[(x, 2), (y, 1)]⟩, 1), (⟨[(y, 3)]⟩, -1 / 2)]⟩
    let b : Expression := ⟨[(⟨[(x, 2), (y, 1)]⟩, -1), (.var x, 4)]⟩
    let v : Expression := ⟨[(.var x, 1), (.var y, 1)]⟩
    let w : Expression := ⟨[(⟨[(y, 1), (z, 1)]⟩, 3), (.var y, -1)]⟩
    a.IsConstructible ∧ b.IsConstructible ∧ v.IsConstructible ∧ w.IsConstructible ∧
      x ≠ y ∧ x ∉ w.symbols ∧ CommutesWithSubstitution x v a b ∧
      (a.substitute x v).substitute y w =
        (a.substitute y w).substitute x (v.substitute y w) := by
  intro x y z a b v w
  have ha : a.IsConstructible := isConstructible_iff.mpr (by decide +kernel)
  have hb : b.IsConstructible := isConstructible_iff.mpr (by decide +kernel)
  have hv : v.IsConstructible := isConstructible_iff.mpr (by decide +kernel)
  have hw : w.IsConstructible := isConstructible_iff.mpr (by decide +kernel)
  have hxy : x ≠ y := by decide
  have hx : x ∉ w.symbols := by
    intro hx
    obtain ⟨t, ht, hxt⟩ := mem_symbols_iff.mp hx
    revert t
    decide +kernel
  obtain ⟨hcommutes, hlemma⟩ := substitute_obeys_laws ha hb hv hw x y
  exact ⟨ha, hb, hv, hw, hxy, hx, hcommutes, hlemma hxy hx⟩

end PivotCoefficients.Expression
