import PivotCoefficients.Proofs.Monomial.BinarySearch

/-!
# Monomials as the free commutative monoid on symbols

Each list of symbol powers has a monomial, in which a symbol has the sum of the exponents
listed with it. Canonical monomials are equal when all their exponents are, and their
products add exponents. This is kept up by three ways to make a list of factors: sorting
and gathering, merging two lists, and taking one factor out.
-/
namespace PivotCoefficients.Monomial

open FormalSum

variable {fs gs : List (Symbol × ℕ)} {m n : Monomial}

/-- The sum of the exponents that are listed with the symbol. -/
def listedExponent (s : Symbol) (fs : List (Symbol × ℕ)) : ℕ :=
  ((fs.filter (fun f => f.1 = s)).map Prod.snd).sum

theorem exponent_ofFactors (fs : List (Symbol × ℕ)) (s : Symbol) :
    (ofFactors fs).exponent s = listedExponent s fs := by
  rw [(isCanonical_ofFactors fs).exponent_eq, exponents_ofFactors, amounts_apply, amount_eq_sum,
    listedExponent]

theorem ofFactors_perm (h : fs.Perm gs) : ofFactors fs = ofFactors gs := by
  apply (isCanonical_ofFactors fs).eq_of_exponents_eq (isCanonical_ofFactors gs)
  rw [exponents_ofFactors, exponents_ofFactors]
  exact total_perm _ h

namespace IsCanonical

theorem exponent_mul (hm : m.IsCanonical) (hn : n.IsCanonical) (s : Symbol) :
    (m * n).exponent s = m.exponent s + n.exponent s := by
  rw [(hm.mul hn).exponent_eq, exponents_mul, Finsupp.add_apply, hm.exponent_eq, hn.exponent_eq]

theorem eq_iff_exponent_eq (hm : m.IsCanonical) (hn : n.IsCanonical) :
    m = n ↔ ∀ s, m.exponent s = n.exponent s := by
  constructor
  · rintro rfl s
    rfl
  · intro h
    apply hm.eq_of_exponents_eq hn
    ext s
    rw [← hm.exponent_eq, ← hn.exponent_eq, h]

theorem exponent_without_self (hm : m.IsCanonical) (s : Symbol) :
    (m.without s).exponent s = 0 := by
  rw [(hm.without s).exponent_eq, exponents_without, Finsupp.erase_same]

end IsCanonical

/-- `m` is canonical, and its exponents, found from the front or by binary search, are the
sums of the listed ones. -/
structure IsProductOf (fs : List (Symbol × ℕ)) (m : Monomial) : Prop where
  isCanonical : m.IsCanonical
  exponent_eq : ∀ s, m.exponent s = listedExponent s fs
  exponentBySearch_eq : ∀ s, m.exponentBySearch s = listedExponent s fs

/-- The exponents of two canonical monomials and of what is made of them. -/
structure ObeysMonoidLaws (m n : Monomial) : Prop where
  ofFactors_factors : ofFactors m.factors = m
  isCanonical_mul : (m * n).IsCanonical
  exponent_mul : ∀ s, (m * n).exponent s = m.exponent s + n.exponent s
  eq_iff : m = n ↔ ∀ s, m.exponent s = n.exponent s
  isCanonical_extract : ∀ s, (m.extract s).2.IsCanonical
  fst_extract : ∀ s, (m.extract s).1 = m.exponent s
  exponent_extract : ∀ s, (m.extract s).2.exponent s = 0
  extract_mul : ∀ s, (m.extract s).2 * ofFactors [(s, (m.extract s).1)] = m
  exponentBySearch_eq : ∀ s, m.exponentBySearch s = m.exponent s
  extractBySearch_eq : ∀ s, m.extractBySearch s = m.extract s

theorem isProductOf_ofFactors (fs : List (Symbol × ℕ)) : IsProductOf fs (ofFactors fs) where
  isCanonical := isCanonical_ofFactors fs
  exponent_eq := exponent_ofFactors fs
  exponentBySearch_eq s :=
    ((isCanonical_ofFactors fs).exponentBySearch_eq s).trans (exponent_ofFactors fs s)

theorem IsCanonical.obeysMonoidLaws (hm : m.IsCanonical) (hn : n.IsCanonical) :
    ObeysMonoidLaws m n where
  ofFactors_factors := hm.ofFactors_factors
  isCanonical_mul := hm.mul hn
  exponent_mul := hm.exponent_mul hn
  eq_iff := hm.eq_iff_exponent_eq hn
  isCanonical_extract := hm.without
  fst_extract _ := rfl
  exponent_extract := hm.exponent_without_self
  extract_mul := hm.without_mul_ofFactors
  exponentBySearch_eq := hm.exponentBySearch_eq
  extractBySearch_eq := hm.extractBySearch_eq

/-- Canonical monomials are the free commutative monoid on the symbols: a list of powers
has one monomial, in whatever order it stands, and exponents tell monomials apart, add
up in products and can be taken out. -/
theorem represents_freeMonoid :
    (∀ fs, IsProductOf fs (ofFactors fs)) ∧
    (∀ fs gs : List (Symbol × ℕ), fs.Perm gs → ofFactors fs = ofFactors gs) ∧
    ∀ m n : Monomial, m.IsCanonical → n.IsCanonical → ObeysMonoidLaws m n :=
  ⟨isProductOf_ofFactors, fun _ _ => ofFactors_perm, fun _ _ hm hn => hm.obeysMonoidLaws hn⟩

/-- Repeats and a zero exponent, and two monomials that share one of their symbols. -/
theorem represents_freeMonoid_overlapping :
    let fs : List (Symbol × ℕ) := [(⟨"y"⟩, 1), (⟨"x"⟩, 2), (⟨"z"⟩, 0), (⟨"y"⟩, 4)]
    let m : Monomial := ⟨[(⟨"x"⟩, 2), (⟨"y"⟩, 5)]⟩
    let n : Monomial := ⟨[(⟨"w"⟩, 1), (⟨"y"⟩, 3), (⟨"z"⟩, 1)]⟩
    fs.Perm fs.reverse ∧ m.IsCanonical ∧ n.IsCanonical ∧ IsProductOf fs (ofFactors fs) ∧
      ofFactors fs = ofFactors fs.reverse ∧ ObeysMonoidLaws m n := by
  intro fs m n
  have hperm : fs.Perm fs.reverse := fs.reverse_perm.symm
  have hm : m.IsCanonical := by decide +kernel
  have hn : n.IsCanonical := by decide +kernel
  obtain ⟨hproduct, horder, hlaws⟩ := represents_freeMonoid
  exact ⟨hperm, hm, hn, hproduct fs, horder fs _ hperm, hlaws m n hm hn⟩

end PivotCoefficients.Monomial
