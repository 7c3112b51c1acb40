import PivotCoefficients.Proofs.Monomial.Lexicographic
import PivotCoefficients.Proofs.Symbol.ByteOrder

/-!
# Laws of the monomial order

The order of canonical monomials is total, has the monomial 1 as its least element and
is kept by multiplication. It is the lexicographic one: of two monomials the greater
has the larger exponent of the first symbol, by the bytes of the names, at which they
differ.
-/
namespace PivotCoefficients.Monomial

variable {k m n : Monomial}

theorem lexLT_iff_isFirst {d e : Symbol →₀ ℕ} :
    LexLT d e ↔ ∃ s, Symbol.IsFirst (fun t => e t ≠ d t) s ∧ d s < e s := by
  constructor
  · rintro ⟨s, hbefore, hlt⟩
    refine ⟨s, ⟨hlt.ne', fun t hne hts => ?_⟩, hlt⟩
    rw [← Symbol.compare_eq_lt_iff]
    cases hst : compare s t with
    | lt => rfl
    | eq => exact absurd (Std.LawfulEqOrd.eq_of_compare hst).symm hts
    | gt => exact absurd (hbefore t (Std.OrientedCmp.gt_iff_lt.mp hst)).symm hne
  · rintro ⟨s, hfirst, hlt⟩
    refine ⟨s, fun t ht => ?_, hlt⟩
    have hbytes := Symbol.compare_eq_lt_iff.mp ht
    by_contra hne
    have hts : t ≠ s := by
      rintro rfl
      exact List.lt_irrefl _ hbytes
    exact List.lt_asymm hbytes (hfirst.2 t (Ne.symm hne) hts)

/-- What three monomials are owed by an admissible lexicographic order. -/
structure ObeysOrderLaws (k m n : Monomial) : Prop where
  compare_eq_iff : compare k m = .eq ↔ k = m
  compare_swap : compare m k = (compare k m).swap
  compare_trans : ∀ o, compare k m = o → compare m n = o → compare k n = o
  isLE_trans : (compare k m).isLE → (compare m n).isLE → (compare k n).isLE
  compare_gt_iff : compare k m = .gt ↔
    ∃ s, Symbol.IsFirst (fun t => k.exponent t ≠ m.exponent t) s ∧ m.exponent s < k.exponent s
  one_isLE : (compare one k).isLE
  compare_mul : compare (k * n) (m * n) = compare k m

theorem IsCanonical.compare_eq_gt_iff (hk : k.IsCanonical) (hm : m.IsCanonical) :
    compare k m = .gt ↔
      ∃ s, Symbol.IsFirst (fun t => k.exponent t ≠ m.exponent t) s ∧
        m.exponent s < k.exponent s := by
  simp only [Std.OrientedCmp.gt_iff_lt, compare_eq_lt_iff hm hk, lexLT_iff_isFirst,
    hk.exponent_eq, hm.exponent_eq]

/-- Canonical monomials are ordered by an admissible lexicographic order. -/
theorem obeysOrderLaws_of_isCanonical (hk : k.IsCanonical) (hm : m.IsCanonical)
    (hn : n.IsCanonical) : ObeysOrderLaws k m n where
  compare_eq_iff := Std.LawfulEqOrd.compare_eq_iff_eq
  compare_swap := Std.OrientedOrd.eq_swap
  compare_trans _ := Monomial.compare_trans
  isLE_trans := Std.TransOrd.isLE_trans
  compare_gt_iff := hk.compare_eq_gt_iff hm
  one_isLE := isLE_compare_one k
  compare_mul := compare_mul_right hk hm hn

/-- Monomials in different symbols, multiplied by one that holds a symbol before and one
between theirs. -/
theorem obeysOrderLaws_of_isCanonical_apart :
    let k : Monomial := ⟨[(⟨"b"⟩, 2), (⟨"e"⟩, 1)]⟩
    let m : Monomial := ⟨[(⟨"b"⟩, 2), (⟨"f"⟩, 7)]⟩
    let n : Monomial := ⟨[(⟨"a"⟩, 3), (⟨"c"⟩, 1), (⟨"f"⟩, 2)]⟩
    k.IsCanonical ∧ m.IsCanonical ∧ n.IsCanonical ∧ ObeysOrderLaws k m n := by
  intro k m n
  have hk : k.IsCanonical := by decide +kernel
  have hm : m.IsCanonical := by decide +kernel
  have hn : n.IsCanonical := by decide +kernel
  exact ⟨hk, hm, hn, obeysOrderLaws_of_isCanonical hk hm hn⟩

end PivotCoefficients.Monomial
