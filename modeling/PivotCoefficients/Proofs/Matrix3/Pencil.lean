import Mathlib.Algebra.Polynomial.Lifts
import Mathlib.LinearAlgebra.Matrix.Polynomial
import PivotCoefficients.Proofs.CoefficientTable.Arithmetic
import PivotCoefficients.Proofs.Matrix3.DeterminantLaws

/-!
# Determinants of pencils

The determinant of `a + z * b` is a polynomial in `z` of degree three at most. Its
first coefficient is the determinant of `a` and its last one that of `b`. Where the
entries are expressions without `z`, collection finds these coefficients.
-/
namespace PivotCoefficients

open MvPolynomial

namespace Expression

variable {x y : Expression} {z : Symbol}

def IsFreeOf (z : Symbol) (e : Expression) : Prop :=
  e.IsCanonical ∧ e.polynomial ∈ supported ℚ {s : Symbol | s ≠ z}

theorem isFreeOf_of_isConstructible (h : x.IsConstructible ∧ z ∉ x.symbols) : x.IsFreeOf z :=
  ⟨h.1.isCanonical, h.1.isCanonical.polynomial_mem_supported_of_notMem h.2⟩

theorem IsFreeOf.sub (hx : x.IsFreeOf z) (hy : y.IsFreeOf z) : (x - y).IsFreeOf z :=
  ⟨hx.1.sub hy.1, polynomial_sub_mem hx.2 hy.2⟩

end Expression

namespace Matrix3

universe u

section Pencil

variable {R : Type u} [CommRing R] {a b : Matrix3 R}

/-- The matrix with entries `aᵢⱼ + X * bᵢⱼ`. -/
noncomputable def pencil (a b : Matrix3 R) : Matrix3 (Polynomial R) :=
  a.map Polynomial.C + (b.map Polynomial.C).scale Polynomial.X

theorem toMatrix_pencil (a b : Matrix3 R) :
    (pencil a b).toMatrix =
      (Polynomial.X : Polynomial R) • b.toMatrix.map Polynomial.C +
        a.toMatrix.map Polynomial.C := by
  ext1 i j
  simp only [pencil, toMatrix, entry_add, entry_map, entry_scale, Matrix.of_apply,
    Matrix.add_apply, Matrix.smul_apply, Matrix.map_apply, smul_eq_mul]
  ring

theorem natDegree_det_pencil_le (a b : Matrix3 R) : (pencil a b).det.natDegree ≤ 3 := by
  rw [det_eq, toMatrix_pencil]
  exact Polynomial.natDegree_det_X_add_C_le b.toMatrix a.toMatrix

theorem coeff_zero_det_pencil (a b : Matrix3 R) : (pencil a b).det.coeff 0 = a.det := by
  rw [det_eq, det_eq, toMatrix_pencil, Polynomial.coeff_det_X_add_C_zero]

theorem coeff_three_det_pencil (a b : Matrix3 R) : (pencil a b).det.coeff 3 = b.det := by
  rw [det_eq, det_eq, toMatrix_pencil]
  exact Polynomial.coeff_det_X_add_C_card b.toMatrix a.toMatrix

theorem eval_det_pencil (a b : Matrix3 R) (x : R) :
    (pencil a b).det.eval x = (a + b.scale x).det := by
  have hmap : (pencil a b).map (Polynomial.eval x) = a + b.scale x := by
    apply ext_entry
    simp [pencil]
  rw [← hmap]
  exact map_det (fun _ _ => Polynomial.eval_add) (fun p q => Polynomial.eval_sub (p := p) q x)
    (fun _ _ => Polynomial.eval_mul) (pencil a b)

theorem coeff_det_pencil_mem {S : Subring R} (ha : a.ForallEntries (· ∈ S))
    (hb : b.ForallEntries (· ∈ S)) (d : ℕ) : (pencil a b).det.coeff d ∈ S := by
  let T := Polynomial.liftsRing S.subtype
  have hconstant : ∀ {x : R}, x ∈ S → Polynomial.C x ∈ T := fun hx =>
    ⟨Polynomial.C ⟨_, hx⟩, by simp⟩
  have hX : Polynomial.X ∈ T := ⟨Polynomial.X, by simp⟩
  have hentries : (pencil a b).ForallEntries (· ∈ T) := by
    intro i j
    simp only [pencil, entry_add, entry_map, entry_scale]
    exact T.add_mem (hconstant (ha i j)) (T.mul_mem (hconstant (hb i j)) hX)
  have hdet : (pencil a b).det ∈ T := hentries.det (P := (· ∈ T)) T.add_mem T.sub_mem T.mul_mem
  obtain ⟨x, hx⟩ := (Polynomial.lifts_iff_coeff_lifts _).mp
    ((Polynomial.lifts_iff_liftsRing _ _).mpr hdet) d
  rw [← hx]
  exact x.2

end Pencil

section Expressions

variable {a b : Matrix3 Expression} {z : Symbol} {t : CoefficientTable}
  (ha : a.ForallEntries (Expression.IsFreeOf z))
  (hb : b.ForallEntries (Expression.IsFreeOf z))
include ha hb

theorem isCanonical_det_add_scale : (a + b.scale (.ofSymbol z)).det.IsCanonical := by
  have hscaled := (hb.imp And.left).scale .mul (Expression.isCanonical_ofSymbol z)
  exact isCanonical_det ((ha.imp And.left).add .add hscaled)

/-- As a polynomial in `z` the determinant is that of the pencil of polynomials. -/
theorem univariate_det_add_scale :
    (a + b.scale (.ofSymbol z)).det.univariate z = (pencil a.polynomials b.polynomials).det := by
  apply (isCanonical_det_add_scale ha hb).univariate_eq
  · apply coeff_det_pencil_mem (S := (supported ℚ {s : Symbol | s ≠ z}).toSubring)
    · intro i j
      rw [entry_polynomials]
      exact (ha i j).2
    · intro i j
      rw [entry_polynomials]
      exact (hb i j).2
  · rw [eval_det_pencil, polynomial_det, polynomials_add, polynomials_scale,
      Expression.polynomial_ofSymbol]

theorem degreeIn_det_add_scale_le : (a + b.scale (.ofSymbol z)).det.degreeIn z ≤ 3 := by
  apply (isCanonical_det_add_scale ha hb).degreeIn_le_of_natDegree_le
  rw [univariate_det_add_scale ha hb]
  exact natDegree_det_pencil_le _ _

theorem coefficientOfPower_zero_det_add_scale :
    (a + b.scale (.ofSymbol z)).det.coefficientOfPower z 0 = a.det := by
  have hcanonical := (isCanonical_det_add_scale ha hb).coefficientOfPower z 0
  apply hcanonical.eq_of_polynomial_eq (isCanonical_det (ha.imp And.left))
  rw [← Expression.coeff_univariate, univariate_det_add_scale ha hb, coeff_zero_det_pencil,
    polynomial_det]

theorem coefficientOfPower_three_det_add_scale :
    (a + b.scale (.ofSymbol z)).det.coefficientOfPower z 3 = b.det := by
  have hcanonical := (isCanonical_det_add_scale ha hb).coefficientOfPower z 3
  apply hcanonical.eq_of_polynomial_eq (isCanonical_det (hb.imp And.left))
  rw [← Expression.coeff_univariate, univariate_det_add_scale ha hb, coeff_three_det_pencil,
    polynomial_det]

theorem sum_polynomial_collect_det_add_scale
    (ht : (a + b.scale (.ofSymbol z)).det.collect z 3 = .ok t) :
    (t.coefficients.map Expression.polynomial).sum = (a + b).det.polynomial := by
  have hone : b.polynomials.scale 1 = b.polynomials := by
    apply ext_entry
    simp
  rw [Expression.sum_polynomial_of_collect ht, univariate_det_add_scale ha hb, eval_det_pencil,
    hone, polynomial_det, polynomials_add]

theorem collect_det_add_scale :
    ∃ t, (a + b.scale (.ofSymbol z)).det.collect z 3 = .ok t ∧
      t.get? 0 = some a.det ∧ t.get? 3 = some b.det ∧ (t.isDegenerate ↔ b.det = .zero) ∧
      ∀ r, Expression.IsSumOf t.coefficients r ↔ r = (a + b).det := by
  obtain ⟨t, ht⟩ := Expression.collect_of_degreeIn_le (degreeIn_det_add_scale_le ha hb)
  refine ⟨t, ht, ?_, ?_, ?_, ?_⟩
  · rw [Expression.get?_collect_eq_some_iff ht, coefficientOfPower_zero_det_add_scale ha hb]
    exact ⟨by decide, rfl⟩
  · rw [Expression.get?_collect_eq_some_iff ht, coefficientOfPower_three_det_add_scale ha hb]
    exact ⟨le_rfl, rfl⟩
  · rw [Expression.isDegenerate_iff_of_collect ht, coefficientOfPower_three_det_add_scale ha hb]
  · have hparts := (isCanonical_det_add_scale ha hb).of_mem_collect ht
    have hsum := isCanonical_det ((ha.imp And.left).add .add (hb.imp And.left))
    exact Expression.IsSumOf.iff_eq hparts hsum
      (sum_polynomial_collect_det_add_scale ha hb ht).symm

end Expressions

section Combinations

variable {a b : Matrix3 Expression} {z : Symbol}

/-- A convex combination is a pencil, too. -/
theorem scale_add_scale_eq (ha : a.ForallEntries Expression.IsCanonical)
    (hb : b.ForallEntries Expression.IsCanonical) (z : Symbol) :
    a.scale (.ofSymbol z) + b.scale (.constant 1 - .ofSymbol z) =
      b + (a - b).scale (.ofSymbol z) := by
  have hz := Expression.isCanonical_ofSymbol z
  have hcomplement := (Expression.isCanonical_constant 1).sub hz
  have hleft := (ha.scale .mul hz).add .add (hb.scale .mul hcomplement)
  have hright := hb.add .add ((ha.sub .sub hb).scale .mul hz)
  apply ext_entry
  intro i j
  apply (hleft i j).eq_of_polynomial_eq (hright i j)
  simp only [entry_add, entry_sub, entry_scale, Expression.polynomial_add,
    Expression.polynomial_sub, Expression.polynomial_mul, Expression.polynomial_constant, C_1]
  ring

theorem add_sub_eq (ha : a.ForallEntries Expression.IsCanonical)
    (hb : b.ForallEntries Expression.IsCanonical) : b + (a - b) = a := by
  apply ext_entry
  intro i j
  apply (hb.add .add (ha.sub .sub hb) i j).eq_of_polynomial_eq (ha i j)
  simp

/-- The first and the last coefficient of `det (a + z * b)` are the determinants of `a` and
`b`. Those of `det (z * a + (1 - z) * b)` are the determinants of `b` and `a - b`, and all
four add up to that of `a`, in whatever order they are added up. -/
theorem collect_det_pencil
    (ha : a.ForallEntries fun e => e.IsConstructible ∧ z ∉ e.symbols)
    (hb : b.ForallEntries fun e => e.IsConstructible ∧ z ∉ e.symbols) :
    (∃ t, (a + b.scale (.ofSymbol z)).det.collect z 3 = .ok t ∧
      t.get? 0 = some a.det ∧ t.get? 3 = some b.det ∧ (t.isDegenerate ↔ b.det = .zero)) ∧
    ∃ t, (a.scale (.ofSymbol z) + b.scale (.constant 1 - .ofSymbol z)).det.collect z 3 = .ok t ∧
      t.get? 0 = some b.det ∧ t.get? 3 = some (a - b).det ∧
      ∀ r, Expression.IsSumOf t.coefficients r ↔ r = a.det := by
  have ha : a.ForallEntries (Expression.IsFreeOf z) := ha.imp Expression.isFreeOf_of_isConstructible
  have hb : b.ForallEntries (Expression.IsFreeOf z) := hb.imp Expression.isFreeOf_of_isConstructible
  have hsub : (a - b).ForallEntries (Expression.IsFreeOf z) := ha.sub Expression.IsFreeOf.sub hb
  constructor
  · obtain ⟨t, ht, hfirst, hlast, hdegenerate, -⟩ := collect_det_add_scale ha hb
    exact ⟨t, ht, hfirst, hlast, hdegenerate⟩
  · obtain ⟨t, ht, hfirst, hlast, -, hsum⟩ := collect_det_add_scale hb hsub
    rw [add_sub_eq (ha.imp And.left) (hb.imp And.left)] at hsum
    rw [scale_add_scale_eq (ha.imp And.left) (hb.imp And.left)]
    exact ⟨t, ht, hfirst, hlast, hsum⟩

/-- The entries share symbols on both sides of the pivot, and two rows of the second matrix
are equal. -/
theorem collect_det_pencil_singular :
    let z : Symbol := ⟨"m"⟩
    let x := Expression.ofSymbol ⟨"a"⟩
    let y := Expression.ofSymbol ⟨"x"⟩
    let a : Matrix3 Expression := .ofRowMajor #v[x, y, .one, y, x + y, .zero, y, .one, x - y]
    let b : Matrix3 Expression := .ofRowMajor #v[y, .one, x, x, .zero, y, y, .one, x]
    (a.ForallEntries fun e => e.IsConstructible ∧ z ∉ e.symbols) ∧
    (b.ForallEntries fun e => e.IsConstructible ∧ z ∉ e.symbols) ∧
    (∃ t, (a + b.scale (.ofSymbol z)).det.collect z 3 = .ok t ∧
      t.get? 0 = some a.det ∧ t.get? 3 = some b.det ∧ (t.isDegenerate ↔ b.det = .zero)) ∧
    ∃ t, (a.scale (.ofSymbol z) + b.scale (.constant 1 - .ofSymbol z)).det.collect z 3 = .ok t ∧
      t.get? 0 = some b.det ∧ t.get? 3 = some (a - b).det ∧
      ∀ r, Expression.IsSumOf t.coefficients r ↔ r = a.det := by
  intro z x y a b
  have hfree : ∀ {e : Expression}, e.IsCanonical ∧ (∀ t ∈ e.terms, z ∉ t.1.symbols) →
      e.IsConstructible ∧ z ∉ e.symbols :=
    fun h => ⟨Expression.isConstructible_iff.mpr h.1, Expression.notMem_symbols_iff.mpr h.2⟩
  have ha : a.ForallEntries fun e => e.IsCanonical ∧ ∀ t ∈ e.terms, z ∉ t.1.symbols := by
    decide +kernel
  have hb : b.ForallEntries fun e => e.IsCanonical ∧ ∀ t ∈ e.terms, z ∉ t.1.symbols := by
    decide +kernel
  exact ⟨ha.imp hfree, hb.imp hfree, collect_det_pencil (ha.imp hfree) (hb.imp hfree)⟩

end Combinations

end Matrix3

end PivotCoefficients
