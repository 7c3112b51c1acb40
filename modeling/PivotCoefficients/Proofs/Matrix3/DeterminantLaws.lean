import Mathlib.LinearAlgebra.Matrix.Determinant.Basic
import PivotCoefficients.Proofs.Construction.Canonical
import PivotCoefficients.Proofs.Matrix3.Determinant

/-!
# Laws of determinants

The determinant is alternating and linear in its rows. Over a commutative ring this is
linear algebra. The terms of expressions come about in a different order on the two
sides of each law, but both sides are canonical and their polynomials agree.
-/
namespace PivotCoefficients

open MvPolynomial

namespace Matrix3

universe u

section Rows

variable {R : Type u} {P : R → Prop} {m : Matrix3 R}

def setRow (m : Matrix3 R) (r : Fin 3) (w : Fin 3 → R) : Matrix3 R :=
  ofFn fun i j => if i = r then w j else m.entry i j

@[simp] theorem entry_setRow (m : Matrix3 R) (r i j : Fin 3) (w : Fin 3 → R) :
    (m.setRow r w).entry i j = if i = r then w j else m.entry i j :=
  entry_ofFn _ i j

def identity (zero one : R) : Matrix3 R :=
  ofFn fun i j => if i = j then one else zero

theorem map_setRow {S : Type*} (f : R → S) (m : Matrix3 R) (r : Fin 3) (w : Fin 3 → R) :
    (m.setRow r w).map f = (m.map f).setRow r (f ∘ w) := by
  apply ext_entry
  simp [apply_ite f]

theorem map_identity {S : Type*} (f : R → S) (zero one : R) :
    (identity zero one).map f = identity (f zero) (f one) := by
  apply ext_entry
  simp [identity, apply_ite f]

theorem ForallEntries.setRow (hm : m.ForallEntries P) {w : Fin 3 → R} (hw : ∀ c, P (w c))
    (r : Fin 3) : (m.setRow r w).ForallEntries P := by
  apply forallEntries_ofFn
  intro i j
  split_ifs
  · exact hw j
  · exact hm i j

theorem forallEntries_identity {zero one : R} (hzero : P zero) (hone : P one) :
    (identity zero one).ForallEntries P := by
  apply forallEntries_ofFn
  intro i j
  split_ifs
  · exact hone
  · exact hzero

end Rows

/-- The laws of the determinant for the rows of `m`, a scalar `k` and a further row `w`. -/
structure ObeysDeterminantLaws {R : Type u} [Add R] [Sub R] [Neg R] [Mul R] (zero one : R)
    (pow : R → ℕ → R) (m : Matrix3 R) (k : R) (w : Fin 3 → R) : Prop where
  swapRows : ∀ i j, i ≠ j → (m.swapRows i j).det = -m.det
  scaleRow : ∀ r, (m.scaleRow r k).det = m.det * k
  setRow_add : ∀ r, (m.setRow r fun c => m.entry r c + w c).det = m.det + (m.setRow r w).det
  eq_zero_of_equal_rows : ∀ i j, i ≠ j → (∀ c, m.entry i c = m.entry j c) → m.det = zero
  transpose : m.transpose.det = m.det
  scale : (m.scale k).det = pow k 3 * m.det
  identity : (identity zero one).det = one

section ToMatrix

variable {R : Type u} (m : Matrix3 R)

theorem toMatrix_transpose : m.transpose.toMatrix = m.toMatrix.transpose := by
  ext i j
  simp [toMatrix]

theorem toMatrix_swapRows (i j : Fin 3) :
    (m.swapRows i j).toMatrix = m.toMatrix.submatrix (Equiv.swap i j) id := by
  ext r c
  simp [toMatrix, Equiv.swap_apply_def]

theorem toMatrix_setRow (r : Fin 3) (w : Fin 3 → R) :
    (m.setRow r w).toMatrix = m.toMatrix.updateRow r w := by
  ext i j
  simp [toMatrix, Matrix.updateRow_apply]

theorem updateRow_toMatrix (r : Fin 3) : m.toMatrix.updateRow r (m.entry r) = m.toMatrix :=
  Matrix.updateRow_eq_self m.toMatrix r

end ToMatrix

section CommRing

variable {R : Type u} [CommRing R] (m : Matrix3 R)

theorem toMatrix_scaleRow (r : Fin 3) (k : R) :
    (m.scaleRow r k).toMatrix = m.toMatrix.updateRow r (k • m.entry r) := by
  ext i j
  by_cases h : i = r
  · subst h
    simp [toMatrix, mul_comm]
  · simp [toMatrix, h]

theorem toMatrix_scale (k : R) : (m.scale k).toMatrix = k • m.toMatrix := by
  ext i j
  simp [toMatrix, mul_comm]

theorem toMatrix_identity : (identity 0 1 : Matrix3 R).toMatrix = 1 := by
  ext i j
  simp [toMatrix, identity, Matrix.one_apply]

/-- Over a commutative ring the laws are those of linear algebra. -/
theorem obeysDeterminantLaws (k : R) (w : Fin 3 → R) :
    ObeysDeterminantLaws 0 1 (fun x n => x ^ n) m k w where
  swapRows := by
    intro i j h
    rw [det_eq, det_eq, toMatrix_swapRows, Matrix.det_permute, Equiv.Perm.sign_swap h]
    simp
  scaleRow := by
    intro r
    rw [det_eq, det_eq, toMatrix_scaleRow, Matrix.det_updateRow_smul, updateRow_toMatrix, mul_comm]
  setRow_add := by
    intro r
    have hrow : (fun c => m.entry r c + w c) = m.entry r + w := rfl
    rw [det_eq, det_eq, det_eq, toMatrix_setRow, toMatrix_setRow, hrow,
      Matrix.det_updateRow_add, updateRow_toMatrix]
  eq_zero_of_equal_rows := by
    intro i j h hrows
    rw [det_eq]
    exact Matrix.det_zero_of_row_eq h (funext hrows)
  transpose := by
    rw [det_eq, det_eq, toMatrix_transpose, Matrix.det_transpose]
  scale := by
    rw [det_eq, det_eq, toMatrix_scale, Matrix.det_smul]
    rfl
  identity := by
    rw [det_eq, toMatrix_identity, Matrix.det_one]

end CommRing

section Expressions

variable {m : Matrix3 Expression} {k : Expression} {w : Fin 3 → Expression}

theorem polynomials_setRow (m : Matrix3 Expression) (r : Fin 3) (w : Fin 3 → Expression) :
    (m.setRow r w).polynomials = m.polynomials.setRow r (fun c => (w c).polynomial) :=
  map_setRow _ m r w

theorem polynomials_identity :
    (identity Expression.zero .one).polynomials = identity 0 1 := by
  rw [polynomials, map_identity, Expression.polynomial_zero, Expression.polynomial_one]

theorem isCanonical_det (hm : m.ForallEntries Expression.IsCanonical) : m.det.IsCanonical :=
  hm.det .add .sub .mul

/-- Canonical expressions inherit the laws from their polynomials. -/
theorem obeysDeterminantLaws_of_isCanonical (hm : m.ForallEntries Expression.IsCanonical)
    (hk : k.IsCanonical) (hw : ∀ c, (w c).IsCanonical) :
    ObeysDeterminantLaws .zero .one Expression.pow m k w := by
  have hdet := isCanonical_det hm
  have hlaws := obeysDeterminantLaws m.polynomials k.polynomial (fun c => (w c).polynomial)
  constructor
  case swapRows =>
    intro i j h
    have hswap := isCanonical_det (m := m.swapRows i j) (forallEntries_ofFn fun _ c => hm _ c)
    apply hswap.eq_of_polynomial_eq hdet.neg
    rw [Expression.polynomial_neg, polynomial_det, polynomial_det, polynomials_swapRows]
    exact hlaws.swapRows i j h
  case scaleRow =>
    intro r
    have hscaled := isCanonical_det (hm.scaleRow .mul hk r)
    apply hscaled.eq_of_polynomial_eq (hdet.mul hk)
    rw [Expression.polynomial_mul, polynomial_det, polynomial_det, polynomials_scaleRow]
    exact hlaws.scaleRow r
  case setRow_add =>
    intro r
    have hsum := isCanonical_det (hm.setRow (fun c => (hm r c).add (hw c)) r)
    have hset := isCanonical_det (hm.setRow hw r)
    apply hsum.eq_of_polynomial_eq (hdet.add hset)
    rw [Expression.polynomial_add, polynomial_det, polynomial_det, polynomial_det,
      polynomials_setRow, polynomials_setRow]
    simp only [Expression.polynomial_add, ← entry_polynomials]
    exact hlaws.setRow_add r
  case eq_zero_of_equal_rows =>
    intro i j h hrows
    rw [← hdet.polynomial_eq_zero_iff, polynomial_det]
    apply hlaws.eq_zero_of_equal_rows i j h
    intro c
    rw [entry_polynomials, entry_polynomials, hrows]
  case transpose =>
    have htranspose := isCanonical_det (m := m.transpose) (forallEntries_ofFn fun i j => hm j i)
    apply htranspose.eq_of_polynomial_eq hdet
    rw [polynomial_det, polynomial_det, polynomials_transpose]
    exact hlaws.transpose
  case scale =>
    have hscaled := isCanonical_det (hm.scale .mul hk)
    apply hscaled.eq_of_polynomial_eq ((hk.pow 3).mul hdet)
    rw [Expression.polynomial_mul, Expression.polynomial_pow, polynomial_det, polynomial_det,
      polynomials_scale]
    exact hlaws.scale
  case identity =>
    have hidentity := isCanonical_det
      (forallEntries_identity Expression.isCanonical_zero Expression.isCanonical_one)
    apply hidentity.eq_of_polynomial_eq Expression.isCanonical_one
    rw [polynomial_det, polynomials_identity, Expression.polynomial_one]
    exact hlaws.identity

/-- The laws hold for every matrix of rationals and for every matrix of constructed
expressions, where the two sides are equal term by term. -/
theorem det_obeysLaws :
    (∀ (m : Matrix3 ℚ) (k : ℚ) (w : Fin 3 → ℚ), ObeysDeterminantLaws 0 1 Rational.pow m k w) ∧
    ∀ (m : Matrix3 Expression) (k : Expression) (w : Fin 3 → Expression),
      m.ForallEntries Expression.IsConstructible → k.IsConstructible →
      (∀ c, (w c).IsConstructible) → ObeysDeterminantLaws .zero .one Expression.pow m k w := by
  constructor
  · intro m k w
    have hpow : Rational.pow = fun x n => x ^ n := by
      ext x n
      exact Rational.pow_eq x n
    rw [hpow]
    exact obeysDeterminantLaws m k w
  · intro m k w hm hk hw
    exact obeysDeterminantLaws_of_isCanonical (fun i j => (hm i j).isCanonical) hk.isCanonical
      fun c => (hw c).isCanonical

/-- Two rows are equal, so that the determinant cancels to zero, and the further row makes
one that does not. -/
theorem det_obeysLaws_equal_rows :
    let x := Expression.ofSymbol ⟨"x"⟩
    let y := Expression.ofSymbol ⟨"y"⟩
    let m : Matrix3 Expression := .ofRowMajor #v[x, y, x + y, y, .one, x - y, x, y, x + y]
    let w : Fin 3 → Expression := ![y, .zero, .constant (1 / 2)]
    m.ForallEntries Expression.IsConstructible ∧ (x - y).IsConstructible ∧
      (∀ c, (w c).IsConstructible) ∧
      ObeysDeterminantLaws .zero .one Expression.pow m (x - y) w ∧ m.det = .zero ∧
      ObeysDeterminantLaws 0 1 Rational.pow (identity 0 1) (-2) ![1, 1 / 2, 0] := by
  intro x y m w
  have hconstructible : ∀ {e : Expression}, e.IsCanonical → e.IsConstructible :=
    Expression.isConstructible_iff.mpr
  have hm : m.ForallEntries Expression.IsConstructible :=
    ForallEntries.imp (by decide +kernel) hconstructible
  have hk : (x - y).IsConstructible := hconstructible (by decide +kernel)
  have hrow : ∀ c, (w c).IsCanonical := by decide +kernel
  have hw : ∀ c, (w c).IsConstructible := fun c => hconstructible (hrow c)
  have hlaws := det_obeysLaws.2 m (x - y) w hm hk hw
  have hzero := hlaws.eq_zero_of_equal_rows 0 2 (by decide) (by decide +kernel)
  exact ⟨hm, hk, hw, hlaws, hzero, det_obeysLaws.1 _ _ _⟩

end Expressions

end Matrix3

end PivotCoefficients
