import Mathlib.LinearAlgebra.Matrix.Determinant.Basic
import PivotCoefficients.Proofs.Expression.Bounds
import PivotCoefficients.Proofs.Matrix3.Entries

/-!
# Determinants

The determinant of three rows written out is the determinant of linear algebra,
for numbers and for the polynomials of expressions alike. Its degree in a symbol
is at most the sum of the degrees of three entries.
-/
namespace PivotCoefficients.Matrix3

open MvPolynomial

universe u

/-- The matrix as a function of row and column. -/
def toMatrix {R : Type u} (m : Matrix3 R) : Matrix (Fin 3) (Fin 3) R :=
  Matrix.of m.entry

theorem det_eq {R : Type u} [CommRing R] (m : Matrix3 R) : m.det = m.toMatrix.det := by
  rw [Matrix.det_fin_three]
  simp only [det, diagonal, toMatrix, Matrix.of_apply]
  ring

noncomputable def polynomials (m : Matrix3 Expression) : Matrix3 (MvPolynomial Symbol ℚ) :=
  m.map Expression.polynomial

@[simp] theorem entry_polynomials (m : Matrix3 Expression) (i j : Fin 3) :
    m.polynomials.entry i j = (m.entry i j).polynomial :=
  entry_map _ m i j

theorem polynomials_transpose (m : Matrix3 Expression) :
    m.transpose.polynomials = m.polynomials.transpose :=
  map_transpose _ m

theorem polynomials_swapRows (m : Matrix3 Expression) (i j : Fin 3) :
    (m.swapRows i j).polynomials = m.polynomials.swapRows i j :=
  map_swapRows _ m i j

theorem polynomials_scaleRow (m : Matrix3 Expression) (i : Fin 3) (k : Expression) :
    (m.scaleRow i k).polynomials = m.polynomials.scaleRow i k.polynomial :=
  map_scaleRow Expression.polynomial_mul m i k

theorem polynomials_add (m n : Matrix3 Expression) :
    (m + n).polynomials = m.polynomials + n.polynomials :=
  map_add Expression.polynomial_add m n

theorem polynomials_scale (m : Matrix3 Expression) (k : Expression) :
    (m.scale k).polynomials = m.polynomials.scale k.polynomial :=
  map_scale Expression.polynomial_mul m k

theorem polynomial_det (m : Matrix3 Expression) : m.det.polynomial = m.polynomials.det :=
  map_det Expression.polynomial_add Expression.polynomial_sub Expression.polynomial_mul m

theorem eval_det (v : Symbol → ℚ) (m : Matrix3 Expression) :
    eval v m.det.polynomial = (m.toMatrix.map (fun e => eval v e.polynomial)).det := by
  rw [polynomial_det, det_eq, RingHom.map_det]
  congr 1
  ext i j
  simp [toMatrix]

section Bounds

variable {m : Matrix3 Expression}

theorem polynomial_det_mem {S : Subalgebra ℚ (MvPolynomial Symbol ℚ)}
    (h : m.ForallEntries (fun e => e.polynomial ∈ S)) : m.det.polynomial ∈ S :=
  ForallEntries.det Expression.polynomial_add_mem Expression.polynomial_sub_mem
    Expression.polynomial_mul_mem h

theorem degreeOf_det_le {s : Symbol} {n : ℕ}
    (h : m.ForallEntries (fun e => degreeOf s e.polynomial ≤ n)) :
    degreeOf s m.det.polynomial ≤ n + n + n := by
  have hdiagonal : ∀ a b c, degreeOf s (m.diagonal a b c).polynomial ≤ n + n + n := by
    intro a b c
    have hfirst := Expression.degreeOf_mul_le_of_le (h 0 a) (h 1 b)
    exact Expression.degreeOf_mul_le_of_le hfirst (h 2 c)
  have hsum : ∀ {a b c d e f}, degreeOf s
      (m.diagonal 0 a b + m.diagonal 1 c d + m.diagonal 2 e f).polynomial ≤ n + n + n := by
    intro a b c d e f
    have hfirst := Expression.degreeOf_add_le_of_le (hdiagonal 0 a b) (hdiagonal 1 c d)
    exact Expression.degreeOf_add_le_of_le hfirst (hdiagonal 2 e f)
  exact Expression.degreeOf_sub_le_of_le hsum hsum

end Bounds

end PivotCoefficients.Matrix3
