import PivotCoefficients.Proofs.Expression.Ring

/-!
# Laws of operand arithmetic

Operands of any kinds obey the laws of arithmetic as far as their kinds permit it. The
two sides of a law succeed together and then give one result, although they come to it
by different operations; where the operands of a sum or product change places, even the
error is the same. A number, a symbol or an expression counts as one expression in all
of this, so there are two shapes of operands to compare, and not four kinds.
-/
namespace PivotCoefficients

namespace Expression

variable {a b c : Expression}

theorem IsCanonical.add_mul (ha : a.IsCanonical) (hb : b.IsCanonical) (hc : c.IsCanonical) :
    (a + b) * c = a * c + b * c := by
  apply ((ha.add hb).mul hc).eq_of_polynomial_eq ((ha.mul hc).add (hb.mul hc))
  simp only [polynomial_mul, polynomial_add]
  ring

theorem IsCanonical.sub_eq_add_scale (ha : a.IsCanonical) (hb : b.IsCanonical) :
    a - b = a + b.scale (-1) := by
  apply (ha.sub hb).eq_of_polynomial_eq (ha.add (hb.scale (-1)))
  simp [sub_eq_add_neg]

end Expression

namespace Matrix3

variable {m n : Matrix3 Expression} {a b : Expression}

section Canonical

variable (hm : m.ForallEntries Expression.IsCanonical)
include hm

theorem scale_add_of_isCanonical (ha : a.IsCanonical) (hb : b.IsCanonical) :
    m.scale (a + b) = m.scale a + m.scale b := by
  apply ext_entry
  intro i j
  simpa using ((hm i j).obeysRingLaws ha hb).mul_add

variable (hn : n.ForallEntries Expression.IsCanonical)
include hn

theorem add_comm_of_isCanonical : m + n = n + m := by
  apply ext_entry
  intro i j
  simpa using ((hm i j).obeysRingLaws (hn i j) (hn i j)).add_comm

theorem add_scale_of_isCanonical (ha : a.IsCanonical) :
    (m + n).scale a = m.scale a + n.scale a := by
  apply ext_entry
  intro i j
  simpa using (hm i j).add_mul (hn i j) ha

theorem sub_eq_add_scale_of_isCanonical : m - n = m + n.scale (.constant (-1)) := by
  apply ext_entry
  intro i j
  have hscale := ((hn i j).obeysRingLaws (hn i j) (hn i j)).scale_eq (-1)
  simpa [hscale] using (hm i j).sub_eq_add_scale (hn i j)

end Canonical

end Matrix3

namespace Operand

/-- The operand is a scalar, which counts as the expression `e` in arithmetic. -/
inductive CountsAs : Operand → Expression → Prop
  | number (q : Rat) : CountsAs (.number q) (.constant q)
  | symbol (s : Symbol) : CountsAs (.symbol s) (.ofSymbol s)
  | expression (e : Expression) : CountsAs (.expression e) e

section Matrices

variable (m n : Matrix3 Expression)

theorem matrix_add_matrix : (matrix m).add (.matrix n) = .ok (.matrix (m + n)) := rfl

theorem matrix_sub_matrix : (matrix m).sub (.matrix n) = .ok (.matrix (m - n)) := rfl

theorem matrix_multiply_matrix : (matrix m).multiply (.matrix n) =
    .error (.typeMismatch .matrixAlgebra "multiply" .someScalar .twoMatrices) := rfl

theorem matrix_scale (k : Rat) :
    (matrix m).scale k = .ok (.matrix (m.scale (.constant k))) := rfl

end Matrices

variable {x y : Operand} {a b : Expression}

theorem exists_countsAs_or_eq_matrix (x : Operand) :
    (∃ e, x.CountsAs e) ∨ ∃ m, x = .matrix m := by
  cases x with
  | number q => exact Or.inl ⟨_, .number q⟩
  | symbol s => exact Or.inl ⟨_, .symbol s⟩
  | expression e => exact Or.inl ⟨_, .expression e⟩
  | matrix m => exact Or.inr ⟨m, rfl⟩

@[elab_as_elim]
theorem pair_cases {motive : Operand → Operand → Prop}
    (scalars : ∀ x y a b, x.CountsAs a → y.CountsAs b → motive x y)
    (scalar_matrix : ∀ x n a, x.CountsAs a → motive x (.matrix n))
    (matrix_scalar : ∀ m y b, y.CountsAs b → motive (.matrix m) y)
    (matrices : ∀ m n, motive (.matrix m) (.matrix n)) (x y : Operand) : motive x y := by
  rcases x.exists_countsAs_or_eq_matrix with ⟨a, ha⟩ | ⟨m, rfl⟩ <;>
    rcases y.exists_countsAs_or_eq_matrix with ⟨b, hb⟩ | ⟨n, rfl⟩
  · exact scalars x y a b ha hb
  · exact scalar_matrix x n a ha
  · exact matrix_scalar m y b hb
  · exact matrices m n

namespace CountsAs

theorem isCanonical (h : x.CountsAs a) (hx : x.IsCanonical) : a.IsCanonical := by
  cases h with
  | number q => exact Expression.isCanonical_constant q
  | symbol s => exact Expression.isCanonical_ofSymbol s
  | expression e => exact hx

section Results

variable (hx : x.CountsAs a) (m : Matrix3 Expression)
include hx

theorem add (hy : y.CountsAs b) : x.add y = .ok (.expression (a + b)) := by
  cases hx <;> cases hy <;> rfl

theorem add_matrix : x.add (.matrix m) = .error (mismatch .matrixAlgebra "add" .sameShape x) := by
  cases hx <;> rfl

theorem matrix_add :
    (Operand.matrix m).add x = .error (mismatch .matrixAlgebra "add" .sameShape x) := by
  cases hx <;> rfl

theorem sub (hy : y.CountsAs b) : x.sub y = .ok (.expression (a - b)) := by
  cases hx <;> cases hy <;> rfl

theorem sub_matrix : x.sub (.matrix m) = .error (mismatch .matrixAlgebra "sub" .sameShape x) := by
  cases hx <;> rfl

theorem matrix_sub :
    (Operand.matrix m).sub x = .error (mismatch .matrixAlgebra "sub" .sameShape x) := by
  cases hx <;> rfl

theorem multiply (hy : y.CountsAs b) : x.multiply y = .ok (.expression (a * b)) := by
  cases hx <;> cases hy <;> rfl

theorem multiply_matrix : x.multiply (.matrix m) = .ok (.matrix (m.scale a)) := by
  cases hx <;> rfl

theorem matrix_multiply : (Operand.matrix m).multiply x = .ok (.matrix (m.scale a)) := by
  cases hx <;> rfl

theorem scale (k : Rat) : x.scale k = .ok (.expression (a.scale k)) := by
  cases hx <;> rfl

end Results

end CountsAs

/-- The laws for two operands, a factor `k` and a number `q`. A sum or product of the
same operands in another order has the same result, be it an error. -/
structure ObeysOperandLaws (a b k : Operand) (q : Rat) : Prop where
  add_comm : a.add b = b.add a
  multiply_comm : a.multiply b = b.multiply a
  multiply_add : ∀ z, (∃ s, a.add b = .ok s ∧ k.multiply s = .ok z) ↔
    ∃ u v, k.multiply a = .ok u ∧ k.multiply b = .ok v ∧ u.add v = .ok z
  scale_eq : ∃ z, a.scale q = .ok z ∧ a.multiply (.number q) = .ok z
  sub_succeeds : (∃ z, a.sub b = .ok z) ↔ ∃ z, a.add b = .ok z
  sub_eq : ∃ n, b.neg = .ok n ∧ ∀ z, a.sub b = .ok z ↔ a.add n = .ok z

section Laws

variable {x y k : Operand} (hx : x.IsCanonical) (hy : y.IsCanonical)
include hx hy

theorem add_comm_of_isCanonical : x.add y = y.add x := by
  cases x, y using pair_cases with
  | scalars x y a b ha hb =>
    have ha' := ha.isCanonical hx
    have hb' := hb.isCanonical hy
    rw [ha.add hb, hb.add ha, (ha'.obeysRingLaws hb' hb').add_comm]
  | scalar_matrix x n a ha => rw [ha.add_matrix, ha.matrix_add]
  | matrix_scalar m y b hb => rw [hb.matrix_add, hb.add_matrix]
  | matrices m n =>
    rw [matrix_add_matrix, matrix_add_matrix, Matrix3.add_comm_of_isCanonical hx hy]

theorem multiply_comm_of_isCanonical : x.multiply y = y.multiply x := by
  cases x, y using pair_cases with
  | scalars x y a b ha hb =>
    have ha' := ha.isCanonical hx
    have hb' := hb.isCanonical hy
    rw [ha.multiply hb, hb.multiply ha, (ha'.obeysRingLaws hb' hb').mul_comm]
  | scalar_matrix x n a ha => rw [ha.multiply_matrix, ha.matrix_multiply]
  | matrix_scalar m y b hb => rw [hb.matrix_multiply, hb.multiply_matrix]
  | matrices m n => rfl

theorem sub_of_isCanonical :
    ((∃ z, x.sub y = .ok z) ↔ ∃ z, x.add y = .ok z) ∧
      ∃ n, y.neg = .ok n ∧ ∀ z, x.sub y = .ok z ↔ x.add n = .ok z := by
  cases x, y using pair_cases with
  | scalars x y a b ha hb =>
    have hsub := (ha.isCanonical hx).sub_eq_add_scale (hb.isCanonical hy)
    have hadd := ha.add (.expression (b.scale (-1)))
    refine ⟨by simp [ha.sub hb, ha.add hb], _, hb.scale (-1), fun z => ?_⟩
    rw [ha.sub hb, hadd, hsub]
  | scalar_matrix x n a ha =>
    refine ⟨by simp [ha.sub_matrix, ha.add_matrix], _, matrix_scale n (-1), fun z => ?_⟩
    simp [ha.sub_matrix, ha.add_matrix]
  | matrix_scalar m y b hb =>
    have hadd := (CountsAs.expression (b.scale (-1))).matrix_add m
    refine ⟨by simp [hb.matrix_sub, hb.matrix_add], _, hb.scale (-1), fun z => ?_⟩
    simp [hb.matrix_sub, hadd]
  | matrices m n =>
    have hsub := Matrix3.sub_eq_add_scale_of_isCanonical hx hy
    refine ⟨iff_of_true ⟨_, rfl⟩ ⟨_, rfl⟩, _, matrix_scale n (-1), fun z => ?_⟩
    rw [matrix_sub_matrix, matrix_add_matrix, hsub]

/-- A scalar times a sum is refused where the operands of the sum have two shapes, which
their products then have too. -/
theorem CountsAs.multiply_add {c : Expression} (hk : k.CountsAs c) (hc : c.IsCanonical)
    (z : Operand) : (∃ s, x.add y = .ok s ∧ k.multiply s = .ok z) ↔
      ∃ u v, k.multiply x = .ok u ∧ k.multiply y = .ok v ∧ u.add v = .ok z := by
  cases x, y using pair_cases with
  | scalars x y a b ha hb =>
    have hlaw := (hc.obeysRingLaws (ha.isCanonical hx) (hb.isCanonical hy)).mul_add
    have hsum := (CountsAs.expression (c * a)).add (.expression (c * b))
    simp [ha.add hb, hk.multiply (.expression (a + b)), hk.multiply ha, hk.multiply hb, hsum, hlaw]
  | scalar_matrix x n a ha =>
    have hsum := (CountsAs.expression (c * a)).add_matrix (n.scale c)
    simp [ha.add_matrix, hk.multiply ha, hk.multiply_matrix, hsum]
  | matrix_scalar m y b hb =>
    have hsum := (CountsAs.expression (c * b)).matrix_add (m.scale c)
    simp [hb.matrix_add, hk.multiply hb, hk.multiply_matrix, hsum]
  | matrices m n =>
    have hlaw := Matrix3.add_scale_of_isCanonical hx hy hc
    simp [matrix_add_matrix, hk.multiply_matrix, hlaw]

theorem matrix_multiply_add {p : Matrix3 Expression}
    (hp : p.ForallEntries Expression.IsCanonical) (z : Operand) :
    (∃ s, x.add y = .ok s ∧ (matrix p).multiply s = .ok z) ↔
      ∃ u v, (matrix p).multiply x = .ok u ∧ (matrix p).multiply y = .ok v ∧ u.add v = .ok z := by
  cases x, y using pair_cases with
  | scalars x y a b ha hb =>
    have hlaw := Matrix3.scale_add_of_isCanonical hp (ha.isCanonical hx) (hb.isCanonical hy)
    have hproduct := (CountsAs.expression (a + b)).matrix_multiply p
    simp [ha.add hb, hproduct, ha.matrix_multiply, hb.matrix_multiply, matrix_add_matrix, hlaw]
  | scalar_matrix x n a ha => simp [ha.add_matrix, matrix_multiply_matrix]
  | matrix_scalar m y b hb => simp [hb.matrix_add, matrix_multiply_matrix]
  | matrices m n => simp [matrix_add_matrix, matrix_multiply_matrix]

theorem multiply_add_of_isCanonical (hk : k.IsCanonical) (z : Operand) :
    (∃ s, x.add y = .ok s ∧ k.multiply s = .ok z) ↔
      ∃ u v, k.multiply x = .ok u ∧ k.multiply y = .ok v ∧ u.add v = .ok z := by
  rcases k.exists_countsAs_or_eq_matrix with ⟨c, hc⟩ | ⟨p, rfl⟩
  · exact hc.multiply_add hx hy (hc.isCanonical hk) z
  · exact matrix_multiply_add hx hy hk z

end Laws

theorem exists_scale_eq {x : Operand} (hx : x.IsCanonical) (q : Rat) :
    ∃ z, x.scale q = .ok z ∧ x.multiply (.number q) = .ok z := by
  rcases x.exists_countsAs_or_eq_matrix with ⟨a, ha⟩ | ⟨m, rfl⟩
  · have hcanonical := ha.isCanonical hx
    have hlaw := (hcanonical.obeysRingLaws hcanonical hcanonical).scale_eq q
    exact ⟨_, ha.scale q, hlaw ▸ ha.multiply (.number q)⟩
  · exact ⟨_, matrix_scale m q, (CountsAs.number q).matrix_multiply m⟩

/-- Operands made of constructed expressions obey the laws, whatever their kinds. -/
theorem obeysOperandLaws {a b k : Operand} (ha : a.ForallExpressions Expression.IsConstructible)
    (hb : b.ForallExpressions Expression.IsConstructible)
    (hk : k.ForallExpressions Expression.IsConstructible) (q : Rat) :
    ObeysOperandLaws a b k q := by
  have hcanonical : ∀ {x : Operand}, x.ForallExpressions Expression.IsConstructible →
      x.IsCanonical := fun hx => isCanonical_iff.mpr (hx.imp fun h => h.isCanonical)
  have ha := hcanonical ha
  have hb := hcanonical hb
  obtain ⟨hsucceeds, hsub⟩ := sub_of_isCanonical ha hb
  exact
    { add_comm := add_comm_of_isCanonical ha hb
      multiply_comm := multiply_comm_of_isCanonical ha hb
      multiply_add := multiply_add_of_isCanonical ha hb (hcanonical hk)
      scale_eq := exists_scale_eq ha q
      sub_succeeds := hsucceeds
      sub_eq := hsub }

/-- A matrix and an expression, which have a product but no sum, and a symbol as factor. -/
theorem obeysOperandLaws_mixed :
    let x : Symbol := ⟨"x"⟩
    let e : Expression := ⟨[(.var x, 1), (.one, -1 / 2)]⟩
    let m : Operand := .matrix (.ofRowMajor #v[e, .one, e, .zero, e, e, .one, .one, e])
    m.ForallExpressions Expression.IsConstructible ∧
      (Operand.expression e).ForallExpressions Expression.IsConstructible ∧
      (Operand.symbol x).ForallExpressions Expression.IsConstructible ∧
      ObeysOperandLaws m (.expression e) (.symbol x) (-2) ∧
      ObeysOperandLaws m m (.symbol x) 0 := by
  intro x e m
  have hconstructible : ∀ {a : Expression}, a.IsCanonical → a.IsConstructible :=
    Expression.isConstructible_iff.mpr
  have he : (Operand.expression e).ForallExpressions Expression.IsConstructible :=
    hconstructible (a := e) (by decide +kernel)
  have hm : m.ForallExpressions Expression.IsConstructible :=
    Matrix3.ForallEntries.imp (by decide +kernel) hconstructible
  have hx : (Operand.symbol x).ForallExpressions Expression.IsConstructible :=
    hconstructible (Expression.isCanonical_ofSymbol x)
  exact ⟨hm, he, hx, obeysOperandLaws hm he hx (-2), obeysOperandLaws hm hm hx 0⟩

end Operand

end PivotCoefficients
