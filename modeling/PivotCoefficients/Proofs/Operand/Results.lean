import PivotCoefficients.Operand
import PivotCoefficients.Proofs.Except

/-!
# Results of operand operations

What an operation has computed when it succeeds: which operands were scalars,
which were matrices, and the expression or matrix that came out.
-/
namespace PivotCoefficients.Operand

variable {x y z : Operand} {a b : Expression}

theorem add_eq_ok (h : x.add y = .ok z) :
    (∃ m n, x = .matrix m ∧ y = .matrix n ∧ z = .matrix (m + n)) ∨
      ∃ a b, x.asExpression "add" = .ok a ∧ y.asExpression "add" = .ok b ∧
        z = .expression (a + b) := by
  unfold add at h
  split at h
  · next m n => exact Or.inl ⟨m, n, rfl, rfl, (Except.ok.inj h).symm⟩
  · cases h
  · cases h
  · obtain ⟨a, ha, h⟩ := bind_eq_ok_iff.mp h
    obtain ⟨b, hb, h⟩ := bind_eq_ok_iff.mp h
    exact Or.inr ⟨a, b, ha, hb, (Except.ok.inj h).symm⟩

theorem sub_eq_ok (h : x.sub y = .ok z) :
    (∃ m n, x = .matrix m ∧ y = .matrix n ∧ z = .matrix (m - n)) ∨
      ∃ a b, x.asExpression "sub" = .ok a ∧ y.asExpression "sub" = .ok b ∧
        z = .expression (a - b) := by
  unfold sub at h
  split at h
  · next m n => exact Or.inl ⟨m, n, rfl, rfl, (Except.ok.inj h).symm⟩
  · cases h
  · cases h
  · obtain ⟨a, ha, h⟩ := bind_eq_ok_iff.mp h
    obtain ⟨b, hb, h⟩ := bind_eq_ok_iff.mp h
    exact Or.inr ⟨a, b, ha, hb, (Except.ok.inj h).symm⟩

theorem multiply_eq_ok (h : x.multiply y = .ok z) :
    (∃ m k, x = .matrix m ∧ y.asExpression "multiply" = .ok k ∧ z = .matrix (m.scale k)) ∨
      (∃ k m, x.asExpression "multiply" = .ok k ∧ y = .matrix m ∧ z = .matrix (m.scale k)) ∨
      ∃ a b, x.asExpression "multiply" = .ok a ∧ y.asExpression "multiply" = .ok b ∧
        z = .expression (a * b) := by
  unfold multiply at h
  split at h
  · cases h
  · next m _ =>
    obtain ⟨k, hk, h⟩ := bind_eq_ok_iff.mp h
    exact Or.inl ⟨m, k, rfl, hk, (Except.ok.inj h).symm⟩
  · next m _ =>
    obtain ⟨k, hk, h⟩ := bind_eq_ok_iff.mp h
    exact Or.inr (Or.inl ⟨k, m, hk, rfl, (Except.ok.inj h).symm⟩)
  · obtain ⟨a, ha, h⟩ := bind_eq_ok_iff.mp h
    obtain ⟨b, hb, h⟩ := bind_eq_ok_iff.mp h
    exact Or.inr (Or.inr ⟨a, b, ha, hb, (Except.ok.inj h).symm⟩)

theorem power_eq_ok {n : ℕ} (h : x.power n = .ok z) :
    ∃ a, x.asExpression "power" = .ok a ∧ z = .expression (a.pow n) := by
  obtain ⟨a, ha, h⟩ := bind_eq_ok_iff.mp h
  exact ⟨a, ha, (Except.ok.inj h).symm⟩

theorem scale_eq_ok {k : Rat} (h : x.scale k = .ok z) :
    (∃ m, x = .matrix m ∧ z = .matrix (m.scale (.constant k))) ∨
      ∃ a, x.asExpression "scale" = .ok a ∧ z = .expression (a.scale k) := by
  unfold scale at h
  split at h
  · next m => exact Or.inl ⟨m, rfl, (Except.ok.inj h).symm⟩
  · obtain ⟨a, ha, h⟩ := bind_eq_ok_iff.mp h
    exact Or.inr ⟨a, ha, (Except.ok.inj h).symm⟩

theorem asMatrix_eq_ok {operation : String} {m : Matrix3 Expression}
    (h : x.asMatrix operation = .ok m) : x = .matrix m := by
  cases x with
  | matrix n => exact congrArg Operand.matrix (Except.ok.inj h)
  | number | symbol | expression => cases h

theorem determinant_eq_ok (h : x.determinant = .ok z) :
    ∃ m, x = .matrix m ∧ z = .expression m.det := by
  obtain ⟨m, hm, h⟩ := bind_eq_ok_iff.mp h
  exact ⟨m, asMatrix_eq_ok hm, (Except.ok.inj h).symm⟩

theorem ofEntries_eq_ok {entries : Vector Operand 9} (h : ofEntries entries = .ok z) :
    ∃ scalars : Vector Expression 9,
      (∀ i : Fin 9, (entries.get i).asScalar .matrixAlgebra "matrix" = .ok (scalars.get i)) ∧
        z = .matrix (.ofRowMajor scalars) := by
  obtain ⟨scalars, hs, h⟩ := bind_eq_ok_iff.mp h
  exact ⟨scalars, vector_mapM_eq_ok_iff.mp hs, (Except.ok.inj h).symm⟩

end PivotCoefficients.Operand
