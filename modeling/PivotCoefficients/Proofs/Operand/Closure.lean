import PivotCoefficients.Proofs.Matrix3.Entries
import PivotCoefficients.Proofs.Operand.Results

/-!
# Properties of the expressions in operands

A property that constants have and that the arithmetic of expressions keeps is
kept by the operations on operands: the expressions in a result have it when all
expressions in the arguments do.
-/
namespace PivotCoefficients

/-- Constants have the property `P`, and sums, differences, products and multiples keep it. -/
structure Expression.IsClosed (P : Expression → Prop) : Prop where
  constant : ∀ c, P (constant c)
  add : ∀ {a b}, P a → P b → P (a + b)
  sub : ∀ {a b}, P a → P b → P (a - b)
  mul : ∀ {a b}, P a → P b → P (a * b)
  scale : ∀ {a}, P a → ∀ k, P (a.scale k)

theorem Expression.IsClosed.pow {P : Expression → Prop} (hP : IsClosed P) {a : Expression}
    (ha : P a) (n : Nat) : P (a.pow n) :=
  PowerState.run_of_forall_mul hP.mul (hP.constant 1) ha

/-- Every expression in the operand has the property `P`, where a symbol counts as one. -/
def Operand.ForallExpressions (P : Expression → Prop) : Operand → Prop
  | .number _ => True
  | .symbol s => P (.ofSymbol s)
  | .expression e => P e
  | .matrix m => m.ForallEntries P

namespace Operand.ForallExpressions

variable {P : Expression → Prop} {x y z : Operand}

theorem imp {Q : Expression → Prop} (hx : x.ForallExpressions P) (h : ∀ {e}, P e → Q e) :
    x.ForallExpressions Q := by
  cases x with
  | number q => trivial
  | symbol s => exact h hx
  | expression e => exact h hx
  | matrix m => exact Matrix3.ForallEntries.imp hx h

theorem asScalar (hP : Expression.IsClosed P) {component : Component} {operation : String}
    {e : Expression} (hx : x.ForallExpressions P) (h : x.asScalar component operation = .ok e) :
    P e := by
  cases x with
  | number q => exact Except.ok.inj h ▸ hP.constant q
  | symbol s => exact Except.ok.inj h ▸ hx
  | expression a => exact Except.ok.inj h ▸ hx
  | matrix m => cases h

theorem asExpression (hP : Expression.IsClosed P) {operation : String} {e : Expression}
    (hx : x.ForallExpressions P) (h : x.asExpression operation = .ok e) : P e :=
  hx.asScalar hP h

theorem ofEntries (hP : Expression.IsClosed P) {entries : Vector Operand 9}
    (hentries : ∀ i : Fin 9, (entries.get i).ForallExpressions P)
    (h : Operand.ofEntries entries = .ok z) : z.ForallExpressions P := by
  obtain ⟨scalars, hs, rfl⟩ := ofEntries_eq_ok h
  exact Matrix3.forallEntries_ofRowMajor (fun i => (hentries i).asScalar hP (hs i))

theorem add (hP : Expression.IsClosed P) (hx : x.ForallExpressions P) (hy : y.ForallExpressions P)
    (h : x.add y = .ok z) : z.ForallExpressions P := by
  rcases add_eq_ok h with ⟨m, n, rfl, rfl, rfl⟩ | ⟨a, b, ha, hb, rfl⟩
  · exact Matrix3.ForallEntries.add hP.add hx hy
  · exact hP.add (hx.asExpression hP ha) (hy.asExpression hP hb)

theorem sub (hP : Expression.IsClosed P) (hx : x.ForallExpressions P) (hy : y.ForallExpressions P)
    (h : x.sub y = .ok z) : z.ForallExpressions P := by
  rcases sub_eq_ok h with ⟨m, n, rfl, rfl, rfl⟩ | ⟨a, b, ha, hb, rfl⟩
  · exact Matrix3.ForallEntries.sub hP.sub hx hy
  · exact hP.sub (hx.asExpression hP ha) (hy.asExpression hP hb)

theorem multiply (hP : Expression.IsClosed P) (hx : x.ForallExpressions P)
    (hy : y.ForallExpressions P) (h : x.multiply y = .ok z) : z.ForallExpressions P := by
  rcases multiply_eq_ok h with ⟨m, k, rfl, hk, rfl⟩ | ⟨k, m, hk, rfl, rfl⟩ | ⟨a, b, ha, hb, rfl⟩
  · exact Matrix3.ForallEntries.scale hP.mul hx (hy.asExpression hP hk)
  · exact Matrix3.ForallEntries.scale hP.mul hy (hx.asExpression hP hk)
  · exact hP.mul (hx.asExpression hP ha) (hy.asExpression hP hb)

theorem power (hP : Expression.IsClosed P) {n : Nat} (hx : x.ForallExpressions P)
    (h : x.power n = .ok z) : z.ForallExpressions P := by
  obtain ⟨a, ha, rfl⟩ := power_eq_ok h
  exact hP.pow (hx.asExpression hP ha) n

theorem scale (hP : Expression.IsClosed P) {k : Rat} (hx : x.ForallExpressions P)
    (h : x.scale k = .ok z) : z.ForallExpressions P := by
  rcases scale_eq_ok h with ⟨m, rfl, rfl⟩ | ⟨a, ha, rfl⟩
  · exact Matrix3.ForallEntries.scale hP.mul hx (hP.constant k)
  · exact hP.scale (hx.asExpression hP ha) k

theorem determinant (hP : Expression.IsClosed P) (hx : x.ForallExpressions P)
    (h : x.determinant = .ok z) : z.ForallExpressions P := by
  obtain ⟨m, rfl, rfl⟩ := determinant_eq_ok h
  exact Matrix3.ForallEntries.det hP.add hP.sub hP.mul hx

end Operand.ForallExpressions

end PivotCoefficients
