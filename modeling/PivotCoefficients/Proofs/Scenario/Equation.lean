import PivotCoefficients.Proofs.Derivation
import PivotCoefficients.Proofs.Matrix3.Determinant
import PivotCoefficients.Proofs.Scenario.Assembly

/-!
# Equations of the scenarios

The coefficients of every scenario add up to the equation it is named for: the
determinant of a pencil of matrices, or the difference of two products whose
fourth powers of the pivot cancel.
-/
namespace PivotCoefficients

open MvPolynomial

/-- The declared symbols and no others, each with the value of its name. -/
def SymbolTable.bind (t : SymbolTable) (ρ : String → ℚ) : Binding :=
  fun s => if t.contains s.name then some (ρ s.name) else none

theorem SymbolTable.bind_of_contains {t : SymbolTable} {s : Symbol} (h : t.contains s.name)
    (ρ : String → ℚ) : t.bind ρ s = some (ρ s.name) :=
  if_pos h

namespace Scenario

/-- The values of the entries of `F1`. -/
def firstValues (ρ : String → ℚ) : Matrix (Fin 3) (Fin 3) ℚ :=
  !![ρ "a", ρ "b", ρ "c"; ρ "d", ρ "e", ρ "f"; ρ "g", ρ "h", ρ "i"]

def secondValues (ρ : String → ℚ) : Matrix (Fin 3) (Fin 3) ℚ :=
  !![ρ "j", ρ "k", ρ "l"; ρ "m", ρ "n", ρ "o"; ρ "p", ρ "q", ρ "r"]

/-- The left side of the equation that the scenario is named for, over the
rationals and with the value `t` of the pivot. -/
def leftSide (ρ : String → ℚ) (t : ℚ) : Scenario → ℚ
  | .fundamental => (firstValues ρ + t • secondValues ρ).det
  | .fundamentalConvex => (t • firstValues ρ + (1 - t) • secondValues ρ).det
  | .panography =>
    (ρ "a12" + t) ^ 2 * (ρ "b1" + t) * (ρ "b2" + t) -
      (ρ "b12" + t) ^ 2 * (ρ "a1" + t) * (ρ "a2" + t)

theorem entry_symbolEntries (names : Vector String 9) (i j : Fin 3) :
    (symbolEntries names).entry i j = .ofSymbol ⟨names.get (Matrix3.cell i j)⟩ := by
  rw [symbolEntries, Matrix3.entry_ofRowMajor, vector_get_map]

theorem isCanonical_symbolEntries (names : Vector String 9) :
    (symbolEntries names).ForallEntries Expression.IsCanonical := by
  intro i j
  rw [entry_symbolEntries]
  exact Expression.isCanonical_ofSymbol _

theorem isCanonical_productExpression (p q r : String) :
    (productExpression p q r).IsCanonical := by
  have hshifted : ∀ name, (shifted name).IsCanonical := fun name =>
    (Expression.isCanonical_ofSymbol ⟨name⟩).add (Expression.isCanonical_ofSymbol _)
  exact (((hshifted p).pow 2).mul (hshifted q)).mul (hshifted r)

theorem isCanonical_equation (s : Scenario) : s.equation.IsCanonical := by
  have hfirst := isCanonical_symbolEntries firstMatrix
  have hsecond := isCanonical_symbolEntries secondMatrix
  have hpivot := fun name => Expression.isCanonical_ofSymbol ⟨name⟩
  cases s with
  | fundamental =>
    have hpencil := hfirst.add .add (hsecond.scale .mul (hpivot "z"))
    exact hpencil.det .add .sub .mul
  | fundamentalConvex =>
    have hcomplement := (Expression.isCanonical_constant 1).sub (hpivot "alpha")
    have hpencil := (hfirst.scale .mul (hpivot "alpha")).add .add (hsecond.scale .mul hcomplement)
    exact hpencil.det .add .sub .mul
  | panography =>
    exact (isCanonical_productExpression _ _ _).sub (isCanonical_productExpression _ _ _)

theorem polynomial_productExpression (p q r : String) :
    (productExpression p q r).polynomial =
      (X ⟨p⟩ + X ⟨"f2"⟩) ^ 2 * (X ⟨q⟩ + X ⟨"f2"⟩) * (X ⟨r⟩ + X ⟨"f2"⟩) := by
  simp only [productExpression, shifted, Expression.polynomial_mul, Expression.polynomial_pow,
    Expression.polynomial_add, Expression.polynomial_ofSymbol]

section Symbols

def declaredSymbols (s : Scenario) : Set Symbol := {x | x.name ∈ s.declaredNames}

theorem polynomial_ofSymbol_mem {s : Scenario} (name : String) (h : name ∈ s.declaredNames) :
    (Expression.ofSymbol ⟨name⟩).polynomial ∈ supported ℚ s.declaredSymbols := by
  rw [Expression.polynomial_ofSymbol, X_mem_supported]
  exact h

theorem polynomial_symbolEntries_mem {s : Scenario} (names : Vector String 9)
    (h : ∀ i : Fin 9, names.get i ∈ s.declaredNames) :
    (symbolEntries names).ForallEntries
      (fun e => e.polynomial ∈ supported ℚ s.declaredSymbols) := by
  intro i j
  rw [entry_symbolEntries]
  exact polynomial_ofSymbol_mem _ (h (Matrix3.cell i j))

theorem polynomial_productExpression_mem {p q r : String}
    (hp : p ∈ declaredNames .panography) (hq : q ∈ declaredNames .panography)
    (hr : r ∈ declaredNames .panography) :
    (productExpression p q r).polynomial ∈ supported ℚ (declaredSymbols .panography) := by
  have hshifted : ∀ name ∈ declaredNames .panography,
      (shifted name).polynomial ∈ supported ℚ (declaredSymbols .panography) := by
    intro name hname
    exact Expression.polynomial_add_mem (polynomial_ofSymbol_mem name hname)
      (polynomial_ofSymbol_mem "f2" (by decide))
  have hsquare := Expression.polynomial_pow_mem (hshifted p hp) 2
  exact Expression.polynomial_mul_mem (Expression.polynomial_mul_mem hsquare (hshifted q hq))
    (hshifted r hr)

theorem polynomial_equation_mem (s : Scenario) :
    s.equation.polynomial ∈ supported ℚ s.declaredSymbols := by
  cases s with
  | fundamental =>
    have hpivot := polynomial_ofSymbol_mem (s := .fundamental) "z" (by decide)
    have hfirst := polynomial_symbolEntries_mem (s := .fundamental) firstMatrix (by decide)
    have hsecond := polynomial_symbolEntries_mem (s := .fundamental) secondMatrix (by decide)
    apply Matrix3.polynomial_det_mem
    exact hfirst.add Expression.polynomial_add_mem
      (hsecond.scale Expression.polynomial_mul_mem hpivot)
  | fundamentalConvex =>
    have hpivot := polynomial_ofSymbol_mem (s := .fundamentalConvex) "alpha" (by decide)
    have hfirst := polynomial_symbolEntries_mem (s := .fundamentalConvex) firstMatrix (by decide)
    have hsecond := polynomial_symbolEntries_mem (s := .fundamentalConvex) secondMatrix (by decide)
    have hcomplement := Expression.polynomial_sub_mem (Expression.polynomial_constant_mem 1) hpivot
    apply Matrix3.polynomial_det_mem
    exact (hfirst.scale Expression.polynomial_mul_mem hpivot).add Expression.polynomial_add_mem
      (hsecond.scale Expression.polynomial_mul_mem hcomplement)
  | panography =>
    apply Expression.polynomial_sub_mem
    · exact polynomial_productExpression_mem (by decide) (by decide) (by decide)
    · exact polynomial_productExpression_mem (by decide) (by decide) (by decide)

end Symbols

section Degrees

variable (pivot : Symbol)

theorem degreeOf_pivot_le : degreeOf pivot (Expression.ofSymbol pivot).polynomial ≤ 1 := by
  rw [Expression.polynomial_ofSymbol, degreeOf_X_self]

theorem degreeOf_symbolEntries_le (names : Vector String 9)
    (h : ∀ i : Fin 9, names.get i ≠ pivot.name) :
    (symbolEntries names).ForallEntries (fun e => degreeOf pivot e.polynomial ≤ 0) := by
  intro i j
  rw [entry_symbolEntries, Expression.polynomial_ofSymbol, degreeOf_X, if_neg]
  intro hpivot
  exact h (Matrix3.cell i j) (congrArg Symbol.name hpivot).symm

theorem degreeOf_scale_le {m : Matrix3 Expression} {k : Expression}
    (hm : m.ForallEntries (fun e => degreeOf pivot e.polynomial ≤ 0))
    (hk : degreeOf pivot k.polynomial ≤ 1) :
    (m.scale k).ForallEntries (fun e => degreeOf pivot e.polynomial ≤ 1) := by
  intro i j
  rw [Matrix3.entry_scale]
  exact Expression.degreeOf_mul_le_of_le (hm i j) hk

/-- Without its leading power the product is of degree three. -/
theorem degreeOf_productExpression_sub_le {p q r : String} (hp : p ≠ "f2") (hq : q ≠ "f2")
    (hr : r ≠ "f2") :
    degreeOf (⟨"f2"⟩ : Symbol) ((productExpression p q r).polynomial - X ⟨"f2"⟩ ^ 4) ≤ 3 := by
  let S : Subalgebra ℚ (MvPolynomial Symbol ℚ) := supported ℚ {x : Symbol | x ≠ ⟨"f2"⟩}
  have hX : ∀ {name : String}, name ≠ "f2" → X (⟨name⟩ : Symbol) ∈ S := by
    intro name hname
    exact X_mem_supported.mpr (fun h => hname (congrArg Symbol.name h))
  -- the parts free of the pivot from which the coefficients of its powers are made
  have hsquare := S.mul_mem (hX hp) (hX hp)
  have hdouble := S.add_mem (hX hp) (hX hp)
  have hsum := S.add_mem (hX hq) (hX hr)
  have hproduct := S.mul_mem (hX hq) (hX hr)
  have h3 := Expression.degreeOf_mul_X_pow_le (S.add_mem hdouble hsum) 3
  have h2 := Expression.degreeOf_mul_X_pow_le
    (S.add_mem (S.add_mem hsquare (S.mul_mem hdouble hsum)) hproduct) 2
  have h1 := Expression.degreeOf_mul_X_pow_le
    (S.add_mem (S.mul_mem hsquare hsum) (S.mul_mem hdouble hproduct)) 1
  have h0 := Expression.degreeOf_mul_X_pow_le (S.mul_mem hsquare hproduct) 0
  have hadd : ∀ {f g : MvPolynomial Symbol ℚ}, degreeOf ⟨"f2"⟩ f ≤ 3 → degreeOf ⟨"f2"⟩ g ≤ 3 →
      degreeOf (⟨"f2"⟩ : Symbol) (f + g) ≤ 3 :=
    fun hf hg => (degreeOf_add_le _ _ _).trans (max_le hf hg)
  have hhigh := hadd h3 (h2.trans (by decide : 2 ≤ 3))
  have hlow := hadd (h1.trans (by decide : 1 ≤ 3)) (h0.trans (by decide : 0 ≤ 3))
  refine le_trans (le_of_eq (congrArg _ ?_)) (hadd hhigh hlow)
  rw [polynomial_productExpression]
  ring

theorem degreeOf_equation_le (s : Scenario) : degreeOf s.pivot s.equation.polynomial ≤ 3 := by
  cases s with
  | fundamental =>
    have hfirst := degreeOf_symbolEntries_le ⟨"z"⟩ firstMatrix (by decide)
    have hsecond := degreeOf_symbolEntries_le ⟨"z"⟩ secondMatrix (by decide)
    have hscaled := degreeOf_scale_le _ hsecond (degreeOf_pivot_le ⟨"z"⟩)
    apply Matrix3.degreeOf_det_le (n := 1)
    exact Matrix3.ForallEntries.add Expression.degreeOf_add_le_of_le
      (fun i j => (hfirst i j).trans (by decide)) hscaled
  | fundamentalConvex =>
    have hfirst := degreeOf_symbolEntries_le ⟨"alpha"⟩ firstMatrix (by decide)
    have hsecond := degreeOf_symbolEntries_le ⟨"alpha"⟩ secondMatrix (by decide)
    have hpivot := degreeOf_pivot_le ⟨"alpha"⟩
    have hone : degreeOf ⟨"alpha"⟩ (Expression.constant 1).polynomial ≤ 1 := by
      rw [Expression.polynomial_constant, degreeOf_C]
      decide
    apply Matrix3.degreeOf_det_le (n := 1)
    exact Matrix3.ForallEntries.add Expression.degreeOf_add_le_of_le
      (degreeOf_scale_le _ hfirst hpivot)
      (degreeOf_scale_le _ hsecond (Expression.degreeOf_sub_le_of_le hone hpivot))
  | panography =>
    have hleft := degreeOf_productExpression_sub_le (p := "a12") (q := "b1") (r := "b2")
      (by decide) (by decide) (by decide)
    have hright := degreeOf_productExpression_sub_le (p := "b12") (q := "a1") (r := "a2")
      (by decide) (by decide) (by decide)
    have hdifference := (degreeOf_sub_le _ _ _).trans (max_le hleft hright)
    rw [sub_sub_sub_cancel_right, ← Expression.polynomial_sub] at hdifference
    exact hdifference

end Degrees

section Values

variable (ρ : String → ℚ)

theorem firstValues_apply (i j : Fin 3) :
    firstValues ρ i j = ρ (firstMatrix.get (Matrix3.cell i j)) := by
  fin_cases i <;> fin_cases j <;> rfl

theorem secondValues_apply (i j : Fin 3) :
    secondValues ρ i j = ρ (secondMatrix.get (Matrix3.cell i j)) := by
  fin_cases i <;> fin_cases j <;> rfl

theorem eval_equation (s : Scenario) :
    eval (fun x : Symbol => ρ x.name) s.equation.polynomial =
      s.leftSide ρ (ρ s.pivot.name) := by
  cases s with
  | fundamental =>
    rw [equation, Matrix3.eval_det, leftSide]
    congr 1
    ext i j
    simp [Matrix3.toMatrix, entry_symbolEntries, firstValues_apply, secondValues_apply, pivot,
      mul_comm]
  | fundamentalConvex =>
    rw [equation, Matrix3.eval_det, leftSide]
    congr 1
    ext i j
    simp [Matrix3.toMatrix, entry_symbolEntries, firstValues_apply, secondValues_apply, pivot,
      mul_comm]
  | panography =>
    rw [equation, Expression.polynomial_sub, polynomial_productExpression,
      polynomial_productExpression]
    simp [leftSide, pivot]

end Values

theorem pivot_mem_declaredNames (s : Scenario) : s.pivot.name ∈ s.declaredNames := by
  cases s <;> decide

theorem degreeIn_equation_le (s : Scenario) : s.equation.degreeIn s.pivot ≤ 3 := by
  rw [s.isCanonical_equation.degreeIn_eq_degreeOf]
  exact s.degreeOf_equation_le

theorem exists_coefficients (s : Scenario) :
    ∃ t, Derivation.coefficients ⟨s.symbols, s.equation, s.pivot, 3⟩ = .ok t := by
  have hcanonical := s.isCanonical_equation
  obtain ⟨t, ht⟩ := Expression.collect_of_degreeIn_le s.degreeIn_equation_le
  refine ⟨t, Derivation.coefficients_eq_ok_iff.mpr ⟨?_, ?_, ht⟩⟩
  · exact s.contains_symbols.mpr s.pivot_mem_declaredNames
  · intro x hx
    exact s.contains_symbols.mpr (hcanonical.mem_of_mem_symbols s.polynomial_equation_mem hx)

/-- Every scenario derives the coefficients of its equation, which are free of the
pivot. Whatever rationals stand for the declared names, the values of the coefficients
times the powers of the pivot add up to the left side computed on these rationals. -/
theorem coefficients_sum_eq_leftSide (s : Scenario) :
    ∃ d t, s.derivation = .ok d ∧ d.coefficients = .ok t ∧ ∀ ρ : String → ℚ,
      ∃ values : ℕ → ℚ,
        (∀ i ≤ t.maxDegree, ∃ e, t.get? i = some e ∧ d.pivot ∉ e.symbols ∧
          e.evaluate (d.symbols.bind ρ) = .ok (values i)) ∧
        ∑ i ∈ Finset.range (t.maxDegree + 1), values i * ρ d.pivot.name ^ i =
          s.leftSide ρ (ρ d.pivot.name) := by
  obtain ⟨t, ht⟩ := s.exists_coefficients
  refine ⟨_, t, s.derivation_eq, ht, ?_⟩
  intro ρ
  obtain ⟨hpivot, hsymbols, -⟩ := Derivation.coefficients_eq_ok_iff.mp ht
  have hbound : ∀ x : Symbol, s.symbols.contains x.name → (s.symbols.bind ρ x).isSome := by
    intro x hx
    rw [SymbolTable.bind_of_contains hx]
    rfl
  obtain ⟨values, hvalues, hsum⟩ := Derivation.exists_values s.isCanonical_equation ht hbound
    (SymbolTable.bind_of_contains hpivot ρ)
  have hequation : s.equation.evaluate (s.symbols.bind ρ) =
      .ok (s.leftSide ρ (ρ s.pivot.name)) := by
    rw [← eval_equation]
    exact Expression.evaluate_eq fun x hx => SymbolTable.bind_of_contains (hsymbols x hx) ρ
  refine ⟨values, ?_, Except.ok.inj (hsum.symm.trans hequation)⟩
  intro i hi
  have hfree : s.pivot ∉ (s.equation.coefficientOfPower s.pivot i).symbols :=
    fun hmem => (Expression.mem_symbols_of_mem_coefficientOfPower hmem).2 rfl
  exact ⟨_, Derivation.get?_of_coefficients ht hi, hfree, hvalues i⟩

end Scenario

end PivotCoefficients
