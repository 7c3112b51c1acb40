import PivotCoefficients.Proofs.Expression.Evaluation
import PivotCoefficients.Proofs.Expression.Symbols
import PivotCoefficients.Proofs.Matrix3.Determinant
import PivotCoefficients.Proofs.Operand.Closure
import PivotCoefficients.Proofs.Operand.Rules

/-!
# Values of trees

A tree also has a value in linear algebra over the rationals, which is computed
without expressions: from the values of the leaves upwards, by the arithmetic of
rationals and of their matrices. The operand that the tree is evaluated to has
the same value, since each operation computes on operands what linear algebra
computes on their values.
-/
namespace PivotCoefficients

open MvPolynomial

/-- A rational or a matrix of rationals. -/
inductive RationalOperand where
  | scalar (q : ℚ)
  | matrix (m : Matrix (Fin 3) (Fin 3) ℚ)
  deriving DecidableEq

def RationalOperand.scalar? : RationalOperand → Option ℚ
  | .scalar q => some q
  | .matrix _ => none

/-- The value of an operand, entry by entry for a matrix. -/
def Operand.evaluate (ρ : Binding) : Operand → Except DerivationError RationalOperand
  | .number q => .ok (.scalar q)
  | .symbol s => return .scalar (← ρ.get s)
  | .expression e => return .scalar (← e.evaluate ρ)
  | .matrix m =>
    return .matrix (Matrix3.toMatrix ⟨← m.rows.mapM (fun row => row.mapM (·.evaluate ρ))⟩)

/-- The value of the tree with rationals for its symbols, where it has one. -/
def OperandTree.value (ρ : Binding) : OperandTree → Option RationalOperand
  | .leaf x => (x.evaluate ρ).toOption
  | .matrix entries => do
    let scalars ← (Vector.ofFn id).mapM (fun i => (entries i).value ρ >>= RationalOperand.scalar?)
    return .matrix (Matrix.of fun i j => scalars.get (Matrix3.cell i j))
  | .add l r => do
    match ← l.value ρ, ← r.value ρ with
    | .scalar p, .scalar q => return .scalar (p + q)
    | .matrix m, .matrix n => return .matrix (m + n)
    | _, _ => none
  | .sub l r => do
    match ← l.value ρ, ← r.value ρ with
    | .scalar p, .scalar q => return .scalar (p - q)
    | .matrix m, .matrix n => return .matrix (m - n)
    | _, _ => none
  | .multiply l r => do
    match ← l.value ρ, ← r.value ρ with
    | .scalar p, .scalar q => return .scalar (p * q)
    | .matrix m, .scalar k => return .matrix (k • m)
    | .scalar k, .matrix m => return .matrix (k • m)
    | _, _ => none
  | .power t n => do
    match ← t.value ρ with
    | .scalar q => return .scalar (q ^ n)
    | .matrix _ => none
  | .scale t k => do
    match ← t.value ρ with
    | .scalar q => return .scalar (k * q)
    | .matrix m => return .matrix (k • m)
  | .neg t => do
    match ← t.value ρ with
    | .scalar q => return .scalar (-q)
    | .matrix m => return .matrix (-m)
  | .determinant t => do
    match ← t.value ρ with
    | .scalar _ => none
    | .matrix m => return .scalar m.det

theorem vector_mapM_ofFn_eq_some {α : Type} {n : ℕ} {f : Fin n → Option α} {w : Vector α n}
    (h : ∀ i, f i = some (w.get i)) : (Vector.ofFn id).mapM f = some w := by
  have hf : f = fun i => pure (w.get i) := funext h
  rw [hf, Vector.mapM_pure]
  congr 1
  ext i hi
  simp [Vector.get]

namespace Matrix3

variable (v : Symbol → ℚ) (m n : Matrix3 Expression)

/-- The values of the entries where the symbols have the values `v`. -/
noncomputable def valuesAt : Matrix (Fin 3) (Fin 3) ℚ :=
  m.toMatrix.map (fun e => eval v e.polynomial)

@[simp] theorem valuesAt_apply (i j : Fin 3) :
    m.valuesAt v i j = eval v (m.entry i j).polynomial := rfl

theorem valuesAt_add : (m + n).valuesAt v = m.valuesAt v + n.valuesAt v := by
  ext i j
  simp

theorem valuesAt_sub : (m - n).valuesAt v = m.valuesAt v - n.valuesAt v := by
  ext i j
  simp

theorem valuesAt_scale (k : Expression) :
    (m.scale k).valuesAt v = eval v k.polynomial • m.valuesAt v := by
  ext i j
  simp [mul_comm]

theorem valuesAt_ofRowMajor (entries : Vector Expression 9) :
    (ofRowMajor entries).valuesAt v =
      Matrix.of fun i j => (entries.map (fun e => eval v e.polynomial)).get (cell i j) := by
  ext i j
  rw [valuesAt_apply, entry_ofRowMajor, Matrix.of_apply, vector_get_map]

end Matrix3

namespace Operand

def HasSymbol (s : Symbol) : Operand → Prop
  | .number _ => False
  | .symbol t => s = t
  | .expression e => s ∈ e.symbols
  | .matrix m => ∃ i j, s ∈ (m.entry i j).symbols

/-- The value of the operand where the symbols have the values `v`. -/
noncomputable def valueAt (v : Symbol → ℚ) : Operand → RationalOperand
  | .number q => .scalar q
  | .symbol s => .scalar (v s)
  | .expression e => .scalar (eval v e.polynomial)
  | .matrix m => .matrix (m.valuesAt v)

variable {x y z : Operand} {ρ : Binding} {v : Symbol → ℚ}

abbrev IsBound (ρ : Binding) (x : Operand) : Prop :=
  x.ForallExpressions (Expression.ForallSymbols (fun s => (ρ s).isSome))

theorem isBound_of_forall_hasSymbol (h : ∀ s, x.HasSymbol s → (ρ s).isSome) : x.IsBound ρ := by
  cases x with
  | number q => trivial
  | symbol s => exact Expression.forallSymbols_ofSymbol.mpr (h s rfl)
  | expression e => exact h
  | matrix m => exact fun i j s hs => h s ⟨i, j, hs⟩

theorem evaluate_eq_valueAt (h : x.IsBound ρ) : x.evaluate ρ = .ok (x.valueAt ρ.values) := by
  cases x with
  | number q => rfl
  | symbol s =>
    have hs : (ρ s).isSome := Expression.forallSymbols_ofSymbol.mp h
    rw [Operand.evaluate, Binding.get_of_eq_some (Binding.eq_some_values hs)]
    rfl
  | expression e =>
    rw [Operand.evaluate, Expression.evaluate_eq_values h]
    rfl
  | matrix m =>
    have hrows : m.rows.mapM (fun row => row.mapM (·.evaluate ρ)) =
        .ok (m.map (fun e => eval ρ.values e.polynomial)).rows := by
      rw [vector_mapM_eq_ok_iff]
      intro i
      rw [vector_mapM_eq_ok_iff]
      intro j
      change (m.entry i j).evaluate ρ = .ok (Matrix3.entry _ i j)
      rw [Matrix3.entry_map, Expression.evaluate_eq_values (h i j)]
    have hvalues :
        (m.map (fun e => eval ρ.values e.polynomial)).toMatrix = m.valuesAt ρ.values := by
      ext i j
      exact Matrix3.entry_map _ m i j
    rw [Operand.evaluate, hrows, valueAt, ← hvalues]
    rfl

theorem isClosed_forallSymbols (P : Symbol → Prop) :
    Expression.IsClosed (Expression.ForallSymbols P) where
  constant := Expression.forallSymbols_constant
  add := .add
  sub := .sub
  mul := .mul
  scale := .scale

theorem valueAt_of_asScalar {component : Component} {operation : String} {e : Expression}
    (h : x.asScalar component operation = .ok e) :
    x.valueAt v = .scalar (eval v e.polynomial) := by
  cases x with
  | number q =>
    obtain rfl := Except.ok.inj h
    simp [valueAt]
  | symbol s =>
    obtain rfl := Except.ok.inj h
    simp [valueAt]
  | expression a =>
    obtain rfl := Except.ok.inj h
    rfl
  | matrix m => cases h

theorem valueAt_of_asExpression {operation : String} {e : Expression}
    (h : x.asExpression operation = .ok e) : x.valueAt v = .scalar (eval v e.polynomial) :=
  valueAt_of_asScalar h

end Operand

namespace OperandTree

open Operand

/-- The operand has a value, which is that of the tree. -/
structure Agrees (ρ : Binding) (t : OperandTree) (x : Operand) : Prop where
  isBound : x.IsBound ρ
  value_eq : t.value ρ = some (x.valueAt ρ.values)

namespace Agrees

variable {t l r : OperandTree} {x y z : Operand} {ρ : Binding}

attribute [local simp] value valueAt

theorem leaf (h : x.IsBound ρ) : Agrees ρ (.leaf x) x where
  isBound := h
  value_eq := by
    simp [evaluate_eq_valueAt h, Except.toOption]

theorem matrix {entries : Fin 9 → OperandTree} {xs : Vector Operand 9}
    (hentries : ∀ i, Agrees ρ (entries i) (xs.get i)) (h : Operand.ofEntries xs = .ok z) :
    Agrees ρ (.matrix entries) z where
  isBound := .ofEntries (isClosed_forallSymbols _) (fun i => (hentries i).isBound) h
  value_eq := by
    obtain ⟨scalars, hs, rfl⟩ := ofEntries_eq_ok h
    have hscalars : ∀ i, (entries i).value ρ >>= RationalOperand.scalar? =
        some ((scalars.map (fun e => eval ρ.values e.polynomial)).get i) := by
      intro i
      rw [(hentries i).value_eq, valueAt_of_asScalar (hs i), vector_get_map]
      rfl
    rw [value, vector_mapM_ofFn_eq_some hscalars, valueAt, Matrix3.valuesAt_ofRowMajor]
    rfl

theorem add (hl : Agrees ρ l x) (hr : Agrees ρ r y) (h : x.add y = .ok z) :
    Agrees ρ (.add l r) z where
  isBound := hl.isBound.add (isClosed_forallSymbols _) hr.isBound h
  value_eq := by
    rw [value, hl.value_eq, hr.value_eq]
    rcases add_eq_ok h with ⟨m, n, rfl, rfl, rfl⟩ | ⟨a, b, ha, hb, rfl⟩
    · simp [Matrix3.valuesAt_add]
    · rw [valueAt_of_asExpression ha, valueAt_of_asExpression hb]
      simp

theorem sub (hl : Agrees ρ l x) (hr : Agrees ρ r y) (h : x.sub y = .ok z) :
    Agrees ρ (.sub l r) z where
  isBound := hl.isBound.sub (isClosed_forallSymbols _) hr.isBound h
  value_eq := by
    rw [value, hl.value_eq, hr.value_eq]
    rcases sub_eq_ok h with ⟨m, n, rfl, rfl, rfl⟩ | ⟨a, b, ha, hb, rfl⟩
    · simp [Matrix3.valuesAt_sub]
    · rw [valueAt_of_asExpression ha, valueAt_of_asExpression hb]
      simp

theorem multiply (hl : Agrees ρ l x) (hr : Agrees ρ r y) (h : x.multiply y = .ok z) :
    Agrees ρ (.multiply l r) z where
  isBound := hl.isBound.multiply (isClosed_forallSymbols _) hr.isBound h
  value_eq := by
    rw [value, hl.value_eq, hr.value_eq]
    rcases multiply_eq_ok h with ⟨m, k, rfl, hk, rfl⟩ | ⟨k, m, hk, rfl, rfl⟩ | ⟨a, b, ha, hb, rfl⟩
    · rw [valueAt_of_asExpression hk]
      simp [Matrix3.valuesAt_scale]
    · rw [valueAt_of_asExpression hk]
      simp [Matrix3.valuesAt_scale]
    · rw [valueAt_of_asExpression ha, valueAt_of_asExpression hb]
      simp

theorem power {n : ℕ} (ht : Agrees ρ t x) (h : x.power n = .ok z) : Agrees ρ (.power t n) z where
  isBound := ht.isBound.power (isClosed_forallSymbols _) h
  value_eq := by
    obtain ⟨a, ha, rfl⟩ := power_eq_ok h
    rw [value, ht.value_eq, valueAt_of_asExpression ha]
    simp

theorem scale {k : ℚ} (ht : Agrees ρ t x) (h : x.scale k = .ok z) : Agrees ρ (.scale t k) z where
  isBound := ht.isBound.scale (isClosed_forallSymbols _) h
  value_eq := by
    rw [value, ht.value_eq]
    rcases scale_eq_ok h with ⟨m, rfl, rfl⟩ | ⟨a, ha, rfl⟩
    · simp [Matrix3.valuesAt_scale]
    · rw [valueAt_of_asExpression ha]
      simp [mul_comm]

theorem neg (ht : Agrees ρ t x) (h : x.neg = .ok z) : Agrees ρ (.neg t) z where
  isBound := ht.isBound.scale (isClosed_forallSymbols _) h
  value_eq := by
    rw [value, ht.value_eq]
    rcases scale_eq_ok h with ⟨m, rfl, rfl⟩ | ⟨a, ha, rfl⟩
    · simp [Matrix3.valuesAt_scale]
    · rw [valueAt_of_asExpression ha]
      simp

theorem determinant (ht : Agrees ρ t x) (h : x.determinant = .ok z) :
    Agrees ρ (.determinant t) z where
  isBound := ht.isBound.determinant (isClosed_forallSymbols _) h
  value_eq := by
    obtain ⟨m, rfl, rfl⟩ := determinant_eq_ok h
    rw [value, ht.value_eq]
    simp [Matrix3.eval_det, Matrix3.valuesAt]

end Agrees

variable {t : OperandTree} {x : Operand} {ρ : Binding}

def IsBound (ρ : Binding) (t : OperandTree) : Prop :=
  ∀ x, .leaf x ∈ t.subtrees → ∀ s, x.HasSymbol s → (ρ s).isSome

theorem IsBound.mono {u : OperandTree} (h : t.IsBound ρ) (hsub : u.subtrees ⊆ t.subtrees) :
    u.IsBound ρ :=
  fun x hx => h x (hsub hx)

/-- Where the symbols of the leaves have values, the result has the value of the tree. -/
theorem agrees_of_evaluate (hbound : t.IsBound ρ) (h : t.evaluate = .ok x) : Agrees ρ t x := by
  induction t generalizing x with
  | leaf y =>
    obtain rfl := Except.ok.inj h
    exact .leaf (isBound_of_forall_hasSymbol (hbound y (by simp [subtrees])))
  | matrix entries ih =>
    obtain ⟨xs, hxs, h⟩ := bind_eq_ok_iff.mp h
    rw [mapM_entries_eq_ok_iff] at hxs
    refine .matrix (fun i => ih i (hbound.mono fun u hu => ?_) (hxs i)) h
    exact List.mem_append_left _ (List.mem_flatMap.mpr ⟨i, List.mem_finRange i, hu⟩)
  | add l r ihl ihr =>
    obtain ⟨y, hy, h⟩ := bind_eq_ok_iff.mp h
    obtain ⟨z, hz, h⟩ := bind_eq_ok_iff.mp h
    have hl := ihl (hbound.mono fun u hu => by simp [subtrees, hu]) hy
    have hr := ihr (hbound.mono fun u hu => by simp [subtrees, hu]) hz
    exact hl.add hr h
  | sub l r ihl ihr =>
    obtain ⟨y, hy, h⟩ := bind_eq_ok_iff.mp h
    obtain ⟨z, hz, h⟩ := bind_eq_ok_iff.mp h
    have hl := ihl (hbound.mono fun u hu => by simp [subtrees, hu]) hy
    have hr := ihr (hbound.mono fun u hu => by simp [subtrees, hu]) hz
    exact hl.sub hr h
  | multiply l r ihl ihr =>
    obtain ⟨y, hy, h⟩ := bind_eq_ok_iff.mp h
    obtain ⟨z, hz, h⟩ := bind_eq_ok_iff.mp h
    have hl := ihl (hbound.mono fun u hu => by simp [subtrees, hu]) hy
    have hr := ihr (hbound.mono fun u hu => by simp [subtrees, hu]) hz
    exact hl.multiply hr h
  | power t n ih =>
    obtain ⟨y, hy, h⟩ := bind_eq_ok_iff.mp h
    exact (ih (hbound.mono fun u hu => by simp [subtrees, hu]) hy).power h
  | scale t k ih =>
    obtain ⟨y, hy, h⟩ := bind_eq_ok_iff.mp h
    exact (ih (hbound.mono fun u hu => by simp [subtrees, hu]) hy).scale h
  | neg t ih =>
    obtain ⟨y, hy, h⟩ := bind_eq_ok_iff.mp h
    exact (ih (hbound.mono fun u hu => by simp [subtrees, hu]) hy).neg h
  | determinant t ih =>
    obtain ⟨y, hy, h⟩ := bind_eq_ok_iff.mp h
    exact (ih (hbound.mono fun u hu => by simp [subtrees, hu]) hy).determinant h

/-- Evaluation succeeds for the trees that have a kind by the rules, with an operand of
that kind. For all others it ends with the error of the first operation that refuses
its operands. Where the symbols of the leaves have values, the result has the value
that the tree has over rationals and matrices of rationals. -/
theorem evaluate_obeys_rules (t : OperandTree) :
    (∀ k, t.HasKind k ↔ ∃ x, t.evaluate = .ok x ∧ x.kind = k) ∧
      (∀ e, FirstRefusal t.subtrees e ↔ t.evaluate = .error e) ∧
      ∀ x ρ, t.evaluate = .ok x → t.IsBound ρ →
        ∃ v, x.evaluate ρ = .ok v ∧ t.value ρ = some v := by
  refine ⟨fun k => hasKind_iff, fun e => firstRefusal_iff, fun x ρ hx hbound => ?_⟩
  have h := agrees_of_evaluate hbound hx
  exact ⟨_, evaluate_eq_valueAt h.isBound, h.value_eq⟩

/-- The square of a determinant, and a product of two matrices in front of a power of one. -/
theorem evaluate_obeys_rules_determinant :
    let x : Symbol := ⟨"x"⟩
    let m := matrix fun i => .leaf (if i % 4 = 0 then .symbol x else .number 0)
    let ρ := Binding.ofList [(x, 3)]
    (∃ y, (power m.determinant 2).evaluate = .ok y ∧ y.evaluate ρ = .ok (.scalar 729)) ∧
      (add (.multiply m m) (.power m 2)).evaluate =
        .error (.typeMismatch .matrixAlgebra "multiply" .someScalar .twoMatrices) := by
  intro x m ρ
  have hm : m.HasKind .matrix := by
    refine .matrix (fun i => .leaf _) fun i => ?_
    split
    · exact .symbol
    · exact .number
  have hbound : (power m.determinant 2).IsBound ρ := by
    intro y hy s hs
    simp only [m, subtrees, List.mem_append, List.mem_flatMap, List.mem_singleton, leaf.injEq,
      reduceCtorEq, or_false] at hy
    obtain ⟨i, -, rfl⟩ := hy
    split at hs
    · obtain rfl : s = x := hs
      rfl
    · exact hs.elim
  have hvalue : (power m.determinant 2).value ρ = some (.scalar 729) := by decide +kernel
  have hrefusal : FirstRefusal (add (.multiply m m) (.power m 2)).subtrees
      (.typeMismatch .matrixAlgebra "multiply" .someScalar .twoMatrices) := by
    have hparts := List.forall_mem_append.mpr
      ⟨hm.exists_of_mem_subtrees, hm.exists_of_mem_subtrees⟩
    have hproduct : FirstRefusal (multiply m m).subtrees _ :=
      .append_right hparts (.here (.multiply hm hm))
    exact (hproduct.append_left _).append_left _
  obtain ⟨y, hy, -⟩ := ((evaluate_obeys_rules _).1 _).mp (.power 2 (.determinant hm) .expression)
  obtain ⟨v, hv, htree⟩ := (evaluate_obeys_rules _).2.2 y ρ hy hbound
  obtain rfl := Option.some.inj (htree.symm.trans hvalue)
  exact ⟨⟨y, hy, hv⟩, ((evaluate_obeys_rules _).2.1 _).mp hrefusal⟩

end OperandTree

end PivotCoefficients
