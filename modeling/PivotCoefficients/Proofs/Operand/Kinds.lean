import PivotCoefficients.Operand.Tree
import PivotCoefficients.Proofs.Except

/-!
# Kinds of operands

Which kinds an operation takes and which kind it makes of them. The kind of a
result depends on the kinds of the operands alone, and so does the error where
there is no result. So the kind of a tree can be told without its operands.
-/
namespace PivotCoefficients

namespace Kind

variable {j k m : Kind} {operation : String}

inductive IsScalar : Kind → Prop
  | number : IsScalar .number
  | symbol : IsScalar .symbol
  | expression : IsScalar .expression

/-- `IsSum j k m`: a sum or difference of kinds `j` and `k` has kind `m`. -/
inductive IsSum : Kind → Kind → Kind → Prop
  | scalars {j k : Kind} : j.IsScalar → k.IsScalar → IsSum j k .expression
  | matrices : IsSum .matrix .matrix .matrix

/-- `IsMixed j k m`: of the kinds `j` and `k` one is a matrix, the other the scalar `m`. -/
inductive IsMixed : Kind → Kind → Kind → Prop
  | matrixFirst {m : Kind} : m.IsScalar → IsMixed .matrix m m
  | matrixSecond {m : Kind} : m.IsScalar → IsMixed m .matrix m

/-- `IsProduct j k m`: a product of kinds `j` and `k` has kind `m`. -/
inductive IsProduct : Kind → Kind → Kind → Prop
  | scalars {j k : Kind} : j.IsScalar → k.IsScalar → IsProduct j k .expression
  | matrixFirst {k : Kind} : k.IsScalar → IsProduct .matrix k .matrix
  | matrixSecond {j : Kind} : j.IsScalar → IsProduct j .matrix .matrix

/-- `IsMultiple k m`: a numeric multiple of kind `k` has kind `m`. -/
inductive IsMultiple : Kind → Kind → Prop
  | scalar {k : Kind} : k.IsScalar → IsMultiple k .expression
  | matrix : IsMultiple .matrix .matrix

theorem isScalar_or_eq_matrix (k : Kind) : k.IsScalar ∨ k = .matrix := by
  cases k with
  | number => exact Or.inl .number
  | symbol => exact Or.inl .symbol
  | expression => exact Or.inl .expression
  | matrix => exact Or.inr rfl

theorem IsScalar.ne_matrix (h : k.IsScalar) : k ≠ .matrix := by
  rintro rfl
  cases h

theorem IsSum.ofSum_eq (h : IsSum j k m) : ofSum operation j k = .ok m := by
  cases h with
  | scalars hj hk => cases hj <;> cases hk <;> rfl
  | matrices => rfl

theorem IsMixed.ofSum_eq (h : IsMixed j k m) :
    ofSum operation j k = .error (.typeMismatch .matrixAlgebra operation .sameShape (.kind m)) := by
  cases h with
  | matrixFirst hm => cases hm <;> rfl
  | matrixSecond hm => cases hm <;> rfl

theorem isSum_or_isMixed (j k : Kind) : (∃ m, IsSum j k m) ∨ ∃ m, IsMixed j k m := by
  rcases j.isScalar_or_eq_matrix with hj | rfl <;> rcases k.isScalar_or_eq_matrix with hk | rfl
  · exact Or.inl ⟨_, .scalars hj hk⟩
  · exact Or.inr ⟨_, .matrixSecond hj⟩
  · exact Or.inr ⟨_, .matrixFirst hk⟩
  · exact Or.inl ⟨_, .matrices⟩

theorem IsProduct.ofProduct_eq (h : IsProduct j k m) : ofProduct j k = .ok m := by
  cases h with
  | scalars hj hk => cases hj <;> cases hk <;> rfl
  | matrixFirst hk => cases hk <;> rfl
  | matrixSecond hj => cases hj <;> rfl

theorem isProduct_or_eq_matrix (j k : Kind) :
    (∃ m, IsProduct j k m) ∨ j = .matrix ∧ k = .matrix := by
  rcases j.isScalar_or_eq_matrix with hj | rfl <;> rcases k.isScalar_or_eq_matrix with hk | rfl
  · exact Or.inl ⟨_, .scalars hj hk⟩
  · exact Or.inl ⟨_, .matrixSecond hj⟩
  · exact Or.inl ⟨_, .matrixFirst hk⟩
  · exact Or.inr ⟨rfl, rfl⟩

theorem IsMultiple.ofScale_eq (h : IsMultiple k m) : ofScale k = m := by
  cases h with
  | scalar hk => cases hk <;> rfl
  | matrix => rfl

theorem exists_isMultiple (k : Kind) : ∃ m, IsMultiple k m := by
  rcases k.isScalar_or_eq_matrix with hk | rfl
  · exact ⟨_, .scalar hk⟩
  · exact ⟨_, .matrix⟩

theorem IsScalar.ofPower_eq (h : k.IsScalar) : ofPower k = .ok .expression := by
  cases h <;> rfl

theorem IsScalar.ofDeterminant_eq (h : k.IsScalar) :
    ofDeterminant k = .error (.typeMismatch .matrixAlgebra "determinant" .matrix (.kind k)) := by
  cases h <;> rfl

end Kind

namespace Operand

variable (x y : Operand)

theorem kind_add : kind <$> x.add y = Kind.ofSum "add" x.kind y.kind := by
  cases x <;> cases y <;> rfl

theorem kind_sub : kind <$> x.sub y = Kind.ofSum "sub" x.kind y.kind := by
  cases x <;> cases y <;> rfl

theorem kind_multiply : kind <$> x.multiply y = Kind.ofProduct x.kind y.kind := by
  cases x <;> cases y <;> rfl

theorem kind_power (n : ℕ) : kind <$> x.power n = Kind.ofPower x.kind := by
  cases x <;> rfl

theorem kind_scale (k : Rat) : kind <$> x.scale k = .ok (Kind.ofScale x.kind) := by
  cases x <;> rfl

theorem kind_determinant : kind <$> x.determinant = Kind.ofDeterminant x.kind := by
  cases x <;> rfl

/-- The error of a matrix among the nine entries of a matrix. -/
def entryMismatch : DerivationError :=
  .typeMismatch .matrixAlgebra "matrix" .scalar (.kind .matrix)

theorem isScalar_kind_of_asScalar {x : Operand} {e : Expression}
    (h : x.asScalar .matrixAlgebra "matrix" = .ok e) : x.kind.IsScalar := by
  cases x with
  | number q => exact .number
  | symbol s => exact .symbol
  | expression a => exact .expression
  | matrix m => cases h

theorem eq_matrix_of_asScalar_eq_error {x : Operand} {e : DerivationError}
    (h : x.asScalar .matrixAlgebra "matrix" = .error e) :
    x.kind = .matrix ∧ e = entryMismatch := by
  cases x with
  | matrix m => exact ⟨rfl, (Except.error.inj h).symm⟩
  | number | symbol | expression => cases h

theorem kind_ofEntries (entries : Vector Operand 9) :
    kind <$> ofEntries entries = Kind.ofEntries (entries.map kind).toList := by
  unfold ofEntries Kind.ofEntries
  cases h : entries.mapM (asScalar .matrixAlgebra "matrix") with
  | ok scalars =>
    have hscalar : Kind.matrix ∉ (entries.map kind).toList := by
      intro hmem
      obtain ⟨i, hi, hmatrix⟩ := Vector.mem_iff_getElem.mp (Vector.mem_toList_iff.mp hmem)
      rw [Vector.getElem_map] at hmatrix
      exact (isScalar_kind_of_asScalar (vector_mapM_eq_ok_iff.mp h ⟨i, hi⟩)).ne_matrix hmatrix
    rw [if_neg hscalar]
    rfl
  | error e =>
    obtain ⟨i, hi⟩ := exists_of_vector_mapM_eq_error h
    obtain ⟨hmatrix, rfl⟩ := eq_matrix_of_asScalar_eq_error hi
    have hmem : Kind.matrix ∈ (entries.map kind).toList := by
      rw [Vector.mem_toList_iff, Vector.mem_iff_getElem]
      exact ⟨i, i.isLt, (vector_get_map kind entries i).trans hmatrix⟩
    rw [if_pos hmem]
    rfl

end Operand

namespace OperandTree

theorem mapM_entries_eq_ok_iff {α β : Type} {f : Fin 9 → Except α β} {v : Vector β 9} :
    (Vector.ofFn id).mapM f = .ok v ↔ ∀ i, f i = .ok (v.get i) := by
  simp [vector_mapM_eq_ok_iff]

/-- The kind of a tree by rule is the kind of the operand it assembles, and where
there is none both stop with the same error. -/
theorem kind_evaluate (t : OperandTree) : Operand.kind <$> t.evaluate = t.kind := by
  induction t with
  | leaf x => rfl
  | matrix entries ih =>
    have hkinds :
        Vector.map Operand.kind <$> (Vector.ofFn id).mapM (fun i => (entries i).evaluate) =
          (Vector.ofFn id).mapM (fun i => (entries i).kind) := by
      rw [← vector_mapM_map]
      simp only [ih]
    rw [evaluate, OperandTree.kind, ← hkinds]
    exact map_bind_eq Operand.kind_ofEntries
  | add l r ihl ihr =>
    rw [evaluate, OperandTree.kind, ← ihl, ← ihr]
    exact map_bind_eq fun x => map_bind_eq fun y => x.kind_add y
  | sub l r ihl ihr =>
    rw [evaluate, OperandTree.kind, ← ihl, ← ihr]
    exact map_bind_eq fun x => map_bind_eq fun y => x.kind_sub y
  | multiply l r ihl ihr =>
    rw [evaluate, OperandTree.kind, ← ihl, ← ihr]
    exact map_bind_eq fun x => map_bind_eq fun y => x.kind_multiply y
  | power t n ih =>
    rw [evaluate, OperandTree.kind, ← ih]
    exact map_bind_eq fun x => x.kind_power n
  | scale t q ih =>
    rw [evaluate, OperandTree.kind, ← ih]
    exact map_bind_eq fun x => x.kind_scale q
  | neg t ih =>
    rw [evaluate, OperandTree.kind, ← ih]
    exact map_bind_eq fun x => x.kind_scale (-1)
  | determinant t ih =>
    rw [evaluate, OperandTree.kind, ← ih]
    exact map_bind_eq fun x => x.kind_determinant

end OperandTree

end PivotCoefficients
