import PivotCoefficients.Proofs.Operand.Results
import PivotCoefficients.Proofs.SymbolTable.Declaration
import PivotCoefficients.Scenario

/-!
# Assembly of the scenarios

Every scenario is assembled without an error, since it looks up declared names
only and combines operands of fitting kinds. Its symbols, its equation and its
pivot are given here without the steps of assembly.
-/
namespace PivotCoefficients

theorem Operand.ofEntries_symbols (names : Vector String 9) :
    ofEntries (names.map (fun n => .symbol ⟨n⟩)) =
      .ok (.matrix (.ofRowMajor (names.map (fun n => .ofSymbol ⟨n⟩)))) := by
  unfold ofEntries
  have hentries : (names.map (fun n => symbol ⟨n⟩)).mapM (asScalar .matrixAlgebra "matrix") =
      .ok (names.map (fun n => .ofSymbol ⟨n⟩)) := by
    rw [vector_mapM_eq_ok_iff]
    intro i
    rw [vector_get_map, vector_get_map]
    rfl
  rw [hentries]
  rfl

namespace Scenario

/-- The names declared for a scenario, in that order. -/
def declaredNames : Scenario → List String
  | .fundamental => firstMatrix.toList ++ secondMatrix.toList ++ ["z"]
  | .fundamentalConvex => firstMatrix.toList ++ secondMatrix.toList ++ ["alpha"]
  | .panography => "f2" :: rayProducts

def symbols : Scenario → SymbolTable
  | .fundamental => (matrixSymbols "z").2
  | .fundamentalConvex => (matrixSymbols "alpha").2
  | .panography => ((SymbolTable.empty.declare "f2").2.declareAll rayProducts).2

def pivot : Scenario → Symbol
  | .fundamental => ⟨"z"⟩
  | .fundamentalConvex => ⟨"alpha"⟩
  | .panography => ⟨"f2"⟩

def symbolEntries (names : Vector String 9) : Matrix3 Expression :=
  .ofRowMajor (names.map (fun n => .ofSymbol ⟨n⟩))

def shifted (name : String) : Expression :=
  .ofSymbol ⟨name⟩ + .ofSymbol ⟨"f2"⟩

/-- `(p + f2)^2 * (q + f2) * (r + f2)` -/
def productExpression (p q r : String) : Expression :=
  (shifted p).pow 2 * shifted q * shifted r

def equation : Scenario → Expression
  | .fundamental =>
    (symbolEntries firstMatrix + (symbolEntries secondMatrix).scale (.ofSymbol ⟨"z"⟩)).det
  | .fundamentalConvex =>
    ((symbolEntries firstMatrix).scale (.ofSymbol ⟨"alpha"⟩) +
      (symbolEntries secondMatrix).scale (.constant 1 - .ofSymbol ⟨"alpha"⟩)).det
  | .panography =>
    productExpression "a12" "b1" "b2" - productExpression "b12" "a1" "a2"

theorem isConsistent_symbols (s : Scenario) : s.symbols.IsConsistent := by
  have hempty := SymbolTable.isConsistent_empty
  cases s with
  | fundamental => exact ((hempty.declareAll _).declareAll _).declare _
  | fundamentalConvex => exact ((hempty.declareAll _).declareAll _).declare _
  | panography => exact (hempty.declare _).declareAll _

theorem mem_names_matrixSymbols {pivot name : String} :
    name ∈ (matrixSymbols pivot).2.names ↔
      name ∈ firstMatrix.toList ++ secondMatrix.toList ++ [pivot] := by
  have hempty := SymbolTable.isConsistent_empty
  have hfirst := hempty.declareAll firstMatrix.toList
  unfold matrixSymbols
  rw [(hfirst.declareAll _).mem_names_declare, hfirst.mem_names_declareAll,
    hempty.mem_names_declareAll]
  simp [or_assoc]

theorem mem_names_symbols (s : Scenario) {name : String} :
    name ∈ s.symbols.names ↔ name ∈ s.declaredNames := by
  cases s with
  | fundamental => exact mem_names_matrixSymbols
  | fundamentalConvex => exact mem_names_matrixSymbols
  | panography =>
    have hempty := SymbolTable.isConsistent_empty
    unfold symbols declaredNames
    rw [(hempty.declare _).mem_names_declareAll, hempty.mem_names_declare]
    simp

theorem contains_symbols (s : Scenario) {name : String} :
    s.symbols.contains name ↔ name ∈ s.declaredNames := by
  rw [s.isConsistent_symbols.contains_iff, mem_names_symbols]

theorem symbolOperand_symbols {s : Scenario} {name : String} (h : name ∈ s.declaredNames) :
    symbolOperand s.symbols name = .ok (.symbol ⟨name⟩) := by
  unfold symbolOperand
  rw [s.isConsistent_symbols.lookup_of_mem (s.mem_names_symbols.mpr h)]
  rfl

theorem symbolMatrix_symbols {s : Scenario} (names : Vector String 9)
    (h : ∀ i : Fin 9, names.get i ∈ s.declaredNames) :
    symbolMatrix s.symbols names = .ok (.matrix (symbolEntries names)) := by
  have hoperands : names.mapM (symbolOperand s.symbols) =
      .ok (names.map (fun n => .symbol ⟨n⟩)) := by
    rw [vector_mapM_eq_ok_iff]
    intro i
    rw [symbolOperand_symbols (h i), vector_get_map]
  unfold symbolMatrix
  rw [hoperands]
  exact Operand.ofEntries_symbols names

theorem matrixSymbols_eq (pivot : String) :
    matrixSymbols pivot = (⟨pivot⟩, (matrixSymbols pivot).2) := by
  have hempty := SymbolTable.isConsistent_empty
  have hpivot : (matrixSymbols pivot).1 = ⟨pivot⟩ :=
    ((hempty.declareAll _).declareAll _).declare_fst pivot
  rw [← hpivot]

theorem shiftedProduct_symbols {p q r : String} (hp : p ∈ declaredNames .panography)
    (hq : q ∈ declaredNames .panography) (hr : r ∈ declaredNames .panography) :
    shiftedProduct (symbols .panography) ⟨"f2"⟩ p q r =
      .ok (.expression (productExpression p q r)) := by
  unfold shiftedProduct
  dsimp only
  rw [symbolOperand_symbols hp, symbolOperand_symbols hq, symbolOperand_symbols hr]
  rfl

/-- Assembly gives the equation, with the pivot and all symbols declared. -/
theorem derivation_eq (s : Scenario) :
    s.derivation = .ok ⟨s.symbols, s.equation, s.pivot, 3⟩ := by
  cases s with
  | fundamental =>
    have hfirst := symbolMatrix_symbols (s := .fundamental) firstMatrix (by decide)
    have hsecond := symbolMatrix_symbols (s := .fundamental) secondMatrix (by decide)
    unfold derivation fundamentalDerivation
    rw [matrixSymbols_eq]
    change (symbolMatrix (symbols .fundamental) firstMatrix >>= _) = _
    rw [hfirst]
    change (symbolMatrix (symbols .fundamental) secondMatrix >>= _) = _
    rw [hsecond]
    rfl
  | fundamentalConvex =>
    have hfirst := symbolMatrix_symbols (s := .fundamentalConvex) firstMatrix (by decide)
    have hsecond := symbolMatrix_symbols (s := .fundamentalConvex) secondMatrix (by decide)
    unfold derivation convexDerivation
    rw [matrixSymbols_eq]
    change (symbolMatrix (symbols .fundamentalConvex) firstMatrix >>= _) = _
    rw [hfirst]
    change (symbolMatrix (symbols .fundamentalConvex) secondMatrix >>= _) = _
    rw [hsecond]
    rfl
  | panography =>
    have hpivot : SymbolTable.empty.declare "f2" =
        (⟨"f2"⟩, (SymbolTable.empty.declare "f2").2) := by
      rw [← SymbolTable.isConsistent_empty.declare_fst "f2"]
    unfold derivation panographyDerivation
    rw [hpivot]
    change (shiftedProduct (symbols .panography) ⟨"f2"⟩ "a12" "b1" "b2" >>= _) = _
    rw [shiftedProduct_symbols (by decide) (by decide) (by decide)]
    change (shiftedProduct (symbols .panography) ⟨"f2"⟩ "b12" "a1" "a2" >>= _) = _
    rw [shiftedProduct_symbols (by decide) (by decide) (by decide)]
    rfl

end Scenario

end PivotCoefficients
