import PivotCoefficients.Proofs.Derivation
import PivotCoefficients.Proofs.Expression.Symbols
import PivotCoefficients.Proofs.Symbol.ByteOrder
import PivotCoefficients.Proofs.SymbolTable.Declaration

/-!
# Failed derivations

Several things can be wrong with a derivation at once. The first of these is
reported: the pivot is not declared; some symbols of the equation are not, of
which the first in the order of names is named; the pivot occurs with a power
above the declared degree. Only whether a name has been declared matters for
this, not when.
-/
namespace PivotCoefficients

def SymbolTable.ofHistory (history : List String) : SymbolTable :=
  (empty.declareAll history).2

theorem SymbolTable.contains_ofHistory_iff {history : List String} {name : String} :
    (ofHistory history).contains name ↔ name ∈ history := by
  rw [ofHistory, (isConsistent_empty.declareAll history).contains_iff,
    isConsistent_empty.mem_names_declareAll, names_empty]
  simp

namespace Derivation

variable {d : Derivation}

theorem coefficients_of_contains (hpivot : d.symbols.contains d.pivot.name)
    (hsymbols : ∀ s ∈ d.equation.symbols, d.symbols.contains s.name) :
    d.coefficients = d.equation.collect d.pivot d.maxDegree := by
  have hforM : d.equation.symbols.forM d.symbols.require = .ok () :=
    list_forM_eq_ok_iff.mpr fun s hs => SymbolTable.require_eq_ok_iff.mpr (hsymbols s hs)
  rw [coefficients, SymbolTable.require_eq_ok_iff.mpr hpivot, hforM]
  rfl

theorem exists_coefficients_of_exponent_le (hpivot : d.symbols.contains d.pivot.name)
    (hsymbols : ∀ s ∈ d.equation.symbols, d.symbols.contains s.name)
    (h : ∀ t ∈ d.equation.terms, t.1.exponent d.pivot ≤ d.maxDegree) :
    ∃ t, d.coefficients = .ok t ∧ d.equation.collect d.pivot d.maxDegree = .ok t ∧
      ∀ c ∈ t.coefficients, ∀ s ∈ c.symbols, d.symbols.contains s.name := by
  obtain ⟨t, ht⟩ := Expression.collect_of_degreeIn_le (Expression.degreeIn_le_iff.mpr h)
  have hcoefficients := (coefficients_of_contains hpivot hsymbols).trans ht
  refine ⟨t, hcoefficients, ht, ?_⟩
  intro c hc s hs
  rw [list_of_coefficients hcoefficients] at hc
  obtain ⟨i, -, rfl⟩ := List.mem_map.mp hc
  exact contains_of_mem_coefficientOfPower hcoefficients hs

end Derivation

end PivotCoefficients
