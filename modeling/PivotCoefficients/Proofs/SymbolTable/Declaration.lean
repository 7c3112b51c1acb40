import PivotCoefficients.SymbolTable.Consistency

/-!
# Declared names

Declarations add their names to those of the table, and a look-up succeeds for
the names of the table, with the symbol of that name.
-/
namespace PivotCoefficients.SymbolTable.IsConsistent

variable {t : SymbolTable}

theorem mem_names_declare (h : t.IsConsistent) {name other : String} :
    other ∈ (t.declare name).2.names ↔ other ∈ t.names ∨ other = name := by
  rw [h.names_declare]
  by_cases hn : name ∈ t.names
  · rw [if_pos hn]
    constructor
    · exact Or.inl
    · rintro (ho | rfl)
      · exact ho
      · exact hn
  · rw [if_neg hn, List.mem_append, List.mem_singleton]

theorem mem_names_declareAll (h : t.IsConsistent) {ns : List String} {other : String} :
    other ∈ (t.declareAll ns).2.names ↔ other ∈ t.names ∨ other ∈ ns := by
  induction ns generalizing t with
  | nil => simp
  | cons n ns ih =>
    rw [declareAll_cons, ih (h.declare n), h.mem_names_declare, List.mem_cons, or_assoc]

theorem lookup_of_mem (h : t.IsConsistent) {name : String} (hn : name ∈ t.names) :
    t.lookup name = .ok ⟨name⟩ := by
  rw [lookup, h.find?_eq, if_pos hn]

end PivotCoefficients.SymbolTable.IsConsistent
