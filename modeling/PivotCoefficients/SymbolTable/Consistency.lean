import PivotCoefficients.SymbolTable

/-!
# Index and list of a symbol table

The index and the list of symbols say the same: a name is indexed at a position
exactly when the symbol of that name stands there. The empty table has this
form and declarations keep it, so look-ups can be read off the list of names.
-/
namespace PivotCoefficients.SymbolTable

/-- The index holds the positions of the listed symbols, and nothing else. -/
def IsConsistent (t : SymbolTable) : Prop :=
  ∀ (name : String) (i : Nat), t.index[name]? = some i ↔ t.symbols[i]? = some ⟨name⟩

theorem isConsistent_empty : empty.IsConsistent := by
  simp [IsConsistent, empty]

theorem mem_names {t : SymbolTable} {name : String} :
    name ∈ t.names ↔ ∃ i : Nat, t.symbols[i]? = some ⟨name⟩ := by
  rw [names, List.mem_map]
  constructor
  · rintro ⟨s, hs, rfl⟩
    obtain ⟨i, hi⟩ := List.mem_iff_getElem?.mp hs
    exact ⟨i, by simpa using hi⟩
  · rintro ⟨i, hi⟩
    exact ⟨⟨name⟩, List.mem_iff_getElem?.mpr ⟨i, by simpa using hi⟩, rfl⟩

theorem IsConsistent.find?_eq {t : SymbolTable} (h : t.IsConsistent) (name : String) :
    t.find? name = if name ∈ t.names then some ⟨name⟩ else none := by
  rw [find?]
  cases hi : t.index[name]? with
  | none =>
    have hn : name ∉ t.names := by
      intro hn
      obtain ⟨i, hs⟩ := mem_names.mp hn
      rw [(h name i).mpr hs] at hi
      exact Option.some_ne_none _ hi
    rw [if_neg hn]
    rfl
  | some i =>
    have hs := (h name i).mp hi
    rw [if_pos (mem_names.mpr ⟨i, hs⟩)]
    exact hs

theorem IsConsistent.contains_iff {t : SymbolTable} (h : t.IsConsistent) {name : String} :
    t.contains name ↔ name ∈ t.names := by
  rw [contains, Std.HashMap.contains_iff_mem, Std.HashMap.mem_iff_isSome_getElem?,
    Option.isSome_iff_exists, mem_names]
  exact exists_congr (h name)

theorem IsConsistent.declare_of_mem {t : SymbolTable} (h : t.IsConsistent) {name : String}
    (hn : name ∈ t.names) : t.declare name = (⟨name⟩, t) := by
  simp [SymbolTable.declare, h.find?_eq, hn]

theorem IsConsistent.declare_of_not_mem {t : SymbolTable} (h : t.IsConsistent) {name : String}
    (hn : name ∉ t.names) :
    t.declare name =
      (⟨name⟩, ⟨t.index.insert name t.symbols.size, t.symbols.push ⟨name⟩⟩) := by
  simp [SymbolTable.declare, h.find?_eq, hn]

theorem IsConsistent.declare_fst {t : SymbolTable} (h : t.IsConsistent) (name : String) :
    (t.declare name).1 = ⟨name⟩ := by
  by_cases hn : name ∈ t.names
  · rw [h.declare_of_mem hn]
  · rw [h.declare_of_not_mem hn]

theorem IsConsistent.names_declare {t : SymbolTable} (h : t.IsConsistent) (name : String) :
    (t.declare name).2.names = if name ∈ t.names then t.names else t.names ++ [name] := by
  by_cases hn : name ∈ t.names
  · rw [h.declare_of_mem hn, if_pos hn]
  · rw [h.declare_of_not_mem hn, if_neg hn]
    simp [names]

theorem IsConsistent.declare {t : SymbolTable} (h : t.IsConsistent) (name : String) :
    (t.declare name).2.IsConsistent := by
  by_cases hn : name ∈ t.names
  · rw [h.declare_of_mem hn]
    exact h
  · rw [h.declare_of_not_mem hn]
    intro other i
    rw [Std.HashMap.getElem?_insert, Array.getElem?_push]
    by_cases ho : name = other
    · subst ho
      have hi : t.symbols[i]? ≠ some ⟨name⟩ := fun hi => hn (mem_names.mpr ⟨i, hi⟩)
      by_cases his : i = t.symbols.size
      · simp [his]
      · simp [his, hi, Ne.symm his]
    · have hs : (⟨name⟩ : Symbol) ≠ ⟨other⟩ := fun e => ho (congrArg Symbol.name e)
      by_cases his : i = t.symbols.size
      · have hnone : t.index[other]? ≠ some i := by
          intro hi
          have := (h other i).mp hi
          simp [his] at this
        simp [ho, his, hs, his ▸ hnone]
      · simp [ho, his, h other i]

theorem IsConsistent.declareAll {t : SymbolTable} (h : t.IsConsistent) (names : List String) :
    (t.declareAll names).2.IsConsistent := by
  induction names generalizing t with
  | nil => exact h
  | cons name names ih =>
    rw [declareAll_cons]
    exact ih (h.declare name)

end PivotCoefficients.SymbolTable
