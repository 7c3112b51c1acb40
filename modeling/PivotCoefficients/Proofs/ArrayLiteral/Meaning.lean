import PivotCoefficients.Proofs.ArrayLiteral.Lines
import PivotCoefficients.Proofs.Construction.Canonical
import PivotCoefficients.Proofs.Derivation
import PivotCoefficients.Proofs.SymbolTable.Declaration

/-!
# What an emitted array means

An emitted array is a text. Read as arithmetic, its elements have values that,
each times its power of the pivot, add up to the value of the equation from
which the array was derived.
-/
namespace PivotCoefficients.Derivation

/-- The text is an array literal with elements of degrees up to `n`, which denote
the coefficients of the equation. The elements do not mention the pivot. -/
structure IsDenotedBy (d : Derivation) (style : ArrayStyle) (n : ℕ) (text : String)
    (elements : ℕ → String) (formulas : ℕ → Formula) : Prop where
  /-- Every line is ended, so nothing follows the last line end. -/
  lines : textLines text =
    (style.target.commentMarker ++ " " ++ style.commentFor d.pivot) ::
    style.target.openArray style.arrayName (n + 1) ::
    ((List.range (n + 1)).map (fun i => style.indent ++ elements i ++ ",") ++
      [style.target.closeArray, ""])
  reads : ∀ i ≤ n, Formula.read? (elements i) = some (formulas i)
  free : ∀ i ≤ n, d.pivot ∉ (formulas i).names
  values : ∀ (ρ : Binding) (x : ℚ),
    (∀ s : Symbol, d.symbols.contains s.name → (ρ s).isSome) → ρ d.pivot = some x →
      ∃ values : ℕ → ℚ, (∀ i ≤ n, (formulas i).evaluate ρ = .ok (values i)) ∧
        d.equation.evaluate ρ = .ok (∑ i ∈ Finset.range (n + 1), values i * x ^ i)

variable {d : Derivation} {t : CoefficientTable} {style : ArrayStyle}

theorem isIdentifier_of_mem_coefficientOfPower (h : d.coefficients = .ok t)
    (hid : ∀ s : Symbol, d.symbols.contains s.name → s.isIdentifier) (i : ℕ) :
    ∀ s ∈ (d.equation.coefficientOfPower d.pivot i).symbols, s.isIdentifier :=
  fun s hs => hid s (contains_of_mem_coefficientOfPower h hs)

/-- The emitted coefficients of a constructed equation denote it. -/
theorem emit_isDenotedBy (hequation : d.equation.IsConstructible) (h : d.coefficients = .ok t)
    (hstyle : style.HasSingleLines)
    (hid : ∀ s : Symbol, d.symbols.contains s.name → s.isIdentifier) :
    ∃ elements formulas, d.IsDenotedBy style t.maxDegree (t.emit style) elements formulas := by
  have hcanonical := hequation.isCanonical
  let coefficient := d.equation.coefficientOfPower d.pivot
  have hreads : ∀ i, Formula.read? ((coefficient i).render style.target.spelling) =
      some (coefficient i).formula := by
    intro i
    exact (hcanonical.coefficientOfPower d.pivot i).read?_render
      (isIdentifier_of_mem_coefficientOfPower h hid i) style.target
  refine ⟨fun i => (coefficient i).render style.target.spelling,
    fun i => (coefficient i).formula, ?_, ?_, ?_, ?_⟩
  · have hpivot : IsSingleLine t.pivot.name := by
      rw [pivot_of_coefficients h]
      exact Symbol.isSingleLine (hid _ (coefficients_eq_ok_iff.mp h).1)
    have hlist := list_of_coefficients h
    rw [CoefficientTable.textLines_emit hstyle hpivot, pivot_of_coefficients h,
      t.maxDegree_add_one, hlist, List.map_map, t.maxDegree_add_one]
    · rfl
    · intro e he
      rw [hlist] at he
      obtain ⟨i, -, rfl⟩ := List.mem_map.mp he
      exact Formula.isSingleLine_of_read? (hreads i)
  · exact fun i _ => hreads i
  · intro i _ hmem
    have hpivot := Expression.mem_symbols_of_mem_names_formula hmem
    exact (Expression.mem_symbols_of_mem_coefficientOfPower hpivot).2 rfl
  · intro ρ x hρ hx
    obtain ⟨values, hvalues, hsum⟩ := exists_values hcanonical h hρ hx
    refine ⟨values, ?_, hsum⟩
    intro i _
    rw [Expression.evaluate_formula fun s hs => hρ s (contains_of_mem_coefficientOfPower h hs)]
    exact hvalues i

/-- An equation of two symbols with a fraction, signs and powers, of lower degree
than declared. -/
theorem emit_isDenotedBy_two_symbols :
    let x : Symbol := ⟨"x"⟩
    let z : Symbol := ⟨"z"⟩
    let d : Derivation :=
      { symbols := (SymbolTable.empty.declareAll ["x", "z"]).2
        equation := ⟨[(⟨[(x, 2), (z, 2)]⟩, -3 / 2), (⟨[(x, 1)]⟩, 1), (⟨[(z, 1)]⟩, -7), (.one, 5)]⟩
        pivot := z
        maxDegree := 3 }
    d.equation.IsConstructible ∧ ArrayStyle.HasSingleLines {} ∧
      (∀ s : Symbol, d.symbols.contains s.name → s.isIdentifier) ∧
      ∃ t, d.coefficients = .ok t ∧
        ∃ elements formulas, d.IsDenotedBy {} t.maxDegree (t.emit {}) elements formulas := by
  intro x z d
  have hequation : d.equation.IsConstructible :=
    Expression.isConstructible_iff.mpr (by decide +kernel)
  have hstyle : ArrayStyle.HasSingleLines {} := ⟨by decide, by simp, by decide⟩
  have hcontains : ∀ name, d.symbols.contains name ↔ name = "x" ∨ name = "z" := by
    intro name
    have hempty := SymbolTable.isConsistent_empty
    rw [(hempty.declareAll _).contains_iff, hempty.mem_names_declareAll]
    simp
  have hid : ∀ s : Symbol, d.symbols.contains s.name → s.isIdentifier := by
    rintro ⟨name⟩ hname
    rcases (hcontains name).mp hname with rfl | rfl
    · decide
    · decide
  have hdegree : d.equation.degreeIn d.pivot ≤ d.maxDegree := by decide
  obtain ⟨t, ht⟩ := Expression.collect_of_degreeIn_le hdegree
  have hsymbols : ∀ s ∈ d.equation.symbols, d.symbols.contains s.name := by
    intro s hs
    rw [hcontains]
    obtain ⟨t, ht, hst⟩ := Expression.mem_symbols_iff.mp hs
    have hall : ∀ t ∈ d.equation.terms, ∀ s ∈ t.1.symbols, s.name = "x" ∨ s.name = "z" := by
      decide
    exact hall t ht s hst
  have hcoefficients : d.coefficients = .ok t :=
    coefficients_eq_ok_iff.mpr ⟨(hcontains _).mpr (Or.inr rfl), hsymbols, ht⟩
  exact ⟨hequation, hstyle, hid, t, hcoefficients,
    emit_isDenotedBy hequation hcoefficients hstyle hid⟩

end PivotCoefficients.Derivation
