import PivotCoefficients.ArrayLiteral.Emission
import PivotCoefficients.Proofs.ArrayLiteral.Grammar

/-!
# Rendered expressions show their formulas

Each target renders a canonical expression over identifiers as a text that reads
as a formula, and the polynomial of this formula is that of the expression.
-/
namespace PivotCoefficients

open Formula FormalSum MvPolynomial Token

namespace Monomial

def factorSymbols (m : Monomial) : List Symbol :=
  m.factors.flatMap (fun f => List.replicate f.2 f.1)

theorem factorNames_eq (m : Monomial) : m.factorNames = m.factorSymbols.map Symbol.name := by
  simp [factorNames, factorSymbols, List.map_flatMap]

theorem IsCanonical.factorSymbols_ne_nil {m : Monomial} (hm : m.IsCanonical)
    (hone : m.isOne = false) : m.factorSymbols ≠ [] := by
  unfold isOne at hone
  cases hfs : m.factors with
  | nil => simp [hfs] at hone
  | cons f fs =>
    obtain ⟨s, n⟩ := f
    have hmem : (s, n) ∈ m.factors := by
      rw [hfs]
      exact List.mem_cons_self
    have hn : n ≠ 0 := hm.factor_ne_zero _ hmem
    simp [factorSymbols, hfs, hn]

theorem mem_symbols_of_mem_factorSymbols {m : Monomial} {s : Symbol} (hs : s ∈ m.factorSymbols) :
    s ∈ m.symbols := by
  obtain ⟨f, hf, hs⟩ := List.mem_flatMap.mp hs
  rw [List.eq_of_mem_replicate hs]
  exact List.mem_map_of_mem hf

theorem prod_factorSymbols (m : Monomial) :
    (m.factorSymbols.map X).prod = m.weight 1 := by
  rw [factorSymbols, weight_apply, exponents]
  induction m.factors with
  | nil => rfl
  | cons f fs ih =>
    rw [amounts] at ih ⊢
    rw [List.flatMap_cons, List.map_append, List.prod_append, List.map_replicate,
      List.prod_replicate, X_pow_eq_monomial, ih, monomial_mul, total_cons,
      MulOneClass.mul_one]
    rfl

end Monomial

namespace Target

theorem isProduct_symbols (target : Target) {ss : List Symbol} (hne : ss ≠ [])
    (hid : ∀ s ∈ ss, s.isIdentifier) :
    target.IsProduct ("*".intercalate (ss.map Symbol.name)) (ss.map .name) := by
  induction ss with
  | nil => exact absurd rfl hne
  | cons s ss ih =>
    obtain ⟨hs, hss⟩ := List.forall_mem_cons.mp hid
    have hname : target.IsProduct s.name [.name s] := .factor (.name hs)
    cases ss with
    | nil => simpa using hname
    | cons r ss =>
      have htimes := hname.append (ih (by simp) hss)
      simpa [String.intercalate_cons_cons] using htimes

theorem isFactor_scalar (target : Target) {q : ℚ} (hq : 0 ≤ q.num) :
    target.IsFactor (target.spelling.scalar q) (.number q) := by
  obtain ⟨n, hn⟩ := Int.eq_ofNat_of_zero_le hq
  unfold Spelling.scalar
  by_cases hint : Rational.isInteger q
  · rw [if_pos hint, hn, Rational.eq_natCast_of_isInteger hint hn]
    exact .integer n
  · have hqn : Rat.divInt n q.den = q := by rw [← hn, Rat.num_divInt_den]
    have hfraction : target.IsFactor _ (.number (Rat.divInt n q.den)) := .fraction n q.den_nz
    rw [hqn] at hfraction
    rw [if_neg hint, hn]
    exact hfraction

end Target

namespace Expression

/-- The operands of the product that a magnitude and a monomial are rendered as. -/
def operands (m : Monomial) (magnitude : ℚ) : List Formula :=
  if m.isOne then [.number magnitude]
  else if magnitude = 1 then m.factorSymbols.map .name
  else .number magnitude :: m.factorSymbols.map .name

/-- The first term, which has its sign directly in front. -/
def firstFormula (t : Term) : Formula :=
  if Rational.isNegative t.2 then product (negateFirst (operands t.1 (Rational.magnitude t.2)))
  else product (operands t.1 (Rational.magnitude t.2))

/-- The sum so far joined to a further term. -/
def joinFormula (f : Formula) (t : Term) : Formula :=
  if Rational.isNegative t.2 then .sub f (product (operands t.1 (Rational.magnitude t.2)))
  else .add f (product (operands t.1 (Rational.magnitude t.2)))

def formula (e : Expression) : Formula :=
  match e.terms with
  | [] => .number 0
  | t :: ts => ts.foldl joinFormula (firstFormula t)

theorem polynomial_product_operands (m : Monomial) (c : ℚ) :
    (product (operands m c)).polynomial = m.weight c := by
  have hsymbols : ((m.factorSymbols.map Formula.name).map Formula.polynomial).prod =
      m.weight 1 := by
    rw [← Monomial.prod_factorSymbols, List.map_map]
    rfl
  have hweight : C c * m.weight 1 = m.weight c := by
    rw [Monomial.weight_apply, Monomial.weight_apply, C_mul_monomial, MulOneClass.mul_one]
  rw [polynomial_product]
  unfold operands
  split_ifs with hone hc
  · have hm : m = .one := by
      obtain ⟨fs⟩ := m
      exact congrArg Monomial.mk (List.isEmpty_iff.mp hone)
    subst hm
    simp [Formula.polynomial, Monomial.weight_apply]
  · rw [hsymbols, hc]
  · rw [List.map_cons, List.prod_cons, hsymbols, Formula.polynomial, hweight]

theorem weight_magnitude (m : Monomial) (c : ℚ) :
    m.weight (Rational.magnitude c) =
      if Rational.isNegative c then -m.weight c else m.weight c := by
  unfold Rational.magnitude
  split_ifs
  · exact map_neg m.weight c
  · rfl

theorem polynomial_firstFormula (t : Term) : (firstFormula t).polynomial = t.1.weight t.2 := by
  have hoperands := polynomial_product_operands t.1 (Rational.magnitude t.2)
  rw [weight_magnitude] at hoperands
  unfold firstFormula
  by_cases h : Rational.isNegative t.2
  · rw [if_pos h] at hoperands ⊢
    rw [polynomial_product_negateFirst, hoperands, neg_neg]
  · rw [if_neg h] at hoperands ⊢
    exact hoperands

theorem polynomial_joinFormula (f : Formula) (t : Term) :
    (joinFormula f t).polynomial = f.polynomial + t.1.weight t.2 := by
  have hoperands := polynomial_product_operands t.1 (Rational.magnitude t.2)
  rw [weight_magnitude] at hoperands
  unfold joinFormula
  by_cases h : Rational.isNegative t.2
  · rw [if_pos h] at hoperands ⊢
    rw [Formula.polynomial, hoperands, sub_neg_eq_add]
  · rw [if_neg h] at hoperands ⊢
    rw [Formula.polynomial, hoperands]

theorem polynomial_foldl_joinFormula (f : Formula) (ts : List Term) :
    (ts.foldl joinFormula f).polynomial = f.polynomial + total Monomial.weight ts := by
  induction ts generalizing f with
  | nil => simp
  | cons t ts ih => rw [List.foldl_cons, ih, polynomial_joinFormula, total_cons, add_assoc]

theorem polynomial_formula (e : Expression) : e.formula.polynomial = e.polynomial := by
  unfold formula polynomial
  split
  · next h => simp [h, Formula.polynomial]
  · next t ts h => rw [h, polynomial_foldl_joinFormula, polynomial_firstFormula, total_cons]

theorem mem_symbols_of_mem_names_operands {m : Monomial} {c : ℚ} {s : Symbol}
    (hs : s ∈ (product (operands m c)).names) : s ∈ m.symbols := by
  have hfactors : s ∈ (m.factorSymbols.map Formula.name).flatMap names → s ∈ m.symbols := by
    intro h
    obtain ⟨f, hf, hs⟩ := List.mem_flatMap.mp h
    obtain ⟨r, hr, rfl⟩ := List.mem_map.mp hf
    obtain rfl : s = r := by simpa [names] using hs
    exact Monomial.mem_symbols_of_mem_factorSymbols hr
  rw [names_product] at hs
  unfold operands at hs
  split_ifs at hs with hone hc
  · simp [names] at hs
  · exact hfactors hs
  · exact hfactors (by simpa [names] using hs)

theorem names_firstFormula (t : Term) :
    (firstFormula t).names = (product (operands t.1 (Rational.magnitude t.2))).names := by
  unfold firstFormula
  split_ifs
  · exact names_product_negateFirst _
  · rfl

theorem names_joinFormula (f : Formula) (t : Term) :
    (joinFormula f t).names =
      f.names ++ (product (operands t.1 (Rational.magnitude t.2))).names := by
  unfold joinFormula
  split_ifs <;> rfl

theorem names_foldl_joinFormula (f : Formula) (ts : List Term) :
    (ts.foldl joinFormula f).names =
      f.names ++ ts.flatMap (fun t => (product (operands t.1 (Rational.magnitude t.2))).names) := by
  induction ts generalizing f with
  | nil => simp
  | cons t ts ih =>
    rw [List.foldl_cons, ih, names_joinFormula, List.flatMap_cons, List.append_assoc]

theorem mem_symbols_of_mem_names_formula {e : Expression} {s : Symbol}
    (hs : s ∈ e.formula.names) : s ∈ e.symbols := by
  unfold formula at hs
  split at hs
  · simp [names] at hs
  · next t ts h =>
    rw [names_foldl_joinFormula, names_firstFormula] at hs
    rw [mem_symbols_iff, h]
    rcases List.mem_append.mp hs with hs | hs
    · exact ⟨t, List.mem_cons_self, mem_symbols_of_mem_names_operands hs⟩
    · obtain ⟨u, hu, hs⟩ := List.mem_flatMap.mp hs
      exact ⟨u, List.mem_cons_of_mem t hu, mem_symbols_of_mem_names_operands hs⟩

/-- The rendered formula has the value of the expression. -/
theorem evaluate_formula {e : Expression} {ρ : Binding} (h : ∀ s ∈ e.symbols, (ρ s).isSome) :
    e.formula.evaluate ρ = e.evaluate ρ := by
  rw [evaluate_eq_values h, ← polynomial_formula]
  apply Formula.evaluate_eq
  intro s hs
  exact Binding.eq_some_values (h s (mem_symbols_of_mem_names_formula hs))

section Reading

variable {e : Expression}

theorem isProduct_renderTerm (target : Target) {m : Monomial} (hm : m.IsCanonical)
    (hid : ∀ s ∈ m.symbols, s.isIdentifier) {c : ℚ} (hc : 0 ≤ c.num) :
    target.IsProduct (renderTerm target.spelling m c) (operands m c) := by
  have hid' : ∀ s ∈ m.factorSymbols, s.isIdentifier := fun s hs =>
    hid s (Monomial.mem_symbols_of_mem_factorSymbols hs)
  have hscalar : target.IsProduct (target.spelling.scalar c) [.number c] :=
    .factor (target.isFactor_scalar hc)
  unfold renderTerm operands
  by_cases hone : m.isOne
  · rw [if_pos hone, if_pos hone]
    exact hscalar
  · have hne := hm.factorSymbols_ne_nil (by simpa using hone)
    have hsymbols := target.isProduct_symbols hne hid'
    rw [if_neg hone, if_neg hone, Monomial.factorNames_eq]
    split_ifs
    · exact hsymbols
    · exact hscalar.append hsymbols

theorem isSum_foldl_joinFormula {target : Target} {a : String} {f : Formula}
    (h : target.IsSum a f) {ts : List Term}
    (hts : ∀ t ∈ ts, t.1.IsCanonical ∧ ∀ s ∈ t.1.symbols, s.isIdentifier) :
    target.IsSum (a ++ String.join (ts.map (fun t => joiningSign t.2 ++
      renderTerm target.spelling t.1 (Rational.magnitude t.2)))) (ts.foldl joinFormula f) := by
  induction ts generalizing a f with
  | nil => simpa using h
  | cons t ts ih =>
    obtain ⟨⟨hm, hid⟩, hts'⟩ := List.forall_mem_cons.mp hts
    have hterm := isProduct_renderTerm target hm hid (Rational.num_magnitude_nonneg t.2)
    have hjoin : target.IsSum (a ++ (joiningSign t.2 ++
        renderTerm target.spelling t.1 (Rational.magnitude t.2))) (joinFormula f t) := by
      unfold joiningSign joinFormula
      rw [← String.append_assoc]
      split_ifs
      · exact h.sub hterm
      · exact h.add hterm
    rw [List.map_cons, String.join_cons, ← String.append_assoc, List.foldl_cons]
    exact ih hjoin hts'

theorem isSum_firstFormula (target : Target) {t : Term} (hm : t.1.IsCanonical)
    (hid : ∀ s ∈ t.1.symbols, s.isIdentifier) :
    target.IsSum (leadingSign t.2 ++ renderTerm target.spelling t.1 (Rational.magnitude t.2))
      (firstFormula t) := by
  have hterm := isProduct_renderTerm target hm hid (Rational.num_magnitude_nonneg t.2)
  unfold leadingSign firstFormula
  split_ifs
  · exact .minus hterm
  · rw [String.empty_append]
    exact .product hterm

/-- A canonical expression over identifiers is rendered as a sum that shows its formula. -/
theorem IsCanonical.isSum_render (he : e.IsCanonical) (hid : ∀ s ∈ e.symbols, s.isIdentifier)
    (target : Target) : target.IsSum (e.render target.spelling) e.formula := by
  have hterms : ∀ t ∈ e.terms, t.1.IsCanonical ∧ ∀ s ∈ t.1.symbols, s.isIdentifier :=
    fun t ht => ⟨he.monomial_of_mem ht, forall_mem_symbols_iff.mp hid t ht⟩
  unfold render isZero formula
  cases hts : e.terms with
  | nil => exact .product (.factor (.integer 0))
  | cons t ts =>
    obtain ⟨⟨hm, hids⟩, hrest⟩ := List.forall_mem_cons.mp (hts ▸ hterms)
    exact isSum_foldl_joinFormula (isSum_firstFormula target hm hids) hrest

theorem IsCanonical.read?_render (he : e.IsCanonical) (hid : ∀ s ∈ e.symbols, s.isIdentifier)
    (target : Target) : read? (e.render target.spelling) = some e.formula :=
  (he.isSum_render hid target).read?_eq

end Reading

end Expression

end PivotCoefficients
