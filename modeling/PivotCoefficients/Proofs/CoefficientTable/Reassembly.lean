import PivotCoefficients.Proofs.CoefficientTable.Terms

/-!
# Expressions taken apart and put together again

Collection succeeds exactly when no power of the pivot lies above the declared
degree. The table then holds every term of the expression once and without the
pivot, and the running sum that multiplies the powers in again has the expression
as its result. The exponents formed on the way are those of the expression and
those of the powers of the pivot, the last of which is one above the degree.
-/
namespace PivotCoefficients

open MvPolynomial

namespace CoefficientTable

/-- The products of terms that the running sum forms: each coefficient times the
power that has been reached, and this power times the pivot. -/
def productsFrom (pivot power : Expression) : List Expression → List Term
  | [] => []
  | c :: rest => c.products power ++ power.products pivot ++ productsFrom pivot (power * pivot) rest

/-- The products of terms that are formed when the table is put together. -/
def productsFormed (t : CoefficientTable) : List Term :=
  productsFrom (.ofSymbol t.pivot) .one t.coefficients

/-- The table is what the terms of `e` give when they are taken apart by the powers
of `p` up to `n`, with nothing lost. -/
structure IsDecompositionOf (t : CoefficientTable) (e : Expression) (p : Symbol) (n : ℕ) :
    Prop where
  pivot_eq : t.pivot = p
  size_eq : t.size = n + 1
  maxDegree_eq : t.maxDegree = n
  /-- The pivot is taken out. -/
  pivot_notMem : ∀ c ∈ t.coefficients, p ∉ c.symbols
  /-- Terms of one power become a coefficient as they stand. -/
  terms_eq : ∀ d c, t.get? d = some c → c.terms = e.termsOfPower p d
  /-- A term of a coefficient comes from the term with the power of the pivot. -/
  mem_terms : ∀ d c, t.get? d = some c → ∀ m k, (m, k) ∈ c.terms →
    (m * .ofFactors [(p, d)], k) ∈ e.terms
  /-- Terms are neither lost nor merged nor repeated. -/
  sum_size : (t.coefficients.map Expression.size).sum = e.size
  toExpression_eq : t.toExpression = e
  /-- A limit on exponents that `e` and `n + 1` keep to is kept to on the way. -/
  exponent_le : ∀ u ∈ t.productsFormed, ∀ s, u.1.exponent s ≤ max (e.degreeIn s) (n + 1)

variable {t : CoefficientTable} {e : Expression} {p : Symbol} {n : ℕ}

section Result

theorem polynomial_sumFrom (f : ℕ → Expression) (pivot power sum : Expression) (n : ℕ) :
    (sumFrom pivot power sum ((List.range n).map f)).polynomial = sum.polynomial +
      ∑ d ∈ Finset.range n, (f d).polynomial * (power.polynomial * pivot.polynomial ^ d) := by
  induction n generalizing f power sum with
  | zero => simp [sumFrom]
  | succ n ih =>
    have hshift : ∀ d, ((f ∘ Nat.succ) d).polynomial *
        ((power * pivot).polynomial * pivot.polynomial ^ d) =
          (f (d + 1)).polynomial * (power.polynomial * pivot.polynomial ^ (d + 1)) := by
      intro d
      rw [Function.comp_apply, Expression.polynomial_mul]
      ring
    rw [List.range_succ_eq_map, List.map_cons, List.map_map, sumFrom, ih,
      Expression.polynomial_add, Expression.polynomial_mul (f 0), Finset.sum_range_succ',
      Finset.sum_congr rfl fun d _ => hshift d]
    ring

theorem polynomial_toExpression {f : ℕ → Expression} (h : t.coefficients = (List.range n).map f) :
    t.toExpression.polynomial = ∑ d ∈ Finset.range n, (f d).polynomial * X t.pivot ^ d := by
  rw [toExpression, h, polynomial_sumFrom]
  simp

theorem toExpression_of_collect (he : e.IsCanonical) (h : e.collect p n = .ok t) :
    t.toExpression = e := by
  have htable := isCanonical_toExpression (he.of_mem_collect h)
  obtain ⟨hdegree, rfl, hlist⟩ := Expression.collect_eq_ok h
  apply htable.eq_of_polynomial_eq he
  rw [polynomial_toExpression hlist, he.sum_coefficientOfPower hdegree]

end Result

section Products

theorem ofMonomial_ofFactors_mul (p : Symbol) (d : ℕ) :
    Expression.ofMonomial (.ofFactors [(p, d)]) * .ofSymbol p =
      .ofMonomial (.ofFactors [(p, d + 1)]) := by
  have hpower := Monomial.isCanonical_ofFactors [(p, d)]
  rw [Expression.ofSymbol, Expression.ofMonomial_mul hpower (Monomial.isCanonical_var p),
    Monomial.ofFactors_mul_var]

theorem mem_products_ofMonomial {c : Expression} {m : Monomial} {u : Term}
    (hu : u ∈ c.products (.ofMonomial m)) : ∃ v ∈ c.terms, u.1 = v.1 * m := by
  obtain ⟨v, hv, hu⟩ := List.mem_flatMap.mp hu
  obtain rfl := List.mem_singleton.mp hu
  exact ⟨v, hv, rfl⟩

/-- Once the power `d` is reached, a product is a term of a coefficient times its
own power of the pivot, or a further power. -/
theorem mem_productsFrom {cs : List Expression} {d : ℕ} {u : Term}
    (hu : u ∈ productsFrom (.ofSymbol p) (.ofMonomial (.ofFactors [(p, d)])) cs) :
    (∃ i c, cs[i]? = some c ∧ ∃ v ∈ c.terms, u.1 = v.1 * .ofFactors [(p, d + i)]) ∨
      ∃ i < cs.length, u.1 = .ofFactors [(p, d + i + 1)] := by
  induction cs generalizing d with
  | nil => cases hu
  | cons c cs ih =>
    rw [productsFrom, ofMonomial_ofFactors_mul, List.mem_append, List.mem_append] at hu
    rcases hu with (hu | hu) | hu
    · exact .inl ⟨0, c, rfl, mem_products_ofMonomial hu⟩
    · obtain ⟨v, hv, hu⟩ := mem_products_ofMonomial hu
      obtain rfl := List.mem_singleton.mp hv
      exact .inr ⟨0, Nat.succ_pos _, hu.trans (Monomial.ofFactors_mul_var p d)⟩
    · rcases ih hu with ⟨i, b, hb, hv⟩ | ⟨i, hi, hu⟩
      · rw [Nat.add_assoc, Nat.add_comm 1] at hv
        exact .inl ⟨i + 1, b, hb, hv⟩
      · rw [Nat.add_assoc d, Nat.add_comm 1] at hu
        exact .inr ⟨i + 1, Nat.succ_lt_succ hi, hu⟩

theorem exponent_le_of_mem_productsFormed (he : e.IsCanonical) (h : e.collect p n = .ok t)
    {u : Term} (hu : u ∈ t.productsFormed) (s : Symbol) :
    u.1.exponent s ≤ max (e.degreeIn s) (n + 1) := by
  obtain ⟨-, rfl, -⟩ := Expression.collect_eq_ok h
  rw [productsFormed, Expression.one_eq_ofMonomial, ← Monomial.ofFactors_zero t.pivot] at hu
  rcases mem_productsFrom hu with ⟨d, c, hc, v, hv, hu⟩ | ⟨d, hd, hu⟩
  · obtain ⟨-, rfl⟩ := (Expression.get?_collect_eq_some_iff h).mp hc
    have hmem := he.mem_of_mem_coefficientOfPower hv
    rw [hu, Nat.zero_add]
    exact le_max_of_le_left (Expression.degreeIn_le_iff.mp le_rfl _ hmem)
  · have hlt : d < n + 1 := (Expression.size_of_collect h) ▸ hd
    rw [hu, (Monomial.isCanonical_ofFactors _).exponent_eq,
      Monomial.exponents_ofFactors_singleton, Finsupp.single_apply]
    apply le_max_of_le_right
    split_ifs <;> omega

end Products

theorem isDecompositionOf_of_collect (he : e.IsCanonical) (h : e.collect p n = .ok t) :
    t.IsDecompositionOf e p n where
  pivot_eq := (Expression.collect_eq_ok h).2.1
  size_eq := Expression.size_of_collect h
  maxDegree_eq := Expression.maxDegree_of_collect h
  pivot_notMem := by
    intro c hc hp
    obtain ⟨d, hd⟩ := List.mem_iff_getElem?.mp hc
    obtain ⟨-, rfl⟩ := (Expression.get?_collect_eq_some_iff h).mp hd
    exact (Expression.mem_symbols_of_mem_coefficientOfPower hp).2 rfl
  terms_eq := by
    intro d c hc
    obtain ⟨-, rfl⟩ := (Expression.get?_collect_eq_some_iff h).mp hc
    exact he.terms_coefficientOfPower p d
  mem_terms := by
    intro d c hc m k hu
    obtain ⟨-, rfl⟩ := (Expression.get?_collect_eq_some_iff h).mp hc
    exact he.mem_of_mem_coefficientOfPower hu
  sum_size := he.sum_size_of_collect h
  toExpression_eq := toExpression_of_collect he h
  exponent_le := fun _ => exponent_le_of_mem_productsFormed he h

end CoefficientTable

namespace Expression

/-- A constructed expression is taken apart without loss when the declared degree is
high enough. Otherwise its largest exponent of the pivot is reported. -/
theorem collect_decomposes {e : Expression} (he : e.IsConstructible) (p : Symbol) (n : ℕ) :
    ((∃ t, e.collect p n = .ok t) ↔ e.degreeIn p ≤ n) ∧
      (∀ t, e.collect p n = .ok t → t.IsDecompositionOf e p n) ∧
      (n < e.degreeIn p → ∃ k, IsGreatest {i | ∃ u ∈ e.terms, u.1.exponent p = i} k ∧
        e.collect p n = .error (.degreeOverflow p.name k n)) := by
  refine ⟨⟨?_, collect_of_degreeIn_le⟩, ?_, ?_⟩
  · rintro ⟨t, ht⟩
    exact (collect_eq_ok ht).1
  · intro t ht
    exact CoefficientTable.isDecompositionOf_of_collect he.isCanonical ht
  · intro h
    refine ⟨e.degreeIn p, isGreatest_degreeIn (Nat.zero_lt_of_lt h), ?_⟩
    rw [collect, if_pos h]

/-- The pivot stands between other symbols, and the degree is declared once too high
and once too low. -/
theorem collect_decomposes_middle :
    let a : Symbol := ⟨"a"⟩
    let m : Symbol := ⟨"m"⟩
    let z : Symbol := ⟨"z"⟩
    let e : Expression := ⟨[(⟨[(a, 2), (m, 1)]⟩, 1 / 2), (⟨[(a, 1), (m, 1), (z, 1)]⟩, -3),
      (⟨[(a, 1), (z, 1)]⟩, 2), (⟨[(m, 2)]⟩, 7), (⟨[(z, 1)]⟩, 1)]⟩
    e.IsConstructible ∧ (∃ t, e.collect m 3 = .ok t ∧ t.IsDecompositionOf e m 3) ∧
      1 < e.degreeIn m ∧ ∃ k, IsGreatest {i | ∃ u ∈ e.terms, u.1.exponent m = i} k ∧
        e.collect m 1 = .error (.degreeOverflow "m" k 1) := by
  intro a m z e
  have he : e.IsConstructible := isConstructible_iff.mpr (by decide +kernel)
  have hdegree : e.degreeIn m = 2 := by decide
  obtain ⟨t, ht⟩ := (collect_decomposes he m 3).1.mpr (by omega)
  have hlow : 1 < e.degreeIn m := by omega
  exact ⟨he, ⟨t, ht, (collect_decomposes he m 3).2.1 t ht⟩, hlow,
    (collect_decomposes he m 1).2.2 hlow⟩

end Expression

end PivotCoefficients
