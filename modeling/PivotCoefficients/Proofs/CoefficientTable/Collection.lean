import PivotCoefficients.Proofs.Expression.Evaluation

/-!
# Collection

Collection succeeds when no power of the pivot above the declared maximum
occurs. Its coefficients are then canonical, and with their powers of the pivot
they add up to the polynomial of the expression.
-/
namespace PivotCoefficients.Expression

open FormalSum MvPolynomial

variable {e : Expression} {p : Symbol} {n : ℕ} {t : CoefficientTable}

theorem collect_eq_ok (h : e.collect p n = .ok t) :
    e.degreeIn p ≤ n ∧ t.pivot = p ∧
      t.coefficients = (List.range (n + 1)).map (e.coefficientOfPower p) := by
  unfold collect at h
  split_ifs at h with hdeg
  obtain rfl := Except.ok.inj h
  exact ⟨Nat.le_of_not_lt hdeg, rfl, rfl⟩

theorem collect_of_degreeIn_le (h : e.degreeIn p ≤ n) : ∃ t, e.collect p n = .ok t := by
  rw [collect, if_neg (Nat.not_lt.mpr h)]
  exact ⟨_, rfl⟩

theorem size_of_collect (h : e.collect p n = .ok t) : t.size = n + 1 := by
  rw [CoefficientTable.size, (collect_eq_ok h).2.2]
  simp

theorem maxDegree_of_collect (h : e.collect p n = .ok t) : t.maxDegree = n := by
  rw [CoefficientTable.maxDegree, size_of_collect h, Nat.add_sub_cancel]

theorem get?_collect_eq_some_iff (h : e.collect p n = .ok t) {d : ℕ} {c : Expression} :
    t.get? d = some c ↔ d ≤ n ∧ c = e.coefficientOfPower p d := by
  rw [CoefficientTable.get?, (collect_eq_ok h).2.2, List.getElem?_map, Option.map_eq_some_iff]
  constructor
  · rintro ⟨i, hi, rfl⟩
    obtain ⟨hlt, rfl⟩ := List.getElem?_eq_some_iff.mp hi
    rw [List.length_range] at hlt
    exact ⟨Nat.le_of_lt_succ hlt, by rw [List.getElem_range]⟩
  · rintro ⟨hd, rfl⟩
    exact ⟨d, List.getElem?_range (Nat.lt_succ_of_le hd), rfl⟩

theorem isDegenerate_iff_of_collect (h : e.collect p n = .ok t) :
    t.isDegenerate ↔ e.coefficientOfPower p n = zero := by
  have hleading : t.leading = e.coefficientOfPower p n := by
    rw [CoefficientTable.leading, List.getLast_eq_iff_getLast?_eq_some, (collect_eq_ok h).2.2,
      List.range_succ]
    simp
  rw [CoefficientTable.isDegenerate, hleading, isZero_iff]

theorem IsCanonical.of_mem_collect (he : e.IsCanonical) (h : e.collect p n = .ok t) :
    ∀ c ∈ t.coefficients, c.IsCanonical := by
  intro c hc
  obtain ⟨d, hd⟩ := List.mem_iff_getElem?.mp hc
  rw [((get?_collect_eq_some_iff h).mp hd).2]
  exact he.coefficientOfPower p d

theorem coefficientOfPower_of_degreeIn_lt {d : ℕ} (h : e.degreeIn p < d) :
    e.coefficientOfPower p d = zero := by
  have hnone : e.terms.filter (fun t => t.1.exponent p = d) = [] := by
    rw [List.filter_eq_nil_iff]
    intro t ht
    have hle : t.1.exponent p ≤ e.degreeIn p := degreeIn_le_iff.mp le_rfl t ht
    rw [decide_eq_true_eq]
    omega
  simp [coefficientOfPower, hnone, ofTerms, zero]

/-- A coefficient has symbols of the expression only, and not the pivot. -/
theorem mem_symbols_of_mem_coefficientOfPower {d : ℕ} {s : Symbol}
    (hs : s ∈ (e.coefficientOfPower p d).symbols) : s ∈ e.symbols ∧ s ≠ p := by
  obtain ⟨t, ht, hst⟩ := mem_symbols_iff.mp hs
  revert hst
  refine forall_key_ofTerms (fun m => s ∈ m.symbols → s ∈ e.symbols ∧ s ≠ p) ?_ t ht
  intro u hu hsu
  obtain ⟨r, hr, rfl⟩ := List.mem_map.mp hu
  obtain ⟨f, hf, rfl⟩ := List.mem_map.mp hsu
  obtain ⟨hf, hne⟩ := List.mem_filter.mp hf
  have hre : r ∈ e.terms := (List.mem_filter.mp hr).1
  exact ⟨mem_symbols_iff.mpr ⟨r, hre, List.mem_map_of_mem hf⟩, of_decide_eq_true hne⟩

theorem weight_without {m : Monomial} (hm : m.IsCanonical) (p : Symbol) (c : ℚ) :
    (m.without p).weight c * X p ^ m.exponent p = m.weight c := by
  rw [Monomial.weight_apply, X_pow_eq_monomial, monomial_mul, mul_one,
    hm.exponents_without_add, Monomial.weight_apply]

/-- A list taken apart by a number that each element has, up to a bound. -/
theorem perm_flatMap_filter {α : Type*} (f : α → ℕ) (n : ℕ) (l : List α) :
    ((List.range n).flatMap fun d => l.filter fun a => f a = d).Perm
      (l.filter fun a => f a < n) := by
  induction n with
  | zero => simp
  | succ n ih =>
    rw [List.range_succ, List.flatMap_append, List.flatMap_singleton]
    refine (ih.append_right _).trans ?_
    -- what lies below `n + 1` lies below `n` or is equal to it
    have hsplit := List.filter_append_perm (fun a => f a < n) (l.filter fun a => f a < n + 1)
    rw [List.filter_filter, List.filter_filter] at hsplit
    convert hsplit using 3
    · funext a
      rw [← Bool.decide_and, decide_eq_decide]
      omega
    · funext a
      rw [← decide_not, ← Bool.decide_and, decide_eq_decide]
      omega

theorem perm_flatMap_filter_exponent {ts : List Term} (hts : ∀ t ∈ ts, t.1.exponent p ≤ n) :
    ((List.range (n + 1)).flatMap fun d => ts.filter fun t => t.1.exponent p = d).Perm ts := by
  have hperm := perm_flatMap_filter (fun t : Term => t.1.exponent p) (n + 1) ts
  rwa [List.filter_eq_self.mpr] at hperm
  intro t ht
  exact decide_eq_true (Nat.lt_succ_of_le (hts t ht))

theorem total_map_without {d : ℕ} {ts : List Term}
    (hts : ∀ t ∈ ts, t.1.IsCanonical ∧ t.1.exponent p = d) :
    total Monomial.weight (ts.map (fun t => (t.1.without p, t.2))) * X p ^ d =
      total Monomial.weight ts := by
  rw [total, total, List.map_map, ← List.sum_map_mul_right]
  congr 1
  apply List.map_congr_left
  intro t ht
  obtain ⟨hcanonical, rfl⟩ := hts t ht
  exact weight_without hcanonical p t.2

/-- The coefficients times their powers of the pivot add up to the expression. -/
theorem IsCanonical.sum_coefficientOfPower (he : e.IsCanonical) (h : e.degreeIn p ≤ n) :
    ∑ d ∈ Finset.range (n + 1), (e.coefficientOfPower p d).polynomial * X p ^ d =
      e.polynomial := by
  have hpower : ∀ d, (e.coefficientOfPower p d).polynomial * X p ^ d =
      total Monomial.weight (e.terms.filter (fun t => t.1.exponent p = d)) := by
    intro d
    rw [Expression.coefficientOfPower, polynomial_ofTerms]
    apply total_map_without
    intro t ht
    obtain ⟨ht, hd⟩ := List.mem_filter.mp ht
    exact ⟨he.monomial_of_mem ht, of_decide_eq_true hd⟩
  simp only [hpower]
  have hperm := perm_flatMap_filter_exponent (degreeIn_le_iff.mp h)
  rw [polynomial, ← total_perm _ hperm, total_flatMap]
  rfl

theorem IsCanonical.sum_eval_coefficientOfPower (he : e.IsCanonical) (h : e.degreeIn p ≤ n)
    (v : Symbol → ℚ) :
    ∑ d ∈ Finset.range (n + 1), eval v (e.coefficientOfPower p d).polynomial * v p ^ d =
      eval v e.polynomial := by
  rw [← he.sum_coefficientOfPower h, map_sum]
  simp only [map_mul, map_pow, eval_X]

end PivotCoefficients.Expression
