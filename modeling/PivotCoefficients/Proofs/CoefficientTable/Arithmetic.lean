import Mathlib.Algebra.BigOperators.NatAntidiagonal
import Mathlib.Algebra.Polynomial.Degree.Lemmas
import Mathlib.Algebra.Polynomial.Eval.Degree
import Mathlib.Data.Option.NAry
import PivotCoefficients.Proofs.CoefficientTable.Uniqueness

/-!
# Arithmetic of coefficient tables

An expression is a polynomial in the pivot alone, with polynomials in the other symbols
as its coefficients, and collection finds these. Sums, multiples and products of
expressions are those of the polynomials in the pivot: coefficients are added and
multiplied degree by degree, and a product of expressions has for each degree the
products of coefficients whose degrees add up to it.
-/
namespace PivotCoefficients

open MvPolynomial

namespace Expression

variable {a b e : Expression} {p : Symbol} {d n : ℕ}

section Univariate

/-- The expression as a polynomial in the pivot. -/
noncomputable def univariate (p : Symbol) (e : Expression) :
    Polynomial (MvPolynomial Symbol ℚ) :=
  ∑ d ∈ Finset.range (e.degreeIn p + 1),
    Polynomial.monomial d (e.coefficientOfPower p d).polynomial

theorem coeff_univariate (p : Symbol) (e : Expression) (d : ℕ) :
    (e.univariate p).coeff d = (e.coefficientOfPower p d).polynomial := by
  simp only [univariate, Polynomial.finsetSum_coeff, Polynomial.coeff_monomial,
    Finset.sum_ite_eq', Finset.mem_range]
  split_ifs with hd
  · rfl
  · rw [coefficientOfPower_of_degreeIn_lt (by omega), polynomial_zero]

theorem natDegree_univariate_le (p : Symbol) (e : Expression) :
    (e.univariate p).natDegree ≤ e.degreeIn p := by
  rw [Polynomial.natDegree_le_iff_coeff_eq_zero]
  intro d hd
  rw [coeff_univariate, coefficientOfPower_of_degreeIn_lt hd, polynomial_zero]

theorem sum_polynomial_of_collect {t : CoefficientTable} (h : e.collect p n = .ok t) :
    (t.coefficients.map polynomial).sum = (e.univariate p).eval 1 := by
  obtain ⟨hdegree, -, hlist⟩ := collect_eq_ok h
  have hlt : (e.univariate p).natDegree < n + 1 :=
    Nat.lt_succ_of_le ((natDegree_univariate_le p e).trans hdegree)
  rw [Polynomial.eval_eq_sum_range' hlt, hlist, List.map_map]
  simp only [one_pow, mul_one, coeff_univariate]
  rfl

namespace IsCanonical

theorem eval_univariate (he : e.IsCanonical) (p : Symbol) :
    (e.univariate p).eval (X p) = e.polynomial := by
  rw [univariate, Polynomial.eval_finsetSum]
  simp only [Polynomial.eval_monomial]
  exact he.sum_coefficientOfPower le_rfl

theorem coeff_univariate_mem (he : e.IsCanonical) (p : Symbol) (d : ℕ) :
    (e.univariate p).coeff d ∈ supported ℚ {s : Symbol | s ≠ p} := by
  rw [coeff_univariate]
  exact he.polynomial_coefficientOfPower_mem d

theorem degreeIn_le_of_natDegree_le (he : e.IsCanonical)
    (h : (e.univariate p).natDegree ≤ n) : e.degreeIn p ≤ n := by
  apply he.degreeIn_le_of_polynomial_eq fun d _ => he.coeff_univariate_mem p d
  rw [← he.eval_univariate p]
  exact Polynomial.eval_eq_sum_range' (Nat.lt_succ_of_le h) (X p)

/-- A polynomial in the pivot that has no pivot in its coefficients and is the expression
where the pivot is put in, is the one of the expression. -/
theorem univariate_eq (he : e.IsCanonical) {P : Polynomial (MvPolynomial Symbol ℚ)}
    (hP : ∀ d, P.coeff d ∈ supported ℚ {s : Symbol | s ≠ p})
    (h : P.eval (X p) = e.polynomial) : e.univariate p = P := by
  ext1 d
  -- the sum has to reach the degree of `P` and the `d` that is asked for
  have hdegree : P.natDegree < max P.natDegree d + 1 := by omega
  rw [Polynomial.eval_eq_sum_range' hdegree] at h
  rw [coeff_univariate]
  exact he.polynomial_coefficientOfPower_eq (fun j _ => hP j) h.symm (by omega)

theorem univariate_add (ha : a.IsCanonical) (hb : b.IsCanonical) (p : Symbol) :
    (a + b).univariate p = a.univariate p + b.univariate p := by
  apply (ha.add hb).univariate_eq
  · intro d
    rw [Polynomial.coeff_add]
    exact Subalgebra.add_mem _ (ha.coeff_univariate_mem p d) (hb.coeff_univariate_mem p d)
  · rw [Polynomial.eval_add, ha.eval_univariate, hb.eval_univariate, polynomial_add]

theorem univariate_scale (ha : a.IsCanonical) (k : ℚ) (p : Symbol) :
    (a.scale k).univariate p = a.univariate p * Polynomial.C (C k) := by
  apply (ha.scale k).univariate_eq
  · intro d
    rw [Polynomial.coeff_mul_C]
    exact Subalgebra.mul_mem _ (ha.coeff_univariate_mem p d) (Subalgebra.algebraMap_mem _ k)
  · rw [Polynomial.eval_mul, Polynomial.eval_C, ha.eval_univariate, polynomial_scale]

theorem univariate_mul (ha : a.IsCanonical) (hb : b.IsCanonical) (p : Symbol) :
    (a * b).univariate p = a.univariate p * b.univariate p := by
  apply (ha.mul hb).univariate_eq
  · intro d
    rw [Polynomial.coeff_mul]
    apply Subalgebra.sum_mem
    intro x _
    exact Subalgebra.mul_mem _ (ha.coeff_univariate_mem p x.1) (hb.coeff_univariate_mem p x.2)
  · rw [Polynomial.eval_mul, ha.eval_univariate, hb.eval_univariate, polynomial_mul]

end IsCanonical

end Univariate

section Coefficients

namespace IsCanonical

theorem coefficientOfPower_add (ha : a.IsCanonical) (hb : b.IsCanonical) (p : Symbol) (d : ℕ) :
    (a + b).coefficientOfPower p d = a.coefficientOfPower p d + b.coefficientOfPower p d := by
  have hsum := (ha.coefficientOfPower p d).add (hb.coefficientOfPower p d)
  apply ((ha.add hb).coefficientOfPower p d).eq_of_polynomial_eq hsum
  rw [polynomial_add, ← coeff_univariate, ← coeff_univariate, ← coeff_univariate,
    ha.univariate_add hb, Polynomial.coeff_add]

theorem coefficientOfPower_scale (ha : a.IsCanonical) (k : ℚ) (p : Symbol) (d : ℕ) :
    (a.scale k).coefficientOfPower p d = (a.coefficientOfPower p d).scale k := by
  have hscale := (ha.coefficientOfPower p d).scale k
  apply ((ha.scale k).coefficientOfPower p d).eq_of_polynomial_eq hscale
  rw [polynomial_scale, ← coeff_univariate, ← coeff_univariate, ha.univariate_scale,
    Polynomial.coeff_mul_C]

theorem polynomial_coefficientOfPower_mul (ha : a.IsCanonical) (hb : b.IsCanonical) (p : Symbol)
    (d : ℕ) : ((a * b).coefficientOfPower p d).polynomial =
      ∑ x ∈ Finset.HasAntidiagonal.antidiagonal d,
        (a.coefficientOfPower p x.1).polynomial * (b.coefficientOfPower p x.2).polynomial := by
  rw [← coeff_univariate, ha.univariate_mul hb, Polynomial.coeff_mul]
  simp only [coeff_univariate]

end IsCanonical

end Coefficients

end Expression

namespace CoefficientTable

def productsOfDegree (s t : CoefficientTable) (d : ℕ) : List Expression :=
  (List.Nat.antidiagonal d).filterMap fun x => Option.map₂ (· * ·) (s.get? x.1) (t.get? x.2)

/-- Each coefficient of `r` is the sum of the products of coefficients of `s` and `t` whose
degrees add up to its own, in whatever order they are added up. -/
def IsProductOf (r s t : CoefficientTable) : Prop :=
  ∀ d ≤ s.maxDegree + t.maxDegree, ∃ c, r.get? d = some c ∧
    ∀ x, Expression.IsSumOf (s.productsOfDegree t d) x ↔ x = c

variable {a b : Expression} {p : Symbol} {m n : ℕ} {r s t : CoefficientTable}

theorem elim_get?_of_collect (h : a.collect p n = .ok s) (d : ℕ) :
    (s.get? d).elim 0 Expression.polynomial = (a.coefficientOfPower p d).polynomial := by
  cases hd : s.get? d with
  | some c =>
    obtain ⟨-, rfl⟩ := (Expression.get?_collect_eq_some_iff h).mp hd
    rfl
  | none =>
    have hlt : n < d := by
      by_contra hle
      have hsome := (Expression.get?_collect_eq_some_iff h).mpr ⟨Nat.le_of_not_lt hle, rfl⟩
      rw [hd] at hsome
      cases hsome
    have hdegree := (Expression.collect_eq_ok h).1
    rw [Expression.coefficientOfPower_of_degreeIn_lt (by omega)]
    rfl

theorem elim_map₂_mul (x y : Option Expression) :
    (Option.map₂ (· * ·) x y).elim 0 Expression.polynomial =
      x.elim 0 Expression.polynomial * y.elim 0 Expression.polynomial := by
  cases x <;> cases y <;> simp

theorem sum_map_filterMap {ι : Type*} (f : ι → Option Expression) (l : List ι) :
    ((l.filterMap f).map Expression.polynomial).sum =
      (l.map fun i => (f i).elim 0 Expression.polynomial).sum := by
  induction l with
  | nil => rfl
  | cons i l ih =>
    cases hi : f i with
    | none => simp [hi, ih]
    | some c => simp [hi, ih]

theorem sum_polynomial_productsOfDegree (ha : a.IsCanonical) (hb : b.IsCanonical)
    (hs : a.collect p n = .ok s) (ht : b.collect p m = .ok t) (d : ℕ) :
    ((s.productsOfDegree t d).map Expression.polynomial).sum =
      ((a * b).coefficientOfPower p d).polynomial := by
  rw [productsOfDegree, sum_map_filterMap, ha.polynomial_coefficientOfPower_mul hb]
  simp only [elim_map₂_mul, elim_get?_of_collect hs, elim_get?_of_collect ht]
  rfl

theorem isCanonical_of_mem_productsOfDegree (hs : ∀ c ∈ s.coefficients, c.IsCanonical)
    (ht : ∀ c ∈ t.coefficients, c.IsCanonical) (d : ℕ) :
    ∀ c ∈ s.productsOfDegree t d, c.IsCanonical := by
  intro c hc
  obtain ⟨x, -, hx⟩ := List.mem_filterMap.mp hc
  obtain ⟨u, v, hu, hv, rfl⟩ := Option.map₂_eq_some_iff.mp hx
  exact (hs u (List.mem_of_getElem? hu)).mul (ht v (List.mem_of_getElem? hv))

theorem isProductOf_of_collect (ha : a.IsCanonical) (hb : b.IsCanonical)
    (hs : a.collect p n = .ok s) (ht : b.collect p m = .ok t)
    (hr : (a * b).collect p (n + m) = .ok r) : r.IsProductOf s t := by
  intro d hd
  rw [Expression.maxDegree_of_collect hs, Expression.maxDegree_of_collect ht] at hd
  refine ⟨_, (Expression.get?_collect_eq_some_iff hr).mpr ⟨hd, rfl⟩, ?_⟩
  have hparts := isCanonical_of_mem_productsOfDegree (ha.of_mem_collect hs)
    (hb.of_mem_collect ht) d
  have hsum := sum_polynomial_productsOfDegree ha hb hs ht d
  exact Expression.IsSumOf.iff_eq hparts ((ha.mul hb).coefficientOfPower p d) hsum.symm

end CoefficientTable

namespace Expression

variable {a b : Expression}

/-- Collection turns products, sums and multiples of expressions into those of polynomials in
the pivot. -/
theorem collect_arithmetic (ha : a.IsConstructible) (hb : b.IsConstructible) (p : Symbol) :
    (∀ n m, a.degreeIn p ≤ n → b.degreeIn p ≤ m → ∃ s t r, a.collect p n = .ok s ∧
      b.collect p m = .ok t ∧ (a * b).collect p (n + m) = .ok r ∧ r.IsProductOf s t) ∧
    (∀ n, a.degreeIn p ≤ n → b.degreeIn p ≤ n → ∃ s t r, a.collect p n = .ok s ∧
      b.collect p n = .ok t ∧ (a + b).collect p n = .ok r ∧
      r.coefficients = List.zipWith (· + ·) s.coefficients t.coefficients) ∧
    ∀ n k, a.degreeIn p ≤ n → ∃ s r, a.collect p n = .ok s ∧ (a.scale k).collect p n = .ok r ∧
      r.coefficients = s.coefficients.map (·.scale k) := by
  have ha := ha.isCanonical
  have hb := hb.isCanonical
  refine ⟨?_, ?_, ?_⟩
  · intro n m hn hm
    obtain ⟨s, hs⟩ := collect_of_degreeIn_le hn
    obtain ⟨t, ht⟩ := collect_of_degreeIn_le hm
    obtain ⟨r, hr⟩ := collect_of_degreeIn_le (ha.degreeIn_mul_le hb hn hm)
    exact ⟨s, t, r, hs, ht, hr, CoefficientTable.isProductOf_of_collect ha hb hs ht hr⟩
  · intro n han hbn
    obtain ⟨s, hs⟩ := collect_of_degreeIn_le han
    obtain ⟨t, ht⟩ := collect_of_degreeIn_le hbn
    obtain ⟨r, hr⟩ := collect_of_degreeIn_le (ha.degreeIn_add_le hb han hbn)
    refine ⟨s, t, r, hs, ht, hr, ?_⟩
    rw [(collect_eq_ok hs).2.2, (collect_eq_ok ht).2.2, (collect_eq_ok hr).2.2,
      List.zipWith_map, List.zipWith_self]
    exact List.map_congr_left fun d _ => ha.coefficientOfPower_add hb p d
  · intro n k hn
    obtain ⟨s, hs⟩ := collect_of_degreeIn_le hn
    obtain ⟨r, hr⟩ := collect_of_degreeIn_le (ha.degreeIn_scale_le k hn)
    refine ⟨s, r, hs, hr, ?_⟩
    rw [(collect_eq_ok hs).2.2, (collect_eq_ok hr).2.2, List.map_map]
    exact List.map_congr_left fun d _ => ha.coefficientOfPower_scale k p d

/-- The middle coefficient of the product cancels, the leading one of the sum as well, and one
degree is declared too high. -/
theorem collect_arithmetic_cancelling :
    let p : Symbol := ⟨"p"⟩
    let x : Symbol := ⟨"x"⟩
    let a : Expression := ⟨[(.var p, 1), (.var x, 2)]⟩
    let b : Expression := ⟨[(.var p, -1), (.var x, 2)]⟩
    a.IsConstructible ∧ b.IsConstructible ∧ a.degreeIn p ≤ 2 ∧ b.degreeIn p ≤ 1 ∧
      a.degreeIn p ≤ 1 ∧
      (∃ s t r, a.collect p 2 = .ok s ∧ b.collect p 1 = .ok t ∧
        (a * b).collect p (2 + 1) = .ok r ∧ r.IsProductOf s t) ∧
      (∃ s t r, a.collect p 1 = .ok s ∧ b.collect p 1 = .ok t ∧ (a + b).collect p 1 = .ok r ∧
        r.coefficients = List.zipWith (· + ·) s.coefficients t.coefficients) ∧
      ∃ s r, a.collect p 2 = .ok s ∧ (a.scale 0).collect p 2 = .ok r ∧
        r.coefficients = s.coefficients.map (·.scale 0) := by
  intro p x a b
  have ha : a.IsConstructible := isConstructible_iff.mpr (by decide +kernel)
  have hb : b.IsConstructible := isConstructible_iff.mpr (by decide +kernel)
  have ha2 : a.degreeIn p ≤ 2 := by decide
  have ha1 : a.degreeIn p ≤ 1 := by decide
  have hb1 : b.degreeIn p ≤ 1 := by decide
  obtain ⟨hmul, hadd, hscale⟩ := collect_arithmetic ha hb p
  exact ⟨ha, hb, ha2, hb1, ha1, hmul 2 1 ha2 hb1, hadd 1 ha1 hb1, hscale 2 0 ha2⟩

end Expression

end PivotCoefficients
