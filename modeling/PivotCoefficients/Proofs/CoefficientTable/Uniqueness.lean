import Mathlib.Data.List.GetD
import PivotCoefficients.Proofs.CoefficientTable.Collection
import PivotCoefficients.Proofs.Construction.Canonical
import PivotCoefficients.Proofs.Expression.Bounds

/-!
# Coefficients are determined by their sum

Expressions without the pivot, each times its own power of the pivot, never meet in
a sum: no monomial of one power is a monomial of another. So they are the only
coefficients the sum can have, and collection finds them.
-/
namespace PivotCoefficients

open MvPolynomial

section Polynomials

variable {p : Symbol} {n : ℕ} {f g : ℕ → MvPolynomial Symbol ℚ}

/-- In a sum over powers of `p`, the monomials with the power `i` are those of the part `i`. -/
theorem coeff_sum_mul_X_pow (hf : ∀ j < n, f j ∈ supported ℚ {s : Symbol | s ≠ p}) {i : ℕ}
    (hi : i < n) {d : Symbol →₀ ℕ} (hd : d p = 0) :
    coeff (d + Finsupp.single p i) (∑ j ∈ Finset.range n, f j * X p ^ j) = coeff d (f i) := by
  rw [coeff_sum, Finset.sum_eq_single i]
  · rw [X_pow_eq_monomial, coeff_mul_monomial, mul_one]
  · intro j hj hji
    rw [X_pow_eq_monomial, coeff_mul_monomial', mul_one]
    split_ifs with hle
    · -- the pivot would be left over in the part `j`
      apply Expression.coeff_eq_zero_of_mem_supported (hf j (Finset.mem_range.mp hj))
      have hp := hle p
      simp only [Finsupp.add_apply, Finsupp.tsub_apply, Finsupp.single_eq_same, hd] at hp ⊢
      omega
    · rfl
  · intro hnone
    exact absurd (Finset.mem_range.mpr hi) hnone

theorem eq_of_sum_mul_X_pow_eq (hf : ∀ j < n, f j ∈ supported ℚ {s : Symbol | s ≠ p})
    (hg : ∀ j < n, g j ∈ supported ℚ {s : Symbol | s ≠ p})
    (h : ∑ j ∈ Finset.range n, f j * X p ^ j = ∑ j ∈ Finset.range n, g j * X p ^ j) {i : ℕ}
    (hi : i < n) : f i = g i := by
  ext d
  by_cases hd : d p = 0
  · rw [← coeff_sum_mul_X_pow hf hi hd, h, coeff_sum_mul_X_pow hg hi hd]
  · rw [Expression.coeff_eq_zero_of_mem_supported (hf i hi) hd,
      Expression.coeff_eq_zero_of_mem_supported (hg i hi) hd]

theorem degreeOf_sum_mul_X_pow_le (hf : ∀ j < n, f j ∈ supported ℚ {s : Symbol | s ≠ p}) :
    degreeOf p (∑ j ∈ Finset.range n, f j * X p ^ j) ≤ n - 1 := by
  refine (degreeOf_sum_le p _ _).trans (Finset.sup_le ?_)
  intro j hj
  have hlt := Finset.mem_range.mp hj
  exact (Expression.degreeOf_mul_X_pow_le (hf j hlt) j).trans (Nat.le_sub_one_of_lt hlt)

end Polynomials

namespace Expression

section Coefficients

variable {e : Expression} {p : Symbol} {n : ℕ} {f : ℕ → MvPolynomial Symbol ℚ}

theorem IsCanonical.polynomial_coefficientOfPower_mem (he : e.IsCanonical) (d : ℕ) :
    (e.coefficientOfPower p d).polynomial ∈ supported ℚ {s : Symbol | s ≠ p} :=
  (he.coefficientOfPower p d).polynomial_mem_supported
    fun _ hs => (mem_symbols_of_mem_coefficientOfPower hs).2

theorem IsCanonical.degreeIn_le_of_polynomial_eq (he : e.IsCanonical)
    (hf : ∀ j < n + 1, f j ∈ supported ℚ {s : Symbol | s ≠ p})
    (h : e.polynomial = ∑ j ∈ Finset.range (n + 1), f j * X p ^ j) : e.degreeIn p ≤ n := by
  rw [he.degreeIn_eq_degreeOf, h]
  exact degreeOf_sum_mul_X_pow_le hf

/-- The parts of a polynomial without the pivot are those that collection finds. -/
theorem IsCanonical.polynomial_coefficientOfPower_eq (he : e.IsCanonical)
    (hf : ∀ j < n + 1, f j ∈ supported ℚ {s : Symbol | s ≠ p})
    (h : e.polynomial = ∑ j ∈ Finset.range (n + 1), f j * X p ^ j) {i : ℕ} (hi : i < n + 1) :
    (e.coefficientOfPower p i).polynomial = f i := by
  have hdegree := he.degreeIn_le_of_polynomial_eq hf h
  refine eq_of_sum_mul_X_pow_eq (fun d _ => he.polynomial_coefficientOfPower_mem d) hf ?_ hi
  rw [he.sum_coefficientOfPower hdegree, h]

end Coefficients

/-- Adding up the listed expressions, in some order and grouping, gives the expression. -/
inductive IsSumOf : List Expression → Expression → Prop
  | zero : IsSumOf [] zero
  | single (a : Expression) : IsSumOf [a] a
  | add {as bs a b} : IsSumOf as a → IsSumOf bs b → IsSumOf (as ++ bs) (a + b)
  | perm {as bs a} : as.Perm bs → IsSumOf as a → IsSumOf bs a

/-- A loop that adds one expression after another. -/
theorem isSumOf_foldl (as : List Expression) : IsSumOf as (as.foldl (· + ·) zero) := by
  have hfold : ∀ {bs b}, IsSumOf bs b → IsSumOf (bs ++ as) (as.foldl (· + ·) b) := by
    induction as with
    | nil =>
      intro bs b h
      rw [List.append_nil]
      exact h
    | cons a as ih =>
      intro bs b h
      rw [List.append_cons]
      exact ih (.add h (.single a))
  exact hfold .zero

namespace IsSumOf

variable {as : List Expression} {a : Expression}

theorem polynomial_eq (h : IsSumOf as a) : a.polynomial = (as.map polynomial).sum := by
  induction h with
  | zero => rfl
  | single a => simp
  | add _ _ iha ihb => rw [polynomial_add, iha, ihb, List.map_append, List.sum_append]
  | perm hperm _ ih => rw [ih, (hperm.map polynomial).sum_eq]

theorem isCanonical (h : IsSumOf as a) (has : ∀ b ∈ as, b.IsCanonical) : a.IsCanonical := by
  induction h with
  | zero => exact isCanonical_zero
  | single a => exact has a List.mem_cons_self
  | add _ _ iha ihb =>
    rw [List.forall_mem_append] at has
    exact (iha has.1).add (ihb has.2)
  | perm hperm _ ih => exact ih fun b hb => has b (hperm.mem_iff.mp hb)

/-- The only sum of canonical expressions is the canonical expression of the sum of their
polynomials. -/
theorem iff_eq (has : ∀ b ∈ as, b.IsCanonical) (ha : a.IsCanonical)
    (h : a.polynomial = (as.map polynomial).sum) (r : Expression) : IsSumOf as r ↔ r = a := by
  have hunique : ∀ {r}, IsSumOf as r → r = a := fun hr =>
    (hr.isCanonical has).eq_of_polynomial_eq ha (hr.polynomial_eq.trans h.symm)
  constructor
  · exact hunique
  · rintro rfl
    exact hunique (isSumOf_foldl as) ▸ isSumOf_foldl as

end IsSumOf

/-- The listed expressions times ascending powers of `x`. -/
def timesPowersOf (x : Expression) (cs : List Expression) : List Expression :=
  cs.zipIdx.map (fun c => c.1 * x.pow c.2)

variable {p : Symbol} {n : ℕ} {cs : List Expression} {e x : Expression}

theorem timesPowersOf_eq (x : Expression) (cs : List Expression) :
    timesPowersOf x cs = (List.range cs.length).map fun d => cs.getD d zero * x.pow d := by
  apply List.ext_getElem
  · simp [timesPowersOf]
  · intro d hd _
    have hd : d < cs.length := by simpa [timesPowersOf] using hd
    simp [timesPowersOf, hd]

theorem isCanonical_of_mem_timesPowersOf (hx : x.IsCanonical) (hcs : ∀ c ∈ cs, c.IsCanonical) :
    ∀ a ∈ timesPowersOf x cs, a.IsCanonical := by
  intro a ha
  obtain ⟨⟨c, d⟩, hc, rfl⟩ := List.mem_map.mp ha
  exact (hcs c (List.fst_mem_of_mem_zipIdx hc)).mul (hx.pow d)

theorem sum_polynomial_timesPowersOf (x : Expression) (cs : List Expression) :
    ((timesPowersOf x cs).map polynomial).sum =
      ∑ d ∈ Finset.range cs.length, (cs.getD d zero).polynomial * x.polynomial ^ d := by
  rw [timesPowersOf_eq, List.map_map]
  have hterm : ∀ d, (cs.getD d zero * x.pow d).polynomial =
      (cs.getD d zero).polynomial * x.polynomial ^ d := by
    intro d
    rw [polynomial_mul, polynomial_pow]
  change ∑ d ∈ Finset.range cs.length, (cs.getD d zero * x.pow d).polynomial = _
  exact Finset.sum_congr rfl fun d _ => hterm d

/-- Whatever expressions without the pivot are multiplied by their powers of it and
added up, collection of the sum gives these expressions back. -/
theorem collect_of_isSumOf (hlength : cs.length = n + 1)
    (hcs : ∀ c ∈ cs, c.IsConstructible ∧ p ∉ c.symbols)
    (he : IsSumOf (timesPowersOf (ofSymbol p) cs) e) :
    ∃ t, e.collect p n = .ok t ∧ t.coefficients = cs := by
  have hcanonical : e.IsCanonical :=
    he.isCanonical (isCanonical_of_mem_timesPowersOf (isCanonical_ofSymbol p)
      fun c hc => (hcs c hc).1.isCanonical)
  have hget : ∀ d < n + 1, cs[d]? = some (cs.getD d zero) := by
    intro d hd
    rw [List.getD_eq_getElem _ _ (hlength ▸ hd)]
    exact List.getElem?_eq_getElem (hlength ▸ hd)
  have hfree : ∀ d < n + 1,
      (cs.getD d zero).polynomial ∈ supported ℚ {s : Symbol | s ≠ p} := by
    intro d hd
    obtain ⟨hc, hp⟩ := hcs _ (List.mem_of_getElem? (hget d hd))
    exact hc.isCanonical.polynomial_mem_supported_of_notMem hp
  have hpolynomial : e.polynomial =
      ∑ d ∈ Finset.range (n + 1), (cs.getD d zero).polynomial * X p ^ d := by
    rw [he.polynomial_eq, sum_polynomial_timesPowersOf, hlength, polynomial_ofSymbol]
  obtain ⟨t, ht⟩ :=
    collect_of_degreeIn_le (hcanonical.degreeIn_le_of_polynomial_eq hfree hpolynomial)
  refine ⟨t, ht, List.ext_getElem? fun i => ?_⟩
  rcases Nat.lt_or_ge i (n + 1) with hi | hi
  · have hc := (hcs _ (List.mem_of_getElem? (hget i hi))).1.isCanonical
    rw [hget i hi]
    refine (get?_collect_eq_some_iff ht).mpr ⟨Nat.le_of_lt_succ hi, ?_⟩
    apply hc.eq_of_polynomial_eq (hcanonical.coefficientOfPower p i)
    rw [hcanonical.polynomial_coefficientOfPower_eq hfree hpolynomial hi]
  · have hsize : t.coefficients.length = n + 1 := size_of_collect ht
    rw [List.getElem?_eq_none (by omega), List.getElem?_eq_none (by omega)]

/-- A fraction, nothing and an expression of two symbols as coefficients of three powers. -/
theorem collect_of_isSumOf_three :
    let p : Symbol := ⟨"p"⟩
    let cs : List Expression :=
      [constant (2 / 3), zero, ⟨[(⟨[(⟨"a"⟩, 1), (⟨"z"⟩, 2)]⟩, -1), (⟨[(⟨"z"⟩, 1)]⟩, 5)]⟩]
    let e := (timesPowersOf (ofSymbol p) cs).foldl (· + ·) zero
    cs.length = 2 + 1 ∧ (∀ c ∈ cs, c.IsConstructible ∧ p ∉ c.symbols) ∧
      IsSumOf (timesPowersOf (ofSymbol p) cs) e ∧
        ∃ t, e.collect p 2 = .ok t ∧ t.coefficients = cs := by
  intro p cs e
  have hcanonical : ∀ c ∈ cs, c.IsCanonical := by decide +kernel
  have hsymbols : ∀ c ∈ cs, ∀ t ∈ c.terms, p ∉ t.1.symbols := by decide +kernel
  have hcs : ∀ c ∈ cs, c.IsConstructible ∧ p ∉ c.symbols := by
    intro c hc
    refine ⟨isConstructible_iff.mpr (hcanonical c hc), fun hp => ?_⟩
    obtain ⟨t, ht, hpt⟩ := mem_symbols_iff.mp hp
    exact hsymbols c hc t ht hpt
  have hsum := isSumOf_foldl (timesPowersOf (ofSymbol p) cs)
  exact ⟨rfl, hcs, hsum, collect_of_isSumOf rfl hcs hsum⟩

end Expression

end PivotCoefficients
