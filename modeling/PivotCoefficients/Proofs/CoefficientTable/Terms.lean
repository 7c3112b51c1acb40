import PivotCoefficients.Proofs.Construction.Canonical
import PivotCoefficients.Proofs.Monomial.Lexicographic

/-!
# Terms of the coefficients

The terms that have one exponent of the pivot keep their order when the pivot is
taken out, and no two of them become alike. So they are a canonical expression as
they stand, and sorting and gathering leave them as they are: each term of an
expression is found again in exactly one coefficient.
-/
namespace PivotCoefficients.Expression

variable {e : Expression} {p : Symbol} {n : ℕ} {t : CoefficientTable}

/-- The terms with that exponent of the pivot, in their order and taken without the pivot. -/
def termsOfPower (e : Expression) (pivot : Symbol) (degree : ℕ) : List Term :=
  (e.terms.filter (fun t => t.1.exponent pivot = degree)).map (fun t => (t.1.without pivot, t.2))

namespace IsCanonical

theorem termsOfPower (he : e.IsCanonical) (p : Symbol) (d : ℕ) :
    (⟨e.termsOfPower p d⟩ : Expression).IsCanonical := by
  constructor
  · refine List.pairwise_map.mpr (List.Pairwise.imp_of_mem ?_ (he.1.filter _))
    intro a b ha hb hab
    obtain ⟨ha, had⟩ := List.mem_filter.mp ha
    obtain ⟨hb, hbd⟩ := List.mem_filter.mp hb
    have hexponent : b.1.exponent p = a.1.exponent p :=
      (of_decide_eq_true hbd).trans (of_decide_eq_true had).symm
    rw [Std.OrientedCmp.gt_iff_lt] at hab ⊢
    exact Monomial.compare_without_of_lt (he.monomial_of_mem hb) (he.monomial_of_mem ha)
      hexponent hab
  · intro u hu
    obtain ⟨v, hv, rfl⟩ := List.mem_map.mp hu
    have hv := (List.mem_filter.mp hv).1
    exact ⟨(he.monomial_of_mem hv).without p, (he.2 v hv).2⟩

theorem terms_coefficientOfPower (he : e.IsCanonical) (p : Symbol) (d : ℕ) :
    (e.coefficientOfPower p d).terms = e.termsOfPower p d :=
  congrArg Expression.terms (he.termsOfPower p d).ofTerms_terms

theorem map_mul_termsOfPower (he : e.IsCanonical) (p : Symbol) (d : ℕ) :
    (e.termsOfPower p d).map (fun u => (u.1 * Monomial.ofFactors [(p, d)], u.2)) =
      e.terms.filter (fun u => u.1.exponent p = d) := by
  rw [Expression.termsOfPower, List.map_map]
  calc
    _ = (e.terms.filter (fun u => u.1.exponent p = d)).map id := by
      apply List.map_congr_left
      intro u hu
      obtain ⟨hmem, hd⟩ := List.mem_filter.mp hu
      obtain rfl := of_decide_eq_true hd
      exact Prod.ext ((he.monomial_of_mem hmem).without_mul_ofFactors p) rfl
    _ = _ := List.map_id _

theorem mem_of_mem_coefficientOfPower (he : e.IsCanonical) {d : ℕ} {u : Term}
    (hu : u ∈ (e.coefficientOfPower p d).terms) :
    (u.1 * Monomial.ofFactors [(p, d)], u.2) ∈ e.terms := by
  rw [he.terms_coefficientOfPower] at hu
  have hmap := List.mem_map_of_mem (f := fun u => (u.1 * Monomial.ofFactors [(p, d)], u.2)) hu
  rw [he.map_mul_termsOfPower] at hmap
  exact (List.mem_filter.mp hmap).1

theorem sum_size_of_collect (he : e.IsCanonical) (h : e.collect p n = .ok t) :
    (t.coefficients.map size).sum = e.size := by
  obtain ⟨hdegree, -, hlist⟩ := collect_eq_ok h
  have hsize : ∀ d, (e.coefficientOfPower p d).size =
      (e.terms.filter (fun u => u.1.exponent p = d)).length := by
    intro d
    rw [size, he.terms_coefficientOfPower, Expression.termsOfPower, List.length_map]
  have hperm := perm_flatMap_filter_exponent (degreeIn_le_iff.mp hdegree)
  rw [hlist, List.map_map, size, ← hperm.length_eq, List.length_flatMap]
  congr 1
  exact List.map_congr_left fun d _ => hsize d

end IsCanonical

end PivotCoefficients.Expression
