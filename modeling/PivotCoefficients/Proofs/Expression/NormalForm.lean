import PivotCoefficients.Proofs.Construction.Canonical

/-!
# The normal form of a list of terms

A list of terms, in any order and with repeats, has one normal form: each monomial
with the sum of its coefficients, unless that is zero, and the greatest monomial
first. Expanding the list gives this form, and so do the operations that skip part of
the work. A sum merges two lists that are sorted already, and a product hands on the
entries of an accumulator, which come in no particular order.
-/
namespace PivotCoefficients.Expression

open FormalSum

variable {a b e f : Expression} {ts us : List Term}

def listedSum (m : Monomial) (ts : List Term) : ℚ :=
  ((ts.filter (fun t => t.1 = m)).map Prod.snd).sum

/-- The terms of `e` are those of the list, each monomial once with the sum of its
coefficients and those left out that cancel. -/
structure IsNormalFormOf (ts : List Term) (e : Expression) : Prop where
  descending : e.terms.Pairwise (fun s t => compare s.1 t.1 = .gt)
  coefficient_eq : ∀ m, e.coefficient m = listedSum m ts
  mem_terms_iff : ∀ m c, (m, c) ∈ e.terms ↔ c ≠ 0 ∧ listedSum m ts = c

theorem amount_eq_listedSum (m : Monomial) (ts : List Term) : amount m ts = listedSum m ts :=
  amount_eq_sum m ts

/-- Descending terms without zero coefficients are the normal form of every list with
the same sums. -/
theorem isNormalFormOf_of_amount_eq
    (hdescending : e.terms.Pairwise (fun s t => compare s.1 t.1 = .gt))
    (hne : ∀ t ∈ e.terms, t.2 ≠ 0) (h : ∀ m, amount m e.terms = amount m ts) :
    IsNormalFormOf ts e where
  descending := hdescending
  coefficient_eq m := (h m).trans (amount_eq_listedSum m ts)
  mem_terms_iff m c := by
    rw [← amount_eq_listedSum, ← h]
    exact (isSorted_iff_descending.mpr hdescending).hasDistinctKeys.mem_iff hne m c

theorem IsNormalFormOf.unique (he : IsNormalFormOf ts e) (hf : IsNormalFormOf ts f) : e = f := by
  have hterms : e.terms = f.terms := by
    apply (isSorted_iff_descending.mpr he.descending).eq_of_amount_eq
      (isSorted_iff_descending.mpr hf.descending)
    · exact fun t ht => ((he.mem_terms_iff t.1 t.2).mp ht).1
    · exact fun t ht => ((hf.mem_terms_iff t.1 t.2).mp ht).1
    · exact fun m => (he.coefficient_eq m).trans (hf.coefficient_eq m).symm
  cases e
  cases f
  exact congrArg Expression.mk hterms

theorem isNormalFormOf_ofTerms_of_amount_eq (h : ∀ m, amount m us = amount m ts) :
    IsNormalFormOf ts (ofTerms us) := by
  apply isNormalFormOf_of_amount_eq
  · have hsorted := @isSorted_gather_mergeSort _ _ _ _ (fun m n : Monomial => compare n m) _ _ us
    exact isSorted_iff_descending.mp (hsorted.filter _)
  · exact fun t ht => of_decide_eq_true (List.mem_filter.mp ht).2
  · exact fun m => (amount_eq_of_amounts_eq (total_ofTerms _ us) m).trans (h m)

theorem isNormalFormOf_ofTerms (ts : List Term) : IsNormalFormOf ts (ofTerms ts) :=
  isNormalFormOf_ofTerms_of_amount_eq fun _ => rfl

theorem ofTerms_perm (h : ts.Perm us) : ofTerms ts = ofTerms us :=
  (isNormalFormOf_ofTerms_of_amount_eq fun _ =>
    amount_eq_of_amounts_eq (total_perm _ h) _).unique (isNormalFormOf_ofTerms us)

/-- Merging the terms of two expressions gives the normal form of both lists in a row. -/
theorem IsCanonical.isNormalFormOf_add (ha : a.IsCanonical) (hb : b.IsCanonical) :
    IsNormalFormOf (a.terms ++ b.terms) (a + b) := by
  have hsum := ha.add hb
  refine isNormalFormOf_of_amount_eq hsum.1 (fun t ht => (hsum.2 t ht).2) fun m => ?_
  apply amount_eq_of_amounts_eq
  rw [amounts, amounts, total_add, total_append]

/-- Adding products up by monomial before sorting them gives the normal form of all
products. -/
theorem isNormalFormOf_mul (a b : Expression) : IsNormalFormOf (a.products b) (a * b) :=
  isNormalFormOf_ofTerms_of_amount_eq (amount_accumulate _)

/-- The expansion of a list of terms is its normal form, whatever the order of the list,
and leaves the terms of a constructed expression as they are. Sums and products are
the normal forms of all terms in a row and of all products of two terms, whatever the
order in which the accumulator lists its entries. -/
theorem ofTerms_normalizes :
    (∀ ts, IsNormalFormOf ts (ofTerms ts)) ∧
    (∀ ts us : List Term, ts.Perm us → ofTerms ts = ofTerms us) ∧
    (∀ e, e.IsConstructible → ofTerms e.terms = e) ∧
    ∀ a b, a.IsConstructible → b.IsConstructible →
      a + b = ofTerms (a.terms ++ b.terms) ∧ a * b = ofTerms (a.products b) ∧
      ∀ entries, entries.Perm (accumulate (a.products b)).toList →
        ofTerms entries = ofTerms (a.products b) := by
  refine ⟨isNormalFormOf_ofTerms, fun _ _ => ofTerms_perm,
    fun e he => he.isCanonical.ofTerms_terms, fun a b ha hb => ?_⟩
  have hadd := ha.isCanonical.isNormalFormOf_add hb.isCanonical
  have hmul : a * b = ofTerms (a.products b) :=
    (isNormalFormOf_mul a b).unique (isNormalFormOf_ofTerms _)
  refine ⟨hadd.unique (isNormalFormOf_ofTerms _), hmul, fun entries h => ?_⟩
  rw [ofTerms_perm h, ← hmul, mul_eq]

/-- Repeats that cancel, a coefficient zero, and products of which two cancel in the
accumulator, whose entries are taken in the opposite order. -/
theorem ofTerms_normalizes_cancelling :
    let x : Monomial := .var ⟨"x"⟩
    let y : Monomial := .var ⟨"y"⟩
    let ts : List Term := [(y, 2), (x, 1), (.one, 0), (y, -2), (x, 1 / 2)]
    let a : Expression := ⟨[(x, 1), (y, 1)]⟩
    let b : Expression := ⟨[(x, 1), (y, -1)]⟩
    a.IsConstructible ∧ b.IsConstructible ∧ IsNormalFormOf ts (ofTerms ts) ∧
      ofTerms ts = ofTerms ts.reverse ∧ ofTerms a.terms = a ∧
      a + b = ofTerms (a.terms ++ b.terms) ∧ a * b = ofTerms (a.products b) ∧
      ofTerms (accumulate (a.products b)).toList.reverse = ofTerms (a.products b) := by
  intro x y ts a b
  have ha : a.IsConstructible := isConstructible_iff.mpr (by decide +kernel)
  have hb : b.IsConstructible := isConstructible_iff.mpr (by decide +kernel)
  obtain ⟨hform, hperm, hterms, harithmetic⟩ := ofTerms_normalizes
  obtain ⟨hadd, hmul, hentries⟩ := harithmetic a b ha hb
  exact ⟨ha, hb, hform ts, hperm ts _ ts.reverse_perm.symm, hterms a ha, hadd, hmul,
    hentries _ (List.reverse_perm _)⟩

end PivotCoefficients.Expression
