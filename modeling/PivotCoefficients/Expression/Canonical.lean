import PivotCoefficients.CoefficientTable
import PivotCoefficients.Expression.Evaluation
import PivotCoefficients.Monomial.Order

/-!
# The canonical form of expressions

Every operation gives its terms in strictly descending order, with canonical
monomials and without zero coefficients, whenever its arguments have that form.
Sums, negations and multiples rely on the order of their arguments; products
and substitutions sort anew.
-/
namespace PivotCoefficients.Expression

theorem isSorted_iff_descending {ts : List Term} :
    FormalSum.IsSorted (fun m n => compare n m) ts ↔
      ts.Pairwise (fun s t => compare s.1 t.1 = .gt) := by
  simp only [FormalSum.IsSorted, Std.OrientedCmp.gt_iff_lt]

theorem isCanonical_iff {e : Expression} :
    e.IsCanonical ↔ FormalSum.IsSorted (fun m n => compare n m) e.terms ∧
      ∀ t ∈ e.terms, t.1.IsCanonical ∧ t.2 ≠ 0 := by
  rw [IsCanonical, isSorted_iff_descending]

theorem isCanonical_ofMonomial {m : Monomial} (hm : m.IsCanonical) :
    (ofMonomial m).IsCanonical := by
  simp [IsCanonical, ofMonomial, hm]

theorem isCanonical_ofSymbol (s : Symbol) : (ofSymbol s).IsCanonical :=
  isCanonical_ofMonomial (Monomial.isCanonical_var s)

theorem isCanonical_one : one.IsCanonical := isCanonical_constant 1

theorem forall_key_gather {ts : List Term} (P : Monomial → Prop) (h : ∀ t ∈ ts, P t.1) :
    ∀ t ∈ FormalSum.gather ts, P t.1 := by
  cases ts with
  | nil => simp
  | cons t ts =>
    have h' := List.forall_mem_cons.mp h
    exact FormalSum.forall_key_gatherFrom P h'.1 h'.2

theorem forall_key_ofTerms {ts : List Term} (P : Monomial → Prop) (h : ∀ t ∈ ts, P t.1) :
    ∀ t ∈ (ofTerms ts).terms, P t.1 := by
  intro t ht
  have hgather : ∀ t ∈ FormalSum.gather (ts.mergeSort (fun a b => (compare b.1 a.1).isLE)), P t.1 :=
    forall_key_gather P (fun u hu => h u (List.mem_mergeSort.mp hu))
  exact hgather t (List.mem_filter.mp ht).1

theorem isCanonical_ofTerms {ts : List Term} (h : ∀ t ∈ ts, t.1.IsCanonical) :
    (ofTerms ts).IsCanonical := by
  have hsort := @FormalSum.isSorted_gather_mergeSort _ _ _ _
    (fun m n : Monomial => compare n m) _ _ ts
  refine isCanonical_iff.mpr ⟨hsort.filter _, ?_⟩
  intro t ht
  exact ⟨forall_key_ofTerms _ h t ht, of_decide_eq_true (List.mem_filter.mp ht).2⟩

theorem addCoefficients_ne_zero {c d x : Rat} (h : addCoefficients c d = some x) : x ≠ 0 := by
  rw [addCoefficients] at h
  split at h
  · exact absurd h.symm (Option.some_ne_none _)
  · next hne => exact Option.some.inj h ▸ hne

theorem forall_ne_zero_merge {cmp : Monomial → Monomial → Ordering} {p q : List Term}
    (hp : ∀ t ∈ p, t.2 ≠ 0) (hq : ∀ t ∈ q, t.2 ≠ 0) :
    ∀ t ∈ FormalSum.merge cmp addCoefficients p q, t.2 ≠ 0 := by
  fun_induction FormalSum.merge cmp addCoefficients p q with
  | case1 q => exact hq
  | case2 p => exact hp
  | case3 m c p n d q h ih =>
    have hp' := List.forall_mem_cons.mp hp
    exact List.forall_mem_cons.mpr ⟨hp'.1, ih hp'.2 hq⟩
  | case4 m c p n d q h ih =>
    have hq' := List.forall_mem_cons.mp hq
    exact List.forall_mem_cons.mpr ⟨hq'.1, ih hp hq'.2⟩
  | case5 m c p n d q h x hx ih =>
    refine List.forall_mem_cons.mpr ⟨addCoefficients_ne_zero hx, ?_⟩
    exact ih (List.forall_mem_cons.mp hp).2 (List.forall_mem_cons.mp hq).2
  | case6 m c p n d q h hx ih =>
    exact ih (List.forall_mem_cons.mp hp).2 (List.forall_mem_cons.mp hq).2

theorem IsCanonical.add {a b : Expression} (ha : a.IsCanonical) (hb : b.IsCanonical) :
    (a + b).IsCanonical := by
  have ha' := isCanonical_iff.mp ha
  have hb' := isCanonical_iff.mp hb
  refine isCanonical_iff.mpr ⟨FormalSum.isSorted_merge _ ha'.1 hb'.1, ?_⟩
  intro t ht
  refine ⟨?_, ?_⟩
  · exact FormalSum.forall_key_merge Monomial.IsCanonical _ _
      (fun u hu => (ha.2 u hu).1) (fun u hu => (hb.2 u hu).1) t ht
  · exact forall_ne_zero_merge (fun u hu => (ha.2 u hu).2) (fun u hu => (hb.2 u hu).2) t ht

theorem IsCanonical.neg {a : Expression} (ha : a.IsCanonical) : (-a).IsCanonical := by
  refine ⟨List.pairwise_map.mpr ha.1, ?_⟩
  intro t ht
  obtain ⟨u, hu, rfl⟩ := List.mem_map.mp ht
  refine ⟨(ha.2 u hu).1, fun h => (ha.2 u hu).2 ?_⟩
  rw [← Rat.neg_neg u.2, show -u.2 = 0 from h]
  rfl

theorem IsCanonical.sub {a b : Expression} (ha : a.IsCanonical) (hb : b.IsCanonical) :
    (a - b).IsCanonical :=
  ha.add hb.neg

theorem IsCanonical.scale {a : Expression} (ha : a.IsCanonical) (k : Rat) :
    (a.scale k).IsCanonical := by
  by_cases hk : k = 0
  · simp [hk, isCanonical_zero]
  · rw [Expression.scale, if_neg hk]
    refine ⟨List.pairwise_map.mpr ha.1, ?_⟩
    intro t ht
    obtain ⟨u, hu, rfl⟩ := List.mem_map.mp ht
    refine ⟨(ha.2 u hu).1, fun h => ?_⟩
    rcases Rat.mul_eq_zero.mp h with h | h
    · exact (ha.2 u hu).2 h
    · exact hk h

/-- The accumulator holds no monomial but those it was given. -/
theorem forall_key_accumulate {ts : List Term} (P : Monomial → Prop) (h : ∀ t ∈ ts, P t.1) :
    ∀ t ∈ (accumulate ts).toList, P t.1 := by
  suffices hfold : ∀ acc : Std.HashMap Monomial Rat, (∀ m ∈ acc, P m) →
      ∀ m ∈ ts.foldl (fun acc t => acc.alter t.1 (fun c => some (c.getD 0 + t.2))) acc, P m by
    intro t ht
    have hmem : t.1 ∈ accumulate ts := by
      rw [Std.HashMap.mem_iff_isSome_getElem?, Std.HashMap.mem_toList_iff_getElem?_eq_some.mp ht]
      rfl
    exact hfold ∅ (by simp) t.1 hmem
  induction ts with
  | nil => exact fun acc hacc => hacc
  | cons t ts ih =>
    have h' := List.forall_mem_cons.mp h
    intro acc hacc
    refine ih h'.2 _ ?_
    intro m hm
    rw [Std.HashMap.mem_alter] at hm
    by_cases hmt : t.1 == m
    · exact eq_of_beq hmt ▸ h'.1
    · rw [if_neg hmt] at hm
      exact hacc m hm

theorem IsCanonical.mul {a b : Expression} (ha : a.IsCanonical) (hb : b.IsCanonical) :
    (a * b).IsCanonical := by
  refine isCanonical_ofTerms (forall_key_accumulate Monomial.IsCanonical ?_)
  intro t ht
  obtain ⟨u, hu, ht⟩ := List.mem_flatMap.mp ht
  obtain ⟨v, hv, rfl⟩ := List.mem_map.mp ht
  exact (ha.2 u hu).1.mul (hb.2 v hv).1

theorem IsCanonical.pow {a : Expression} (ha : a.IsCanonical) (n : Nat) :
    (a.pow n).IsCanonical :=
  PowerState.run_of_forall_mul IsCanonical.mul isCanonical_one ha

theorem IsCanonical.substitute {e v : Expression} (he : e.IsCanonical) (hv : v.IsCanonical)
    (s : Symbol) : (e.substitute s v).IsCanonical := by
  rw [substitute_eq]
  refine isCanonical_ofTerms ?_
  intro t ht
  obtain ⟨u, hu, ht⟩ := List.mem_flatMap.mp ht
  rw [substituteTerm] at ht
  split at ht
  · obtain rfl := List.mem_singleton.mp ht
    exact (he.2 t hu).1
  · obtain ⟨w, hw, rfl⟩ := List.mem_map.mp ht
    have hpower : ∀ n, (repeatedProduct one v n).IsCanonical :=
      repeatedProduct_of_forall_mul IsCanonical.mul isCanonical_one hv
    exact ((he.2 u hu).1.without s).mul ((hpower _).2 w hw).1

theorem IsCanonical.coefficientOfPower {e : Expression} (he : e.IsCanonical) (p : Symbol)
    (d : Nat) : (e.coefficientOfPower p d).IsCanonical := by
  refine isCanonical_ofTerms ?_
  intro t ht
  obtain ⟨u, hu, rfl⟩ := List.mem_map.mp ht
  exact (he.2 u (List.mem_filter.mp hu).1).1.without p

end PivotCoefficients.Expression
