import PivotCoefficients.FormalSum.Order
import PivotCoefficients.Monomial

/-!
# The order of monomials and their canonical form

Monomials are totally ordered. Every operation on them gives its factors in
ascending order, each symbol once and no exponent zero, whenever its arguments
have that form.
-/
namespace PivotCoefficients.Monomial

instance : Std.TransCmp compareFactor where
  eq_swap {a b} := by
    rw [compareFactor, compareFactor, Ordering.swap_then, ← Std.OrientedOrd.eq_swap,
      ← Std.OrientedOrd.eq_swap]
  isLE_trans {a b c} hab hbc := by
    rw [compareFactor, Ordering.isLE_then_iff_or] at *
    rcases hab with hab | ⟨hab, hab'⟩ <;> rcases hbc with hbc | ⟨hbc, hbc'⟩
    · exact Or.inl (Std.TransCmp.lt_trans hbc hab)
    · exact Or.inl (Std.LawfulEqOrd.eq_of_compare hbc ▸ hab)
    · exact Or.inl (Std.LawfulEqOrd.eq_of_compare hab ▸ hbc)
    · exact Or.inr ⟨Std.LawfulEqOrd.eq_of_compare hab ▸ hbc, Std.TransOrd.isLE_trans hab' hbc'⟩

instance : Std.LawfulEqCmp compareFactor where
  compare_self {a} := by simp [compareFactor]
  eq_of_compare {a b} h := by
    rw [compareFactor, Ordering.then_eq_eq] at h
    exact Prod.ext (Std.LawfulEqOrd.eq_of_compare h.1).symm (Std.LawfulEqOrd.eq_of_compare h.2)

instance : Std.TransOrd Monomial where
  eq_swap {m n} := by
    rw [compare_eq, compare_eq]
    exact Std.OrientedCmp.eq_swap
  isLE_trans {m n k} := by
    rw [compare_eq, compare_eq, compare_eq]
    exact Std.TransCmp.isLE_trans

instance : Std.LawfulEqOrd Monomial where
  compare_self {m} := by
    rw [compare_eq]
    exact Std.ReflCmp.compare_self
  eq_of_compare {m n} h := by
    rw [compare_eq] at h
    exact congrArg Monomial.mk (Std.LawfulEqCmp.eq_of_compare h)

theorem isLE_compare_one (m : Monomial) : (compare one m).isLE := by
  rw [compare_eq]
  cases hm : m.factors with
  | nil => rfl
  | cons f fs => rfl

theorem forall_pos_gatherFrom {s : Symbol} {d : Nat} {fs : List (Symbol × Nat)} (hd : 0 < d)
    (h : ∀ f ∈ fs, 0 < f.2) : ∀ f ∈ FormalSum.gatherFrom s d fs, 0 < f.2 := by
  induction fs generalizing s d with
  | nil => simpa [FormalSum.gatherFrom] using hd
  | cons f fs ih =>
    obtain ⟨t, e⟩ := f
    have h' := List.forall_mem_cons.mp h
    by_cases hst : t = s
    · rw [FormalSum.gatherFrom, if_pos hst]
      exact ih (Nat.add_pos_left hd e) h'.2
    · rw [FormalSum.gatherFrom, if_neg hst]
      exact List.forall_mem_cons.mpr ⟨hd, ih h'.1 h'.2⟩

theorem forall_pos_gather {fs : List (Symbol × Nat)} (h : ∀ f ∈ fs, 0 < f.2) :
    ∀ f ∈ FormalSum.gather fs, 0 < f.2 := by
  cases fs with
  | nil => simp
  | cons f fs =>
    have h' := List.forall_mem_cons.mp h
    exact forall_pos_gatherFrom h'.1 h'.2

theorem isCanonical_ofFactors (fs : List (Symbol × Nat)) : (ofFactors fs).IsCanonical := by
  refine ⟨FormalSum.isSorted_gather_mergeSort _, forall_pos_gather ?_⟩
  intro f hf
  rw [List.mem_mergeSort, List.mem_filter] at hf
  exact of_decide_eq_true hf.2

theorem forall_pos_merge {fs gs : List (Symbol × Nat)} (hf : ∀ f ∈ fs, 0 < f.2)
    (hg : ∀ g ∈ gs, 0 < g.2) :
    ∀ f ∈ FormalSum.merge compare (fun d e => some (d + e)) fs gs, 0 < f.2 := by
  fun_induction FormalSum.merge compare (fun d e => some (d + e)) fs gs with
  | case1 gs => exact hg
  | case2 fs => exact hf
  | case3 s d fs t e gs h ih =>
    have hf' := List.forall_mem_cons.mp hf
    exact List.forall_mem_cons.mpr ⟨hf'.1, ih hf'.2 hg⟩
  | case4 s d fs t e gs h ih =>
    have hg' := List.forall_mem_cons.mp hg
    exact List.forall_mem_cons.mpr ⟨hg'.1, ih hf hg'.2⟩
  | case5 s d fs t e gs h c hc ih =>
    have hf' := List.forall_mem_cons.mp hf
    have hg' := List.forall_mem_cons.mp hg
    obtain rfl := Option.some.inj hc
    exact List.forall_mem_cons.mpr ⟨Nat.add_pos_left hf'.1 e, ih hf'.2 hg'.2⟩
  | case6 s d fs t e gs h hc ih => exact absurd hc (Option.some_ne_none _)

theorem IsCanonical.mul {m n : Monomial} (hm : m.IsCanonical) (hn : n.IsCanonical) :
    (m * n).IsCanonical :=
  ⟨FormalSum.isSorted_merge _ hm.1 hn.1, forall_pos_merge hm.2 hn.2⟩

theorem IsCanonical.without {m : Monomial} (hm : m.IsCanonical) (s : Symbol) :
    (m.without s).IsCanonical :=
  ⟨hm.1.filter _, fun f hf => hm.2 f (List.mem_filter.mp hf).1⟩

end PivotCoefficients.Monomial
