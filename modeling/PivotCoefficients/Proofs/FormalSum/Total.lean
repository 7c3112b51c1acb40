import Mathlib.Algebra.BigOperators.Group.List.Basic
import Mathlib.Algebra.Group.Hom.Basic
import PivotCoefficients.FormalSum.Order

/-!
# Totals of formal sums

A weight turns the amount of each key into an element of some monoid, and does
so additively. The total of a formal sum adds the weighted amounts up. Sorting,
gathering, merging and dropping zero amounts leave every total as it is.
-/
namespace PivotCoefficients.FormalSum

universe u v w

variable {κ : Type u} {α : Type v} {M : Type w} [AddCommMonoid α] [AddCommMonoid M]

/-- The sum of all amounts, each weighted by its key. -/
def total (f : κ → α →+ M) (p : List (κ × α)) : M :=
  (p.map (fun t => f t.1 t.2)).sum

variable (f : κ → α →+ M)

@[simp] theorem total_nil : total f [] = 0 := rfl

@[simp] theorem total_cons (k : κ) (a : α) (p : List (κ × α)) :
    total f ((k, a) :: p) = f k a + total f p := by
  simp [total]

@[simp] theorem total_append (p q : List (κ × α)) :
    total f (p ++ q) = total f p + total f q := by
  simp [total]

theorem total_perm {p q : List (κ × α)} (h : p.Perm q) : total f p = total f q :=
  (h.map _).sum_eq

theorem map_total {N : Type*} [AddCommMonoid N] (g : M →+ N) (p : List (κ × α)) :
    g (total f p) = total (fun k => g.comp (f k)) p := by
  rw [total, map_list_sum, List.map_map]
  rfl

theorem total_flatMap {β : Type*} (g : β → List (κ × α)) (l : List β) :
    total f (l.flatMap g) = (l.map (fun b => total f (g b))).sum := by
  induction l with
  | nil => rfl
  | cons b l ih => simp [ih]

theorem total_gatherFrom [DecidableEq κ] (k : κ) (a : α) (p : List (κ × α)) :
    total f (gatherFrom k a p) = f k a + total f p := by
  induction p generalizing k a with
  | nil => simp [gatherFrom]
  | cons t p ih =>
    obtain ⟨l, b⟩ := t
    by_cases h : l = k
    · rw [gatherFrom, if_pos h, ih, map_add, total_cons, h, add_assoc]
    · rw [gatherFrom, if_neg h, total_cons, ih, total_cons]

theorem total_gather [DecidableEq κ] (p : List (κ × α)) : total f (gather p) = total f p := by
  cases p with
  | nil => rfl
  | cons t p => exact total_gatherFrom f t.1 t.2 p

theorem total_filter {P : κ × α → Bool} (h : ∀ t, t.2 ≠ 0 → P t) (p : List (κ × α)) :
    total f (p.filter P) = total f p := by
  induction p with
  | nil => rfl
  | cons t p ih =>
    obtain ⟨k, a⟩ := t
    by_cases hP : P (k, a)
    · rw [List.filter_cons_of_pos hP, total_cons, ih, total_cons]
    · have ha : a = 0 := by
        by_contra ha
        exact hP (h (k, a) ha)
      rw [List.filter_cons_of_neg hP, ih, total_cons, ha, map_zero, zero_add]

/-- Of the keys that are kept the weights stay, of the others none. -/
theorem total_filter_key (P : κ → Prop) [DecidablePred P] (p : List (κ × α)) :
    total f (p.filter (fun t => P t.1)) = total (fun k => if P k then f k else 0) p := by
  induction p with
  | nil => rfl
  | cons t p ih =>
    obtain ⟨k, a⟩ := t
    by_cases h : P k
    · rw [List.filter_cons_of_pos (by simpa using h), total_cons, ih, total_cons, if_pos h]
    · rw [List.filter_cons_of_neg (by simpa using h), ih, total_cons, if_neg h]
      simp

theorem total_gather_mergeSort [DecidableEq κ] (le : κ × α → κ × α → Bool)
    (p : List (κ × α)) : total f (gather (p.mergeSort le)) = total f p := by
  rw [total_gather, total_perm f (List.mergeSort_perm p le)]

/-- A merge has the total of both sums, when `join` weighs as much as what it joins. -/
theorem total_merge {cmp : κ → κ → Ordering} [Std.LawfulEqCmp cmp] {join : α → α → Option α}
    (hjoin : ∀ k a b, ((join a b).elim 0 (f k)) = f k a + f k b) (p q : List (κ × α)) :
    total f (merge cmp join p q) = total f p + total f q := by
  fun_induction merge cmp join p q with
  | case1 q => simp
  | case2 p => simp
  | case3 k a p l b q h ih =>
    rw [total_cons, ih, total_cons f k, add_assoc]
  | case4 k a p l b q h ih =>
    rw [total_cons, ih, total_cons f l, add_left_comm]
  | case5 k a p l b q h c hc ih =>
    have hkl : k = l := Std.LawfulEqCmp.eq_of_compare h
    have hw : f k c = f k a + f k b := by simpa [hc] using hjoin k a b
    rw [total_cons, ih, total_cons, total_cons, ← hkl, hw]
    exact add_add_add_comm _ _ _ _
  | case6 k a p l b q h hc ih =>
    have hkl : k = l := Std.LawfulEqCmp.eq_of_compare h
    have hw : f k a + f k b = 0 := by simpa [hc] using (hjoin k a b).symm
    rw [ih, total_cons, total_cons, ← hkl, add_add_add_comm, hw, zero_add]

end PivotCoefficients.FormalSum
