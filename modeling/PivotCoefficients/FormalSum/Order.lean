import PivotCoefficients.FormalSum

/-!
# Sorted formal sums

`merge` keeps two sums sorted, and `gather` makes a weakly sorted sum strictly
sorted. Neither brings in a key that was not there.
-/
namespace PivotCoefficients.FormalSum

universe u v

variable {κ : Type u} {α : Type v}

def IsSorted (cmp : κ → κ → Ordering) (p : List (κ × α)) : Prop :=
  p.Pairwise (fun a b => cmp a.1 b.1 = .lt)

theorem forall_key_merge (P : κ → Prop) (cmp : κ → κ → Ordering) (join : α → α → Option α)
    {p q : List (κ × α)} (hp : ∀ t ∈ p, P t.1) (hq : ∀ t ∈ q, P t.1) :
    ∀ t ∈ merge cmp join p q, P t.1 := by
  fun_induction merge cmp join p q with
  | case1 q => exact hq
  | case2 p => exact hp
  | case3 k a p l b q h ih =>
    have hp' := List.forall_mem_cons.mp hp
    exact List.forall_mem_cons.mpr ⟨hp'.1, ih hp'.2 hq⟩
  | case4 k a p l b q h ih =>
    have hq' := List.forall_mem_cons.mp hq
    exact List.forall_mem_cons.mpr ⟨hq'.1, ih hp hq'.2⟩
  | case5 k a p l b q h c hc ih =>
    have hp' := List.forall_mem_cons.mp hp
    have hq' := List.forall_mem_cons.mp hq
    exact List.forall_mem_cons.mpr ⟨hp'.1, ih hp'.2 hq'.2⟩
  | case6 k a p l b q h hc ih =>
    exact ih (List.forall_mem_cons.mp hp).2 (List.forall_mem_cons.mp hq).2

theorem isSorted_merge {cmp : κ → κ → Ordering} [Std.TransCmp cmp] [Std.LawfulEqCmp cmp]
    (join : α → α → Option α) {p q : List (κ × α)} (hp : IsSorted cmp p) (hq : IsSorted cmp q) :
    IsSorted cmp (merge cmp join p q) := by
  fun_induction merge cmp join p q with
  | case1 q => exact hq
  | case2 p => exact hp
  | case3 k a p l b q h ih =>
    have hp' := List.pairwise_cons.mp hp
    have hq' := List.pairwise_cons.mp hq
    refine List.pairwise_cons.mpr ⟨?_, ih hp'.2 hq⟩
    refine forall_key_merge (cmp k · = .lt) cmp join hp'.1 (List.forall_mem_cons.mpr ⟨h, ?_⟩)
    exact fun t ht => Std.TransCmp.lt_trans h (hq'.1 t ht)
  | case4 k a p l b q h ih =>
    have hp' := List.pairwise_cons.mp hp
    have hq' := List.pairwise_cons.mp hq
    have hlk : cmp l k = .lt := Std.OrientedCmp.lt_of_gt h
    refine List.pairwise_cons.mpr ⟨?_, ih hp hq'.2⟩
    refine forall_key_merge (cmp l · = .lt) cmp join (List.forall_mem_cons.mpr ⟨hlk, ?_⟩) hq'.1
    exact fun t ht => Std.TransCmp.lt_trans hlk (hp'.1 t ht)
  | case5 k a p l b q h c hc ih =>
    have hp' := List.pairwise_cons.mp hp
    have hq' := List.pairwise_cons.mp hq
    have hkl : k = l := Std.LawfulEqCmp.eq_of_compare h
    refine List.pairwise_cons.mpr ⟨?_, ih hp'.2 hq'.2⟩
    exact forall_key_merge (cmp k · = .lt) cmp join hp'.1 (hkl ▸ hq'.1)
  | case6 k a p l b q h hc ih =>
    exact ih (List.pairwise_cons.mp hp).2 (List.pairwise_cons.mp hq).2

theorem forall_key_gatherFrom [DecidableEq κ] [Add α] (P : κ → Prop) {k : κ} {a : α}
    {p : List (κ × α)} (hk : P k) (hp : ∀ t ∈ p, P t.1) : ∀ t ∈ gatherFrom k a p, P t.1 := by
  induction p generalizing k a with
  | nil => simpa [gatherFrom] using hk
  | cons t p ih =>
    obtain ⟨l, b⟩ := t
    have hp' := List.forall_mem_cons.mp hp
    by_cases h : l = k
    · rw [gatherFrom, if_pos h]
      exact ih hk hp'.2
    · rw [gatherFrom, if_neg h]
      exact List.forall_mem_cons.mpr ⟨hk, ih hp'.1 hp'.2⟩

theorem isSorted_gatherFrom [DecidableEq κ] [Add α] {cmp : κ → κ → Ordering} [Std.TransCmp cmp]
    [Std.LawfulEqCmp cmp] {k : κ} {a : α} {p : List (κ × α)} (hk : ∀ t ∈ p, (cmp k t.1).isLE)
    (hp : p.Pairwise (fun s t => (cmp s.1 t.1).isLE)) : IsSorted cmp (gatherFrom k a p) := by
  induction p generalizing k a with
  | nil => simp [gatherFrom, IsSorted]
  | cons t p ih =>
    obtain ⟨l, b⟩ := t
    have hk' := List.forall_mem_cons.mp hk
    have hp' := List.pairwise_cons.mp hp
    by_cases h : l = k
    · rw [gatherFrom, if_pos h]
      exact ih hk'.2 hp'.2
    · rw [gatherFrom, if_neg h]
      have hkl : cmp k l = .lt := by
        cases hc : cmp k l with
        | lt => rfl
        | eq => exact absurd (Std.LawfulEqCmp.eq_of_compare hc).symm h
        | gt => simp [hc] at hk'
      refine List.pairwise_cons.mpr ⟨?_, ih hp'.1 hp'.2⟩
      exact forall_key_gatherFrom (cmp k · = .lt) hkl
        (fun t ht => Std.TransCmp.lt_of_lt_of_isLE hkl (hp'.1 t ht))

theorem isSorted_gather [DecidableEq κ] [Add α] {cmp : κ → κ → Ordering} [Std.TransCmp cmp]
    [Std.LawfulEqCmp cmp] {p : List (κ × α)}
    (hp : p.Pairwise (fun s t => (cmp s.1 t.1).isLE)) : IsSorted cmp (gather p) := by
  cases p with
  | nil => exact List.Pairwise.nil
  | cons t p =>
    obtain ⟨k, a⟩ := t
    have hp' := List.pairwise_cons.mp hp
    exact isSorted_gatherFrom hp'.1 hp'.2

theorem isLE_or_isLE_swap {cmp : κ → κ → Ordering} [Std.OrientedCmp cmp] (k l : κ) :
    (cmp k l).isLE || (cmp l k).isLE := by
  have h : cmp k l = (cmp l k).swap := Std.OrientedCmp.eq_swap
  cases hc : cmp l k <;> simp [h, hc]

theorem isSorted_gather_mergeSort [DecidableEq κ] [Add α] {cmp : κ → κ → Ordering}
    [Std.TransCmp cmp] [Std.LawfulEqCmp cmp] (p : List (κ × α)) :
    IsSorted cmp (gather (p.mergeSort (fun s t => (cmp s.1 t.1).isLE))) := by
  apply isSorted_gather
  exact List.pairwise_mergeSort (fun _ _ _ => Std.TransCmp.isLE_trans)
    (fun _ _ => isLE_or_isLE_swap _ _) p

end PivotCoefficients.FormalSum
