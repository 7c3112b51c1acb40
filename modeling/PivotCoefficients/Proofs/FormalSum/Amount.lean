import Mathlib.Algebra.BigOperators.Finsupp.Basic
import Std.Data.HashMap
import PivotCoefficients.Proofs.FormalSum.Total

/-!
# Amounts of keys

The amounts of all keys together are the total for the weight that puts each
amount at its key, and every other total is a function of them. A sum that holds
each key once has the amounts it lists. So a sorted sum without zero amounts is
determined by its amounts.
-/
namespace PivotCoefficients.FormalSum

universe u v w

variable {κ : Type u} {α : Type v}

def HasDistinctKeys (p : List (κ × α)) : Prop :=
  p.Pairwise (fun s t => s.1 ≠ t.1)

theorem not_compare_self_lt {cmp : κ → κ → Ordering} [Std.LawfulEqCmp cmp] (k : κ) :
    cmp k k ≠ .lt := by
  have h : cmp k k = .eq := Std.ReflCmp.compare_self
  simp [h]

theorem IsSorted.hasDistinctKeys {cmp : κ → κ → Ordering} [Std.LawfulEqCmp cmp]
    {p : List (κ × α)} (hp : IsSorted cmp p) : HasDistinctKeys p := by
  refine List.Pairwise.imp ?_ hp
  intro s t hlt heq
  rw [heq] at hlt
  exact not_compare_self_lt t.1 hlt

theorem HasDistinctKeys.nodup {p : List (κ × α)} (hp : HasDistinctKeys p) : p.Nodup := by
  refine List.Pairwise.imp ?_ hp
  rintro s t hne rfl
  exact hne rfl

variable [AddCommMonoid α]

noncomputable def amounts (p : List (κ × α)) : κ →₀ α :=
  total Finsupp.singleAddHom p

theorem total_eq_liftAddHom {M : Type w} [AddCommMonoid M] (f : κ → α →+ M)
    (p : List (κ × α)) : total f p = Finsupp.liftAddHom f (amounts p) := by
  rw [amounts, map_total]
  congr 1
  funext k
  ext a
  simp

theorem amounts_cons (t : κ × α) (p : List (κ × α)) :
    amounts (t :: p) = Finsupp.single t.1 t.2 + amounts p :=
  total_cons _ t.1 t.2 p

variable [DecidableEq κ]

theorem amounts_apply (p : List (κ × α)) (k : κ) : amounts p k = amount k p := by
  induction p with
  | nil => rfl
  | cons t p ih =>
    obtain ⟨l, a⟩ := t
    rw [amounts] at ih ⊢
    by_cases h : l = k
    · simp [amount, h, ih]
    · simp [amount, h, ih]

theorem amount_eq_sum (k : κ) (p : List (κ × α)) :
    amount k p = ((p.filter (fun t => t.1 = k)).map Prod.snd).sum := by
  induction p with
  | nil => rfl
  | cons t p ih =>
    obtain ⟨l, a⟩ := t
    by_cases h : l = k
    · simp [amount, h, ih]
    · simp [amount, h, ih]

theorem amount_eq_of_amounts_eq {p q : List (κ × α)} (h : amounts p = amounts q) (k : κ) :
    amount k p = amount k q := by
  rw [← amounts_apply, h, amounts_apply]

theorem total_eq_of_amount_eq {M : Type w} [AddCommMonoid M] (f : κ → α →+ M)
    {p q : List (κ × α)} (h : ∀ k, amount k p = amount k q) : total f p = total f q := by
  have hpq : amounts p = amounts q := by
    ext k
    rw [amounts_apply, amounts_apply, h]
  rw [total_eq_liftAddHom, total_eq_liftAddHom, hpq]

theorem amount_eq_zero {k : κ} {p : List (κ × α)} (h : ∀ t ∈ p, t.1 ≠ k) : amount k p = 0 := by
  induction p with
  | nil => rfl
  | cons t p ih =>
    have h' := List.forall_mem_cons.mp h
    rw [amount, if_neg h'.1, ih h'.2]

theorem HasDistinctKeys.amount_of_mem {p : List (κ × α)} (hp : HasDistinctKeys p) {k : κ} {a : α}
    (h : (k, a) ∈ p) : amount k p = a := by
  induction p with
  | nil => simp at h
  | cons t p ih =>
    obtain ⟨l, b⟩ := t
    have hp' := List.pairwise_cons.mp hp
    rcases List.mem_cons.mp h with heq | hmem
    · obtain ⟨rfl, rfl⟩ := Prod.mk.inj heq
      rw [amount, if_pos rfl, amount_eq_zero (fun t ht => (hp'.1 t ht).symm), add_zero]
    · rw [amount, if_neg (hp'.1 _ hmem), ih hp'.2 hmem]

/-- The entries of a map are a sum of distinct keys, whose amounts are the values. -/
theorem amount_toList [Hashable κ] (m : Std.HashMap κ α) (k : κ) :
    amount k m.toList = m.getD k 0 := by
  rw [Std.HashMap.getD_eq_getD_getElem?]
  have hdistinct : HasDistinctKeys m.toList := by
    refine List.Pairwise.imp ?_ Std.HashMap.distinct_keys_toList
    intro s t hst
    simpa using hst
  cases hk : m[k]? with
  | some a => exact hdistinct.amount_of_mem (Std.HashMap.mem_toList_iff_getElem?_eq_some.mpr hk)
  | none =>
    apply amount_eq_zero
    rintro ⟨l, a⟩ hl rfl
    rw [Std.HashMap.mem_toList_iff_getElem?_eq_some] at hl
    simp [hk] at hl

/-- Without zero amounts, a sum of distinct keys lists exactly the keys with an amount. -/
theorem HasDistinctKeys.mem_iff {p : List (κ × α)} (hp : HasDistinctKeys p)
    (h0 : ∀ t ∈ p, t.2 ≠ 0) (k : κ) (a : α) : (k, a) ∈ p ↔ a ≠ 0 ∧ amount k p = a := by
  constructor
  · intro h
    exact ⟨h0 _ h, hp.amount_of_mem h⟩
  · rintro ⟨ha, rfl⟩
    by_contra hmem
    apply ha
    apply amount_eq_zero
    rintro ⟨l, b⟩ ht rfl
    rw [hp.amount_of_mem ht] at hmem
    exact hmem ht

theorem IsSorted.amount_eq_zero_of_lt {cmp : κ → κ → Ordering} [Std.LawfulEqCmp cmp]
    [Std.TransCmp cmp] {k : κ} {t : κ × α} {p : List (κ × α)} (hp : IsSorted cmp (t :: p))
    (h : cmp k t.1 = .lt) : amount k (t :: p) = 0 := by
  have hlt : ∀ u ∈ t :: p, cmp k u.1 = .lt :=
    List.forall_mem_cons.mpr
      ⟨h, fun u hu => Std.TransCmp.lt_trans h ((List.pairwise_cons.mp hp).1 u hu)⟩
  apply amount_eq_zero
  rintro u hu rfl
  exact not_compare_self_lt u.1 (hlt u hu)

theorem IsSorted.amount_head {cmp : κ → κ → Ordering} [Std.LawfulEqCmp cmp] {t : κ × α}
    {p : List (κ × α)} (hp : IsSorted cmp (t :: p)) : amount t.1 (t :: p) = t.2 :=
  hp.hasDistinctKeys.amount_of_mem List.mem_cons_self

/-- Sorted sums without zero amounts are equal when all their amounts are. -/
theorem IsSorted.eq_of_amount_eq {cmp : κ → κ → Ordering} [Std.LawfulEqCmp cmp]
    [Std.TransCmp cmp] {p q : List (κ × α)} (hp : IsSorted cmp p) (hq : IsSorted cmp q)
    (hp0 : ∀ t ∈ p, t.2 ≠ 0) (hq0 : ∀ t ∈ q, t.2 ≠ 0) (h : ∀ k, amount k p = amount k q) :
    p = q := by
  have hp' := hp.hasDistinctKeys
  have hq' := hq.hasDistinctKeys
  have hperm : p.Perm q := by
    rw [List.perm_ext_iff_of_nodup hp'.nodup hq'.nodup]
    rintro ⟨k, a⟩
    rw [hp'.mem_iff hp0, hq'.mem_iff hq0, h k]
  refine hperm.eq_of_pairwise ?_ hp hq
  intro s t _ _ hst hts
  exact absurd (Std.TransCmp.lt_trans hst hts) (not_compare_self_lt s.1)

end PivotCoefficients.FormalSum
