import PivotCoefficients.Proofs.Expression.Support

/-!
# Symbols of results

The symbols of an expression are listed in ascending order. Whatever form the
arguments have, a result of arithmetic or substitution has no symbols but those
of its arguments. This is stated for properties of symbols: one that all symbols
of the arguments have, all symbols of the result have too.
-/
namespace PivotCoefficients

variable {P : Symbol → Prop}

def Monomial.ForallSymbols (P : Symbol → Prop) (m : Monomial) : Prop :=
  ∀ s ∈ m.symbols, P s

namespace Monomial

variable {m n : Monomial}

theorem forallSymbols_iff : m.ForallSymbols P ↔ ∀ f ∈ m.factors, P f.1 :=
  List.forall_mem_map

theorem ForallSymbols.mul (hm : m.ForallSymbols P) (hn : n.ForallSymbols P) :
    (m * n).ForallSymbols P := by
  rw [forallSymbols_iff] at *
  exact FormalSum.forall_key_merge P _ _ hm hn

theorem forallSymbols_without {s : Symbol} (h : ∀ t ∈ m.symbols, t ≠ s → P t) :
    (m.without s).ForallSymbols P := by
  rw [forallSymbols_iff]
  intro f hf
  obtain ⟨hf, hne⟩ := List.mem_filter.mp hf
  exact h f.1 (List.mem_map_of_mem hf) (of_decide_eq_true hne)

end Monomial

/-- All symbols of the expression have the property `P`. -/
def Expression.ForallSymbols (P : Symbol → Prop) (e : Expression) : Prop :=
  ∀ s ∈ e.symbols, P s

namespace Expression

variable {a b e v : Expression}

theorem pairwise_symbols (e : Expression) :
    e.symbols.Pairwise (fun s t => (compare s t).isLE) :=
  List.pairwise_mergeSort (fun _ _ _ => Std.TransCmp.isLE_trans) FormalSum.isLE_or_isLE_swap _

theorem nodup_eraseDups (l : List Symbol) : l.eraseDups.Nodup := by
  match l with
  | [] => simp
  | s :: l =>
    rw [List.eraseDups_cons, List.nodup_cons]
    constructor
    · intro hs
      simp at hs
    · exact nodup_eraseDups (l.filter fun t => !t == s)
termination_by l.length
decreasing_by exact Nat.lt_succ_of_le (List.length_filter_le ..)

theorem pairwise_symbols_lt (e : Expression) :
    e.symbols.Pairwise (fun s t => compare s t = .lt) := by
  have hnodup : e.symbols.Nodup :=
    (List.mergeSort_perm _ _).nodup_iff.mpr (nodup_eraseDups _)
  refine (e.pairwise_symbols.and hnodup).imp ?_
  rintro s t ⟨hle, hne⟩
  cases hst : compare s t with
  | lt => rfl
  | eq => exact absurd (Std.LawfulEqCmp.eq_of_compare hst) hne
  | gt => simp [hst] at hle

theorem forallSymbols_iff : e.ForallSymbols P ↔ ∀ t ∈ e.terms, t.1.ForallSymbols P :=
  forall_mem_symbols_iff

theorem forallSymbols_ofTerms {ts : List Term} (h : ∀ t ∈ ts, t.1.ForallSymbols P) :
    (ofTerms ts).ForallSymbols P :=
  forallSymbols_iff.mpr (forall_key_ofTerms _ h)

theorem forallSymbols_constant (c : ℚ) : (constant c).ForallSymbols P := by
  rw [forallSymbols_iff]
  by_cases hc : c = 0
  · simp [hc]
  · simp [terms_constant hc, Monomial.forallSymbols_iff]

theorem forallSymbols_ofSymbol {s : Symbol} : (ofSymbol s).ForallSymbols P ↔ P s := by
  simp [forallSymbols_iff, Monomial.forallSymbols_iff]

namespace ForallSymbols

theorem add (ha : a.ForallSymbols P) (hb : b.ForallSymbols P) : (a + b).ForallSymbols P := by
  rw [forallSymbols_iff] at *
  exact FormalSum.forall_key_merge (Monomial.ForallSymbols P) _ _ ha hb

theorem neg (ha : a.ForallSymbols P) : (-a).ForallSymbols P := by
  rw [forallSymbols_iff] at *
  exact List.forall_mem_map.mpr ha

theorem sub (ha : a.ForallSymbols P) (hb : b.ForallSymbols P) : (a - b).ForallSymbols P :=
  ha.add hb.neg

theorem scale (ha : a.ForallSymbols P) (k : ℚ) : (a.scale k).ForallSymbols P := by
  rw [forallSymbols_iff] at *
  rw [Expression.scale]
  split
  · simp
  · exact List.forall_mem_map.mpr ha

theorem mul (ha : a.ForallSymbols P) (hb : b.ForallSymbols P) : (a * b).ForallSymbols P := by
  rw [forallSymbols_iff] at ha hb
  refine forallSymbols_ofTerms (forall_key_accumulate (Monomial.ForallSymbols P) ?_)
  intro t ht
  obtain ⟨r, hr, ht⟩ := List.mem_flatMap.mp ht
  obtain ⟨u, hu, rfl⟩ := List.mem_map.mp ht
  exact (ha r hr).mul (hb u hu)

end ForallSymbols

theorem IsCanonical.forallSymbols_substitute {s : Symbol} (he : e.IsCanonical)
    (hes : ∀ t ∈ e.symbols, t ≠ s → P t) (hv : v.ForallSymbols P) :
    (e.substitute s v).ForallSymbols P := by
  rw [substitute_eq]
  refine forallSymbols_ofTerms ?_
  intro t ht
  obtain ⟨u, hu, ht⟩ := List.mem_flatMap.mp ht
  have husymbols : ∀ r ∈ u.1.symbols, r ≠ s → P r :=
    fun r hr => hes r (mem_symbols_iff.mpr ⟨u, hu, hr⟩)
  rw [substituteTerm] at ht
  split at ht
  · next hzero =>
    obtain rfl := List.mem_singleton.mp ht
    have hcanonical := he.monomial_of_mem hu
    intro r hr
    apply husymbols r hr
    rintro rfl
    exact (hcanonical.mem_symbols_iff r).mp hr (hcanonical.exponent_eq r ▸ hzero)
  · obtain ⟨w, hw, rfl⟩ := List.mem_map.mp ht
    have hpower : ∀ n, (repeatedProduct one v n).ForallSymbols P :=
      repeatedProduct_of_forall_mul .mul (forallSymbols_constant 1) hv
    exact (Monomial.forallSymbols_without husymbols).mul (forallSymbols_iff.mp (hpower _) w hw)

end Expression

end PivotCoefficients
