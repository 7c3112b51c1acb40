import PivotCoefficients.Proofs.Expression.Homomorphism
import PivotCoefficients.Proofs.Symbol.ByteOrder

/-!
# Symbols without values

Evaluation needs the values of the symbols of an expression and no others. If some are
missing, it stops at the first of these that it meets, which need not be the first by
name: the terms are scanned as they are stored, and only within a term do the symbols
ascend.
-/
namespace PivotCoefficients

variable {ρ ρ' : Binding} {c : ℚ} {s : Symbol}

theorem Binding.get_congr (h : ρ s = ρ' s) : ρ.get s = ρ'.get s := by
  rw [Binding.get, Binding.get, h]

namespace Monomial

variable {m : Monomial}

theorem evaluateFactors_congr {fs : List (Symbol × ℕ)} (h : ∀ f ∈ fs, ρ f.1 = ρ' f.1) :
    evaluateFactors ρ c fs = evaluateFactors ρ' c fs := by
  induction fs generalizing c with
  | nil => rfl
  | cons f fs ih =>
    obtain ⟨t, n⟩ := f
    have h' := List.forall_mem_cons.mp h
    simp only [evaluateFactors, Binding.get_congr h'.1, ih h'.2]

/-- The factors are taken in order up to the first whose symbol has no value. -/
theorem evaluateFactors_append_cons {before : List (Symbol × ℕ)} {n : ℕ}
    (hbefore : ∀ f ∈ before, (ρ f.1).isSome) (hs : ρ s = none) (after : List (Symbol × ℕ)) :
    evaluateFactors ρ c (before ++ (s, n) :: after) = .error (.unknownSymbol s.name) := by
  induction before generalizing c with
  | nil => rw [List.nil_append, evaluateFactors, Binding.get_of_eq_none hs]
  | cons f before ih =>
    obtain ⟨t, k⟩ := f
    have h' := List.forall_mem_cons.mp hbefore
    rw [List.cons_append, evaluateFactors, Binding.get_of_eq_some (Binding.eq_some_values h'.1)]
    exact ih h'.2

theorem IsCanonical.exists_isFirst (hm : m.IsCanonical) (h : ∃ r ∈ m.symbols, ρ r = none) :
    ∃ s, Symbol.IsFirst (fun r => r ∈ m.symbols ∧ ρ r = none) s := by
  have hascending : m.symbols.Pairwise (fun s t => (compare s t).isLE) :=
    List.pairwise_map.mpr (hm.1.imp fun hlt => by simp [hlt])
  obtain ⟨-, s, -, -, -, -, hfirst⟩ := Symbol.exists_first hascending h
  exact ⟨s, hfirst⟩

theorem IsCanonical.evaluateFactors_of_isFirst (hm : m.IsCanonical)
    (hs : Symbol.IsFirst (fun r => r ∈ m.symbols ∧ ρ r = none) s) :
    evaluateFactors ρ c m.factors = .error (.unknownSymbol s.name) := by
  obtain ⟨⟨hmem, hunbound⟩, hfirst⟩ := hs
  obtain ⟨⟨t, n⟩, hf, rfl⟩ := List.mem_map.mp hmem
  obtain ⟨before, after, hsplit⟩ := List.append_of_mem hf
  have hsorted := hm.1
  rw [hsplit] at hsorted ⊢
  refine evaluateFactors_append_cons (fun f hbefore => ?_) hunbound after
  have hlt := (List.pairwise_append.mp hsorted).2.2 f hbefore _ List.mem_cons_self
  by_contra hnone
  have hmemf : f.1 ∈ m.symbols :=
    List.mem_map_of_mem (hsplit ▸ List.mem_append_left _ hbefore)
  have hne : f.1 ≠ t := by
    intro h
    simp [h] at hlt
  have hbytes := hfirst f.1 ⟨hmemf, Option.not_isSome_iff_eq_none.mp hnone⟩ hne
  exact List.lt_asymm hbytes (Symbol.compare_eq_lt_iff.mp hlt)

end Monomial

namespace Expression

variable {e : Expression} {x : ℚ}

theorem evaluateTerms_congr {ts : List Term}
    (h : ∀ t ∈ ts, ∀ f ∈ t.1.factors, ρ f.1 = ρ' f.1) :
    evaluateTerms ρ x ts = evaluateTerms ρ' x ts := by
  induction ts generalizing x with
  | nil => rfl
  | cons t ts ih =>
    obtain ⟨m, c⟩ := t
    have h' := List.forall_mem_cons.mp h
    simp only [evaluateTerms, Monomial.evaluateFactors_congr h'.1, ih h'.2]

theorem evaluate_congr (h : ∀ s ∈ e.symbols, ρ s = ρ' s) : e.evaluate ρ = e.evaluate ρ' :=
  evaluateTerms_congr fun t ht _ hf =>
    h _ (mem_symbols_iff.mpr ⟨t, ht, List.mem_map_of_mem hf⟩)

theorem evaluate_eq_ok_iff : (∃ x, e.evaluate ρ = .ok x) ↔ ∀ s ∈ e.symbols, (ρ s).isSome := by
  constructor
  · rintro ⟨x, hx⟩
    exact isSome_of_evaluate hx
  · exact fun h => ⟨_, evaluate_eq_values h⟩

theorem evaluateTerms_append_cons {before : List Term} {t : Term} {err : DerivationError}
    (hbefore : ∀ u ∈ before, ∀ r ∈ u.1.symbols, (ρ r).isSome)
    (ht : Monomial.evaluateFactors ρ t.2 t.1.factors = .error err) (after : List Term) :
    evaluateTerms ρ x (before ++ t :: after) = .error err := by
  induction before generalizing x with
  | nil =>
    rw [List.nil_append, evaluateTerms, ht]
  | cons u before ih =>
    obtain ⟨m, c⟩ := u
    have h' := List.forall_mem_cons.mp hbefore
    have hvalues : ∀ f ∈ m.factors, ρ f.1 = some (ρ.values f.1) :=
      fun f hf => Binding.eq_some_values (h'.1 f.1 (List.mem_map_of_mem hf))
    simp only [List.cons_append, evaluateTerms, Monomial.evaluateFactors_eq hvalues]
    exact ih h'.2

/-- All symbols of earlier terms have values, and `s` is the first by name without one in
the next term. -/
def IsFirstUnbound (ρ : Binding) (e : Expression) (s : Symbol) : Prop :=
  ∃ before t after, e.terms = before ++ t :: after ∧
    (∀ u ∈ before, ∀ r ∈ u.1.symbols, (ρ r).isSome) ∧
    Symbol.IsFirst (fun r => r ∈ t.1.symbols ∧ ρ r = none) s

theorem IsCanonical.evaluate_of_isFirstUnbound (he : e.IsCanonical) (hs : IsFirstUnbound ρ e s) :
    e.evaluate ρ = .error (.unknownSymbol s.name) := by
  obtain ⟨before, t, after, hsplit, hbefore, hfirst⟩ := hs
  have ht : t ∈ e.terms := hsplit ▸ List.mem_append_right _ List.mem_cons_self
  rw [evaluate, hsplit]
  exact evaluateTerms_append_cons hbefore
    ((he.monomial_of_mem ht).evaluateFactors_of_isFirst hfirst) after

/-- If a symbol has no value, some symbol without one is met first. -/
theorem IsCanonical.exists_isFirstUnbound (he : e.IsCanonical)
    (h : ∃ s ∈ e.symbols, ρ s = none) : ∃ s, IsFirstUnbound ρ e s := by
  have hterm : ∃ t ∈ e.terms, ∃ r ∈ t.1.symbols, ρ r = none := by
    obtain ⟨r, hr, hunbound⟩ := h
    obtain ⟨t, ht, hrt⟩ := mem_symbols_iff.mp hr
    exact ⟨t, ht, r, hrt, hunbound⟩
  obtain ⟨before, t, after, hsplit, hbefore, hlacks⟩ := exists_split_of_exists hterm
  have ht : t ∈ e.terms := hsplit ▸ List.mem_append_right _ List.mem_cons_self
  obtain ⟨s, hfirst⟩ := (he.monomial_of_mem ht).exists_isFirst hlacks
  refine ⟨s, before, t, after, hsplit, fun u hu r hr => ?_, hfirst⟩
  exact Option.isSome_iff_ne_none.mpr fun hunbound => hbefore u hu ⟨r, hr, hunbound⟩

/-- Evaluation succeeds exactly where all symbols of the expression have values. It fails
with the first symbol it meets that has none, and depends on the values of the symbols
of the expression alone. -/
theorem evaluate_outcome (he : e.IsConstructible) (ρ : Binding) :
    ((∃ x, e.evaluate ρ = .ok x) ↔ ∀ s ∈ e.symbols, (ρ s).isSome) ∧
    (∀ err, e.evaluate ρ = .error err ↔
      ∃ s, IsFirstUnbound ρ e s ∧ err = .unknownSymbol s.name) ∧
    ∀ ρ' : Binding, (∀ s ∈ e.symbols, ρ s = ρ' s) → e.evaluate ρ = e.evaluate ρ' := by
  have hcanonical := he.isCanonical
  refine ⟨evaluate_eq_ok_iff, fun err => ⟨fun h => ?_, ?_⟩, fun _ => evaluate_congr⟩
  · have hunbound : ∃ s ∈ e.symbols, ρ s = none := by
      by_contra hnone
      push Not at hnone
      have hvalues := evaluate_eq_values fun s hs => Option.isSome_iff_ne_none.mpr (hnone s hs)
      cases h.symm.trans hvalues
    obtain ⟨s, hs⟩ := hcanonical.exists_isFirstUnbound hunbound
    exact ⟨s, hs, Except.error.inj (h.symm.trans (hcanonical.evaluate_of_isFirstUnbound hs))⟩
  · rintro ⟨s, hs, rfl⟩
    exact hcanonical.evaluate_of_isFirstUnbound hs

/-- Of the symbols `b` and `c`, which have no values, the one in the first term is named. -/
theorem evaluate_outcome_later_name :
    let e : Expression :=
      ⟨[(⟨[(⟨"a"⟩, 2), (⟨"c"⟩, 1)]⟩, 1), (⟨[(⟨"b"⟩, 1), (⟨"d"⟩, 3)]⟩, -1 / 2)]⟩
    let ρ := Binding.ofList [(⟨"d"⟩, 0), (⟨"a"⟩, 7 / 2), (⟨"unused"⟩, 1)]
    e.IsConstructible ∧ IsFirstUnbound ρ e ⟨"c"⟩ ∧ e.evaluate ρ = .error (.unknownSymbol "c") ∧
      e.evaluate ρ = e.evaluate (Binding.ofList [(⟨"a"⟩, 7 / 2), (⟨"d"⟩, 0)]) := by
  intro e ρ
  have he : e.IsConstructible := isConstructible_iff.mpr (by decide +kernel)
  obtain ⟨-, herror, hcongr⟩ := evaluate_outcome he ρ
  have hfirst : IsFirstUnbound ρ e ⟨"c"⟩ := by
    refine ⟨[], _, _, rfl, by simp, ⟨by decide, rfl⟩, ?_⟩
    rintro r ⟨hr, hunbound⟩ hne
    have hcases : r = ⟨"a"⟩ ∨ r = ⟨"c"⟩ := by simpa [Monomial.symbols] using hr
    rcases hcases with rfl | rfl
    · cases hunbound
    · exact absurd rfl hne
  refine ⟨he, hfirst, (herror _).mpr ⟨_, hfirst, rfl⟩, hcongr _ ?_⟩
  exact forall_mem_symbols_iff.mpr (by decide +kernel)

end Expression

end PivotCoefficients
