import Mathlib.Data.List.Nodup
import PivotCoefficients.Proofs.Monomial.Exponents

/-!
# Binary search for a symbol

The factors of a canonical monomial ascend, so the factor of a symbol can be searched by
halving: the factor in the middle tells which half can hold the symbol. This finds the
exponent that the search from the front finds, and taking out the factor at the place
found takes out the symbol.
-/
namespace PivotCoefficients.Monomial

open FormalSum

variable {fs : List (Symbol × ℕ)} {m : Monomial} {s : Symbol}

/-- The place that parts the places from `low` on and before `high`. -/
def middle (low high : ℕ) : ℕ := low + (high - low) / 2

theorem le_middle (low high : ℕ) : low ≤ middle low high := Nat.le_add_right ..

theorem middle_lt {low high : ℕ} (h : low < high) : middle low high < high := by
  rw [middle]
  omega

theorem middle_lt_length {low high : ℕ} (hlow : low < high) (h : high ≤ fs.length) :
    middle low high < fs.length :=
  (middle_lt hlow).trans_le h

theorem middle_le_length {low high : ℕ} (hlow : low < high) (h : high ≤ fs.length) :
    middle low high ≤ fs.length :=
  (middle_lt_length hlow h).le

/-- The place of the factor of `s` among those from place `low` on and before place `high`. -/
def placeBetween (fs : List (Symbol × ℕ)) (s : Symbol) (low high : ℕ) (h : high ≤ fs.length) :
    Option (Fin fs.length) :=
  if hlow : low < high then
    match compare (fs.get ⟨middle low high, middle_lt_length hlow h⟩).1 s with
    | .lt => placeBetween fs s (middle low high + 1) high h
    | .eq => some ⟨middle low high, middle_lt_length hlow h⟩
    | .gt => placeBetween fs s low (middle low high) (middle_le_length hlow h)
  else none
termination_by high - low
decreasing_by
  · have := le_middle low high
    omega
  · have := middle_lt hlow
    omega

def place? (m : Monomial) (s : Symbol) : Option (Fin m.factors.length) :=
  placeBetween m.factors s 0 m.factors.length le_rfl

def exponentBySearch (m : Monomial) (s : Symbol) : ℕ :=
  match m.place? s with
  | some i => (m.factors.get i).2
  | none => 0

/-- The exponent of `s` and what remains without the factor at its place. -/
def extractBySearch (m : Monomial) (s : Symbol) : ℕ × Monomial :=
  match m.place? s with
  | some i => ((m.factors.get i).2, ⟨m.factors.eraseIdx i⟩)
  | none => (0, m)

theorem compare_get (hfs : IsSorted compare fs) (i j : Fin fs.length) :
    compare (fs.get i).1 (fs.get j).1 = compare i.val j.val := by
  have hsorted := List.pairwise_iff_getElem.mp hfs
  rcases lt_trichotomy i j with hlt | rfl | hgt
  · rw [Nat.compare_eq_lt.mpr hlt]
    exact hsorted i j i.isLt j.isLt hlt
  · rw [Std.ReflOrd.compare_self, Std.ReflOrd.compare_self]
  · rw [Nat.compare_eq_gt.mpr hgt, Std.OrientedCmp.gt_iff_lt]
    exact hsorted j i j.isLt i.isLt hgt

/-- The half that is left out holds no factor of the symbol. -/
theorem placeBetween_eq_some_iff (hfs : IsSorted compare fs) {low high : ℕ}
    (h : high ≤ fs.length) (i : Fin fs.length) :
    placeBetween fs s low high h = some i ↔ low ≤ i ∧ i < high ∧ (fs.get i).1 = s := by
  fun_induction placeBetween fs s low high h with
  | case1 low high h hlow hlt ih =>
    -- up to the middle all symbols are smaller than `s`
    have hmiddle := le_middle low high
    rw [ih]
    constructor
    · rintro ⟨hle, hi, hs⟩
      exact ⟨by omega, hi, hs⟩
    · rintro ⟨hle, hi, rfl⟩
      rw [compare_get hfs, Nat.compare_eq_lt] at hlt
      exact ⟨hlt, hi, rfl⟩
  | case2 low high h hlow heq =>
    rw [Option.some.injEq]
    constructor
    · rintro rfl
      exact ⟨le_middle low high, middle_lt hlow, Std.LawfulEqOrd.eq_of_compare heq⟩
    · rintro ⟨-, -, rfl⟩
      rw [compare_get hfs, Nat.compare_eq_eq] at heq
      exact Fin.ext heq
  | case3 low high h hlow hgt ih =>
    -- from the middle on all symbols are greater than `s`
    have hmiddle := middle_lt hlow
    rw [ih]
    constructor
    · rintro ⟨hle, hi, hs⟩
      exact ⟨hle, by omega, hs⟩
    · rintro ⟨hle, hi, rfl⟩
      rw [compare_get hfs, Nat.compare_eq_gt] at hgt
      exact ⟨hle, hgt, rfl⟩
  | case4 low high h hlow =>
    constructor
    · intro hnone
      cases hnone
    · rintro ⟨hle, hi, -⟩
      omega

theorem without_of_notMem (h : s ∉ m.symbols) : m.without s = m := by
  have hfactors : m.factors.filter (fun f => f.1 ≠ s) = m.factors := by
    refine List.filter_eq_self.mpr fun f hf => decide_eq_true ?_
    rintro rfl
    exact h (List.mem_map_of_mem hf)
  rw [without, hfactors]

namespace IsCanonical

theorem place?_eq_some_iff (hm : m.IsCanonical) (i : Fin m.factors.length) :
    m.place? s = some i ↔ (m.factors.get i).1 = s := by
  simp [place?, placeBetween_eq_some_iff hm.1]

theorem place?_eq_none_iff (hm : m.IsCanonical) : m.place? s = none ↔ s ∉ m.symbols := by
  rw [Option.eq_none_iff_forall_ne_some, symbols, List.mem_map]
  simp only [ne_eq, hm.place?_eq_some_iff]
  constructor
  · rintro h ⟨f, hf, rfl⟩
    obtain ⟨i, hi, rfl⟩ := List.mem_iff_getElem.mp hf
    exact h ⟨i, hi⟩ rfl
  · rintro h i rfl
    exact h ⟨m.factors.get i, List.getElem_mem _, rfl⟩

theorem exponentBySearch_eq (hm : m.IsCanonical) (s : Symbol) :
    m.exponentBySearch s = m.exponent s := by
  rw [exponentBySearch, hm.exponent_eq]
  split
  · next i hi =>
    rw [hm.place?_eq_some_iff] at hi
    have hmem : (s, (m.factors.get i).2) ∈ m.factors := hi ▸ List.getElem_mem _
    exact ((hm.mem_factors_iff s _).mp hmem).2.symm
  · next hnone =>
    rw [hm.place?_eq_none_iff, hm.mem_symbols_iff, not_not] at hnone
    exact hnone.symm

theorem eq_of_fst_eq (hm : m.IsCanonical) {f g : Symbol × ℕ} (hf : f ∈ m.factors)
    (hg : g ∈ m.factors) (h : f.1 = g.1) : f = g := by
  have hfexponent := ((hm.mem_factors_iff f.1 f.2).mp hf).2
  have hgexponent := ((hm.mem_factors_iff g.1 g.2).mp hg).2
  exact Prod.ext h (by rw [← hfexponent, h, hgexponent])

theorem without_eq_eraseIdx (hm : m.IsCanonical) (i : Fin m.factors.length) :
    m.without (m.factors.get i).1 = ⟨m.factors.eraseIdx i⟩ := by
  have hnodup : m.factors.Nodup := (IsSorted.hasDistinctKeys hm.1).nodup
  rw [Monomial.without, ← hnodup.erase_getElem i i.isLt, hnodup.erase_eq_filter]
  congr 1
  apply List.filter_congr
  intro f hf
  have hiff : f.1 = (m.factors.get i).1 ↔ f = m.factors.get i :=
    ⟨hm.eq_of_fst_eq hf (List.getElem_mem _), congrArg Prod.fst⟩
  rw [Bool.eq_iff_iff]
  simpa using not_congr hiff

theorem extractBySearch_eq (hm : m.IsCanonical) (s : Symbol) :
    m.extractBySearch s = m.extract s := by
  have hexponent := hm.exponentBySearch_eq s
  rw [exponentBySearch] at hexponent
  rw [extractBySearch, extract, ← hexponent]
  split
  · next i hi =>
    rw [hm.place?_eq_some_iff] at hi
    rw [← hi, hm.without_eq_eraseIdx]
  · next hnone =>
    rw [hm.place?_eq_none_iff] at hnone
    rw [without_of_notMem hnone]

end IsCanonical

end PivotCoefficients.Monomial
