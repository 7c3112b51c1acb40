import Mathlib.Data.Finsupp.Lex
import PivotCoefficients.Proofs.Monomial.Exponents

/-!
# The order of monomials by their exponents

Canonical monomials are compared by the first symbol at which their exponents
differ, wherever that symbol stands among the factors of the one or the other.
So two monomials with one exponent of a symbol keep their order when this
symbol is taken out of both, and any two keep it when both are multiplied by a third.
-/
namespace PivotCoefficients.Monomial

open FormalSum

/-- At the first symbol where the two differ, `d` is the smaller. -/
def LexLT (d e : Symbol →₀ ℕ) : Prop :=
  Finsupp.Lex (fun s t => compare s t = .lt) (· < ·) d e

namespace LexLT

variable {d e : Symbol →₀ ℕ}

theorem ne (h : LexLT d e) : d ≠ e := by
  rintro rfl
  obtain ⟨s, -, hs⟩ := h
  exact Nat.lt_irrefl _ hs

theorem asymm (h : LexLT d e) : ¬ LexLT e d := by
  obtain ⟨s, hs, hslt⟩ := h
  rintro ⟨t, ht, htlt⟩
  -- both symbols are the first where `d` and `e` differ
  cases hst : compare s t with
  | lt => exact hslt.ne' (ht s hst)
  | eq =>
    obtain rfl := Std.LawfulEqCmp.eq_of_compare hst
    exact hslt.asymm htlt
  | gt => exact htlt.ne' (hs t (Std.OrientedCmp.gt_iff_lt.mp hst))

theorem add_left (h : LexLT d e) (f : Symbol →₀ ℕ) : LexLT (f + d) (f + e) := by
  obtain ⟨s, hs, hlt⟩ := h
  refine ⟨s, fun t ht => ?_, Nat.add_lt_add_left hlt _⟩
  rw [Finsupp.add_apply, Finsupp.add_apply, hs t ht]

theorem erase (h : LexLT d e) {p : Symbol} (hp : d p = e p) : LexLT (d.erase p) (e.erase p) := by
  obtain ⟨s, hs, hlt⟩ := h
  have hsp : s ≠ p := by
    rintro rfl
    exact hlt.ne hp
  refine ⟨s, fun t ht => ?_, ?_⟩
  · by_cases htp : t = p
    · simp [htp]
    · rw [Finsupp.erase_ne htp, Finsupp.erase_ne htp, hs t ht]
  · rw [Finsupp.erase_ne hsp, Finsupp.erase_ne hsp]
    exact hlt

end LexLT

theorem lexLT_amounts_cons {fs gs : List (Symbol × ℕ)} {g : Symbol × ℕ}
    (hgs : IsSorted compare (g :: gs)) (hbelow : ∀ t, compare t g.1 = .lt → amount t fs = 0)
    (hat : amount g.1 fs < g.2) :
    LexLT (amounts fs) (amounts (g :: gs)) := by
  refine ⟨g.1, fun t ht => ?_, ?_⟩
  · rw [amounts_apply, amounts_apply, hbelow t ht, hgs.amount_eq_zero_of_lt ht]
  · rw [amounts_apply, amounts_apply, hgs.amount_head]
    exact hat

/-- The comparison of two lists of factors stops at the first symbol that holds
different amounts, be it missing in one of them or raised to different powers. -/
theorem lexLT_amounts {fs gs : List (Symbol × ℕ)} (hfs : IsSorted compare fs)
    (hgs : IsSorted compare gs) (hpos : ∀ g ∈ gs, 0 < g.2)
    (h : List.compareLex compareFactor fs gs = .lt) : LexLT (amounts fs) (amounts gs) := by
  induction fs generalizing gs with
  | nil =>
    cases gs with
    | nil => cases h
    | cons g gs => exact lexLT_amounts_cons hgs (fun _ _ => rfl) (hpos g List.mem_cons_self)
  | cons f fs ih =>
    cases gs with
    | nil => cases h
    | cons g gs =>
      rw [List.compareLex_cons_cons, Ordering.then_eq_lt, compareFactor, Ordering.then_eq_lt,
        Ordering.then_eq_eq] at h
      rcases h with (hlt | ⟨hsymbol, hexponent⟩) | ⟨⟨hsymbol, hexponent⟩, hrest⟩
      · -- the symbol of `g` comes before all of `f :: fs`
        refine lexLT_amounts_cons hgs
          (fun t ht => hfs.amount_eq_zero_of_lt (Std.TransCmp.lt_trans ht hlt)) ?_
        rw [hfs.amount_eq_zero_of_lt hlt]
        exact hpos g List.mem_cons_self
      · -- one symbol with two exponents
        have hfg : g.1 = f.1 := Std.LawfulEqCmp.eq_of_compare hsymbol
        refine lexLT_amounts_cons hgs (fun t ht => hfs.amount_eq_zero_of_lt (hfg ▸ ht)) ?_
        rw [hfg, hfs.amount_head]
        exact Nat.compare_eq_lt.mp hexponent
      · -- equal factors in front add the same to both sides
        have hfg : f = g := Prod.ext (Std.LawfulEqCmp.eq_of_compare hsymbol).symm
          (Std.LawfulEqCmp.eq_of_compare hexponent)
        have hlex := ih (List.pairwise_cons.mp hfs).2 (List.pairwise_cons.mp hgs).2
          (List.forall_mem_cons.mp hpos).2 hrest
        rw [hfg, amounts_cons, amounts_cons]
        exact hlex.add_left _

variable {m n : Monomial}

theorem lexLT_of_compare_eq_lt (hm : m.IsCanonical) (hn : n.IsCanonical)
    (h : compare m n = .lt) : LexLT m.exponents n.exponents :=
  lexLT_amounts hm.1 hn.1 hn.2 (compare_eq m n ▸ h)

/-- Canonical monomials are ordered lexicographically by their exponents. -/
theorem compare_eq_lt_iff (hm : m.IsCanonical) (hn : n.IsCanonical) :
    compare m n = .lt ↔ LexLT m.exponents n.exponents := by
  refine ⟨lexLT_of_compare_eq_lt hm hn, fun h => ?_⟩
  cases hc : compare m n with
  | lt => rfl
  | eq =>
    obtain rfl := Std.LawfulEqCmp.eq_of_compare hc
    exact absurd rfl h.ne
  | gt =>
    have hreverse := lexLT_of_compare_eq_lt hn hm (Std.OrientedCmp.gt_iff_lt.mp hc)
    exact absurd hreverse h.asymm

theorem compare_without_of_lt (hm : m.IsCanonical) (hn : n.IsCanonical) {p : Symbol}
    (hp : m.exponent p = n.exponent p) (h : compare m n = .lt) :
    compare (m.without p) (n.without p) = .lt := by
  rw [hm.exponent_eq, hn.exponent_eq] at hp
  rw [compare_eq_lt_iff (hm.without p) (hn.without p), exponents_without, exponents_without]
  exact ((compare_eq_lt_iff hm hn).mp h).erase hp

theorem compare_trans {o : Ordering} {k : Monomial} (hkm : compare k m = o)
    (hmn : compare m n = o) : compare k n = o := by
  cases o with
  | lt => exact Std.TransCmp.lt_trans hkm hmn
  | eq => exact Std.TransCmp.eq_trans hkm hmn
  | gt => exact Std.TransCmp.gt_trans hkm hmn

theorem compare_mul_right_of_lt {k : Monomial} (hm : m.IsCanonical) (hn : n.IsCanonical)
    (hk : k.IsCanonical) (h : compare m n = .lt) : compare (m * k) (n * k) = .lt := by
  rw [compare_eq_lt_iff (hm.mul hk) (hn.mul hk), exponents_mul, exponents_mul,
    add_comm m.exponents, add_comm n.exponents]
  exact ((compare_eq_lt_iff hm hn).mp h).add_left k.exponents

/-- A common factor does not change the order. -/
theorem compare_mul_right {k : Monomial} (hm : m.IsCanonical) (hn : n.IsCanonical)
    (hk : k.IsCanonical) : compare (m * k) (n * k) = compare m n := by
  cases h : compare m n with
  | lt => exact compare_mul_right_of_lt hm hn hk h
  | eq =>
    obtain rfl := Std.LawfulEqCmp.eq_of_compare h
    exact Std.ReflCmp.compare_self
  | gt =>
    rw [Std.OrientedCmp.gt_iff_lt] at h ⊢
    exact compare_mul_right_of_lt hn hm hk h

theorem compare_mul_left {k : Monomial} (hm : m.IsCanonical) (hn : n.IsCanonical)
    (hk : k.IsCanonical) : compare (k * m) (k * n) = compare m n := by
  rw [hk.mul_comm hm, hk.mul_comm hn, compare_mul_right hm hn hk]

end PivotCoefficients.Monomial
