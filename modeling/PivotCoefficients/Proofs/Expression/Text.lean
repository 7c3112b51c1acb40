import PivotCoefficients.Expression.Text
import PivotCoefficients.Proofs.Construction.Canonical
import PivotCoefficients.Proofs.Expression.Grammar

/-!
# What the text of an expression shows

The text leaves out units, puts signs between terms and writes fractions without
parentheses in front of `*`. It still shows every term with its place in the list,
so expressions with one text are equal.
-/
namespace PivotCoefficients.Expression

theorem isCoefficientText_text {c : ℚ} (hc : 0 < c.num) :
    IsCoefficientText (Rational.text c) c := by
  obtain ⟨n, hn⟩ := Int.eq_ofNat_of_zero_le hc.le
  have hpos : n ≠ 0 := by
    rintro rfl
    simp [hn] at hc
  unfold Rational.text
  rw [hn, Decimal.signed_natCast]
  split_ifs with hint
  · rw [Rational.eq_natCast_of_isInteger hint hn]
    exact .whole hpos
  · have hfraction := IsCoefficientText.fraction hpos c.den_nz
    rwa [← hn, Rat.num_divInt_den] at hfraction

theorem isPowerText_factorText {f : Symbol × ℕ} (hid : f.1.isIdentifier) :
    IsPowerText (Monomial.factorText f) f := by
  obtain ⟨s, k⟩ := f
  unfold Monomial.factorText
  split_ifs with hk
  · obtain rfl : k = 1 := hk
    exact .symbol hid
  · exact .power hid k

theorem isMonomialText_factors {fs : List (Symbol × ℕ)} (hne : fs ≠ [])
    (hid : ∀ f ∈ fs, f.1.isIdentifier) :
    IsMonomialText ("*".intercalate (fs.map Monomial.factorText)) fs := by
  induction fs with
  | nil => exact absurd rfl hne
  | cons f fs ih =>
    obtain ⟨hf, hfs⟩ := List.forall_mem_cons.mp hid
    have hfirst := isPowerText_factorText hf
    cases fs with
    | nil => simpa using IsMonomialText.power hfirst
    | cons g fs =>
      have htimes := IsMonomialText.times hfirst (ih (by simp) hfs)
      simpa [String.intercalate_cons_cons] using htimes

theorem isTermText_termText {m : Monomial} (hid : ∀ s ∈ m.symbols, s.isIdentifier) {c : ℚ}
    (hc : 0 < c.num) : IsTermText (termText m c) (m, c) := by
  obtain ⟨fs⟩ := m
  have hcoefficient := isCoefficientText_text hc
  unfold termText Monomial.text
  cases fs with
  | nil => exact .coefficient hcoefficient
  | cons f fs =>
    have hmonomial : IsMonomialText ("*".intercalate ((f :: fs).map Monomial.factorText))
        (f :: fs) := isMonomialText_factors (by simp) (List.forall_mem_map.mp hid)
    by_cases hone : c = 1
    · subst hone
      exact .monomial hmonomial
    · simpa [Monomial.isOne, hone] using IsTermText.product hcoefficient hmonomial

/-- The symbols are identifiers and the coefficient is not zero, so that the grammar has a
text for the term. -/
def IsWritable (t : Term) : Prop :=
  (∀ s ∈ t.1.symbols, s.isIdentifier) ∧ t.2 ≠ 0

theorem IsWritable.isTermText {t : Term} (h : IsWritable t) :
    IsTermText (termText t.1 (Rational.magnitude t.2)) (t.1, Rational.magnitude t.2) :=
  isTermText_termText h.1 (Rational.num_magnitude_pos h.2)

theorem isTailText_terms {ts : List Term} (hts : ∀ t ∈ ts, IsWritable t) :
    IsTailText (String.join (ts.map (fun t => joiningSign t.2 ++
      termText t.1 (Rational.magnitude t.2)))) ts := by
  induction ts with
  | nil => exact .nil
  | cons t ts ih =>
    obtain ⟨ht, hts'⟩ := List.forall_mem_cons.mp hts
    rw [List.map_cons, String.join_cons, joiningSign]
    split_ifs with h
    · have hminus := IsTailText.minus ht.isTermText (ih hts')
      rwa [Rational.neg_magnitude h] at hminus
    · have hplus := IsTailText.plus ht.isTermText (ih hts')
      rwa [Rational.magnitude_eq_self h] at hplus ⊢

/-- The text of an expression shows its terms, as many as there are and in their order. -/
theorem isSumText_text {e : Expression} (he : ∀ t ∈ e.terms, IsWritable t) :
    IsSumText e.text e.terms := by
  unfold text isZero
  cases hts : e.terms with
  | nil => exact .zero
  | cons t ts =>
    obtain ⟨ht, hts'⟩ := List.forall_mem_cons.mp (hts ▸ he)
    have htail := isTailText_terms hts'
    simp only [List.isEmpty_cons, Bool.false_eq_true, if_false, signedSum, leadingSign]
    split_ifs with h
    · have hminus := IsSumText.minus ht.isTermText htail
      rwa [Rational.neg_magnitude h] at hminus
    · have hplain := IsSumText.plain ht.isTermText htail
      rw [String.empty_append]
      rwa [Rational.magnitude_eq_self h] at hplain ⊢

/-- The text shows the terms of the expression and no other list of terms, and these are
read off it. -/
structure IsSpelledBy (e : Expression) (text : String) : Prop where
  isSumText : IsSumText text e.terms
  eq_terms : ∀ ts, IsSumText text ts → ts = e.terms
  read : termsOfText? text = some e.terms

variable {e : Expression}

theorem IsCanonical.isSpelledBy_text (he : e.IsCanonical)
    (hid : ∀ s ∈ e.symbols, s.isIdentifier) : e.IsSpelledBy e.text := by
  have hwritable : ∀ t ∈ e.terms, IsWritable t :=
    fun t ht => ⟨forall_mem_symbols_iff.mp hid t ht, (he.2 t ht).2⟩
  have htext := isSumText_text hwritable
  refine ⟨htext, ?_, htext.termsOfText?_eq⟩
  intro ts hts
  exact Option.some.inj (hts.termsOfText?_eq.symm.trans htext.termsOfText?_eq)

theorem IsSpelledBy.unique {e' : Expression} {text : String} (h : e.IsSpelledBy text)
    (h' : e'.IsSpelledBy text) : e' = e :=
  congrArg Expression.mk (h.eq_terms _ h'.isSumText)

/-- A constructed expression over identifiers is spelled by its text, and no other such
expression has this text. -/
theorem text_isFaithful (he : e.IsConstructible) (hid : ∀ s ∈ e.symbols, s.isIdentifier) :
    e.IsSpelledBy e.text ∧
      ∀ e' : Expression, e'.IsConstructible → (∀ s ∈ e'.symbols, s.isIdentifier) →
        e'.text = e.text → e' = e := by
  have hspelled := he.isCanonical.isSpelledBy_text hid
  refine ⟨hspelled, ?_⟩
  intro e' he' hid' htext
  have hspelled' := he'.isCanonical.isSpelledBy_text hid'
  rw [htext] at hspelled'
  exact hspelled.unique hspelled'

/-- A fraction in front of a product, powers, units, a constant and names that begin alike. -/
theorem text_isFaithful_fraction :
    let x : Symbol := ⟨"x"⟩
    let x1 : Symbol := ⟨"x1"⟩
    let e : Expression :=
      ⟨[(⟨[(x, 2), (x1, 1)]⟩, -3 / 2), (⟨[(x, 1)]⟩, 1), (⟨[(x1, 10)]⟩, -1), (.one, 1 / 7)]⟩
    e.IsConstructible ∧ (∀ s ∈ e.symbols, s.isIdentifier) ∧
      e.IsSpelledBy "-3/2*x^2*x1 + x - x1^10 + 1/7" ∧
      ∀ e' : Expression, e'.IsConstructible → (∀ s ∈ e'.symbols, s.isIdentifier) →
        e'.text = "-3/2*x^2*x1 + x - x1^10 + 1/7" → e' = e := by
  intro x x1 e
  have he : e.IsConstructible := isConstructible_iff.mpr (by decide +kernel)
  have hid : ∀ s ∈ e.symbols, s.isIdentifier := forall_mem_symbols_iff.mpr (by decide)
  have htext : e.text = "-3/2*x^2*x1 + x - x1^10 + 1/7" := by decide +kernel
  have hspelled := text_isFaithful he hid
  rw [htext] at hspelled
  exact ⟨he, hid, hspelled⟩

end PivotCoefficients.Expression
