import Mathlib.Data.List.Basic
import Mathlib.Data.Rat.Lemmas
import PivotCoefficients.Proofs.Formula.Scanning
import PivotCoefficients.Proofs.Rational.Fraction

/-!
# What the text of a rational tells

A rational is read back from its text, so no other has that text. The slash in
the text tells that it is not an integer and the minus sign in front that it is
negative.
-/
namespace PivotCoefficients

open Token

namespace Decimal

theorem signed_of_neg {n : ℤ} (h : n < 0) : signed n = "-" ++ signed n.natAbs := by
  cases n with
  | ofNat n => exact absurd h (Int.not_lt.mpr (Int.natCast_nonneg n))
  | negSucc n => rfl

theorem isDigit_of_mem_digits {n : ℕ} {c : Char} (hc : c ∈ (digits n).toList) : c.isDigit := by
  rw [toList_digits] at hc
  exact Nat.isDigit_of_mem_toDigits (by decide) (by decide) hc

theorem isDigit_or_of_mem_signed {n : ℤ} {c : Char} (hc : c ∈ (signed n).toList) :
    c.isDigit ∨ c = '-' := by
  cases n with
  | ofNat n => exact .inl (isDigit_of_mem_digits hc)
  | negSucc n =>
    rw [signed, String.toList_append, List.mem_append] at hc
    rcases hc with hc | hc
    · exact .inr (by simpa using hc)
    · exact .inl (isDigit_of_mem_digits hc)

theorem signed_ne_nil (n : ℤ) : (signed n).toList ≠ [] := by
  cases n with
  | ofNat n =>
    rw [signed, toList_digits]
    exact Nat.toDigits_ne_nil
  | negSucc n => simp [signed]

theorem head?_signed_eq_minus_iff (n : ℤ) : (signed n).toList.head? = some '-' ↔ n < 0 := by
  cases n with
  | ofNat n =>
    have hdigit : (digits n).toList.head? ≠ some '-' := by
      intro h
      exact absurd (isDigit_of_mem_digits (List.mem_of_mem_head? h)) (by decide)
    exact iff_of_false hdigit (Int.not_lt.mpr (Int.natCast_nonneg n))
  | negSucc n => exact iff_of_true (by simp [signed]) (Int.negSucc_lt_zero n)

end Decimal

namespace Rational

def ofTokens? : List Token → Option ℚ
  | [.whole n] => some n
  | [.whole n, .over, .whole d] => if d = 0 then none else some (Rat.divInt n d)
  | _ => none

/-- The rational that a text shows. -/
def ofText? (text : String) : Option ℚ :=
  match scan text.toList with
  | some (.minus :: ts) => (ofTokens? ts).map (-·)
  | some ts => ofTokens? ts
  | none => none

theorem text_of_isNegative {q : ℚ} (h : isNegative q) : text q = "-" ++ text (magnitude q) := by
  have hnum : q.num < 0 := by simpa [isNegative] using h
  unfold text isInteger
  rw [den_magnitude, num_magnitude, Decimal.signed_of_neg hnum]
  split_ifs
  · rfl
  · simp only [String.append_assoc]

/-- Without a sign the tokens of the text begin with a number. -/
theorem exists_shows_text {q : ℚ} (h : 0 ≤ q.num) :
    ∃ n ts, Shows (text q).toList (.whole n :: ts) ∧ ofTokens? (.whole n :: ts) = some q := by
  obtain ⟨n, hn⟩ := Int.eq_ofNat_of_zero_le h
  unfold text
  rw [hn, Decimal.signed_natCast]
  split_ifs with hint
  · refine ⟨n, [], by simpa using shows_whole n, ?_⟩
    rw [ofTokens?, ← eq_natCast_of_isInteger hint hn]
  · have hshows := (shows_whole n).append_mark (c := '/') (by decide) rfl (shows_whole q.den)
    refine ⟨n, [.over, .whole q.den], by simpa using hshows, ?_⟩
    rw [ofTokens?, if_neg q.den_nz, ← hn, Rat.num_divInt_den]

theorem ofText?_text (q : ℚ) : ofText? (text q) = some q := by
  unfold ofText?
  by_cases h : isNegative q
  · obtain ⟨n, ts, hts, hread⟩ := exists_shows_text (num_magnitude_nonneg q)
    have hshows : Shows (text q).toList (.minus :: .whole n :: ts) := by
      rw [text_of_isNegative h, String.toList_append]
      exact hts.mark_cons (c := '-') (by decide) rfl
    rw [hshows.scan_eq]
    simp only [hread, Option.map_some, neg_magnitude h]
  · obtain ⟨n, ts, hts, hread⟩ := exists_shows_text (Int.not_lt.mp (by simpa [isNegative] using h))
    rw [hts.scan_eq]
    exact hread

theorem text_intCast (n : ℤ) : text n = Decimal.signed n := by
  simp [text, isInteger]

theorem text_div {n : ℤ} {d : ℕ} (hd : 1 < d) (hcoprime : n.natAbs.Coprime d) :
    text (n / d) = Decimal.signed n ++ "/" ++ Decimal.digits d := by
  have hpos : (0 : ℤ) < d := by omega
  have hnum : ((n : ℚ) / d).num = n := Rat.num_div_eq_of_coprime hpos hcoprime
  have hden : ((n : ℚ) / d).den = d := by
    exact_mod_cast Rat.den_div_eq_of_coprime hpos hcoprime
  have hint : ¬isInteger (n / d) := by
    rw [isInteger, hden, beq_iff_eq]
    omega
  rw [text, if_neg hint, hnum, hden]

theorem slash_not_mem_text_iff {q : ℚ} : '/' ∉ (text q).toList ↔ isInteger q := by
  have hsigned : '/' ∉ (Decimal.signed q.num).toList := by
    intro h
    rcases Decimal.isDigit_or_of_mem_signed h with h | h
    · exact absurd h (by decide)
    · exact absurd h (by decide)
  unfold text
  split_ifs with hint
  · exact iff_of_true hsigned hint
  · refine iff_of_false ?_ hint
    simp

theorem head?_text_eq_minus_iff {q : ℚ} : (text q).toList.head? = some '-' ↔ isNegative q := by
  have hsigned : (Decimal.signed q.num).toList.head? = some '-' ↔ isNegative q := by
    rw [Decimal.head?_signed_eq_minus_iff, isNegative, decide_eq_true_iff]
  unfold text
  split_ifs
  · exact hsigned
  · rw [← hsigned, String.toList_append, String.toList_append, List.append_assoc,
      List.head?_append_of_ne_nil _ (Decimal.signed_ne_nil q.num)]

/-- An integer is written as one and any other rational as a fraction in lowest terms. The
rational is read back from the text, and the text tells what is asked about it. -/
structure IsToldByText (q : ℚ) : Prop where
  whole : ∀ n : ℤ, q = n → text q = Decimal.signed n
  fraction : ∀ (n : ℤ) (d : ℕ), 1 < d → n.natAbs.Coprime d → q = n / d →
    text q = Decimal.signed n ++ "/" ++ Decimal.digits d
  read : ofText? (text q) = some q
  eq_of_text_eq : ∀ p, text p = text q → p = q
  isInteger_iff : isInteger q ↔ '/' ∉ (text q).toList
  isNegative_iff : isNegative q ↔ (text q).toList.head? = some '-'

theorem text_injective {p q : ℚ} (h : text p = text q) : p = q := by
  have hread := ofText?_text p
  rw [h, ofText?_text] at hread
  exact (Option.some.inj hread).symm

theorem isToldByText (q : ℚ) : IsToldByText q where
  whole := by
    rintro n rfl
    exact text_intCast n
  fraction := by
    rintro n d hd hcoprime rfl
    exact text_div hd hcoprime
  read := ofText?_text q
  eq_of_text_eq _ := text_injective
  isInteger_iff := slash_not_mem_text_iff.symm
  isNegative_iff := head?_text_eq_minus_iff.symm

end Rational
end PivotCoefficients
