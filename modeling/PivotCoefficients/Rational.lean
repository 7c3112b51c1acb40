import PivotCoefficients.Decimal
import PivotCoefficients.Error
import PivotCoefficients.Power

/-!
# Exact rationals

Coefficients are rationals in lowest terms with a positive denominator. This
module gives what the rest of the program asks of them beyond field arithmetic:
a fraction of two integers, signs and magnitudes, powers, and their text.
-/
namespace PivotCoefficients.Rational

/-- The value of `n / d`, in lowest terms. -/
def ofFraction (n d : Int) : Except Fault Rat :=
  if d = 0 then .error .zeroDenominator else .ok (Rat.divInt n d)

/-- The value of `n / d` for 64-bit words. The sign of the denominator goes to the numerator, which
is negated as an integer: the least word has no opposite. -/
def ofWords (n d : Int64) : Except Fault Rat :=
  if d = 0 then .error .zeroDenominator
  else .ok (mkRat (if d < 0 then -n.toInt else n.toInt) d.abs.toUInt64.toNat)

def ofWord (n : Int64) : Rat := n.toInt

def isInteger (q : Rat) : Bool := q.den == 1

def isNegative (q : Rat) : Bool := q.num < 0

def magnitude (q : Rat) : Rat :=
  if isNegative q then -q else q

/-- The `n`th power, where `0 ^ 0 = 1`. -/
def pow (q : Rat) (n : Nat) : Rat :=
  power 1 q n

def compare (p q : Rat) : Ordering :=
  if p < q then .lt else if p = q then .eq else .gt

/-- An integer as its digits, any other rational as `n/d`. -/
def text (q : Rat) : String :=
  if isInteger q then Decimal.signed q.num else Decimal.signed q.num ++ "/" ++ Decimal.digits q.den

def debugText (q : Rat) : String :=
  "Q(" ++ text q ++ ")"

/-- Read without a sign, even the absolute value of the least word is right. -/
theorem toNat_toUInt64_abs (d : Int64) : d.abs.toUInt64.toNat = d.toInt.natAbs := by
  change d.toBitVec.abs.toNat = d.toBitVec.toInt.natAbs
  have hlt := d.toBitVec.isLt
  rw [BitVec.toNat_abs, BitVec.toInt_eq_msb_cond]
  split <;> omega

theorem toInt_eq_zero_iff (d : Int64) : d.toInt = 0 ↔ d = 0 := by
  rw [← Int64.toInt_zero, Int64.toInt_inj]

/-- Words lose nothing against integers. -/
theorem ofWords_eq_ofFraction (n d : Int64) : ofWords n d = ofFraction n.toInt d.toInt := by
  unfold ofWords ofFraction
  by_cases hd : d = 0
  · rw [if_pos hd, if_pos ((toInt_eq_zero_iff d).mpr hd)]
  · rw [if_neg hd, if_neg (mt (toInt_eq_zero_iff d).mp hd), toNat_toUInt64_abs,
      ← Rat.divInt_ofNat]
    congr 1
    have hsign : d < 0 ↔ d.toInt < 0 := by simp [Int64.lt_iff_toInt_lt]
    by_cases hneg : d < 0
    · rw [if_pos hneg, Int.ofNat_natAbs_of_nonpos (Int.le_of_lt (hsign.mp hneg)),
        Rat.neg_divInt_neg]
    · rw [if_neg hneg, Int.natAbs_of_nonneg (Int.not_lt.mp (mt hsign.mpr hneg))]

theorem magnitude_of_nonneg {q : Rat} (h : 0 ≤ q.num) : magnitude q = q := by
  simp [magnitude, isNegative, Int.not_lt.mpr h]

theorem magnitude_of_neg {q : Rat} (h : q.num < 0) : magnitude q = -q := by
  simp [magnitude, isNegative, h]

theorem num_magnitude (q : Rat) : (magnitude q).num = q.num.natAbs := by
  by_cases h : q.num < 0
  · rw [magnitude_of_neg h, Rat.neg_num]
    omega
  · rw [magnitude_of_nonneg (Int.not_lt.mp h)]
    omega

theorem den_magnitude (q : Rat) : (magnitude q).den = q.den := by
  unfold magnitude
  split
  · exact Rat.neg_den q
  · rfl

theorem num_magnitude_nonneg (q : Rat) : 0 ≤ (magnitude q).num := by
  rw [num_magnitude]
  omega

theorem num_magnitude_pos {q : Rat} (hq : q ≠ 0) : 0 < (magnitude q).num := by
  have hnum : q.num ≠ 0 := fun h => hq (Rat.num_eq_zero.mp h)
  rw [num_magnitude]
  omega

theorem neg_magnitude {q : Rat} (h : isNegative q) : -magnitude q = q := by
  rw [magnitude, if_pos h, Rat.neg_neg]

theorem magnitude_eq_self {q : Rat} (h : ¬isNegative q) : magnitude q = q := by
  rw [magnitude, if_neg h]

theorem eq_natCast_of_isInteger {q : Rat} {n : Nat} (h : isInteger q) (hn : q.num = n) :
    q = (n : Rat) := by
  have hden : q.den = 1 := by simpa [isInteger] using h
  apply Rat.ext
  · simpa using hn
  · simpa using hden

end PivotCoefficients.Rational
