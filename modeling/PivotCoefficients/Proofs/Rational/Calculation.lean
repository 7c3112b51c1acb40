import PivotCoefficients.Proofs.Rational.Text

/-!
# Calculations with rationals

A calculation begins with words and fractions of words and goes on by the
operations on rationals. It fails exactly where a fraction of words has a zero
denominator. Otherwise its result is in lowest terms and equal to the fraction
that the same operations give by hand, where nothing is cancelled and no number
is too large.
-/
namespace PivotCoefficients

inductive Calculation where
  | fraction (n d : Int64)
  | word (n : Int64)
  | zero
  | one
  | add (c d : Calculation)
  | sub (c d : Calculation)
  | mul (c d : Calculation)
  | neg (c : Calculation)
  | abs (c : Calculation)
  | pow (c : Calculation) (n : ℕ)
  deriving DecidableEq, Repr

namespace Calculation

/-- The result on rationals. The first fraction with a zero denominator ends the calculation. -/
def value : Calculation → Except Fault ℚ
  | fraction n d => Rational.ofWords n d
  | word n => return Rational.ofWord n
  | zero => return 0
  | one => return 1
  | add c d => return (← c.value) + (← d.value)
  | sub c d => return (← c.value) - (← d.value)
  | mul c d => return (← c.value) * (← d.value)
  | neg c => return -(← c.value)
  | abs c => return Rational.magnitude (← c.value)
  | pow c n => return Rational.pow (← c.value) n

/-- The result on fractions, by hand and with nothing cancelled. -/
def unreduced : Calculation → Fraction
  | fraction n d => ⟨n.toInt, d.toInt⟩
  | word n => ⟨n.toInt, 1⟩
  | zero => ⟨0, 1⟩
  | one => ⟨1, 1⟩
  | add c d => c.unreduced.add d.unreduced
  | sub c d => c.unreduced.sub d.unreduced
  | mul c d => c.unreduced.mul d.unreduced
  | neg c => c.unreduced.neg
  | abs c => c.unreduced.abs
  | pow c n => c.unreduced.pow n

def isDefined : Calculation → Bool
  | fraction _ d => d != 0
  | word _ | zero | one => true
  | add c d | sub c d | mul c d => c.isDefined && d.isDefined
  | neg c | abs c | pow c _ => c.isDefined

/-- A result in lowest terms where there is one, and otherwise the fault. -/
def IsOutcome (x : Fraction) (defined : Bool) (r : Except Fault ℚ) : Prop :=
  if defined then ∃ q, r = .ok q ∧ x.ReducesTo q else r = .error .zeroDenominator

variable {x y z : Fraction} {a b : Bool} {r s : Except Fault ℚ}

theorem isOutcome_return {q : ℚ} (h : x.ReducesTo q) : IsOutcome x true (return q) :=
  ⟨q, rfl, h⟩

theorem isOutcome_fraction (n d : Int64) :
    IsOutcome ⟨n.toInt, d.toInt⟩ (d != 0) (Rational.ofWords n d) := by
  have hzero := Rational.toInt_eq_zero_iff d
  rw [Rational.ofWords_eq_ofFraction, Rational.ofFraction, IsOutcome]
  by_cases hd : d = 0
  · simp [hd]
  · rw [if_pos (by simpa using hd), if_neg (mt hzero.mp hd), Rat.divInt_eq_div]
    exact ⟨_, rfl, Fraction.reducesTo_div (mt hzero.mp hd)⟩

theorem IsOutcome.map {f : ℚ → ℚ} (hr : IsOutcome x a r)
    (hf : ∀ {p}, x.ReducesTo p → z.ReducesTo (f p)) : IsOutcome z a (return f (← r)) := by
  cases a with
  | false =>
    obtain rfl : r = .error .zeroDenominator := hr
    rfl
  | true =>
    obtain ⟨p, rfl, hp⟩ := hr
    exact isOutcome_return (hf hp)

theorem IsOutcome.map₂ {f : ℚ → ℚ → ℚ} (hr : IsOutcome x a r) (hs : IsOutcome y b s)
    (hf : ∀ {p q}, x.ReducesTo p → y.ReducesTo q → z.ReducesTo (f p q)) :
    IsOutcome z (a && b) (return f (← r) (← s)) := by
  cases a with
  | false =>
    obtain rfl : r = .error .zeroDenominator := hr
    rfl
  | true =>
    obtain ⟨p, rfl, hp⟩ := hr
    exact hs.map (hf hp)

theorem isOutcome_value (c : Calculation) : IsOutcome c.unreduced c.isDefined c.value := by
  induction c with
  | fraction n d => exact isOutcome_fraction n d
  | word n => exact isOutcome_return (Fraction.reducesTo_intCast n.toInt)
  | zero => exact isOutcome_return (Fraction.reducesTo_intCast 0)
  | one => exact isOutcome_return (Fraction.reducesTo_intCast 1)
  | add c d hc hd => exact hc.map₂ hd .add
  | sub c d hc hd => exact hc.map₂ hd .sub
  | mul c d hc hd => exact hc.map₂ hd .mul
  | neg c hc => exact hc.map .neg
  | abs c hc => exact hc.map .abs
  | pow c n hc => exact hc.map (.pow · n)

theorem exists_value_eq_ok {c : Calculation} (h : c.isDefined) :
    ∃ q, c.value = .ok q ∧ c.unreduced.ReducesTo q := by
  have houtcome := c.isOutcome_value
  rwa [h] at houtcome

theorem value_eq_error {c : Calculation} (h : ¬c.isDefined) :
    c.value = .error .zeroDenominator := by
  have houtcome := c.isOutcome_value
  rwa [Bool.eq_false_of_not_eq_true h] at houtcome

end Calculation

namespace Rational

theorem ofWords_eq_div (n : Int64) {d : Int64} (hd : d ≠ 0) :
    ofWords n d = .ok (n.toInt / d.toInt) := by
  obtain ⟨q, hq, hreduces⟩ :=
    Calculation.exists_value_eq_ok (c := .fraction n d) (by simpa [Calculation.isDefined] using hd)
  exact hq.trans (congrArg Except.ok hreduces.eq_div)

theorem ofWords_eq_ofWords_iff {a b c d : Int64} (hb : b ≠ 0) (hd : d ≠ 0) :
    ofWords a b = ofWords c d ↔ a.toInt * d.toInt = c.toInt * b.toInt := by
  rw [ofWords_eq_div a hb, ofWords_eq_div c hd, Except.ok.injEq]
  exact (Fraction.reducesTo_div (mt (toInt_eq_zero_iff b).mp hb)).eq_iff
    (Fraction.reducesTo_div (mt (toInt_eq_zero_iff d).mp hd))

/-- Calculations with rationals are exact and stay in lowest terms, fractions of words are
right up to the least word, and comparisons, signs and texts tell what the fractions say. -/
theorem isExact_atEveryBound :
    (∀ c : Calculation, (c.isDefined → ∃ q, c.value = .ok q ∧ c.unreduced.ReducesTo q) ∧
      (¬c.isDefined → c.value = .error .zeroDenominator)) ∧
    (∀ n d : Int64, d ≠ 0 → ofWords n d = .ok (n.toInt / d.toInt)) ∧
    (∀ a b c d : Int64, b ≠ 0 → d ≠ 0 →
      (ofWords a b = ofWords c d ↔ a.toInt * d.toInt = c.toInt * b.toInt)) ∧
    (∀ q : ℚ, Fraction.ReducesTo ⟨q.num, q.den⟩ q) ∧
    (∀ x y p q, x.ReducesTo p → y.ReducesTo q → Fraction.GovernsExactly x y p q) ∧
    ∀ q, IsToldByText q := by
  refine ⟨?calculations, ?words, ?equality, Fraction.reducesTo_num_den, ?operations, isToldByText⟩
  case calculations =>
    intro c
    exact ⟨Calculation.exists_value_eq_ok, Calculation.value_eq_error⟩
  case words =>
    intro n d hd
    exact ofWords_eq_div n hd
  case equality =>
    intro a b c d hb hd
    exact ofWords_eq_ofWords_iff hb hd
  case operations =>
    intro x y p q hp hq
    exact hp.governsExactly hq

/-- The least word as a numerator, as a denominator and as both, two fractions with denominators
of opposite signs, and a text with a sign and a slash. -/
theorem isExact_atEveryBound_least :
    let least := Int64.minValue
    let quarter : Int64 := 4611686018427387904
    let c : Calculation := .sub (.fraction least (-1)) (.pow (.fraction least least) 3)
    (c.isDefined ∧ ∃ q, c.value = .ok q ∧ c.unreduced.ReducesTo q) ∧
      (¬(Calculation.fraction least 0).isDefined ∧
        (Calculation.fraction least 0).value = .error .zeroDenominator) ∧
      (least ≠ 0 ∧ ofWords least least = .ok (least.toInt / least.toInt)) ∧
      (quarter ≠ 0 ∧ (ofWords 2 least = ofWords (-1) quarter ↔
        (2 : Int64).toInt * quarter.toInt = (-1 : Int64).toInt * least.toInt)) ∧
      Fraction.GovernsExactly ⟨1, -3⟩ ⟨1, 2⟩ ((1 : ℤ) / (-3 : ℤ)) ((1 : ℤ) / (2 : ℤ)) ∧
      IsToldByText (-2 / 3) := by
  intro least quarter c
  have hleast : least ≠ 0 := by decide
  have hquarter : quarter ≠ 0 := by decide
  have hc : c.isDefined := by decide
  have hzero : ¬(Calculation.fraction least 0).isDefined := by decide
  obtain ⟨hvalue, hwords, hequal, -, hgoverns, htext⟩ := isExact_atEveryBound
  refine ⟨⟨hc, (hvalue c).1 hc⟩, ⟨hzero, (hvalue _).2 hzero⟩, ⟨hleast, hwords least least hleast⟩,
    ⟨hquarter, hequal 2 least (-1) quarter hleast hquarter⟩, ?_, htext _⟩
  exact hgoverns _ _ _ _ (Fraction.reducesTo_div (by decide)) (Fraction.reducesTo_div (by decide))

end Rational
end PivotCoefficients
