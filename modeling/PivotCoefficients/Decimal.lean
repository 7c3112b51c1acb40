/-!
# Decimal text

Whole numbers are written in base ten without leading zeros, a negative one
after a minus sign.
-/
namespace PivotCoefficients.Decimal

/-- The digits of a natural number, most significant first. -/
def digits (n : Nat) : String :=
  String.ofList (Nat.toDigits 10 n)

def signed : Int → String
  | .ofNat n => digits n
  | .negSucc n => "-" ++ digits (n + 1)

@[simp] theorem toList_digits (n : Nat) : (digits n).toList = Nat.toDigits 10 n := by
  simp [digits]

@[simp] theorem signed_natCast (n : Nat) : signed (n : Int) = digits n := rfl

end PivotCoefficients.Decimal
