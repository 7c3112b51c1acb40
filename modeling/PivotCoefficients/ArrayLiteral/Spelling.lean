import PivotCoefficients.Rational

/-!
# Spelling of array literals

An array literal is a comment line, an opening line, one line for each element
and a closing line. A spelling gives the text of these parts in one language,
and of the numbers in between.
-/
namespace PivotCoefficients

structure Spelling where
  /-- The comment line that shows a text. -/
  comment : String → String
  /-- The opening line of an array of the given name and length. -/
  openArray : String → Nat → String
  closeArray : String
  /-- What follows each element. -/
  separator : String := ","
  integer : Int → String
  /-- A fraction of floating point literals, which no integer division can truncate. -/
  rational : Int → Nat → String := fun n d =>
    "(" ++ Decimal.signed n ++ ".0/" ++ Decimal.digits d ++ ".0)"

namespace Spelling

/-- A number of either form. -/
def scalar (s : Spelling) (q : Rat) : String :=
  if Rational.isInteger q then s.integer q.num else s.rational q.num q.den

def zero (s : Spelling) : String := s.integer 0

/-- A spelling of fixed pieces around the comment text, around name and length of
the array, and around integers. -/
def ofPieces (commentStart commentEnd : String) (openStart openMiddle openEnd : String)
    (close : String) (integerStart integerEnd : String) : Spelling where
  comment text := commentStart ++ text ++ commentEnd
  openArray name length := openStart ++ name ++ openMiddle ++ Decimal.digits length ++ openEnd
  closeArray := close
  integer n := integerStart ++ Decimal.signed n ++ integerEnd

end Spelling

end PivotCoefficients
