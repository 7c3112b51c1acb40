import PivotCoefficients.Expression.Basic
import PivotCoefficients.Formula.Token

/-!
# Reading expressions back

The terms of an expression are read from its text in the order they stand in:
each is a coefficient, a product of symbol powers, or the two joined by `*`.
Nothing is sorted, merged or multiplied out, so a text shows one list of terms
and no other. The text `0` shows the empty list.
-/
namespace PivotCoefficients.Expression

def withSign (negative : Bool) (c : Rat) : Rat :=
  if negative then -c else c

mutual

/-- Reads terms where the first begins, after a minus sign if `negative`. -/
def readTerms (negative : Bool) : List Token → Option (List Term)
  | .whole n :: .over :: .whole d :: rest =>
    if d = 0 then none else readFactors (withSign negative (Rat.divInt n d)) [] rest
  | .whole n :: rest => readFactors (withSign negative (n : Rat)) [] rest
  | .name text :: .caret :: .whole k :: rest => readFactors (withSign negative 1) [(⟨text⟩, k)] rest
  | .name text :: rest => readFactors (withSign negative 1) [(⟨text⟩, 1)] rest
  | _ => none

/-- Reads on in a term with coefficient `c` and the factors `fs` so far. -/
def readFactors (c : Rat) (fs : List (Symbol × Nat)) : List Token → Option (List Term)
  | [] => some [(⟨fs⟩, c)]
  | .times :: .name text :: .caret :: .whole k :: rest => readFactors c (fs ++ [(⟨text⟩, k)]) rest
  | .times :: .name text :: rest => readFactors c (fs ++ [(⟨text⟩, 1)]) rest
  | .plus :: rest => (readTerms false rest).map ((⟨fs⟩, c) :: ·)
  | .minus :: rest => (readTerms true rest).map ((⟨fs⟩, c) :: ·)
  | _ => none

end

def termsOfText? (text : String) : Option (List Term) :=
  match Token.scan text.toList with
  | some [.whole 0] => some []
  | some (.minus :: rest) => readTerms true rest
  | some ts => readTerms false ts
  | none => none

end PivotCoefficients.Expression
