import PivotCoefficients.Expression.Evaluation
import PivotCoefficients.Formula.Token

/-!
# Formulas

Ordinary arithmetic as source text writes it: names, numbers, fractions in
parentheses, and the operators `+`, `-` and `*`, where `*` binds more tightly
and operators of one rank associate to the left. A formula has a value under a
binding, and it is also an expression, built with the arithmetic of expressions.
-/
namespace PivotCoefficients

inductive Formula where
  | number (q : Rat)
  | name (s : Symbol)
  | neg (f : Formula)
  | add (f g : Formula)
  | sub (f g : Formula)
  | mul (f g : Formula)
  deriving DecidableEq, Repr

namespace Formula

/-- The value of a formula, computed on rationals alone. -/
def evaluate (ρ : Binding) : Formula → Except DerivationError Rat
  | .number q => .ok q
  | .name s => ρ.get s
  | .neg f => do return -(← f.evaluate ρ)
  | .add f g => do return (← f.evaluate ρ) + (← g.evaluate ρ)
  | .sub f g => do return (← f.evaluate ρ) - (← g.evaluate ρ)
  | .mul f g => do return (← f.evaluate ρ) * (← g.evaluate ρ)

def toExpression : Formula → Expression
  | .number q => .constant q
  | .name s => .ofSymbol s
  | .neg f => -f.toExpression
  | .add f g => f.toExpression + g.toExpression
  | .sub f g => f.toExpression - g.toExpression
  | .mul f g => f.toExpression * g.toExpression

mutual

/-- Reads a formula where an operand is due. The term read so far is applied by
`times` to the operand, and the finished sum so far by `plus` to the term. -/
def readOperand (plus times : Formula → Formula) : List Token → Option Formula
  | .minus :: rest => readOperand plus (fun f => times (.neg f)) rest
  | .name text :: rest => readOperator plus (times (.name ⟨text⟩)) rest
  | .whole n :: rest => readOperator plus (times (.number (n : Rat))) rest
  | .point n :: rest => readOperator plus (times (.number (n : Rat))) rest
  | .opening :: .point n :: .over :: .point d :: .closing :: rest =>
    if d = 0 then none
    else readOperator plus (times (.number (Rat.divInt n d))) rest
  | _ => none

def readOperator (plus : Formula → Formula) (term : Formula) : List Token → Option Formula
  | [] => some (plus term)
  | .times :: rest => readOperand plus (.mul term) rest
  | .plus :: rest => readOperand (.add (plus term)) id rest
  | .minus :: rest => readOperand (.sub (plus term)) id rest
  | _ => none

end

/-- The formula that a text shows. -/
def read? (text : String) : Option Formula :=
  (Token.scan text.toList).bind (readOperand id id)

end Formula

end PivotCoefficients
