import PivotCoefficients.Symbol

/-!
# Tokens of formulas

Formulas are written with names, whole numbers, whole numbers ending in `.0`,
the signs `+ - * / ^` and parentheses. Blanks only separate. `scan` takes the
longest name or number at each place.
-/
namespace PivotCoefficients

inductive Token where
  | name (text : String)
  /-- `12` -/
  | whole (n : Nat)
  /-- `12.0` -/
  | point (n : Nat)
  | plus
  | minus
  | times
  | over
  | caret
  | opening
  | closing
  deriving DecidableEq, Repr

/-- A letter or an underscore, ASCII only. -/
def isNameStart (c : Char) : Bool := c.isAlpha || c == '_'

def isNameRest (c : Char) : Bool := c.isAlphanum || c == '_'

/-- The name can stand in a formula. -/
def Symbol.isIdentifier (s : Symbol) : Bool :=
  match s.name.toList with
  | [] => false
  | c :: cs => isNameStart c && cs.all isNameRest

namespace Token

def mark? : Char → Option Token
  | '+' => some .plus
  | '-' => some .minus
  | '*' => some .times
  | '/' => some .over
  | '^' => some .caret
  | '(' => some .opening
  | ')' => some .closing
  | _ => none

theorem length_dropWhile_le {α : Type} (p : α → Bool) (l : List α) :
    (l.dropWhile p).length ≤ l.length :=
  (List.dropWhile_sublist p).length_le

/-- A number followed by `.0`, or a whole number, and what comes after it. -/
def ofDigits (n : Nat) : List Char → Token × List Char
  | '.' :: '0' :: rest => (.point n, rest)
  | rest => (.whole n, rest)

theorem length_ofDigits_le (n : Nat) (cs : List Char) : (ofDigits n cs).2.length ≤ cs.length := by
  unfold ofDigits
  split
  · simp only [List.length_cons]
    omega
  · exact Nat.le_refl _

/-- The tokens of a text, if it has no other characters. -/
def scan : List Char → Option (List Token)
  | [] => some []
  | c :: cs =>
    if c = ' ' then scan cs
    else
      match mark? c with
      | some t => (scan cs).map (t :: ·)
      | none =>
        if isNameStart c then
          (scan (cs.dropWhile isNameRest)).map
            (.name (String.ofList (c :: cs.takeWhile isNameRest)) :: ·)
        else if c.isDigit then
          let n := Nat.ofDigitChars 10 (c :: cs.takeWhile Char.isDigit) 0
          let next := ofDigits n (cs.dropWhile Char.isDigit)
          (scan next.2).map (next.1 :: ·)
        else none
termination_by cs => cs.length
decreasing_by
  · simp
  · simp
  · have h := length_dropWhile_le isNameRest cs
    simp only [List.length_cons]
    omega
  · have h := length_dropWhile_le Char.isDigit cs
    have h' := length_ofDigits_le (Nat.ofDigitChars 10 (c :: cs.takeWhile Char.isDigit) 0)
      (cs.dropWhile Char.isDigit)
    simp only [List.length_cons]
    omega

@[simp] theorem scan_nil : scan [] = some [] := by
  simp [scan]

@[simp] theorem scan_blank (cs : List Char) : scan (' ' :: cs) = scan cs := by
  rw [scan, if_pos rfl]

theorem scan_mark {c : Char} {t : Token} (hc : c ≠ ' ') (h : mark? c = some t) (cs : List Char) :
    scan (c :: cs) = (scan cs).map (t :: ·) := by
  rw [scan, if_neg hc, h]

end Token

end PivotCoefficients
