import PivotCoefficients.ArrayLiteral.Spelling

/-!
# Target languages

The languages array literals are written in, each with its spelling.
-/
namespace PivotCoefficients

inductive Target where
  | c
  | rust
  | python
  deriving DecidableEq, Repr

structure UnknownTarget where
  name : String
  deriving DecidableEq, Repr

def UnknownTarget.message (e : UnknownTarget) : String :=
  "unknown target `" ++ e.name ++ "` (expected c, rust or python)"

namespace Target

def all : List Target := [.c, .rust, .python]

def initial : Target := .c

def name : Target → String
  | .c => "c"
  | .rust => "rust"
  | .python => "python"

/-- The target of that name, whatever the case of its ASCII letters. -/
def ofName (name : String) : Except UnknownTarget Target :=
  match all.find? (fun t => t.name = name.map Char.toLower) with
  | some t => .ok t
  | none => .error ⟨name⟩

def commentMarker : Target → String
  | .c => "//"
  | .rust => "//"
  | .python => "#"

def openArray (name : String) (length : Nat) : Target → String
  | .c => "double " ++ name ++ "[" ++ Decimal.digits length ++ "] = \x7b"
  | .rust => "let " ++ name ++ ": [f64; " ++ Decimal.digits length ++ "] = ["
  | .python => name ++ " = ["

def closeArray : Target → String
  | .c => "\x7d;"
  | .rust => "];"
  | .python => "]"

/-- An integer literal, with a decimal point where integers and floating point
numbers do not mix. -/
def integer (n : Int) : Target → String
  | .rust => Decimal.signed n ++ ".0"
  | .c => Decimal.signed n
  | .python => Decimal.signed n

def spelling (t : Target) : Spelling where
  comment text := t.commentMarker ++ " " ++ text
  openArray name length := t.openArray name length
  closeArray := t.closeArray
  integer n := t.integer n

theorem ofName_eq_ok_iff {name : String} {t : Target} :
    ofName name = .ok t ↔ t.name = name.map Char.toLower := by
  unfold ofName
  constructor
  · intro h
    split at h
    · next hfind =>
      obtain rfl := Except.ok.inj h
      have hname := List.find?_some hfind
      exact of_decide_eq_true hname
    · cases h
  · intro h
    rw [← h]
    cases t <;> rfl

end Target

end PivotCoefficients
