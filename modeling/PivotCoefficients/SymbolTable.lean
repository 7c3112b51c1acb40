import Std.Data.HashMap
import PivotCoefficients.Error
import PivotCoefficients.Symbol

/-!
# Symbol tables

A table lists its symbols in the order of their first declaration. An index
from names to positions in that list answers look-ups.
-/
namespace PivotCoefficients

structure SymbolTable where
  index : Std.HashMap String Nat
  symbols : Array Symbol

namespace SymbolTable

def empty : SymbolTable := ⟨∅, #[]⟩

def names (t : SymbolTable) : List String :=
  t.symbols.toList.map Symbol.name

def size (t : SymbolTable) : Nat := t.symbols.size

def isEmpty (t : SymbolTable) : Bool := t.symbols.isEmpty

/-- The symbol at the position that the index gives for `name`. -/
def find? (t : SymbolTable) (name : String) : Option Symbol :=
  t.index[name]?.bind (t.symbols[·]?)

/-- The symbol called `name`, which is appended unless the table has it already. -/
def declare (t : SymbolTable) (name : String) : Symbol × SymbolTable :=
  match t.find? name with
  | some s => (s, t)
  | none => (⟨name⟩, ⟨t.index.insert name t.symbols.size, t.symbols.push ⟨name⟩⟩)

/-- Declares the names from left to right. The symbols come back in that order,
a repeated name repeated. -/
def declareAll (t : SymbolTable) : List String → List Symbol × SymbolTable
  | [] => ([], t)
  | name :: rest =>
    let (s, t) := t.declare name
    let (ss, t) := t.declareAll rest
    (s :: ss, t)

def contains (t : SymbolTable) (name : String) : Bool :=
  t.index.contains name

def lookup (t : SymbolTable) (name : String) : Except DerivationError Symbol :=
  match t.find? name with
  | some s => .ok s
  | none => .error (.unknownSymbol name)

/-- Accepts a symbol when its name is declared here, whatever table made it. -/
def require (t : SymbolTable) (s : Symbol) : Except DerivationError Unit :=
  if t.contains s.name then .ok () else .error (.unknownSymbol s.name)

@[simp] theorem names_empty : empty.names = [] := rfl

@[simp] theorem declareAll_nil (t : SymbolTable) : t.declareAll [] = ([], t) := rfl

theorem declareAll_cons (t : SymbolTable) (name : String) (rest : List String) :
    t.declareAll (name :: rest) =
      ((t.declare name).1 :: ((t.declare name).2.declareAll rest).1,
        ((t.declare name).2.declareAll rest).2) := rfl

end SymbolTable

end PivotCoefficients
