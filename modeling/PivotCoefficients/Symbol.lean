/-!
# Symbols

A symbol is its name: any string, the empty one included. Symbols are ordered
by name, character by character, which is also the order of the UTF-8 bytes.
-/
namespace PivotCoefficients

structure Symbol where
  name : String
  deriving DecidableEq, Hashable, Repr

namespace Symbol

instance : Ord Symbol := ⟨fun s t => compare s.name t.name⟩

instance : Std.TransOrd Symbol where
  eq_swap := Std.OrientedOrd.eq_swap (α := String)
  isLE_trans := Std.TransOrd.isLE_trans (α := String)

instance : Std.LawfulEqOrd Symbol where
  compare_self := Std.ReflOrd.compare_self (α := String)
  eq_of_compare h := congrArg Symbol.mk (Std.LawfulEqOrd.eq_of_compare (α := String) h)

def debugText (s : Symbol) : String :=
  "Symbol(" ++ s.name ++ ")"

end Symbol

end PivotCoefficients
