import PivotCoefficients.ArrayLiteral.Target
import PivotCoefficients.Proofs.Formula.Reading

/-!
# The grammar of array elements

The elements of an array are sums in ordinary infix notation, with numbers as the
target spells them. The grammar relates these texts to the formulas they show, one
production for each way to write a formula, and reading finds exactly its formulas.
-/
namespace PivotCoefficients.Target

open Formula Token

/-- A name, an integer literal of the target, or a fraction of floating point literals. -/
inductive IsFactor (target : Target) : String → Formula → Prop
  | name {s : Symbol} (hs : s.isIdentifier) : IsFactor target s.name (.name s)
  | integer (n : ℕ) : IsFactor target (target.integer n) (.number n)
  | fraction (n : ℕ) {d : ℕ} (hd : d ≠ 0) :
      IsFactor target ("(" ++ Decimal.digits n ++ ".0/" ++ Decimal.digits d ++ ".0)")
        (.number (Rat.divInt n d))

/-- Factors joined by `*`, with the operands that they show. -/
inductive IsProduct (target : Target) : String → List Formula → Prop
  | factor {a : String} {f : Formula} (ha : target.IsFactor a f) : IsProduct target a [f]
  | times {a b : String} {fs : List Formula} {g : Formula} (ha : IsProduct target a fs)
      (hb : target.IsFactor b g) : IsProduct target (a ++ "*" ++ b) (fs ++ [g])

/-- Products joined by signs between blanks. A minus sign in front of the first product binds
more tightly than `*`, as it does in every target. -/
inductive IsSum (target : Target) : String → Formula → Prop
  | product {a : String} {fs : List Formula} (ha : target.IsProduct a fs) :
      IsSum target a (product fs)
  | minus {a : String} {fs : List Formula} (ha : target.IsProduct a fs) :
      IsSum target ("-" ++ a) (product (negateFirst fs))
  | add {a b : String} {f : Formula} {gs : List Formula} (ha : IsSum target a f)
      (hb : target.IsProduct b gs) : IsSum target (a ++ " + " ++ b) (.add f (Formula.product gs))
  | sub {a b : String} {f : Formula} {gs : List Formula} (ha : IsSum target a f)
      (hb : target.IsProduct b gs) : IsSum target (a ++ " - " ++ b) (.sub f (Formula.product gs))

variable {target : Target} {a b : String} {f : Formula} {fs gs : List Formula}

/-- Products joined by `*` are a product, however long the second one is. -/
theorem IsProduct.append (ha : target.IsProduct a fs) (hb : target.IsProduct b gs) :
    target.IsProduct (a ++ "*" ++ b) (fs ++ gs) := by
  induction hb with
  | factor hb => exact ha.times hb
  | times _ hc ih =>
    have htimes := ih.times hc
    simpa only [String.append_assoc, List.append_assoc] using htimes

theorem IsFactor.showsProduct (h : target.IsFactor a f) : ShowsProduct a.toList [f] := by
  cases h with
  | name hs => exact showsProduct_name hs
  | integer n =>
    cases target with
    | c => simpa [Target.integer] using showsProduct_whole n
    | rust => simpa [Target.integer] using showsProduct_point n
    | python => simpa [Target.integer] using showsProduct_whole n
  | fraction n hd => simpa using showsProduct_fraction n _ hd

theorem IsProduct.showsProduct (h : target.IsProduct a fs) : ShowsProduct a.toList fs := by
  induction h with
  | factor ha => exact ha.showsProduct
  | times _ hb ih => simpa using ih.times hb.showsProduct

/-- A sum is read as its formula, to which what follows is then joined. -/
theorem IsSum.readOperand_eq (h : target.IsSum a f) {ds : List Char}
    {complete : Formula → Formula} (hds : ShowsRest ds complete) :
    (scan (a.toList ++ ds)).bind (readOperand id id) = some (complete f) := by
  -- The rest grows from the right as the signs of a sum are taken apart from its end.
  induction h generalizing ds complete with
  | product ha => exact ha.showsProduct.readOperand_eq hds
  | minus ha => simpa using ha.showsProduct.readOperand_minus hds
  | add _ hb ih =>
    have hrest := showsRest_sign_cons '+' .plus .add (by decide) rfl (fun _ _ _ => rfl)
      hb.showsProduct hds
    simpa using ih hrest
  | sub _ hb ih =>
    have hrest := showsRest_sign_cons '-' .minus .sub (by decide) rfl (fun _ _ _ => rfl)
      hb.showsProduct hds
    simpa using ih hrest

theorem IsSum.read?_eq (h : target.IsSum a f) : read? a = some f := by
  have hread := h.readOperand_eq showsRest_nil
  rw [List.append_nil] at hread
  exact hread

end PivotCoefficients.Target
