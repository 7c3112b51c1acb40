import PivotCoefficients.Proofs.Formula.Polynomial
import PivotCoefficients.Proofs.Formula.Scanning

/-!
# Texts that show formulas

A text shows a product when reading it where an operand is due brings its
operands together, whatever stands before and after. Signed products that follow
one another show how a sum goes on.
-/
namespace PivotCoefficients.Formula

open MvPolynomial Token

def product : List Formula → Formula
  | [] => .number 1
  | f :: fs => fs.foldl .mul f

/-- A minus sign in front of a product belongs to its first operand. -/
def negateFirst : List Formula → List Formula
  | [] => [.number (-1)]
  | f :: fs => .neg f :: fs

theorem polynomial_foldl_mul (f : Formula) (fs : List Formula) :
    (fs.foldl .mul f).polynomial = f.polynomial * (fs.map polynomial).prod := by
  induction fs generalizing f with
  | nil => simp
  | cons g fs ih =>
    rw [List.foldl_cons, ih, polynomial, List.map_cons, List.prod_cons, mul_assoc]

theorem polynomial_product (fs : List Formula) :
    (product fs).polynomial = (fs.map polynomial).prod := by
  cases fs with
  | nil => simp [product, polynomial]
  | cons f fs => rw [product, polynomial_foldl_mul, List.map_cons, List.prod_cons]

theorem polynomial_product_negateFirst (fs : List Formula) :
    (product (negateFirst fs)).polynomial = -(product fs).polynomial := by
  cases fs with
  | nil => simp [negateFirst, product, polynomial]
  | cons f fs =>
    rw [negateFirst, polynomial_product, polynomial_product, List.map_cons, List.map_cons,
      List.prod_cons, List.prod_cons, polynomial, neg_mul]

theorem names_foldl_mul (f : Formula) (fs : List Formula) :
    (fs.foldl .mul f).names = f.names ++ fs.flatMap names := by
  induction fs generalizing f with
  | nil => simp
  | cons g fs ih => rw [List.foldl_cons, ih, names, List.flatMap_cons, List.append_assoc]

theorem names_product (fs : List Formula) : (product fs).names = fs.flatMap names := by
  cases fs with
  | nil => rfl
  | cons f fs => rw [product, names_foldl_mul, List.flatMap_cons]

theorem names_product_negateFirst (fs : List Formula) :
    (product (negateFirst fs)).names = (product fs).names := by
  rw [names_product, names_product]
  cases fs with
  | nil => rfl
  | cons f fs => rfl

/-- The characters are read as the operands of a product. The first of them is
taken the way `times` says. -/
def ShowsProduct (cs : List Char) (fs : List Formula) : Prop :=
  ∃ f gs ts, fs = f :: gs ∧ Shows cs ts ∧ ∀ plus times rest,
    readOperand plus times (ts ++ rest) = readOperator plus (product (times f :: gs)) rest

/-- The characters are read as what makes a whole sum of the sum before them. -/
def ShowsRest (cs : List Char) (complete : Formula → Formula) : Prop :=
  ∃ ts, Breaks cs ∧ Shows cs ts ∧ ∀ plus term,
    readOperator plus term ts = some (complete (plus term))

theorem showsProduct_name {s : Symbol} (hs : s.isIdentifier) :
    ShowsProduct s.name.toList [.name s] :=
  ⟨_, _, _, rfl, shows_name hs, fun _ _ _ => rfl⟩

theorem showsProduct_whole (n : ℕ) : ShowsProduct (Nat.toDigits 10 n) [.number n] :=
  ⟨_, _, _, rfl, shows_whole n, fun _ _ _ => rfl⟩

theorem showsProduct_point (n : ℕ) :
    ShowsProduct (Nat.toDigits 10 n ++ ['.', '0']) [.number n] :=
  ⟨_, _, _, rfl, shows_point n, fun _ _ _ => rfl⟩

theorem showsProduct_fraction (n d : ℕ) (hd : d ≠ 0) :
    ShowsProduct ('(' :: (Nat.toDigits 10 n ++ ['.', '0']) ++
      '/' :: (Nat.toDigits 10 d ++ ['.', '0']) ++ [')']) [.number (Rat.divInt n d)] := by
  have hopen : Shows ('(' :: (Nat.toDigits 10 n ++ ['.', '0'])) [.opening, .point n] :=
    (shows_point n).mark_cons (by decide) rfl
  have hover := hopen.append_mark (c := '/') (by decide) rfl (shows_point d)
  have hshow := hover.append_mark (c := ')') (by decide) rfl shows_nil
  refine ⟨_, _, _, rfl, hshow, ?_⟩
  intro plus times rest
  simp only [List.cons_append, List.nil_append]
  rw [readOperand, if_neg hd]
  rfl

theorem ShowsProduct.times {cs ds : List Char} {fs gs : List Formula} (hc : ShowsProduct cs fs)
    (hd : ShowsProduct ds gs) : ShowsProduct (cs ++ '*' :: ds) (fs ++ gs) := by
  obtain ⟨f, fs', ts, rfl, hts, hread⟩ := hc
  obtain ⟨g, gs', us, rfl, hus, hread'⟩ := hd
  refine ⟨f, fs' ++ g :: gs', _, rfl, hts.append_mark (by decide) rfl hus, ?_⟩
  intro plus times rest
  rw [List.append_assoc, hread, List.cons_append, readOperator, hread']
  simp [product]

theorem showsRest_nil : ShowsRest [] id :=
  ⟨[], breaks_nil, shows_nil, fun _ _ => rfl⟩

theorem showsRest_sign_cons (c : Char) (t : Token) (join : Formula → Formula → Formula)
    (hc : c ≠ ' ') (ht : mark? c = some t)
    (hjoin : ∀ plus term rest,
      readOperator plus term (t :: rest) = readOperand (join (plus term)) id rest)
    {cs ds : List Char} {fs : List Formula} {complete : Formula → Formula}
    (hcs : ShowsProduct cs fs) (hds : ShowsRest ds complete) :
    ShowsRest (' ' :: c :: ' ' :: cs ++ ds) (fun f => complete (join f (product fs))) := by
  obtain ⟨f, fs', ts, rfl, hts, hread⟩ := hcs
  obtain ⟨us, hbreak, hus, hread'⟩ := hds
  have hsign : Shows (' ' :: c :: ' ' :: cs) (t :: ts) :=
    (hts.blank_cons.mark_cons hc ht).blank_cons
  refine ⟨_, breaks_blank _, hsign.append hus hbreak, ?_⟩
  intro plus term
  rw [List.cons_append, hjoin, hread, hread']
  rfl

/-- A product and what follows it are read as the sum that they make. -/
theorem ShowsProduct.readOperand_eq {cs ds : List Char} {fs : List Formula}
    {complete : Formula → Formula} (hc : ShowsProduct cs fs) (hd : ShowsRest ds complete) :
    (scan (cs ++ ds)).bind (readOperand id id) = some (complete (product fs)) := by
  obtain ⟨f, fs', ts, rfl, hts, hread⟩ := hc
  obtain ⟨us, hbreak, hus, hread'⟩ := hd
  rw [(hts.append hus hbreak).scan_eq, Option.bind_some, hread, hread']
  rfl

/-- The same with a minus sign in front, which the first operand takes. -/
theorem ShowsProduct.readOperand_minus {cs ds : List Char} {fs : List Formula}
    {complete : Formula → Formula} (hc : ShowsProduct cs fs) (hd : ShowsRest ds complete) :
    (scan ('-' :: cs ++ ds)).bind (readOperand id id) =
      some (complete (product (negateFirst fs))) := by
  obtain ⟨f, fs', ts, rfl, hts, hread⟩ := hc
  obtain ⟨us, hbreak, hus, hread'⟩ := hd
  have hsign : Shows ('-' :: cs) (.minus :: ts) := hts.mark_cons (by decide) rfl
  rw [(hsign.append hus hbreak).scan_eq, Option.bind_some, List.cons_append, readOperand, hread,
    hread']
  rfl

end PivotCoefficients.Formula
