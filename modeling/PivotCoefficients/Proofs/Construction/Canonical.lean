import PivotCoefficients.Proofs.CoefficientTable.Collection
import PivotCoefficients.Proofs.Construction
import PivotCoefficients.Proofs.Operand.Closure

/-!
# Constructions keep the canonical form

One step keeps the canonical form of everything made so far, so a whole
construction does. Conversely every canonical monomial and expression is made
by some construction: canonical form is all there is to say about them.
-/
namespace PivotCoefficients

namespace CoefficientTable

theorem isCanonical_sumFrom {p q s : Expression} {cs : List Expression} (hp : p.IsCanonical)
    (hq : q.IsCanonical) (hs : s.IsCanonical) (hcs : ∀ c ∈ cs, c.IsCanonical) :
    (sumFrom p q s cs).IsCanonical := by
  induction cs generalizing q s with
  | nil => exact hs
  | cons c cs ih =>
    have hcs' := List.forall_mem_cons.mp hcs
    exact ih (hq.mul hp) (hs.add (hcs'.1.mul hq)) hcs'.2

theorem isCanonical_toExpression {t : CoefficientTable}
    (h : ∀ c ∈ t.coefficients, c.IsCanonical) : t.toExpression.IsCanonical :=
  isCanonical_sumFrom (Expression.isCanonical_ofSymbol _) Expression.isCanonical_one
    Expression.isCanonical_zero h

end CoefficientTable

theorem Expression.isClosed_isCanonical : IsClosed IsCanonical where
  constant := isCanonical_constant
  add := .add
  sub := .sub
  mul := .mul
  scale := .scale

theorem Operand.isCanonical_iff {x : Operand} :
    x.IsCanonical ↔ x.ForallExpressions Expression.IsCanonical := by
  cases x with
  | number q => exact Iff.rfl
  | symbol s => exact iff_of_true trivial (Expression.isCanonical_ofSymbol s)
  | expression e => exact Iff.rfl
  | matrix m => exact Iff.rfl

variable {made : List Item} {x : Item}

/-- One operation on canonical items has a canonical result. -/
theorem Step.isCanonical (h : Step made x) (hmade : ∀ y ∈ made, y.IsCanonical) :
    x.IsCanonical := by
  have hclosed := Expression.isClosed_isCanonical
  have hoperand : ∀ {y : Operand}, .operand y ∈ made →
      y.ForallExpressions Expression.IsCanonical :=
    fun hy => Operand.isCanonical_iff.mp (hmade _ hy)
  cases h with
  | monomialOne => exact Monomial.isCanonical_one
  | monomialVar s => exact Monomial.isCanonical_var s
  | monomialOfFactors fs => exact Monomial.isCanonical_ofFactors fs
  | monomialMul hm hn => exact Monomial.IsCanonical.mul (hmade _ hm) (hmade _ hn)
  | monomialExtract s hm => exact Monomial.IsCanonical.without (hmade _ hm) s
  | monomialOfTerm he ht => exact Expression.IsCanonical.monomial_of_mem (hmade _ he) ht
  | ofTerms hts => exact Expression.isCanonical_ofTerms (fun t ht => hmade _ (hts t ht))
  | zero => exact Expression.isCanonical_zero
  | one => exact Expression.isCanonical_one
  | constant c => exact Expression.isCanonical_constant c
  | ofSymbol s => exact Expression.isCanonical_ofSymbol s
  | ofMonomial hm => exact Expression.isCanonical_ofMonomial (hmade _ hm)
  | add ha hb => exact Expression.IsCanonical.add (hmade _ ha) (hmade _ hb)
  | sub ha hb => exact Expression.IsCanonical.sub (hmade _ ha) (hmade _ hb)
  | neg ha => exact Expression.IsCanonical.neg (hmade _ ha)
  | scale k ha => exact Expression.IsCanonical.scale (hmade _ ha) k
  | mul ha hb => exact Expression.IsCanonical.mul (hmade _ ha) (hmade _ hb)
  | pow n ha => exact Expression.IsCanonical.pow (hmade _ ha) n
  | substitute s he hv => exact Expression.IsCanonical.substitute (hmade _ he) (hmade _ hv) s
  | collect p n he ht => exact Expression.IsCanonical.of_mem_collect (hmade _ he) ht
  | tableEntry d ht he => exact hmade _ ht _ (List.mem_of_getElem? he)
  | tableLeading ht => exact hmade _ ht _ (List.getLast_mem _)
  | tableToExpression ht => exact CoefficientTable.isCanonical_toExpression (hmade _ ht)
  | matrixOfFn hf => exact Matrix3.forallEntries_ofFn (fun i j => hmade _ (hf i j))
  | matrixEntry i j hm => exact hmade _ hm i j
  | matrixSetEntry i j hm he => exact Matrix3.ForallEntries.setEntry (hmade _ hm) (hmade _ he) i j
  | matrixTranspose hm => exact Matrix3.forallEntries_ofFn (fun i j => hmade _ hm j i)
  | matrixSwapRows i j hm => exact Matrix3.forallEntries_ofFn (fun _ c => hmade _ hm _ c)
  | matrixScaleRow i hm hk =>
    exact Matrix3.ForallEntries.scaleRow Expression.IsCanonical.mul (hmade _ hm) (hmade _ hk) i
  | matrixAdd hm hn => exact Matrix3.ForallEntries.add .add (hmade _ hm) (hmade _ hn)
  | matrixSub hm hn => exact Matrix3.ForallEntries.sub .sub (hmade _ hm) (hmade _ hn)
  | matrixScale hm hk => exact Matrix3.ForallEntries.scale .mul (hmade _ hm) (hmade _ hk)
  | matrixDet hm =>
    exact Matrix3.ForallEntries.det (P := Expression.IsCanonical) .add .sub .mul (hmade _ hm)
  | operandNumber q => trivial
  | operandSymbol s => trivial
  | @operandExpression e he => exact (hmade (.expression e) he : e.IsCanonical)
  | @operandMatrix m hm => exact (hmade (.matrix m) hm : m.ForallEntries Expression.IsCanonical)
  | operandOfEntries hentries hz =>
    exact Operand.isCanonical_iff.mpr (.ofEntries hclosed (fun i => hoperand (hentries i)) hz)
  | operandAdd hx hy hz =>
    exact Operand.isCanonical_iff.mpr ((hoperand hx).add hclosed (hoperand hy) hz)
  | operandSub hx hy hz =>
    exact Operand.isCanonical_iff.mpr ((hoperand hx).sub hclosed (hoperand hy) hz)
  | operandMultiply hx hy hz =>
    exact Operand.isCanonical_iff.mpr ((hoperand hx).multiply hclosed (hoperand hy) hz)
  | operandPower n hx hz => exact Operand.isCanonical_iff.mpr ((hoperand hx).power hclosed hz)
  | operandScale k hx hz => exact Operand.isCanonical_iff.mpr ((hoperand hx).scale hclosed hz)
  | operandNeg hx hz => exact Operand.isCanonical_iff.mpr ((hoperand hx).scale hclosed hz)
  | operandDeterminant hx hz =>
    exact Operand.isCanonical_iff.mpr ((hoperand hx).determinant hclosed hz)
  | operandAsExpression _ hx he => exact (hoperand hx).asExpression hclosed he
  | operandAsMatrix _ hx hm =>
    have h := hmade _ hx
    rw [Operand.asMatrix_eq_ok hm] at h
    exact h

/-- Everything a construction makes is canonical. -/
theorem Construction.isCanonical (h : Construction made) : ∀ y ∈ made, y.IsCanonical := by
  induction h with
  | start => simp
  | step _ hstep ih => exact List.forall_mem_cons.mpr ⟨hstep.isCanonical ih, ih⟩

/-- Constructed monomials ascend strictly in their symbols and have no exponent below one.
Constructed expressions descend strictly in their monomials and have no coefficient zero. The
same holds inside of tables, matrices and operands. -/
theorem Construction.ordered_and_nonzero (h : Construction made) :
    (∀ m, .monomial m ∈ made →
      m.factors.Pairwise (fun f g => compare f.1 g.1 = .lt) ∧ ∀ f ∈ m.factors, 1 ≤ f.2) ∧
    (∀ e, .expression e ∈ made →
      e.terms.Pairwise (fun s t => compare s.1 t.1 = .gt) ∧
        ∀ t ∈ e.terms, t.1.IsCanonical ∧ t.2 ≠ 0) ∧
    (∀ t, .table t ∈ made → ∀ e ∈ t.coefficients, e.IsCanonical) ∧
    (∀ m, .matrix m ∈ made → ∀ i j, (m.entry i j).IsCanonical) ∧
    ∀ x, .operand x ∈ made → x.IsCanonical :=
  ⟨fun _ => h.isCanonical _, fun _ => h.isCanonical _, fun _ => h.isCanonical _,
    fun _ => h.isCanonical _, fun _ => h.isCanonical _⟩

/-- The sum of two symbols times their difference, where the mixed terms cancel. -/
theorem Construction.ordered_and_nonzero_of_cancelled :
    let x := Expression.ofSymbol ⟨"x"⟩
    let y := Expression.ofSymbol ⟨"y"⟩
    let made := [Item.expression ((x + y) * (x - y)), .expression (x - y), .expression (x + y),
      .expression y, .expression x]
    Construction made ∧ ∀ e, .expression e ∈ made →
      e.terms.Pairwise (fun s t => compare s.1 t.1 = .gt) ∧
        ∀ t ∈ e.terms, t.1.IsCanonical ∧ t.2 ≠ 0 := by
  intro x y made
  have hsymbols : Construction [.expression y, .expression x] :=
    .step (.step .start (.ofSymbol _)) (.ofSymbol _)
  have hsum : Construction [.expression (x + y), .expression y, .expression x] :=
    .step hsymbols (.add (by simp) (by simp))
  have hdifference : Construction
      [.expression (x - y), .expression (x + y), .expression y, .expression x] :=
    .step hsum (.sub (by simp) (by simp))
  have h : Construction made := .step hdifference (.mul (by simp) (by simp))
  exact ⟨h, (Construction.ordered_and_nonzero h).2.1⟩

theorem Expression.IsConstructible.isCanonical {e : Expression} (h : e.IsConstructible) :
    e.IsCanonical := by
  obtain ⟨made, hmade, he⟩ := h
  exact hmade.isCanonical _ he

theorem Monomial.IsConstructible.isCanonical {m : Monomial} (h : m.IsConstructible) :
    m.IsCanonical := by
  obtain ⟨made, hmade, hm⟩ := h
  exact hmade.isCanonical _ hm

theorem Expression.IsCanonical.ofTerms_terms {e : Expression} (he : e.IsCanonical) :
    ofTerms e.terms = e := by
  apply (isCanonical_ofTerms (fun _ => he.monomial_of_mem)).eq_of_polynomial_eq he
  rw [polynomial_ofTerms, polynomial]

/-- Canonical monomials, any number of them, are made one after another from their factors. -/
theorem exists_construction_of_terms {ts : List Term} (hts : ∀ t ∈ ts, t.1.IsCanonical) :
    ∃ made, Construction made ∧ ∀ t ∈ ts, .monomial t.1 ∈ made := by
  induction ts with
  | nil => exact ⟨[], .start, by simp⟩
  | cons t ts ih =>
    have hts' := List.forall_mem_cons.mp hts
    obtain ⟨made, hmade, hmem⟩ := ih hts'.2
    refine ⟨.monomial (.ofFactors t.1.factors) :: made, .step hmade (.monomialOfFactors _), ?_⟩
    rw [hts'.1.ofFactors_factors]
    exact List.forall_mem_cons.mpr ⟨List.mem_cons_self,
      fun u hu => List.mem_cons_of_mem _ (hmem u hu)⟩

theorem Monomial.isConstructible_iff {m : Monomial} : m.IsConstructible ↔ m.IsCanonical := by
  refine ⟨fun h => h.isCanonical, fun hm => ?_⟩
  refine ⟨_, .step .start (.monomialOfFactors m.factors), ?_⟩
  rw [hm.ofFactors_factors]
  exact List.mem_cons_self

theorem Expression.isConstructible_iff {e : Expression} : e.IsConstructible ↔ e.IsCanonical := by
  refine ⟨fun h => h.isCanonical, fun he => ?_⟩
  obtain ⟨made, hmade, hmem⟩ := exists_construction_of_terms (fun _ => he.monomial_of_mem)
  refine ⟨_, .step hmade (.ofTerms hmem), ?_⟩
  rw [he.ofTerms_terms]
  exact List.mem_cons_self

end PivotCoefficients
