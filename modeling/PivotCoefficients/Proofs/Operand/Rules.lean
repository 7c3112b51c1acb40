import Mathlib.Data.List.FinRange
import PivotCoefficients.Proofs.Operand.Kinds

/-!
# Rules for the kinds of trees

Rules say which trees have a kind. A tree that has one by these rules is evaluated
to an operand of that kind. In every other tree some operation refuses its
operands, and evaluation ends with the error of the first one that does.
-/
namespace PivotCoefficients

namespace OperandTree

variable {t : OperandTree} {k : Kind} {e : DerivationError}

/-- `HasKind t k`: by the rules of the operations the tree `t` has the kind `k`. -/
inductive HasKind : OperandTree → Kind → Prop
  | leaf (x : Operand) : HasKind (.leaf x) x.kind
  | matrix {entries : Fin 9 → OperandTree} {kinds : Fin 9 → Kind} :
      (∀ i, HasKind (entries i) (kinds i)) → (∀ i, (kinds i).IsScalar) →
      HasKind (.matrix entries) .matrix
  | add {l r : OperandTree} {j k m : Kind} : HasKind l j → HasKind r k → Kind.IsSum j k m →
      HasKind (.add l r) m
  | sub {l r : OperandTree} {j k m : Kind} : HasKind l j → HasKind r k → Kind.IsSum j k m →
      HasKind (.sub l r) m
  | multiply {l r : OperandTree} {j k m : Kind} : HasKind l j → HasKind r k →
      Kind.IsProduct j k m → HasKind (.multiply l r) m
  | power {t : OperandTree} {k : Kind} (n : ℕ) : HasKind t k → k.IsScalar →
      HasKind (.power t n) .expression
  | scale {t : OperandTree} {k m : Kind} (q : Rat) : HasKind t k → Kind.IsMultiple k m →
      HasKind (.scale t q) m
  | neg {t : OperandTree} {k m : Kind} : HasKind t k → Kind.IsMultiple k m → HasKind (.neg t) m
  | determinant {t : OperandTree} : HasKind t .matrix → HasKind (.determinant t) .expression

/-- `Refuses t e`: the operands of the operation at the root of `t` have kinds that
it does not take, which it reports with the error `e`. -/
inductive Refuses : OperandTree → DerivationError → Prop
  | matrix {entries : Fin 9 → OperandTree} {kinds : Fin 9 → Kind} {i : Fin 9} :
      (∀ j, HasKind (entries j) (kinds j)) → kinds i = .matrix →
      Refuses (.matrix entries) (.typeMismatch .matrixAlgebra "matrix" .scalar (.kind .matrix))
  | add {l r : OperandTree} {j k m : Kind} : HasKind l j → HasKind r k → Kind.IsMixed j k m →
      Refuses (.add l r) (.typeMismatch .matrixAlgebra "add" .sameShape (.kind m))
  | sub {l r : OperandTree} {j k m : Kind} : HasKind l j → HasKind r k → Kind.IsMixed j k m →
      Refuses (.sub l r) (.typeMismatch .matrixAlgebra "sub" .sameShape (.kind m))
  | multiply {l r : OperandTree} : HasKind l .matrix → HasKind r .matrix →
      Refuses (.multiply l r) (.typeMismatch .matrixAlgebra "multiply" .someScalar .twoMatrices)
  | power {t : OperandTree} (n : ℕ) : HasKind t .matrix →
      Refuses (.power t n) (.typeMismatch .expressionAlgebra "power" .scalar (.kind .matrix))
  | determinant {t : OperandTree} {k : Kind} : HasKind t k → k.IsScalar →
      Refuses (.determinant t) (.typeMismatch .matrixAlgebra "determinant" .matrix (.kind k))

/-- The tree and all trees inside of it, in the order of evaluation: the operands
of an operation from left to right, then the operation. -/
def subtrees : OperandTree → List OperandTree
  | .leaf x => [.leaf x]
  | .matrix entries =>
    (List.finRange 9).flatMap (fun i => (entries i).subtrees) ++ [.matrix entries]
  | .add l r => l.subtrees ++ r.subtrees ++ [.add l r]
  | .sub l r => l.subtrees ++ r.subtrees ++ [.sub l r]
  | .multiply l r => l.subtrees ++ r.subtrees ++ [.multiply l r]
  | .power t n => t.subtrees ++ [.power t n]
  | .scale t q => t.subtrees ++ [.scale t q]
  | .neg t => t.subtrees ++ [.neg t]
  | .determinant t => t.subtrees ++ [.determinant t]

/-- Some tree of the list refuses its operands with the error `e`, and all trees
before it have kinds. -/
inductive FirstRefusal : List OperandTree → DerivationError → Prop
  | here {t : OperandTree} {ts : List OperandTree} {e : DerivationError} :
      t.Refuses e → FirstRefusal (t :: ts) e
  | later {t : OperandTree} {ts : List OperandTree} {k : Kind} {e : DerivationError} :
      t.HasKind k → FirstRefusal ts e → FirstRefusal (t :: ts) e

theorem kind_matrix {entries : Fin 9 → OperandTree} {kinds : Fin 9 → Kind}
    (h : ∀ i, (entries i).kind = .ok (kinds i)) :
    (OperandTree.matrix entries).kind = Kind.ofEntries (List.ofFn kinds) := by
  have hkinds : (Vector.ofFn id).mapM (fun i => (entries i).kind) = .ok (Vector.ofFn kinds) := by
    rw [mapM_entries_eq_ok_iff]
    intro i
    rw [h i, vector_get_ofFn]
  rw [OperandTree.kind, hkinds, ← Vector.toList_ofFn]
  rfl

theorem HasKind.kind_eq (h : t.HasKind k) : t.kind = .ok k := by
  induction h with
  | leaf x => rfl
  | matrix _ hscalar ih =>
    rw [kind_matrix ih, Kind.ofEntries, if_neg]
    rw [List.mem_ofFn]
    rintro ⟨i, hi⟩
    exact (hscalar i).ne_matrix hi
  | add _ _ hsum ihl ihr =>
    rw [OperandTree.kind, ihl, ihr]
    exact hsum.ofSum_eq
  | sub _ _ hsum ihl ihr =>
    rw [OperandTree.kind, ihl, ihr]
    exact hsum.ofSum_eq
  | multiply _ _ hproduct ihl ihr =>
    rw [OperandTree.kind, ihl, ihr]
    exact hproduct.ofProduct_eq
  | power n _ hscalar ih =>
    rw [OperandTree.kind, ih]
    exact hscalar.ofPower_eq
  | scale q _ hmultiple ih =>
    rw [OperandTree.kind, ih]
    exact congrArg Except.ok hmultiple.ofScale_eq
  | neg _ hmultiple ih =>
    rw [OperandTree.kind, ih]
    exact congrArg Except.ok hmultiple.ofScale_eq
  | determinant _ ih =>
    rw [OperandTree.kind, ih]
    rfl

theorem Refuses.kind_eq (h : t.Refuses e) : t.kind = .error e := by
  cases h with
  | matrix hentries hi =>
    rw [kind_matrix fun i => (hentries i).kind_eq, Kind.ofEntries, if_pos]
    exact List.mem_ofFn.mpr ⟨_, hi⟩
  | add hl hr hmixed =>
    rw [OperandTree.kind, hl.kind_eq, hr.kind_eq]
    exact hmixed.ofSum_eq
  | sub hl hr hmixed =>
    rw [OperandTree.kind, hl.kind_eq, hr.kind_eq]
    exact hmixed.ofSum_eq
  | multiply hl hr =>
    rw [OperandTree.kind, hl.kind_eq, hr.kind_eq]
    rfl
  | power n ht =>
    rw [OperandTree.kind, ht.kind_eq]
    rfl
  | determinant ht hscalar =>
    rw [OperandTree.kind, ht.kind_eq]
    exact hscalar.ofDeterminant_eq

theorem Refuses.not_hasKind (h : t.Refuses e) : ¬ t.HasKind k := by
  intro hk
  cases h.kind_eq.symm.trans hk.kind_eq

theorem HasKind.exists_of_mem_subtrees (h : t.HasKind k) : ∀ u ∈ t.subtrees, ∃ j, u.HasKind j := by
  have hself := h
  induction h with
  | leaf x =>
    simp only [subtrees, List.forall_mem_singleton]
    exact ⟨_, hself⟩
  | matrix hentries hscalar ih =>
    simp only [subtrees, List.forall_mem_append, List.forall_mem_singleton, List.forall_mem_flatMap]
    exact ⟨fun i _ => ih i (hentries i), _, hself⟩
  | add hl hr _ ihl ihr | sub hl hr _ ihl ihr | multiply hl hr _ ihl ihr =>
    simp only [subtrees, List.forall_mem_append, List.forall_mem_singleton]
    exact ⟨⟨ihl hl, ihr hr⟩, _, hself⟩
  | power _ ht _ ih | scale _ ht _ ih | neg ht _ ih | determinant ht ih =>
    simp only [subtrees, List.forall_mem_append, List.forall_mem_singleton]
    exact ⟨ih ht, _, hself⟩

namespace FirstRefusal

variable {ts us : List OperandTree}

theorem append_left (h : FirstRefusal ts e) (us : List OperandTree) :
    FirstRefusal (ts ++ us) e := by
  induction h with
  | here h => exact .here h
  | later ht _ ih => exact .later ht ih

theorem append_right (hts : ∀ t ∈ ts, ∃ k, t.HasKind k) (h : FirstRefusal us e) :
    FirstRefusal (ts ++ us) e := by
  induction ts with
  | nil => exact h
  | cons t ts ih =>
    obtain ⟨⟨k, hk⟩, hts⟩ := List.forall_mem_cons.mp hts
    exact .later hk (ih hts)

theorem not_forall_exists (h : FirstRefusal ts e) : ¬ ∀ t ∈ ts, ∃ k, t.HasKind k := by
  intro hts
  induction h with
  | here ht =>
    obtain ⟨k, hk⟩ := hts _ List.mem_cons_self
    exact ht.not_hasKind hk
  | later _ _ ih => exact ih (List.forall_mem_cons.mp hts).2

theorem unique {e' : DerivationError} (h : FirstRefusal ts e) (h' : FirstRefusal ts e') :
    e = e' := by
  induction h with
  | here ht =>
    cases h' with
    | here ht' => exact Except.error.inj (ht.kind_eq.symm.trans ht'.kind_eq)
    | later ht' _ => exact absurd ht' ht.not_hasKind
  | later ht _ ih =>
    cases h' with
    | here ht' => exact absurd ht ht'.not_hasKind
    | later _ h' => exact ih h'

end FirstRefusal

/-- The tree has a kind, or evaluation is stopped by a refusal in it. -/
def IsSettled (t : OperandTree) : Prop :=
  (∃ k, t.HasKind k) ∨ ∃ e, FirstRefusal t.subtrees e ∧ t.kind = .error e

theorem isSettled_of_refuses {ts : List OperandTree} (hsubtrees : t.subtrees = ts ++ [t])
    (hts : ∀ u ∈ ts, ∃ k, u.HasKind k) (h : t.Refuses e) : t.IsSettled := by
  refine Or.inr ⟨e, ?_, h.kind_eq⟩
  rw [hsubtrees]
  exact .append_right hts (.here h)

theorem IsSettled.unary {u : OperandTree} {f : Kind → Except DerivationError Kind}
    (hsubtrees : t.subtrees = u.subtrees ++ [t]) (hkind : t.kind = u.kind >>= f) (hu : u.IsSettled)
    (h : ∀ k, u.HasKind k → (∃ m, t.HasKind m) ∨ ∃ e, t.Refuses e) : t.IsSettled := by
  rcases hu with ⟨k, hk⟩ | ⟨e, hu, hue⟩
  · rcases h k hk with ht | ⟨e, ht⟩
    · exact Or.inl ht
    · exact isSettled_of_refuses hsubtrees hk.exists_of_mem_subtrees ht
  · refine Or.inr ⟨e, ?_, ?_⟩
    · rw [hsubtrees]
      exact hu.append_left _
    · rw [hkind, hue]
      rfl

/-- An operation on two trees is settled when it takes or refuses each pair of their kinds. -/
theorem IsSettled.binary {l r : OperandTree} {f : Kind → Kind → Except DerivationError Kind}
    (hsubtrees : t.subtrees = l.subtrees ++ r.subtrees ++ [t])
    (hkind : t.kind = l.kind >>= fun j => r.kind >>= f j) (hl : l.IsSettled) (hr : r.IsSettled)
    (h : ∀ j k, l.HasKind j → r.HasKind k → (∃ m, t.HasKind m) ∨ ∃ e, t.Refuses e) :
    t.IsSettled := by
  rcases hl with ⟨j, hj⟩ | ⟨e, hl, hle⟩
  · rcases hr with ⟨k, hk⟩ | ⟨e, hr, hre⟩
    · rcases h j k hj hk with ht | ⟨e, ht⟩
      · exact Or.inl ht
      · apply isSettled_of_refuses hsubtrees _ ht
        exact List.forall_mem_append.mpr ⟨hj.exists_of_mem_subtrees, hk.exists_of_mem_subtrees⟩
    · refine Or.inr ⟨e, ?_, ?_⟩
      · rw [hsubtrees]
        exact (hr.append_right hj.exists_of_mem_subtrees).append_left _
      · rw [hkind, hj.kind_eq, hre]
        rfl
  · refine Or.inr ⟨e, ?_, ?_⟩
    · rw [hsubtrees, List.append_assoc]
      exact hl.append_left _
    · rw [hkind, hle]
      rfl

/-- Of the entries of a matrix all have kinds, or the first that has none stops evaluation. -/
theorem settled_entries {entries : Fin 9 → OperandTree} (h : ∀ i, (entries i).IsSettled)
    (l : List (Fin 9)) :
    (∀ i ∈ l, ∃ k, (entries i).HasKind k) ∨
      ∃ e, FirstRefusal (l.flatMap fun i => (entries i).subtrees) e ∧
        l.mapM (fun i => (entries i).kind) = .error e := by
  induction l with
  | nil => exact Or.inl (by simp)
  | cons i l ih =>
    rw [List.flatMap_cons, List.mapM_cons]
    rcases h i with ⟨k, hk⟩ | ⟨e, hi, hie⟩
    · rcases ih with hl | ⟨e, hl, hle⟩
      · exact Or.inl (List.forall_mem_cons.mpr ⟨⟨k, hk⟩, hl⟩)
      · refine Or.inr ⟨e, hl.append_right hk.exists_of_mem_subtrees, ?_⟩
        rw [hk.kind_eq, hle]
        rfl
    · refine Or.inr ⟨e, hi.append_left _, ?_⟩
      rw [hie]
      rfl

theorem IsSettled.matrix {entries : Fin 9 → OperandTree} (h : ∀ i, (entries i).IsSettled) :
    (OperandTree.matrix entries).IsSettled := by
  rcases settled_entries h (List.finRange 9) with hkinds | ⟨e, hrefusal, he⟩
  · choose kinds hkinds using fun i => hkinds i (List.mem_finRange i)
    by_cases hmatrix : ∃ i, kinds i = .matrix
    · obtain ⟨i, hi⟩ := hmatrix
      apply isSettled_of_refuses rfl _ (.matrix hkinds hi)
      simp only [List.forall_mem_flatMap]
      exact fun i _ => (hkinds i).exists_of_mem_subtrees
    · refine Or.inl ⟨_, .matrix hkinds fun i => ?_⟩
      exact (kinds i).isScalar_or_eq_matrix.resolve_right fun hi => hmatrix ⟨i, hi⟩
  · refine Or.inr ⟨e, hrefusal.append_left _, ?_⟩
    have hmapM : (Vector.ofFn id).mapM (fun i => (entries i).kind) = .error e := by
      rw [← List.ofFn_id, ← Vector.toList_ofFn, ← toList_mapM] at he
      exact map_eq_error_iff.mp he
    rw [OperandTree.kind, hmapM]
    rfl

/-- A tree has a kind by the rules, or evaluation is stopped by its first refusal. -/
theorem isSettled (t : OperandTree) : t.IsSettled := by
  induction t with
  | leaf x => exact Or.inl ⟨_, .leaf x⟩
  | matrix entries ih => exact .matrix ih
  | add l r ihl ihr =>
    refine .binary rfl rfl ihl ihr fun j k hj hk => ?_
    rcases Kind.isSum_or_isMixed j k with ⟨m, hm⟩ | ⟨m, hm⟩
    · exact Or.inl ⟨m, .add hj hk hm⟩
    · exact Or.inr ⟨_, .add hj hk hm⟩
  | sub l r ihl ihr =>
    refine .binary rfl rfl ihl ihr fun j k hj hk => ?_
    rcases Kind.isSum_or_isMixed j k with ⟨m, hm⟩ | ⟨m, hm⟩
    · exact Or.inl ⟨m, .sub hj hk hm⟩
    · exact Or.inr ⟨_, .sub hj hk hm⟩
  | multiply l r ihl ihr =>
    refine .binary rfl rfl ihl ihr fun j k hj hk => ?_
    rcases Kind.isProduct_or_eq_matrix j k with ⟨m, hm⟩ | ⟨rfl, rfl⟩
    · exact Or.inl ⟨m, .multiply hj hk hm⟩
    · exact Or.inr ⟨_, .multiply hj hk⟩
  | power t n ih =>
    refine .unary rfl rfl ih fun k hk => ?_
    rcases k.isScalar_or_eq_matrix with hscalar | rfl
    · exact Or.inl ⟨_, .power n hk hscalar⟩
    · exact Or.inr ⟨_, .power n hk⟩
  | scale t q ih =>
    refine .unary rfl rfl ih fun k hk => Or.inl ?_
    obtain ⟨m, hm⟩ := k.exists_isMultiple
    exact ⟨m, .scale q hk hm⟩
  | neg t ih =>
    refine .unary rfl rfl ih fun k hk => Or.inl ?_
    obtain ⟨m, hm⟩ := k.exists_isMultiple
    exact ⟨m, .neg hk hm⟩
  | determinant t ih =>
    refine .unary rfl rfl ih fun k hk => ?_
    rcases k.isScalar_or_eq_matrix with hscalar | rfl
    · exact Or.inr ⟨_, .determinant hk hscalar⟩
    · exact Or.inl ⟨_, .determinant hk⟩

theorem hasKind_iff_kind_eq : t.HasKind k ↔ t.kind = .ok k := by
  refine ⟨fun h => h.kind_eq, fun h => ?_⟩
  rcases t.isSettled with ⟨j, hj⟩ | ⟨e, -, he⟩
  · obtain rfl := Except.ok.inj (hj.kind_eq.symm.trans h)
    exact hj
  · cases h.symm.trans he

theorem firstRefusal_iff_kind_eq : FirstRefusal t.subtrees e ↔ t.kind = .error e := by
  rcases t.isSettled with ⟨k, hk⟩ | ⟨e', hrefusal, he⟩
  · rw [hk.kind_eq]
    refine ⟨fun h => ?_, fun h => by cases h⟩
    exact absurd hk.exists_of_mem_subtrees h.not_forall_exists
  · rw [he]
    refine ⟨fun h => congrArg Except.error (hrefusal.unique h), fun h => ?_⟩
    exact Except.error.inj h ▸ hrefusal

theorem hasKind_iff : t.HasKind k ↔ ∃ x, t.evaluate = .ok x ∧ x.kind = k := by
  rw [hasKind_iff_kind_eq, ← kind_evaluate, map_eq_ok_iff]

theorem firstRefusal_iff : FirstRefusal t.subtrees e ↔ t.evaluate = .error e := by
  rw [firstRefusal_iff_kind_eq, ← kind_evaluate, map_eq_error_iff]

end OperandTree

end PivotCoefficients
