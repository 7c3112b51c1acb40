import Mathlib.Tactic.SplitIfs
import PivotCoefficients.Matrix3

/-!
# Properties of all entries

A property of entries that sums and products keep is kept by the operations on
matrices, and the determinant has it too.
-/
namespace PivotCoefficients.Matrix3

universe u

variable {R : Type u} {P : R → Prop} {m n : Matrix3 R}

theorem cell_lt (i j : Fin 3) : 3 * i.val + j.val < 9 := by
  omega

/-- The place of an entry where the rows stand one after the other. -/
def cell (i j : Fin 3) : Fin 9 := ⟨3 * i.val + j.val, cell_lt i j⟩

theorem entry_ofRowMajor (v : Vector R 9) (i j : Fin 3) :
    (ofRowMajor v).entry i j = v.get (cell i j) :=
  entry_ofFn _ i j

def ForallEntries (P : R → Prop) (m : Matrix3 R) : Prop :=
  ∀ i j, P (m.entry i j)

instance [DecidablePred P] : Decidable (m.ForallEntries P) := by
  unfold ForallEntries
  infer_instance

theorem forallEntries_ofFn {f : Fin 3 → Fin 3 → R} (h : ∀ i j, P (f i j)) :
    (ofFn f).ForallEntries P := by
  intro i j
  rw [entry_ofFn]
  exact h i j

theorem forallEntries_ofRowMajor {v : Vector R 9} (h : ∀ i : Fin 9, P (v.get i)) :
    (ofRowMajor v).ForallEntries P :=
  forallEntries_ofFn (fun i j => h (cell i j))

namespace ForallEntries

theorem imp {Q : R → Prop} (hm : m.ForallEntries P) (h : ∀ {x}, P x → Q x) :
    m.ForallEntries Q :=
  fun i j => h (hm i j)

theorem setEntry {x : R} (hm : m.ForallEntries P) (hx : P x) (i j : Fin 3) :
    (m.setEntry i j x).ForallEntries P := by
  intro r c
  rw [entry_setEntry]
  split_ifs
  · exact hx
  · exact hm r c

theorem scaleRow [Mul R] (hmul : ∀ {x y}, P x → P y → P (x * y)) {k : R}
    (hm : m.ForallEntries P) (hk : P k) (i : Fin 3) : (m.scaleRow i k).ForallEntries P := by
  intro r c
  rw [entry_scaleRow]
  split_ifs
  · exact hmul (hm r c) hk
  · exact hm r c

theorem add [Add R] (hadd : ∀ {x y}, P x → P y → P (x + y)) (hm : m.ForallEntries P)
    (hn : n.ForallEntries P) : (m + n).ForallEntries P :=
  forallEntries_ofFn (fun i j => hadd (hm i j) (hn i j))

theorem sub [Sub R] (hsub : ∀ {x y}, P x → P y → P (x - y)) (hm : m.ForallEntries P)
    (hn : n.ForallEntries P) : (m - n).ForallEntries P :=
  forallEntries_ofFn (fun i j => hsub (hm i j) (hn i j))

theorem scale [Mul R] (hmul : ∀ {x y}, P x → P y → P (x * y)) {k : R} (hm : m.ForallEntries P)
    (hk : P k) : (m.scale k).ForallEntries P :=
  forallEntries_ofFn (fun i j => hmul (hm i j) hk)

theorem det [Add R] [Sub R] [Mul R] (hadd : ∀ {x y}, P x → P y → P (x + y))
    (hsub : ∀ {x y}, P x → P y → P (x - y)) (hmul : ∀ {x y}, P x → P y → P (x * y))
    (hm : m.ForallEntries P) : P m.det := by
  have hdiag : ∀ a b c, P (m.diagonal a b c) := fun a b c =>
    hmul (hmul (hm 0 a) (hm 1 b)) (hm 2 c)
  exact hsub (hadd (hadd (hdiag _ _ _) (hdiag _ _ _)) (hdiag _ _ _))
    (hadd (hadd (hdiag _ _ _) (hdiag _ _ _)) (hdiag _ _ _))

end ForallEntries

section Map

variable {S : Type*} {f : R → S}

theorem map_add [Add R] [Add S] (hadd : ∀ x y, f (x + y) = f x + f y) (m n : Matrix3 R) :
    (m + n).map f = m.map f + n.map f := by
  apply ext_entry
  simp [hadd]

theorem map_scale [Mul R] [Mul S] (hmul : ∀ x y, f (x * y) = f x * f y) (m : Matrix3 R) (k : R) :
    (m.scale k).map f = (m.map f).scale (f k) := by
  apply ext_entry
  simp [hmul]

theorem map_transpose (f : R → S) (m : Matrix3 R) : m.transpose.map f = (m.map f).transpose := by
  apply ext_entry
  simp

theorem map_swapRows (f : R → S) (m : Matrix3 R) (i j : Fin 3) :
    (m.swapRows i j).map f = (m.map f).swapRows i j := by
  apply ext_entry
  simp

theorem map_scaleRow [Mul R] [Mul S] (hmul : ∀ x y, f (x * y) = f x * f y) (m : Matrix3 R)
    (i : Fin 3) (k : R) : (m.scaleRow i k).map f = (m.map f).scaleRow i (f k) := by
  apply ext_entry
  simp [hmul, apply_ite f]

theorem map_det [Add R] [Sub R] [Mul R] [Add S] [Sub S] [Mul S]
    (hadd : ∀ x y, f (x + y) = f x + f y) (hsub : ∀ x y, f (x - y) = f x - f y)
    (hmul : ∀ x y, f (x * y) = f x * f y) (m : Matrix3 R) : f m.det = (m.map f).det := by
  simp only [det, diagonal, hadd, hsub, hmul, entry_map]

end Map

end PivotCoefficients.Matrix3
