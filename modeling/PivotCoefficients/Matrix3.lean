import PivotCoefficients.Error

/-!
# Three by three matrices

Entries lie row by row. The entries may be any type with the arithmetic an
operation uses; rationals and expressions are the two that occur.
-/
namespace PivotCoefficients

universe u v

structure Matrix3 (R : Type u) where
  rows : Vector (Vector R 3) 3
  deriving DecidableEq

namespace Matrix3

variable {R : Type u} {S : Type v}

/-- A row or column number, counted from zero. -/
def index (i : Nat) : Except Fault (Fin 3) :=
  if h : i < 3 then .ok ⟨i, h⟩ else .error (.indexOutOfBounds i)

def entry (m : Matrix3 R) (i j : Fin 3) : R := m.rows[i][j]

def ofFn (f : Fin 3 → Fin 3 → R) : Matrix3 R :=
  ⟨Vector.ofFn (fun i => Vector.ofFn (f i))⟩

@[simp] theorem entry_ofFn (f : Fin 3 → Fin 3 → R) (i j : Fin 3) : (ofFn f).entry i j = f i j := by
  simp [entry, ofFn]

theorem ext_entry {m n : Matrix3 R} (h : ∀ i j, m.entry i j = n.entry i j) : m = n := by
  obtain ⟨m⟩ := m
  obtain ⟨n⟩ := n
  congr 1
  ext i hi j hj
  exact h ⟨i, hi⟩ ⟨j, hj⟩

/-- Nine entries, the first row first. -/
def ofRowMajor (v : Vector R 9) : Matrix3 R :=
  ofFn (fun i j => v[3 * i.val + j.val])

def toList (m : Matrix3 R) : List R :=
  m.rows.toList.flatMap Vector.toList

def map (f : R → S) (m : Matrix3 R) : Matrix3 S :=
  ofFn (fun i j => f (m.entry i j))

def transpose (m : Matrix3 R) : Matrix3 R :=
  ofFn (fun i j => m.entry j i)

def swapRows (m : Matrix3 R) (i j : Fin 3) : Matrix3 R :=
  ofFn (fun r c => m.entry (if r = i then j else if r = j then i else r) c)

def setEntry (m : Matrix3 R) (i j : Fin 3) (x : R) : Matrix3 R :=
  ofFn (fun r c => if r = i ∧ c = j then x else m.entry r c)

def add [Add R] (m n : Matrix3 R) : Matrix3 R :=
  ofFn (fun i j => m.entry i j + n.entry i j)

def sub [Sub R] (m n : Matrix3 R) : Matrix3 R :=
  ofFn (fun i j => m.entry i j - n.entry i j)

def scale [Mul R] (m : Matrix3 R) (k : R) : Matrix3 R :=
  m.map (· * k)

/-- The entries of row `i` times `k`. -/
def scaleRow [Mul R] (m : Matrix3 R) (i : Fin 3) (k : R) : Matrix3 R :=
  ofFn (fun r c => if r = i then m.entry r c * k else m.entry r c)

instance [Add R] : Add (Matrix3 R) := ⟨add⟩
instance [Sub R] : Sub (Matrix3 R) := ⟨sub⟩

/-- The product of one entry from each row, in columns `a`, `b` and `c`. -/
def diagonal [Mul R] (m : Matrix3 R) (a b c : Fin 3) : R :=
  m.entry 0 a * m.entry 1 b * m.entry 2 c

/-- The determinant: the products over even permutations of the columns less
those over odd ones. -/
def det [Add R] [Sub R] [Mul R] (m : Matrix3 R) : R :=
  (m.diagonal 0 1 2 + m.diagonal 1 2 0 + m.diagonal 2 0 1) -
    (m.diagonal 0 2 1 + m.diagonal 1 0 2 + m.diagonal 2 1 0)

@[simp] theorem entry_map (f : R → S) (m : Matrix3 R) (i j : Fin 3) :
    (m.map f).entry i j = f (m.entry i j) := by
  simp [map]

@[simp] theorem entry_transpose (m : Matrix3 R) (i j : Fin 3) :
    m.transpose.entry i j = m.entry j i := by
  simp [transpose]

@[simp] theorem entry_swapRows (m : Matrix3 R) (i j r c : Fin 3) :
    (m.swapRows i j).entry r c = m.entry (if r = i then j else if r = j then i else r) c :=
  entry_ofFn _ r c

@[simp] theorem entry_setEntry (m : Matrix3 R) (i j r c : Fin 3) (x : R) :
    (m.setEntry i j x).entry r c = if r = i ∧ c = j then x else m.entry r c :=
  entry_ofFn _ r c

@[simp] theorem entry_add [Add R] (m n : Matrix3 R) (i j : Fin 3) :
    (m + n).entry i j = m.entry i j + n.entry i j :=
  entry_ofFn _ i j

@[simp] theorem entry_sub [Sub R] (m n : Matrix3 R) (i j : Fin 3) :
    (m - n).entry i j = m.entry i j - n.entry i j :=
  entry_ofFn _ i j

@[simp] theorem entry_scale [Mul R] (m : Matrix3 R) (k : R) (i j : Fin 3) :
    (m.scale k).entry i j = m.entry i j * k := by
  simp [scale]

@[simp] theorem entry_scaleRow [Mul R] (m : Matrix3 R) (i r c : Fin 3) (k : R) :
    (m.scaleRow i k).entry r c = if r = i then m.entry r c * k else m.entry r c :=
  entry_ofFn _ r c

end Matrix3

end PivotCoefficients
