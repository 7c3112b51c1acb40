import PivotCoefficients.Power

/-!
# Tables of powers

Powers of one base that are needed in no particular order are kept in a table. It
begins with the power zero and has no gaps. A power that is not there yet is
reached from the last one that is, by one multiplication for each step.
-/
namespace PivotCoefficients

universe u

variable {R : Type u} [Mul R]

/-- The product of `n` factors `a`, beginning with `one`. -/
def repeatedProduct (one a : R) : Nat → R
  | 0 => one
  | n + 1 => repeatedProduct one a n * a

theorem repeatedProduct_of_forall_mul {P : R → Prop} (hmul : ∀ {a b}, P a → P b → P (a * b))
    {one a : R} (hone : P one) (ha : P a) (n : Nat) : P (repeatedProduct one a n) := by
  induction n with
  | zero => exact hone
  | succ n ih => exact hmul ih ha

/-- The powers of `a` from the power zero to the last one that was needed. -/
structure PowerTable (one a : R) where
  powers : Array R
  size_pos : 0 < powers.size
  getElem_eq : ∀ n (_ : n < powers.size), powers[n] = repeatedProduct one a n

namespace PowerTable

variable {one a : R}

def start (one a : R) : PowerTable one a where
  powers := #[one]
  size_pos := Nat.zero_lt_one
  getElem_eq n h := by
    obtain rfl : n = 0 := Nat.lt_one_iff.mp h
    rfl

def push (t : PowerTable one a) : PowerTable one a where
  powers := t.powers.push (t.powers.back t.size_pos * a)
  size_pos := by simp
  getElem_eq n h := by
    rw [Array.getElem_push]
    split
    · next hlt => exact t.getElem_eq n hlt
    · next hge =>
      have hpos := t.size_pos
      have hn : n = (t.powers.size - 1) + 1 := by
        rw [Array.size_push] at h
        omega
      rw [Array.back_eq_getElem, t.getElem_eq, hn, repeatedProduct]

@[simp] theorem size_push (t : PowerTable one a) : t.push.powers.size = t.powers.size + 1 :=
  Array.size_push _

def extend (t : PowerTable one a) : Nat → PowerTable one a
  | 0 => t
  | k + 1 => t.push.extend k

theorem size_extend (t : PowerTable one a) (k : Nat) :
    (t.extend k).powers.size = t.powers.size + k := by
  induction k generalizing t with
  | zero => rfl
  | succ k ih =>
    rw [extend, ih, size_push]
    omega

/-- The table with the `n`th power in it, extended where it falls short of that. -/
def reach (t : PowerTable one a) (n : Nat) : PowerTable one a :=
  t.extend (n + 1 - t.powers.size)

theorem lt_size_reach (t : PowerTable one a) (n : Nat) : n < (t.reach n).powers.size := by
  rw [reach, size_extend]
  omega

/-- The `n`th power, and the table it was found in. -/
def find (t : PowerTable one a) (n : Nat) : R × PowerTable one a :=
  have h := t.lt_size_reach n
  ((t.reach n).powers[n], t.reach n)

/-- Whatever powers were found before, the `n`th is the product of `n` factors. -/
@[simp] theorem find_fst (t : PowerTable one a) (n : Nat) :
    (t.find n).1 = repeatedProduct one a n :=
  (t.reach n).getElem_eq n (t.lt_size_reach n)

end PowerTable

end PivotCoefficients
