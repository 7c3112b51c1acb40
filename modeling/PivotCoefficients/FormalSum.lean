/-!
# Formal sums

A formal sum is a list of keys with amounts. A monomial is one with symbols as
keys and exponents as amounts; an expression is one with monomials as keys and
coefficients as amounts. Both are kept sorted by key, and both are built from
the two functions here: `gather` adds up equal keys once they are neighbours,
and `merge` adds two sums that are already sorted.
-/
namespace PivotCoefficients.FormalSum

universe u v

variable {κ : Type u} {α : Type v}

/-- Gathers a sum whose first key `k` has collected the amount `a` so far. -/
def gatherFrom [DecidableEq κ] [Add α] (k : κ) (a : α) : List (κ × α) → List (κ × α)
  | [] => [(k, a)]
  | (l, b) :: rest => if l = k then gatherFrom k (a + b) rest else (k, a) :: gatherFrom l b rest

/-- Adds up the amounts of neighbours that share a key. -/
def gather [DecidableEq κ] [Add α] : List (κ × α) → List (κ × α)
  | [] => []
  | (k, a) :: rest => gatherFrom k a rest

@[simp] theorem gather_nil [DecidableEq κ] [Add α] : gather ([] : List (κ × α)) = [] := rfl

/-- Adds two sums sorted by `cmp`. Where both hold a key, `join` gives its new
amount, or drops the key. -/
def merge (cmp : κ → κ → Ordering) (join : α → α → Option α) :
    List (κ × α) → List (κ × α) → List (κ × α)
  | [], q => q
  | p, [] => p
  | (k, a) :: p, (l, b) :: q =>
    match cmp k l with
    | .lt => (k, a) :: merge cmp join p ((l, b) :: q)
    | .gt => (l, b) :: merge cmp join ((k, a) :: p) q
    | .eq =>
      match join a b with
      | some c => (k, c) :: merge cmp join p q
      | none => merge cmp join p q
termination_by p q => p.length + q.length

@[simp] theorem merge_nil_left (cmp : κ → κ → Ordering) (join : α → α → Option α)
    (q : List (κ × α)) : merge cmp join [] q = q := by
  simp [merge]

@[simp] theorem merge_nil_right (cmp : κ → κ → Ordering) (join : α → α → Option α)
    (p : List (κ × α)) : merge cmp join p [] = p := by
  cases p <;> simp [merge]

/-- The amount held under `k` in all, counting every occurrence. -/
def amount [DecidableEq κ] [Add α] [OfNat α 0] (k : κ) : List (κ × α) → α
  | [] => 0
  | (l, a) :: rest => if l = k then a + amount k rest else amount k rest

@[simp] theorem amount_nil [DecidableEq κ] [Add α] [OfNat α 0] (k : κ) :
    amount k ([] : List (κ × α)) = 0 := rfl

end PivotCoefficients.FormalSum
