/-! The six comparisons of integers, and how they change when read from right to left or denied. -/

namespace Reach

inductive Comparison
  | lt
  | le
  | gt
  | ge
  | eq
  | ne
  deriving DecidableEq

namespace Comparison

def holds : Comparison → Int → Int → Bool
  | lt, a, b => a < b
  | le, a, b => a ≤ b
  | gt, a, b => b < a
  | ge, a, b => b ≤ a
  | eq, a, b => a == b
  | ne, a, b => a != b

/-- What `b` is to `a` when `a` is this to `b`. -/
def flip : Comparison → Comparison
  | lt => gt
  | le => ge
  | gt => lt
  | ge => le
  | eq => eq
  | ne => ne

def negate : Comparison → Comparison
  | lt => ge
  | le => gt
  | gt => le
  | ge => lt
  | eq => ne
  | ne => eq

theorem holds_flip (comparison : Comparison) (a b : Int) :
    comparison.flip.holds b a = comparison.holds a b := by
  cases comparison <;> simp [flip, holds, Bool.beq_comm, bne]

theorem holds_negate (comparison : Comparison) (a b : Int) :
    comparison.negate.holds a b = !comparison.holds a b := by
  cases comparison <;> simp [negate, holds, bne, ← decide_not]

end Comparison

end Reach
