import Reach.Decision.Verdict
import Reach.Signature.Basic

/-!
The ways an operation on a definition can fail. A stuck state, an infeasible branch or a bound that
is reached is an ordinary result and no failure.
-/

namespace Reach

inductive Failure
  | sort (error : SortError)
  | query (error : QueryError)
  /-- Function rules nested too deeply. -/
  | depthExceeded (label : String) (depth : Nat)
  /-- Structural rules kept applying. -/
  | divergence (limit : Nat)
  /-- A loop that has no bound of its own ran through its budget. -/
  | exhausted
  deriving DecidableEq

def Failure.message : Failure → String
  | sort error => error.message
  | query error => error.message
  | depthExceeded label depth => "evaluation of " ++ label ++ " exceeded depth " ++ depth.repr
  | divergence limit =>
    "structural rules did not reach a normal form after " ++ limit.repr ++ " steps"
  | exhausted => "the budget of steps ran out"

end Reach
