import Reach.Duration

/-! What a decision procedure answers about a constraint, and how a query can fail. -/

namespace Reach

inductive Verdict
  | sat
  | unsat
  | unknown (reason : String)
  deriving DecidableEq

inductive QueryError
  | timeout (limit : Duration)
  | unavailable (reason : String)
  /-- An unknown answer where the configuration asks for a definite one. -/
  | undecided (reason : String)
  deriving DecidableEq

def QueryError.message : QueryError → String
  | timeout limit => "solver query timed out after " ++ limit.text
  | unavailable reason => "solver unavailable: " ++ reason
  | undecided reason => "solver returned unknown: " ++ reason

end Reach
