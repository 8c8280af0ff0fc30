import Reach.Step

/-!
Reachability proofs by symbolic execution. A claim says that every instance of its left-hand side
that satisfies its precondition reaches an instance of its right-hand side that satisfies its
postcondition. Every branch of the execution must end in the target; once a branch has taken a
semantic step, the claims themselves may be applied to it, which closes loops.
-/

namespace Reach

structure ProofConfig where
  /-- The largest number of steps on a branch. -/
  maxDepth : Option Nat := none
  deriving DecidableEq

/-- The states in which some branch ended short of its target. -/
structure ProofResult where
  residuals : List State
  deriving DecidableEq

def ProofResult.isProved (result : ProofResult) : Bool :=
  result.residuals.isEmpty

/-- A claim with fresh variables, and those of them that its start fixes. -/
structure Obligation where
  claim : Rule
  fixed : List Variable

structure Branch where
  state : State
  /-- What happened to the variables of the claim along this branch. -/
  narrowing : Subst
  semanticSteps : Nat
  depth : Nat

namespace Engine

/-- The fixed variables of a claim, as a branch has narrowed them. -/
def seed (fixed : List Variable) (narrowing : Subst) : Subst :=
  .ofList (fixed.map fun v => (v, narrowing.apply (.var v)))

def matchesTarget (claim : Rule) (state : State) : Enumeration Subst → Engine Bool
  | .nil => return false
  | .cons s more => do
    let ensures ← evaluate (s.apply claim.ensures)
    if ← implies state.constraint (.ofTerm ensures) then return true
    else matchesTarget claim state (more ())

/-- What a unifier asks of the variables of the state, and its residual equations. -/
def unifierEquations (vars : List Variable) (unifier : Unifier) : Constraint :=
  let bindings := unifier.subst.entries.filter fun (v, _) => vars.contains v
  let c := bindings.foldl (fun c (v, term) => c.conjoinEq (.var v) term) Constraint.top
  unifier.residual.foldl
    (fun c (a, b) => c.conjoinEq (unifier.subst.apply a) (unifier.subst.apply b)) c

def applyHypothesis (hypothesis : Rule) (state : State) :
    Enumeration Subst → Engine (Option State)
  | .nil => return none
  | .cons s more => do
    let requires ← evaluate (s.apply hypothesis.requires)
    if !(← implies state.constraint (.ofTerm requires)) then
      applyHypothesis hypothesis state (more ())
    else
      let term ← evaluate (s.apply hypothesis.rhs)
      let ensures ← evaluate (s.apply hypothesis.ensures)
      let constraint := (state.constraint.conjoin ensures).simplify (← signature)
      if constraint.isFalse then applyHypothesis hypothesis state (more ())
      else return some { term, constraint := constraint.project term.freeVars }

section Proving

variable {m : Type → Type} [Monad m] [MonadLiftT Engine m] [MonadFresh m]

/-- Whether what a unifier asks of the state follows from its constraint, with the postcondition. -/
def unifiesTarget (ensures : Term) (state : State) (unifier : Unifier) : Engine Bool := do
  let asked := unifierEquations state.freeVars unifier
  let ensures' ← evaluate (unifier.subst.apply ensures)
  implies state.constraint (asked.conjoin ensures')

/-- Whether a state is an instance of the target whose constraint implies the postcondition. If
matching does not show it, the target is unified with the state, and what the unifier asks of the
state must follow from its constraint. -/
def reachesTarget (o : Obligation) (state : State) (narrowing : Subst) : m Bool := do
  let seed := seed o.fixed narrowing
  if ← matchesTarget o.claim state (Matching.enumerateFrom seed o.claim.rhs state.term) then
    return true
  let target := seed.apply o.claim.rhs
  if target.sort.compatible state.term.sort then
    let ensures := seed.apply o.claim.ensures
    MonadFresh.forUnifiers o.claim narrowing target state id
      (fun unifier _ => unifiesTarget ensures state unifier) false
  else return false

/-- Applies the first claim that covers all of a state: its left-hand side matches the term, and the
constraint implies its precondition. -/
def applyClaims (state : State) : List Rule → m (Option State)
  | [] => return none
  | claim :: rest => do
    let hypothesis ← MonadFresh.copy claim (some state)
    match ← applyHypothesis hypothesis state (Matching.enumerate hypothesis.lhs state.term) with
    | some next => return some next
    | none => applyClaims state rest

/-- The state that a claim leads to, if the branch may use claims and one covers its state. -/
def byClaim (claims : List Rule) (branch : Branch) : m (Option State) :=
  if branch.semanticSteps = 0 then return none else applyClaims branch.state claims

/-- What a branch leads to: the branches that go on from it, and the states it leaves open. -/
def advance (o : Obligation) (claims : List Rule) (config : ProofConfig) (branch : Branch) :
    m (List Branch × List State) := do
  if ← reachesTarget o branch.state branch.narrowing then return ([], [])
  if config.maxDepth.any fun limit => limit ≤ branch.depth then return ([], [branch.state])
  match ← byClaim claims branch with
  | some state => return ([{ branch with state, depth := branch.depth + 1 }], [])
  | none =>
    let successors ← step branch.state .unifying
    if successors.isEmpty then return ([], [branch.state])
    let left ← match ← remainder branch.state successors with
      | some rest => do
        if ← reachesTarget o rest branch.narrowing then pure [] else pure [rest]
      | none => pure []
    let branches := successors.map fun successor =>
      { state := successor.state
        narrowing := branch.narrowing.compose successor.narrowing
        semanticSteps := branch.semanticSteps + 1
        depth := branch.depth + 1 }
    return (branches, left)

/-- Follows the branches depth first, in the order of the rules. -/
def followBranches (o : Obligation) (claims : List Rule) (config : ProofConfig) :
    Nat → List Branch → List State → m (List State)
  | _, [], residuals => return residuals
  | 0, _ :: _, _ => (throw .exhausted : Engine _)
  | budget + 1, branch :: rest, residuals => do
    let (branches, left) ← advance o claims config branch
    followBranches o claims config budget (branches ++ rest) (residuals ++ left)

/-- The states in which some branch of a claim ends short of the target; none, if the precondition
is infeasible. -/
def proveClaim (claims : List Rule) (config : ProofConfig) (claim : Rule) : m (List State) := do
  let sig ← signature
  let claim ← MonadFresh.copy claim none
  let requires ← evaluate claim.requires
  let term ← evaluate claim.lhs
  let initial : State := { term, constraint := (Constraint.ofTerm requires).simplify sig }
  if !(← feasible initial.constraint) then return []
  let start : Branch := { state := initial, narrowing := .empty, semanticSteps := 0, depth := 0 }
  followBranches { claim, fixed := initial.freeVars } claims config (← budget) [start] []

/-- Proves every claim that is not trusted, with all claims as hypotheses. -/
def prove (claims : List Rule) (config : ProofConfig) : m ProofResult := do
  let residuals ← (claims.filter fun claim => !claim.isTrusted).mapM (proveClaim claims config)
  return { residuals := residuals.flatten }

end Proving

end Engine

end Reach
