import Reach.Proof
import Reach.Search

/-!
The operations offered to clients, each of which checks the terms it is given. Within a session no
fresh name is drawn twice.
-/

namespace Reach

/-- A state, and the number of transitions that were taken to it. -/
structure Reached where
  steps : Nat
  state : State
  deriving DecidableEq

structure ExecuteResult where
  /-- The number of transitions. -/
  steps : Nat
  term : Term
  deriving DecidableEq

namespace Session

open Engine

def check (term : Term) : Engine Unit := do
  match (← signature).check term with
  | .ok _ => return
  | .error error => throw (.sort error)

/-- The state that a client's term stands for. -/
def initial (term : Term) : Engine State := do
  check term
  return { term := ← evaluate term }

/-- Applies structural rules until none applies, which has to be seen within the given number of
tries. -/
def normalizeWithin : Nat → State → Engine State
  | 0, _ => do throw (.divergence (← read).config.maxStructuralSteps)
  | tries + 1, state => do
    let config := (← read).config
    match ← first? state .matching fun rule => !config.isTransition rule with
    | some successor => normalizeWithin tries successor.state
    | none => return state

def normalize (state : State) : Engine State := do
  normalizeWithin (← read).config.maxStructuralSteps state

/-- Takes transitions until the state is stuck or `rest` more of them were taken, and says whether the
state was seen to be stuck. -/
def advance : Nat → Reached → Engine (Reached × Bool)
  | 0, reached => return (reached, false)
  | rest + 1, reached => do
    let config := (← read).config
    match ← first? reached.state .matching fun rule => config.isTransition rule with
    | some successor =>
      let state ← normalize successor.state
      advance rest { steps := reached.steps + 1, state }
    | none => return (reached, true)

/-- Applies the first applicable rule again and again, until the state is stuck or `depth` transitions
were taken. Structural rules are applied to a normal form before and after each transition and do not
count. -/
def reach (term : Term) (depth : Option Nat) : Engine Reached := do
  let state ← normalize (← initial term)
  match depth with
  | some limit => return (← advance limit { steps := 0, state }).1
  | none =>
    let (reached, stuck) ← advance (← budget) { steps := 0, state }
    if stuck then return reached else throw .exhausted

/-- The state that is reached is reported without its constraint. -/
def execute (term : Term) (depth : Option Nat) : Engine ExecuteResult := do
  let reached ← reach term depth
  return { steps := reached.steps, term := reached.state.term }

def search {m : Type → Type} [Monad m] [MonadLiftT Engine m] [MonadFresh m] (term : Term)
    (pattern : Pattern) (config : SearchConfig) : m SearchResults := do
  Engine.search (← initial term) pattern config

def feasibleMatches (pattern : Pattern) (state : State) : Enumeration Subst → Engine (List Subst)
  | .nil => return []
  | .cons s more => do
    let requires ← evaluate (s.apply pattern.requires)
    let fits ← feasible (state.constraint.conjoin requires)
    let later ← feasibleMatches pattern state (more ())
    return if fits then s :: later else later

/-- Every way the pattern matches the term with a feasible side condition. -/
def matchPattern (term : Term) (pattern : Pattern) : Engine (List Subst) := do
  let state ← initial term
  feasibleMatches pattern state (Matching.enumerate pattern.term state.term)

def executeAndMatch (term : Term) (depth : Option Nat) (pattern : Pattern) :
    Engine (ExecuteResult × List Subst) := do
  let result ← execute term depth
  return (result, ← matchPattern result.term pattern)

def prove {m : Type → Type} [Monad m] [MonadLiftT Engine m] [MonadFresh m] (claims : List Rule)
    (config : ProofConfig) : m ProofResult := do
  (do
    for claim in claims do
      for term in [claim.lhs, claim.rhs, claim.requires, claim.ensures] do
        check term : Engine Unit)
  Engine.prove claims config

end Session

end Reach
