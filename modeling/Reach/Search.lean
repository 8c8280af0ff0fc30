import Reach.Step
import Std.Data.TreeSet

/-!
Bounded breadth-first exploration. States are explored layer by layer, where a layer holds the
states reached by the same number of transitions; structural successors stay in the layer of the
state they come from. Every state is explored once.
-/

namespace Reach

/-- A term with a side condition, to be matched against reached states. -/
structure Pattern where
  term : Term
  requires : Term := .truth
  deriving DecidableEq

/-- Which reached states are candidates for results. -/
inductive SearchType
  /-- Direct successors of the initial state. -/
  | one
  /-- Every reached state. -/
  | star
  /-- Every reached state but the initial one. -/
  | plus
  /-- States without successor, and the instances of states that no rule covers. -/
  | final
  deriving DecidableEq

structure SearchConfig where
  type : SearchType := .star
  /-- The largest number of transitions from the initial state. -/
  depth : Option Nat := none
  /-- The largest number of results. -/
  bound : Option Nat := none
  /-- Whether a result is the substitution of the pattern and not the state. -/
  asSubst : Bool := false
  deriving DecidableEq

namespace SearchConfig

/-- A search for direct successors has depth one, whatever is configured. -/
def maxDepth (config : SearchConfig) : Option Nat :=
  match config.type with
  | .one => some 1
  | _ => config.depth

def atLimit (config : SearchConfig) (depth : Nat) : Bool :=
  config.maxDepth.any fun limit => limit ≤ depth

end SearchConfig

inductive SearchResult
  | state (state : State)
  | subst (subst : Subst)
  deriving DecidableEq

structure SearchResults where
  /-- In breadth-first order. -/
  results : List SearchResult
  /-- The number of transitions to the deepest layer. -/
  depth : Nat
  /-- The number of distinct states. -/
  states : Nat
  deriving DecidableEq

/-- What is known while a layer is explored. -/
structure Frontier where
  /-- Every state reached so far. -/
  seen : Std.TreeSet State
  /-- The states of this layer. -/
  layer : Array State
  /-- The states of the next layer. -/
  next : Array State := #[]
  /-- States, or parts of them, that no rule covers. -/
  finals : Array State := #[]

namespace Frontier

/-- Files a successor that is new; at the depth limit transitions are not followed. -/
def add (atLimit : Bool) (f : Frontier) (successor : Successor) : Frontier :=
  let state := successor.state
  if (successor.transition && atLimit) || f.seen.contains state then f
  else if successor.transition then
    { f with seen := f.seen.insert state, next := f.next.push state }
  else
    { f with seen := f.seen.insert state, layer := f.layer.push state }

end Frontier

namespace Engine

def firstMatchAmong (pattern : Pattern) (state : State) :
    Enumeration Subst → Engine (Option Subst)
  | .nil => return none
  | .cons s more => do
    let requires ← evaluate (s.apply pattern.requires)
    if ← feasible (state.constraint.conjoin requires) then return some s
    else firstMatchAmong pattern state (more ())

/-- The first match whose side condition is feasible together with the state's constraint. -/
def firstMatch (pattern : Pattern) (state : State) : Engine (Option Subst) :=
  firstMatchAmong pattern state (Matching.enumerate pattern.term state.term)

/-- What is final about a state with these successors. -/
def finalsOf (state : State) (successors : List Successor) : Engine (Array State) := do
  if successors.isEmpty then return #[state]
  else return (← remainder state successors).toArray

section Exploration

variable {m : Type → Type} [Monad m] [MonadLiftT Engine m] [MonadFresh m]

/-- Explores the state at position `position` of the layer, and those after it. -/
def closeLayer (config : SearchConfig) (atLimit : Bool) :
    Nat → Nat → Frontier → m Frontier
  | 0, _, _ => (throw .exhausted : Engine _)
  | budget + 1, position, f => do
    match f.layer[position]? with
    | none => return f
    | some state =>
      let successors ← step state .unifying
      let finals ← if config.type = .final then finalsOf state successors else pure #[]
      let f := successors.foldl (Frontier.add atLimit) { f with finals := f.finals ++ finals }
      closeLayer config atLimit budget (position + 1) f

/-- The states of an explored layer that may be results; the initial state is the first state of
layer zero. -/
def resultCandidates (type : SearchType) (depth : Nat) (f : Frontier) : List State :=
  match type with
  | .star => f.layer.toList
  | .one | .plus => if depth = 0 then f.layer.toList.drop 1 else f.layer.toList
  | .final => f.finals.toList

def searchResult? (config : SearchConfig) (pattern : Pattern) (state : State) :
    Engine (Option SearchResult) := do
  let found ← firstMatch pattern state
  return found.map fun s => if config.asSubst then .subst s else .state state

/-- Explores a layer and those after it, with the results of the layers before. -/
def explore (config : SearchConfig) (pattern : Pattern) :
    Nat → Nat → Array State → Std.TreeSet State → Array SearchResult → m SearchResults
  | 0, _, _, _, _ => (throw .exhausted : Engine _)
  | budget + 1, depth, layer, seen, results => do
    let atLimit := config.atLimit depth
    let f ← closeLayer config atLimit (← Engine.budget) 0 { seen, layer }
    let matched ← ((resultCandidates config.type depth f).filterMapM
      (searchResult? config pattern) : Engine (List SearchResult))
    let kept : List SearchResult :=
      match config.bound with
      | none => matched
      | some bound => matched.take (bound - results.size)
    let results := results ++ kept
    if full config.bound results.size || f.next.isEmpty || atLimit then
      return { results := results.toList, depth, states := f.seen.size }
    else explore config pattern budget (depth + 1) f.next f.seen results

/-- The reachable states that match the pattern, one result for each. -/
def search (initial : State) (pattern : Pattern) (config : SearchConfig) : m SearchResults := do
  let sig ← signature
  let initial := { initial with constraint := initial.constraint.simplify sig }
  explore config pattern (← budget) 0 #[initial] {initial} #[]

end Exploration

end Engine

end Reach
