import Reach.Evaluation
import Reach.Store

/-!
The setting in which rules are applied: a definition and its configuration, which stay fixed, and a
counter of fresh names and a constraint store, which change even when an operation fails.
-/

namespace Reach

structure EngineConfig where
  /-- Rules with one of these attributes count as steps; with no tags at all, every rule does. -/
  transitionTags : List String := [Rule.transition]
  /-- How deeply function evaluation may nest. -/
  maxFunctionDepth : Nat := 256
  /-- How many structural rules may apply in a row. -/
  maxStructuralSteps : Nat := 10000
  /-- How often a loop without a bound of its own may go round. -/
  budget : Nat := 1000000000
  deriving DecidableEq

/-- Whether an application of the rule counts as a step. -/
def EngineConfig.isTransition (config : EngineConfig) (rule : Rule) : Bool :=
  config.transitionTags.isEmpty || config.transitionTags.any rule.hasAttribute

structure Context where
  definition : Definition
  config : EngineConfig := {}

structure World where
  fresh : Fresh := .start
  store : Store := .standard

abbrev Engine := ReaderT Context (ExceptT Failure (StateM World))

namespace Engine

def run {α : Type} (action : Engine α) (context : Context) (world : World) :
    Except Failure α × World :=
  StateT.run (ExceptT.run (ReaderT.run action context)) world

def signature : Engine Signature :=
  return (← read).definition.signature

def budget : Engine Nat :=
  return (← read).config.budget

def ofExcept {α : Type} : Except Failure α → Engine α
  | .ok value => pure value
  | .error failure => throw failure

def evaluate (term : Term) : Engine Term := do
  let context ← read
  ofExcept (context.definition.evaluate context.config.maxFunctionDepth term)

def lookups (rule : Rule) (s : Subst) : Engine (List Subst) := do
  let context ← read
  ofExcept (context.definition.lookups context.config.maxFunctionDepth rule s)

/-- Asks the store. -/
def ask (question : Signature → StateM Store (Except QueryError Bool)) : Engine Bool := do
  let sig ← signature
  let world ← get
  let (answer, store) := question sig world.store
  set { world with store }
  ofExcept (answer.mapError Failure.query)

def feasible (c : Constraint) : Engine Bool :=
  ask fun sig => Store.feasible sig c

def implies (assumption conclusion : Constraint) : Engine Bool :=
  ask fun sig => Store.implies sig assumption conclusion

/-- Draws from the counter of fresh names. -/
def draw {α : Type} (drawing : Fresh → α × Fresh) : Engine α := do
  let world ← get
  let (value, fresh) := drawing world.fresh
  set { world with fresh }
  return value

def setFresh (fresh : Fresh) : Engine Unit :=
  draw fun _ => ((), fresh)

def renameApart (rule : Rule) : Engine Rule :=
  draw rule.renameApart

end Engine

end Reach
