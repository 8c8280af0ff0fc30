import Reach.Engine
import Reach.State
import Reach.Unification

/-!
Application of rules to states. Matching holds the variables of the state fixed. Unification may
also narrow them; the narrowing is applied to the successor and reported with it.

What draws names is written for any monad in which names can be drawn, so that the same operations run
in the engine and in a monad that keeps account of the draws.
-/

namespace Reach

/-- How the left-hand side of a rule is related to a state. -/
inductive Mode
  | matching
  | unifying
  deriving DecidableEq

/-- One way a rule applies to a state. -/
structure Successor where
  state : State
  /-- The label of the rule. -/
  rule : String
  transition : Bool
  /-- What happened to the variables of the state; nothing, when matching. -/
  narrowing : Subst
  /-- The instances of the state that this successor covers, in terms of the variables of the state
  and of the renamed rule. -/
  condition : Constraint
  deriving DecidableEq

/-- How a left-hand side and a state were made equal. -/
structure Fit where
  subst : Subst
  residual : List Goal := []
  narrowing : Subst := .empty

namespace Engine

/-- The rules that may apply to `term`. A variable can be narrowed to any left-hand side. -/
def candidates (term : Term) (mode : Mode) : Engine (List Rule) := do
  let d := (← read).definition
  match mode, term with
  | .unifying, .var _ => return d.rules
  | _, _ => return d.candidates term

/-- Binds the variables that a rule declares fresh. -/
def bindFresh (rule : Rule) (s : Subst) : Engine Subst := do
  let withConstants ← rule.freshConstants.foldlM (fun s v => do
    return Assoc.insert s v (← draw (Fresh.constantOf v.sort))) s
  rule.freshVariables.foldlM (fun s v => do
    return Assoc.insert s v (.var (← draw (Fresh.variableLike v)))) withConstants

/-- The unifiers of two terms of compatible sorts. -/
def unifiers (a b : Term) : Engine Unifiers := do
  match unify (← signature) (← budget) a b with
  | .ok explore => return explore (← get).fresh
  | .error error => throw (.sort error)

/-- Goes through the unifiers until there are no more, or enough was found. -/
def visit {β : Type} (enough : β → Bool) (next : Unifier → β → Engine β) : Unifiers → β → Engine β
  | .finished fresh, value => do
    setFresh fresh
    return value
  | .cut fresh, _ => do
    setFresh fresh
    throw .exhausted
  | .found unifier fresh more, value => do
    setFresh fresh
    let value ← next unifier value
    if enough value then return value else visit enough next (more (← get).fresh) value

end Engine

/-- A monad in which names can be drawn, in the three ways in which the operations draw them. Each is told what
is at hand then, which an account of the draws needs and the engine itself does not look at. -/
class MonadFresh (m : Type → Type) where
  /-- Binds the variables that a rule declares fresh, where the rule is applied to the state. -/
  bindFresh : Rule → State → Subst → m Subst
  /-- A copy of a rule with fresh variables, to be applied to the state if there is one. -/
  copy : Rule → Option State → m Rule
  /-- Goes through the unifiers of a term and a state until enough was found. The term comes from the rule,
  whose variables were narrowed so far. -/
  forUnifiers {β : Type} : Rule → Subst → Term → State → (β → Bool) → (Unifier → β → m β) → β → m β

instance : MonadFresh Engine where
  bindFresh rule _ s := Engine.bindFresh rule s
  copy rule _ := Engine.renameApart rule
  forUnifiers _ _ term state enough next start := do
    Engine.visit enough next (← Engine.unifiers term state.term) start

namespace Engine

@[simp]
theorem bindFresh_eq (rule : Rule) (state : State) (s : Subst) :
    (MonadFresh.bindFresh rule state s : Engine Subst) = bindFresh rule s :=
  rfl

@[simp]
theorem copy_eq (rule : Rule) (target : Option State) :
    (MonadFresh.copy rule target : Engine Rule) = renameApart rule :=
  rfl

@[simp]
theorem forUnifiers_eq {β : Type} (rule : Rule) (narrowing : Subst) (term : Term) (state : State)
    (enough : β → Bool) (next : Unifier → β → Engine β) (start : β) :
    MonadFresh.forUnifiers rule narrowing term state enough next start =
      unifiers term state.term >>= fun found => visit enough next found start :=
  rfl

/-- The equations that a narrowing stands for, in its order. -/
def narrowingEquations (narrowing : Subst) : Constraint :=
  narrowing.entries.foldl (fun c (v, term) => c.conjoinEq (.var v) term) .top

/-- Residual equations under a substitution. -/
def residualEquations (s : Subst) (residual : List Goal) : Constraint :=
  residual.foldl (fun c (a, b) => c.conjoinEq (s.apply a) (s.apply b)) .top

section Application

variable {m : Type → Type} [Monad m] [MonadLiftT Engine m] [MonadFresh m]

/-- The successor under one binding of the rule's variables, unless its constraint is refuted. -/
def successor? (rule : Rule) (state : State) (fit : Fit) (s : Subst) : m (Option Successor) := do
  let sig ← signature
  let requires ← evaluate (s.apply rule.requires)
  let guard := (residualEquations s fit.residual).conjoin requires
  let constraint := (state.constraint.substitute fit.narrowing).and guard
  if !(← feasible constraint) then return none
  let condition := (narrowingEquations fit.narrowing).and guard
  let s ← MonadFresh.bindFresh rule state s
  let term ← evaluate (s.apply rule.rhs)
  let ensures ← evaluate (s.apply rule.ensures)
  let constraint := (constraint.conjoin ensures).simplify sig
  if constraint.isFalse then return none
  return some {
    state := { term, constraint := constraint.project term.freeVars }
    rule := rule.label
    transition := (← (read : Engine Context)).config.isTransition rule
    narrowing := fit.narrowing
    condition }

/-- Whether `count` results are as many as there may be. -/
def full (limit : Option Nat) (count : Nat) : Bool :=
  limit.any fun bound => bound ≤ count

/-- Adds the successors under each of these bindings, until there are enough. -/
def addSuccessors (rule : Rule) (state : State) (fit : Fit) (limit : Option Nat) :
    List Subst → List Successor → m (List Successor)
  | [], found => return found
  | s :: rest, found => do
    match ← successor? rule state fit s with
    | none => addSuccessors rule state fit limit rest found
    | some next =>
      let found := found ++ [next]
      if full limit found.length then return found
      else addSuccessors rule state fit limit rest found

/-- Adds the successors under one fit: the lookups of the rule may bind more variables in several
ways. -/
def addFit (rule : Rule) (state : State) (fit : Fit) (limit : Option Nat)
    (found : List Successor) : m (List Successor) := do
  addSuccessors rule state fit limit (← lookups rule fit.subst) found

def addMatches (rule : Rule) (state : State) (limit : Option Nat) :
    Enumeration Subst → List Successor → m (List Successor)
  | .nil, found => return found
  | .cons s more, found => do
    let found ← addFit rule state { subst := s } limit found
    if full limit found.length then return found else addMatches rule state limit (more ()) found

/-- Adds the successors under one unifier of the rule's left-hand side and the state. -/
def addUnifier (rule : Rule) (state : State) (limit : Option Nat) (unifier : Unifier)
    (found : List Successor) : m (List Successor) := do
  let vars := state.freeVars
  let narrowing := unifier.subst.restrict fun v => vars.contains v
  let fit : Fit := { subst := unifier.subst, residual := unifier.residual, narrowing }
  addFit rule state fit limit found

/-- The successors of a state under a rule, which need not belong to the definition. For
unification the rule is renamed apart first. Once `limit` successors are found, no further match or
unifier is looked at. -/
def applyRule (rule : Rule) (state : State) (mode : Mode) (limit : Option Nat) :
    m (List Successor) := do
  match mode with
  | .matching => addMatches rule state limit (Matching.enumerate rule.lhs state.term) []
  | .unifying =>
    if rule.lhs.sort.compatible state.term.sort then
      let rule ← MonadFresh.copy rule (some state)
      MonadFresh.forUnifiers rule .empty rule.lhs state (fun found => full limit found.length)
        (addUnifier rule state limit) []
    else return []

/-- Every successor under every candidate rule, in the order of the definition. -/
def step (state : State) (mode : Mode) : m (List Successor) := do
  let successors ← (← candidates state.term mode).mapM fun rule => applyRule rule state mode none
  return successors.flatten

end Application

def firstOf (state : State) (mode : Mode) : List Rule → Engine (Option Successor)
  | [] => return none
  | rule :: rest => do
    match (← applyRule rule state mode (some 1)).getLast? with
    | some successor => return some successor
    | none => firstOf state mode rest

/-- The first successor under the candidate rules that `keep` selects. -/
def first? (state : State) (mode : Mode) (keep : Rule → Bool) : Engine (Option Successor) := do
  firstOf state mode ((← candidates state.term mode).filter keep)

/-- The constraint of the instances that none of the successors covers, or `none` if one of them
covers every instance. -/
def uncovered (c : Constraint) (successors : List Successor) : Option Constraint :=
  if successors.any fun successor => successor.condition.isTrue then none
  else some (successors.foldl (fun c successor => c.conjoin successor.condition.toTerm.negate) c)

/-- The instances of a state that none of its successors covers. -/
def remainder (state : State) (successors : List Successor) : Engine (Option State) := do
  match uncovered state.constraint successors with
  | none => return none
  | some constraint =>
    if !(← feasible constraint) then return none
    let constraint := (constraint.simplify (← signature)).project state.term.freeVars
    return some { term := state.term, constraint }

end Engine

end Reach
