import Reach.Fresh
import Reach.Signature.Check
import Reach.Subst

/-!
Conditional rules. A rule takes an instance of its left-hand side to the same instance of its
right-hand side if the precondition holds, and promises the postcondition. Its lookups are evaluated
in order before the precondition and may bind more variables. A claim has the same shape as a rule.
-/

namespace Reach

/-- Evaluates `expr` and matches `pattern` against the result. -/
structure Lookup where
  pattern : Term
  expr : Term
  deriving DecidableEq

structure Rule where
  label : String
  lhs : Term
  rhs : Term
  /-- The precondition. -/
  requires : Term := .truth
  /-- The postcondition. -/
  ensures : Term := .truth
  /-- Variables that stand for a fresh value at each application. -/
  freshConstants : List Variable := []
  /-- Variables that stand for a fresh variable at each application. -/
  freshVariables : List Variable := []
  lookups : List Lookup := []
  attributes : Assoc String String := .empty
  deriving DecidableEq

namespace Rule

/-- The attribute of a claim that is assumed and not proved. -/
def trusted := "trusted"

/-- The attribute of a rule whose application counts as a step. -/
def transition := "transition"

def hasAttribute (rule : Rule) (key : String) : Bool :=
  rule.attributes.contains key

def isTrusted (rule : Rule) : Bool :=
  rule.hasAttribute trusted

/-- Every variable of the rule, once, in order of first occurrence. -/
def allVars (rule : Rule) : List Variable :=
  (rule.lhs.vars ++ rule.lookups.flatMap (fun lookup => lookup.expr.vars ++ lookup.pattern.vars) ++
    rule.requires.vars ++ rule.rhs.vars ++ rule.ensures.vars ++ rule.freshConstants ++
    rule.freshVariables).eraseDups

/-- The variable that a declared fresh variable goes to; a term that is no variable is ignored. -/
def renameFresh (s : Subst) (v : Variable) : Variable :=
  match s.get? v with
  | some (.var w) => w
  | _ => v

def substitute (rule : Rule) (s : Subst) : Rule :=
  { rule with
    lhs := s.apply rule.lhs
    rhs := s.apply rule.rhs
    requires := s.apply rule.requires
    ensures := s.apply rule.ensures
    freshConstants := rule.freshConstants.map (renameFresh s)
    freshVariables := rule.freshVariables.map (renameFresh s)
    lookups := rule.lookups.map fun lookup =>
      { pattern := s.apply lookup.pattern, expr := s.apply lookup.expr } }

/-- A renaming of these variables, in this order, to fresh ones. -/
def freshRenaming (vars : List Variable) (fresh : Fresh) : Subst × Fresh :=
  vars.foldl (fun (s, fresh) v =>
    let (w, fresh) := fresh.variableLike v
    (s.insert v (.var w), fresh)) (.empty, fresh)

/-- A copy of the rule with fresh variables. -/
def renameApart (rule : Rule) (fresh : Fresh) : Rule × Fresh :=
  let (apart, fresh) := freshRenaming rule.allVars fresh
  (rule.substitute apart, fresh)

/-- The terms in the order of their fields, then the sorts of both sides and of the conditions. -/
def check (sig : Signature) (rule : Rule) : Except SortError Unit := do
  [rule.lhs, rule.rhs, rule.requires, rule.ensures].forM sig.check
  rule.lookups.forM fun lookup => do
    sig.check lookup.pattern
    sig.check lookup.expr
  if !rule.lhs.sort.accepts rule.rhs.sort then
    throw (.mismatch rule.lhs.sort rule.rhs.sort rule.label)
  [rule.requires, rule.ensures].forM fun condition =>
    if condition.sort = .bool then pure ()
    else throw (.mismatch .bool condition.sort rule.label)

end Rule

end Reach
