import Reach.Constraint.Basic
import Reach.Signature.Builtin

/-!
Simplification without a decision procedure: builtins are evaluated, conjunctions are split, trivial
atoms are dropped, equations between distinct values are contradictions, and a variable that is
equated with a value is replaced by it in the other atoms.
-/

namespace Reach

/-- A ground term without function applications, which is its own value. -/
def Signature.isValue (sig : Signature) (term : Term) : Bool :=
  term.ground && term.labelOccurrences.all fun label => !sig.isFunction label

namespace Constraint

variable (sig : Signature)

/-- Adds a condition with its builtins evaluated. -/
def assumeEvaluated (c : Constraint) (condition : Term) : Constraint :=
  c.conjoin (sig.evalBuiltins condition)

/-- Adds an equation with its builtins evaluated. An equation with a boolean token is the other side
or its negation, and a variable moves to the left. -/
def equateEvaluated (c : Constraint) (a b : Term) : Constraint :=
  let a := sig.evalBuiltins a
  let b := sig.evalBuiltins b
  if a = b then c
  else
    match a.bool?, b.bool? with
    | some true, _ => c.assumeEvaluated sig b
    | _, some true => c.assumeEvaluated sig a
    | some false, _ => c.assumeEvaluated sig b.negate
    | _, some false => c.assumeEvaluated sig a.negate
    | none, none =>
      if sig.isValue a && sig.isValue b then bottom
      else if b.var?.isSome && a.var?.isNone then c.push (.eq b a)
      else c.push (.eq a b)

def addEvaluated (c : Constraint) : Atom → Constraint
  | .eq a b => c.equateEvaluated sig a b
  | .holds condition => c.assumeEvaluated sig condition

/-- The conjunction of these atoms, each of them evaluated. -/
def ofAtoms (atoms : List Atom) : Constraint :=
  atoms.foldl (addEvaluated sig) top

/-- The first variable outside `done` that an atom equates with a value. -/
def binding? (done : List Variable) (c : Constraint) : Option (Variable × Term) :=
  c.atoms.findSome? fun
    | .eq (.var v) value => if sig.isValue value ∧ v ∉ done then some (v, value) else none
    | _ => none

/-- Replaces `v` by its value in every atom but the one that says so. -/
def propagate (c : Constraint) (v : Variable) (value : Term) : Constraint :=
  ofAtoms sig (c.atoms.map fun atom =>
    if atom = .eq (.var v) value then atom else atom.map (Subst.single v value).apply)

/-- Propagates values, at most `rounds` of them; those in `done` were propagated before. -/
def propagateAll : Nat → List Variable → Constraint → Constraint
  | 0, _, c => c
  | rounds + 1, done, c =>
    match c.binding? sig done with
    | none => c
    | some (v, value) => propagateAll rounds (v :: done) (c.propagate sig v value)

def simplify (c : Constraint) : Constraint :=
  if c.contradiction then bottom
  else
    let evaluated := ofAtoms sig c.atoms
    evaluated.propagateAll sig evaluated.freeVars.length []

end Constraint

end Reach
