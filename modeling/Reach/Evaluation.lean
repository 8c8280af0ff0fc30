import Reach.Definition
import Reach.Failure
import Reach.Matching
import Reach.Signature.Builtin
import Reach.Term.Traversal

/-!
Evaluation of function applications, innermost first. A builtin is used where its hook determines a
result. Otherwise the first rule of the function that matches and whose precondition is true gives
the result; a rule that matches and whose precondition is not decided blocks the rules after it, so
that an application with symbolic arguments stays as it is.
-/

namespace Reach

namespace Evaluation

/-- An evaluator of terms. -/
abbrev Eval := Term → Except Failure Term

/-- Extends each substitution by the lookups in turn, in every way their patterns match. -/
def lookups (eval : Eval) : List Lookup → List Subst → Except Failure (List Subst)
  | [], bindings => .ok bindings
  | lookup :: rest, bindings => do
    let extended ← bindings.mapM fun s => do
      let value ← eval (s.apply lookup.expr)
      return (Matching.enumerateFrom s lookup.pattern value).toList
    lookups eval rest extended.flatten

/-- The first binding under which the rule decides: it gives a result if the precondition is true,
leaves the application if it is undecided, and passes on if it is false. -/
def tryBindings (eval : Eval) (rule : Rule) (call : Term) :
    List Subst → Except Failure (Option Term)
  | [] => .ok none
  | s :: rest => do
    let requires ← eval (s.apply rule.requires)
    if requires.isTrue then
      let result ← eval (s.apply rule.rhs)
      return some result
    else if requires.isFalse then tryBindings eval rule call rest
    else return some call

def tryMatches (eval : Eval) (rule : Rule) (call : Term) :
    Enumeration Subst → Except Failure (Option Term)
  | .nil => .ok none
  | .cons s more => do
    let bindings ← lookups eval rule.lookups [s]
    match ← tryBindings eval rule call bindings with
    | some result => return some result
    | none => tryMatches eval rule call (more ())

/-- The result of the first rule that decides, or the application itself. -/
def tryRules (eval : Eval) (call : Term) : List Rule → Except Failure Term
  | [] => .ok call
  | rule :: rest => do
    match ← tryMatches eval rule call (Matching.enumerate rule.lhs call) with
    | some result => return result
    | none => tryRules eval call rest

/-- Evaluates the parts of each node before the node; `onCall` gets the function applications that
no hook determines. -/
def reduce (sig : Signature) (onCall : String → Term → Except Failure Term) : Eval :=
  Term.traverse {
    app := fun label sort args =>
      match sig.callHook label args with
      | some value => .ok value
      | none =>
        let call := Term.app label sort args
        if sig.isFunction label then onCall label call else .ok call
    collection := fun kind entries frame => .ok (.normalized kind entries frame) }

end Evaluation

namespace Definition

/-- Evaluation in which function rules may nest `depth` more levels, out of `limit` altogether. -/
def evaluateWithin (d : Definition) (limit : Nat) : Nat → Term → Except Failure Term
  | 0 =>
    Evaluation.reduce d.signature fun label call =>
      if (d.functionRules label).isEmpty then .ok call else .error (.depthExceeded label limit)
  | depth + 1 =>
    Evaluation.reduce d.signature fun label call =>
      Evaluation.tryRules (d.evaluateWithin limit depth) call (d.functionRules label)

/-- Evaluates every function application that can be evaluated. -/
def evaluate (d : Definition) (limit : Nat) (term : Term) : Except Failure Term :=
  d.evaluateWithin limit limit term

/-- The ways to extend a substitution by all lookups of a rule. -/
def lookups (d : Definition) (limit : Nat) (rule : Rule) (s : Subst) :
    Except Failure (List Subst) :=
  Evaluation.lookups (d.evaluate limit) rule.lookups [s]

end Definition

end Reach
