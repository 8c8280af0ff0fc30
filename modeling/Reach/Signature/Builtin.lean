import Reach.Hook
import Reach.Signature.Basic

/-! Evaluation of the hooked applications of a term, from the leaves up. -/

namespace Reach.Signature

variable (sig : Signature)

/-- The result of the hook of `label`, if it has one that determines a result. -/
def callHook (label : String) (args : List Term) : Option Term := do
  Hook.applyNamed (← sig.hook? label) args

def builtinAlgebra : Term.Algebra Term where
  var := .var
  app label sort args := (sig.callHook label args).getD (.app label sort args)
  token := .token
  collection := .normalized

def evalBuiltins : Term → Term :=
  Term.fold sig.builtinAlgebra

@[simp]
theorem evalBuiltins_var (v : Variable) : sig.evalBuiltins (.var v) = .var v :=
  rfl

@[simp]
theorem evalBuiltins_token (sort : TermSort) (value : String) :
    sig.evalBuiltins (.token sort value) = .token sort value :=
  rfl

theorem evalBuiltins_app (label : String) (sort : TermSort) (args : List Term) :
    sig.evalBuiltins (.app label sort args) =
      (sig.callHook label (args.map sig.evalBuiltins)).getD
        (.app label sort (args.map sig.evalBuiltins)) :=
  Term.fold_app _ _ _ _

theorem evalBuiltins_collection (kind : Kind) (entries : List (Entry Term)) (frame : Option Term) :
    sig.evalBuiltins (.collection kind entries frame) =
      .normalized kind (entries.map (Entry.map sig.evalBuiltins)) (frame.map sig.evalBuiltins) :=
  Term.fold_collection _ _ _ _

end Reach.Signature
