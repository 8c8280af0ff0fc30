import Reach.Assoc
import Reach.Term.Collection
import Reach.Term.Json
import Reach.Term.Printer

/-!
Substitutions are applied simultaneously: the terms they bind are not substituted into again.
Collections are put back into canonical form on the way, so a frame that is bound to a collection
is spliced into the collection around it.
-/

namespace Reach

/-- The bindings of some variables, in the order in which they were made. -/
abbrev Subst := Assoc Variable Term

namespace Subst

def single (v : Variable) (term : Term) : Subst :=
  Assoc.empty.insert v term

/-- The binding of `v`, or `v` itself. -/
def image (s : Subst) (v : Variable) : Term :=
  (s.get? v).getD (.var v)

def algebra (s : Subst) : Term.Algebra Term where
  var := s.image
  app := .app
  token := .token
  collection := .normalized

/-- The empty substitution leaves a term exactly as it is. -/
def apply (s : Subst) (term : Term) : Term :=
  if s.isEmpty then term else term.fold s.algebra

/-- First `s`, then `other`. -/
def compose (s other : Subst) : Subst :=
  other.entries.foldl (fun all (v, term) => if all.contains v then all else all.insert v term)
    (s.mapValues other.apply)

/-- Whether variables go to distinct variables of the same sort. -/
def isRenaming (s : Subst) : Bool :=
  (s.entries.all fun
    | (v, .var w) => w.sort == v.sort
    | _ => false) &&
  decide (s.entries.map Prod.snd).Nodup

def text (s : Subst) : String :=
  let binding := fun ((v, term) : Variable × Term) => v.text ++ " |-> " ++ term.text
  "\x7b" ++ ", ".intercalate (s.entries.map binding) ++ "\x7d"

/-- An object from the text of each variable to its term. -/
def json (s : Subst) : String :=
  jsonObject (s.entries.map fun (v, term) => (v.text, term.json))

section Equations

variable {s : Subst} (nonempty : s.isEmpty = false)
include nonempty

theorem apply_eq_fold (term : Term) : s.apply term = term.fold s.algebra := by
  simp [apply, nonempty]

theorem apply_var (v : Variable) : s.apply (.var v) = s.image v := by
  simp [apply, nonempty, algebra]

theorem apply_app (label : String) (sort : TermSort) (args : List Term) :
    s.apply (.app label sort args) = .app label sort (args.map s.apply) := by
  have same : s.apply = Term.fold s.algebra := funext (apply_eq_fold nonempty)
  simp [same, algebra]

theorem apply_token (sort : TermSort) (value : String) :
    s.apply (.token sort value) = .token sort value := by
  simp [apply, nonempty, algebra]

theorem apply_collection (kind : Kind) (entries : List (Entry Term)) (frame : Option Term) :
    s.apply (.collection kind entries frame) =
      .normalized kind (entries.map (Entry.map s.apply)) (frame.map s.apply) := by
  have same : s.apply = Term.fold s.algebra := funext (apply_eq_fold nonempty)
  simp [same, algebra]

end Equations

end Subst

end Reach
