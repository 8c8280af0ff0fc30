import Reach.Signature.Basic
import Reach.Term.Collection
import Reach.Term.Traversal

/-!
A term is checked against a signature in one of two ways: as a whole, from the root down, or while
it is rebuilt from its leaves up through constructors that check one node each.
-/

namespace Reach

/-- The number of arguments comes first, then their sorts from left to right. -/
def Declaration.checkArgs (decl : Declaration) (args : List Term) : Except SortError Unit :=
  if decl.args.length = args.length then
    (decl.args.zip args).forM fun (expected, arg) =>
      if expected.accepts arg.sort then .ok ()
      else .error (.mismatch expected arg.sort decl.name)
  else .error (.arity decl.name decl.args.length args.length)

namespace Kind

/-- Maps hold bindings and nothing else, the other kinds hold elements and nothing else. -/
def checkShape (kind : Kind) : Entry Term → Except SortError Unit
  | .element _ => if kind = map then .error (.entryShape kind) else .ok ()
  | .binding _ _ => if kind = map then .ok () else .error (.entryShape kind)

/-- The frame has exactly the sort of the collection. -/
def checkFrame (kind : Kind) (frame : Term) : Except SortError Unit :=
  if frame.sort = kind.sort then .ok () else .error (.frameSort kind frame.sort)

/-- In a map no two neighbours may have the same key, unless it has variables. -/
def checkKeys (kind : Kind) (entries : List (Entry Term)) : Except SortError Unit :=
  if kind = map then
    (entries.zip entries.tail).forM fun (entry, next) =>
      if entry.key = next.key ∧ entry.key.ground then .error (.duplicateKey entry.key) else .ok ()
  else .ok ()

end Kind

namespace Signature

variable (sig : Signature)

mutual

def check : Term → Except SortError Unit
  | .var _ => .ok ()
  | .token _ _ => .ok ()
  | .app label sort args => do
    let decl ← sig.label label
    if decl.sort ≠ sort then throw (.mismatch decl.sort sort label)
    decl.checkArgs args
    checkAll args
  | .collection kind entries frame => do
    checkEntries kind entries
    checkRest kind frame
    kind.checkKeys entries
termination_by structural term => term

def checkAll : List Term → Except SortError Unit
  | [] => .ok ()
  | arg :: rest => do
    check arg
    checkAll rest
termination_by structural args => args

def checkEntry (kind : Kind) : Entry Term → Except SortError Unit
  | .element item => do
    kind.checkShape (.element item)
    check item
  | .binding key value => do
    kind.checkShape (.binding key value)
    check key
    check value
termination_by structural entry => entry

def checkEntries (kind : Kind) : List (Entry Term) → Except SortError Unit
  | [] => .ok ()
  | entry :: rest => do
    checkEntry kind entry
    checkEntries kind rest
termination_by structural entries => entries

def checkRest (kind : Kind) : Option Term → Except SortError Unit
  | none => .ok ()
  | some frame => do
    kind.checkFrame frame
    check frame
termination_by structural frame => frame

end

/-- A well-sorted application; the declaration gives its sort. -/
def app (label : String) (args : List Term) : Except SortError Term := do
  let decl ← sig.label label
  decl.checkArgs args
  return .app label decl.sort args

/-- A well-formed collection in canonical form. -/
def collection (kind : Kind) (entries : List (Entry Term)) (frame : Option Term) :
    Except SortError Term := do
  entries.forM kind.checkShape
  frame.forM kind.checkFrame
  let term := Term.normalized kind entries frame
  match term with
  | .collection kind entries _ => kind.checkKeys entries
  | _ => pure ()
  return term

/-- Rebuilds a term from its leaves through `app` and `collection`. -/
def rebuild : Term → Except SortError Term :=
  Term.traverse {
    app := fun label _ args => sig.app label args
    collection := collection }

end Signature

end Reach
