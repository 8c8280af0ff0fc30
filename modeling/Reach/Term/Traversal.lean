import Reach.Term.Basic

/-!
Rebuilding a term from its leaves up with steps that may fail. Parts are rebuilt from left to right,
the frame of a collection last, and nothing is rebuilt after the first failure.
-/

namespace Reach.Term

/-- What takes the place of an application or a collection whose parts have been rebuilt. -/
structure Rebuilder (ε : Type) where
  app : String → TermSort → List Term → Except ε Term
  collection : Kind → List (Entry Term) → Option Term → Except ε Term

variable {ε : Type}

mutual

/-- Variables and tokens stay as they are. -/
def traverse (r : Rebuilder ε) : Term → Except ε Term
  | var v => .ok (var v)
  | app label sort args => do
    r.app label sort (← traverseArgs r args)
  | token sort value => .ok (token sort value)
  | collection kind entries frame => do
    let entries ← traverseEntries r entries
    let frame ← traverseFrame r frame
    r.collection kind entries frame
termination_by structural term => term

def traverseArgs (r : Rebuilder ε) : List Term → Except ε (List Term)
  | [] => .ok []
  | arg :: rest => do
    let arg ← traverse r arg
    let rest ← traverseArgs r rest
    return arg :: rest
termination_by structural args => args

/-- The key of a binding comes before its value. -/
def traverseEntry (r : Rebuilder ε) : Entry Term → Except ε (Entry Term)
  | .element item => do
    return .element (← traverse r item)
  | .binding key value => do
    let key ← traverse r key
    let value ← traverse r value
    return .binding key value
termination_by structural entry => entry

def traverseEntries (r : Rebuilder ε) : List (Entry Term) → Except ε (List (Entry Term))
  | [] => .ok []
  | entry :: rest => do
    let entry ← traverseEntry r entry
    let rest ← traverseEntries r rest
    return entry :: rest
termination_by structural entries => entries

def traverseFrame (r : Rebuilder ε) : Option Term → Except ε (Option Term)
  | none => .ok none
  | some frame => do
    return some (← traverse r frame)
termination_by structural frame => frame

end

theorem traverseArgs_eq_mapM (r : Rebuilder ε) (args : List Term) :
    traverseArgs r args = args.mapM (traverse r) := by
  induction args with
  | nil => rfl
  | cons arg rest ih => rw [traverseArgs, ih, List.mapM_cons]

theorem traverseEntries_eq_mapM (r : Rebuilder ε) (entries : List (Entry Term)) :
    traverseEntries r entries = entries.mapM (traverseEntry r) := by
  induction entries with
  | nil => rfl
  | cons entry rest ih => rw [traverseEntries, ih, List.mapM_cons]

theorem traverseFrame_eq_mapM (r : Rebuilder ε) (frame : Option Term) :
    traverseFrame r frame = frame.mapM (traverse r) := by
  cases frame <;> rfl

theorem traverse_app (r : Rebuilder ε) (label : String) (sort : TermSort) (args : List Term) :
    traverse r (app label sort args) = args.mapM (traverse r) >>= r.app label sort := by
  rw [traverse, traverseArgs_eq_mapM]

theorem traverse_collection (r : Rebuilder ε) (kind : Kind) (entries : List (Entry Term))
    (frame : Option Term) :
    traverse r (collection kind entries frame) = (do
      let entries ← entries.mapM (traverseEntry r)
      let frame ← frame.mapM (traverse r)
      r.collection kind entries frame) := by
  rw [traverse, traverseEntries_eq_mapM, traverseFrame_eq_mapM]

end Reach.Term
