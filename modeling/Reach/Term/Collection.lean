import Reach.Ordered
import Reach.Term.Order

/-!
The canonical form of a collection: frames of the same kind are spliced into the entries, entries
of unordered kinds are sorted, maps and sets hold each entry once, and a collection that has a frame
but no entry is its frame.
-/

namespace Reach.Term

mutual

/-- All entries of a collection and of the collections of its kind nested in its frame, and the
frame that is left. -/
def splice (kind : Kind) (entries : List (Entry Term)) :
    Option Term → List (Entry Term) × Option Term
  | none => (entries, none)
  | some frame => spliceTerm kind entries frame
termination_by structural frame => frame

def spliceTerm (kind : Kind) (entries : List (Entry Term)) :
    Term → List (Entry Term) × Option Term
  | collection inner more frame =>
    if inner = kind then splice kind (entries ++ more) frame
    else (entries, some (collection inner more frame))
  | frame => (entries, some frame)
termination_by structural frame => frame

end

/-- Entries as the kind keeps them. -/
def arrange (kind : Kind) (entries : List (Entry Term)) : List (Entry Term) :=
  if kind.ordered then entries
  else if kind.idempotent then Ordered.dropRepeats (Ordered.sort entries)
  else Ordered.sort entries

/-- The collection with these entries and this frame, in canonical form. -/
def normalized (kind : Kind) (entries : List (Entry Term)) (frame : Option Term) : Term :=
  let (all, rest) := splice kind entries frame
  match arrange kind all, rest with
  | [], some frame => frame
  | kept, rest => collection kind kept rest

def empty (kind : Kind) : Term :=
  collection kind [] none

end Reach.Term

namespace Reach.Entry

/-- The value that the first binding of `key` gives it. -/
def lookup? (key : Term) (entries : List (Entry Term)) : Option Term :=
  entries.findSome? fun
    | binding bound value => if bound = key then some value else none
    | element _ => none

end Reach.Entry
