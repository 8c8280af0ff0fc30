import Reach.Comparison
import Reach.Constraint.Simplify
import Reach.Decision.Verdict

/-!
A decision procedure that needs no one else. It decides what simplification decides, and refutes
conjunctions that leave no integer for some variable, by the interval that comparisons with
constants allow. Everything else is unknown.
-/

namespace Reach

/-- The integers that are left for a variable: an interval without some points. -/
structure Range where
  lower : Option Int := none
  upper : Option Int := none
  excluded : List Int := []
  deriving DecidableEq

namespace Range

def raiseLower (range : Range) (bound : Int) : Range :=
  { range with lower := some (range.lower.elim bound (max bound)) }

def lowerUpper (range : Range) (bound : Int) : Range :=
  { range with upper := some (range.upper.elim bound (min bound)) }

/-- Keeps the integers that compare in this way to `bound`. -/
def restrict (range : Range) (comparison : Comparison) (bound : Int) : Range :=
  match comparison with
  | .lt => range.lowerUpper (bound - 1)
  | .le => range.lowerUpper bound
  | .gt => range.raiseLower (bound + 1)
  | .ge => range.raiseLower bound
  | .eq => (range.lowerUpper bound).raiseLower bound
  | .ne => { range with excluded := range.excluded ++ [bound] }

/-- The first integer from `lo` to `hi` that is not excluded, or one beyond `hi`; each of the steps
passes an excluded point. -/
def skipUp (excluded : List Int) (hi : Int) : Nat → Int → Int
  | 0, lo => lo
  | steps + 1, lo => if lo ≤ hi ∧ lo ∈ excluded then skipUp excluded hi steps (lo + 1) else lo

/-- The last integer from `lo` to `hi` that is not excluded, or one before `lo`. -/
def skipDown (excluded : List Int) (lo : Int) : Nat → Int → Int
  | 0, hi => hi
  | steps + 1, hi => if lo ≤ hi ∧ hi ∈ excluded then skipDown excluded lo steps (hi - 1) else hi

/-- Whether the interval is bounded and holds only excluded points. -/
def isEmpty (range : Range) : Bool :=
  match range.lower, range.upper with
  | some lo, some hi =>
    let lo := skipUp range.excluded hi range.excluded.length lo
    let hi := skipDown range.excluded lo range.excluded.length hi
    hi < lo
  | _, _ => false

end Range

/-- The range of each variable that is compared with a constant. -/
abbrev Bounds := Assoc Variable Range

namespace Bounds

def intVar? (term : Term) : Option Variable :=
  term.var?.filter fun v => v.sort = .int

/-- A variable plus a constant. -/
def linear? (term : Term) : Option (Variable × Int) :=
  match intVar? term with
  | some v => some (v, 0)
  | none =>
    match term with
    | .app label _ [a, b] =>
      if label = Label.intAdd then
        match intVar? a, intVar? b with
        | some v, none => b.int?.map (v, ·)
        | none, some v => a.int?.map (v, ·)
        | _, _ => none
      else if label = Label.intSub then do
        return (← intVar? a, -(← b.int?))
      else none
    | _ => none

/-- The comparison that a label stands for. -/
def comparison? (label : String) : Option Comparison :=
  if label = Label.intLt then some .lt
  else if label = Label.intLe then some .le
  else if label = Label.intGt then some .gt
  else if label = Label.intGe then some .ge
  else if label = Label.intEq ∨ label = Label.termEq then some .eq
  else if label = Label.intNe ∨ label = Label.termNe then some .ne
  else none

/-- A comparison of a variable plus an offset with a constant, whichever side they stand on. -/
def normalForm? (comparison : Comparison) (a b : Term) :
    Option (Comparison × Variable × Int) :=
  match linear? a, b.int? with
  | some (v, offset), some constant => some (comparison, v, constant - offset)
  | _, _ =>
    match linear? b, a.int? with
    | some (v, offset), some constant => some (comparison.flip, v, constant - offset)
    | _, _ => none

/-- What an atom compares: an equation, a comparison, or a comparison under one negation. -/
def comparisonOf? : Atom → Option (Comparison × Term × Term)
  | .eq a b => some (.eq, a, b)
  | .holds (.app label _ args) =>
    if label = Label.boolNot then
      match args with
      | [.app label _ [a, b]] => (comparison? label).map fun comparison => (comparison.negate, a, b)
      | _ => none
    else
      match args with
      | [a, b] => (comparison? label).map (·, a, b)
      | _ => none
  | .holds _ => none

def add (bounds : Bounds) (atom : Atom) : Bounds :=
  match (comparisonOf? atom).bind fun (comparison, a, b) => normalForm? comparison a b with
  | some (comparison, v, bound) =>
    bounds.insert v (((bounds.get? v).getD {}).restrict comparison bound)
  | none => bounds

def ofAtoms (atoms : List Atom) : Bounds :=
  atoms.foldl add .empty

/-- Whether no integer is left for some variable. -/
def refute (bounds : Bounds) : Bool :=
  bounds.entries.any fun (_, range) => range.isEmpty

end Bounds

/-- The verdict of simplification and of the bounds on single variables. -/
def Constraint.decideLocally (sig : Signature) (c : Constraint) : Verdict :=
  let c := c.simplify sig
  if c.isFalse then .unsat
  else if c.isTrue then .sat
  else if (Bounds.ofAtoms c.atoms).refute then .unsat
  else .unknown (c.atoms.length.repr ++ " atoms not decidable locally")

end Reach
