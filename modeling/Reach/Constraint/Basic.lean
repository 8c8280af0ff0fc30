import Reach.Label
import Reach.Signature.Basic
import Reach.Subst
import Reach.Term.Total
import Reach.Term.Value

/-!
Constraints are conjunctions of atoms: equations between terms, and boolean terms that hold. The
empty conjunction is true; a constraint that is known to be contradictory keeps no atoms.
-/

namespace Reach

inductive Atom
  | eq (left right : Term)
  | holds (condition : Term)
  deriving DecidableEq

namespace Atom

def map (f : Term → Term) : Atom → Atom
  | eq left right => eq (f left) (f right)
  | holds condition => holds (f condition)

def vars : Atom → List Variable
  | eq left right => left.vars ++ right.vars
  | holds condition => condition.vars

/-- The atom as a boolean term. -/
def toTerm : Atom → Term
  | eq left right => .app Label.termEq .bool [left, right]
  | holds condition => condition

def text : Atom → String
  | eq left right => left.text ++ " == " ++ right.text
  | holds condition => condition.text

/-- The terms of an atom; their number tells the two forms apart. -/
def parts : Atom → List Term
  | eq left right => [left, right]
  | holds condition => [condition]

theorem parts_injective {first second : Atom} (same : first.parts = second.parts) :
    first = second := by
  cases first <;> cases second <;> simp_all [parts]

instance : Ord Atom where
  compare := compareOn parts

instance : Std.TransOrd Atom :=
  inferInstanceAs (Std.TransCmp (compareOn parts))

instance : Std.LawfulEqOrd Atom where
  compare_self := @fun atom => (Std.ReflOrd.compare_self : compare atom.parts atom.parts = .eq)
  eq_of_compare same := parts_injective (Std.LawfulEqOrd.eq_of_compare same)

end Atom

/-- The negation of a boolean term. -/
def Term.negate (condition : Term) : Term :=
  .app Label.boolNot .bool [condition]

def Term.conjunction (a b : Term) : Term :=
  .app Label.boolAnd .bool [a, b]

structure Constraint where
  atoms : List Atom
  contradiction : Bool
  deriving DecidableEq

namespace Constraint

instance : Ord Constraint where
  compare := compareLex (compareOn contradiction) (compareOn atoms)

instance : Std.TransOrd Constraint :=
  inferInstanceAs (Std.TransCmp (compareLex (compareOn contradiction) (compareOn atoms)))

instance : Std.LawfulEqOrd Constraint where
  compare_self := Ordering.then_eq_eq.mpr ⟨Std.ReflOrd.compare_self, Std.ReflOrd.compare_self⟩
  eq_of_compare := by
    intro first second same
    obtain ⟨sameContradiction, sameAtoms⟩ := Ordering.then_eq_eq.mp same
    cases first
    cases second
    exact congr (congrArg mk (Std.LawfulEqOrd.eq_of_compare sameAtoms))
      (Std.LawfulEqOrd.eq_of_compare sameContradiction)

def top : Constraint :=
  { atoms := [], contradiction := false }

def bottom : Constraint :=
  { atoms := [], contradiction := true }

def isTrue (c : Constraint) : Bool :=
  !c.contradiction && c.atoms.isEmpty

def isFalse (c : Constraint) : Bool :=
  c.contradiction

/-- Atoms are kept once, in the order in which they were added. -/
def push (c : Constraint) (atom : Atom) : Constraint :=
  if c.contradiction || c.atoms.contains atom then c else { c with atoms := c.atoms ++ [atom] }

mutual

/-- The conjuncts of a boolean term from left to right. -/
def conjuncts : Term → List Term
  | .app label sort args =>
    if label = Label.boolAnd ∧ args.length = 2 then conjunctsOfAll args else [.app label sort args]
  | term => [term]
termination_by structural term => term

def conjunctsOfAll : List Term → List Term
  | [] => []
  | arg :: rest => conjuncts arg ++ conjunctsOfAll rest
termination_by structural args => args

end

/-- One conjunct: truth adds nothing, falsity leaves a contradiction. -/
def assume (c : Constraint) (condition : Term) : Constraint :=
  if condition.isTrue then c
  else if condition.isFalse then bottom
  else c.push (.holds condition)

/-- Adds a boolean term, one conjunct after the other. -/
def conjoin (c : Constraint) (condition : Term) : Constraint :=
  (conjuncts condition).foldl assume c

def ofTerm (condition : Term) : Constraint :=
  top.conjoin condition

/-- Adds the equation `a = b`, unless it is trivial. -/
def conjoinEq (c : Constraint) (a b : Term) : Constraint :=
  if a = b then c else c.push (.eq a b)

def and (c other : Constraint) : Constraint :=
  if other.contradiction then bottom else other.atoms.foldl push c

/-- The variables in order of first occurrence, each once. -/
def freeVars (c : Constraint) : List Variable :=
  (c.atoms.flatMap Atom.vars).eraseDups

def substitute (c : Constraint) (s : Subst) : Constraint :=
  if c.contradiction then bottom
  else (c.atoms.map (Atom.map s.apply)).foldl push top

/-- The equation of an atom as a definition of a variable outside `keep`, from either side. -/
def eliminable (keep : List Variable) : Atom → Option (Variable × Term)
  | .holds _ => none
  | .eq a b =>
    let defines := fun (x term : Term) => do
      let v ← x.var?
      if v ∉ keep ∧ term.mentions v = false then some (v, term) else none
    (defines a b).or (defines b a)

/-- The first atom that defines a variable outside `keep`, and the atoms around it. -/
def takeEliminable (keep : List Variable) :
    List Atom → Option ((Variable × Term) × List Atom)
  | [] => none
  | atom :: rest =>
    match eliminable keep atom with
    | some definition => some (definition, rest)
    | none => (takeEliminable keep rest).map fun (definition, others) => (definition, atom :: others)

/-- Replaces variables outside `keep` by their definitions, at most `rounds` of them. -/
def eliminate (keep : List Variable) : Nat → List Atom → List Atom
  | 0, atoms => atoms
  | rounds + 1, atoms =>
    match takeEliminable keep atoms with
    | none => atoms
    | some ((v, term), others) =>
      eliminate keep rounds (others.map (Atom.map (Subst.single v term).apply))

/-- Keeps what can be said with the variables in `keep`: those that an equation defines are
replaced, and atoms that still mention others are dropped. -/
def project (c : Constraint) (keep : List Variable) : Constraint :=
  if c.contradiction then bottom
  else
    ((eliminate keep c.atoms.length c.atoms).filter fun atom =>
      atom.vars.all fun v => keep.contains v).foldl push top

/-- The whole conjunction as one boolean term, associated to the left. -/
def toTerm (c : Constraint) : Term :=
  if c.contradiction then .falsity
  else
    match c.atoms.map Atom.toTerm with
    | [] => .truth
    | first :: rest => rest.foldl Term.conjunction first

def text (c : Constraint) : String :=
  if c.contradiction then "false"
  else if c.atoms.isEmpty then "true"
  else " /\\ ".intercalate (c.atoms.map Atom.text)

end Constraint

end Reach
