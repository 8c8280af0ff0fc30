import Reach.Constraint.Basic

/-!
Symbolic states: a term with a constraint on its variables stands for every instance of the term
that satisfies the constraint.
-/

namespace Reach

structure State where
  term : Term
  constraint : Constraint := .top
  deriving DecidableEq

namespace State

/-- By term, then by constraint. -/
instance : Ord State where
  compare := compareLex (compareOn term) (compareOn constraint)

instance : Std.TransOrd State :=
  inferInstanceAs (Std.TransCmp (compareLex (compareOn term) (compareOn constraint)))

instance : Std.LawfulEqOrd State where
  compare_self := Ordering.then_eq_eq.mpr ⟨Std.ReflOrd.compare_self, Std.ReflOrd.compare_self⟩
  eq_of_compare := by
    intro first second same
    obtain ⟨sameTerm, sameConstraint⟩ := Ordering.then_eq_eq.mp same
    cases first
    cases second
    exact congr (congrArg mk (Std.LawfulEqOrd.eq_of_compare sameTerm))
      (Std.LawfulEqOrd.eq_of_compare sameConstraint)

/-- The variables of the term, then those of the constraint. -/
def freeVars (state : State) : List Variable :=
  (state.term.vars ++ state.constraint.atoms.flatMap Atom.vars).eraseDups

def text (state : State) : String :=
  if state.constraint.isTrue then state.term.text
  else state.term.text ++ " /\\ " ++ state.constraint.text

end State

end Reach
