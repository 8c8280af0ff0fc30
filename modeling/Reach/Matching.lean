import Reach.Pairing
import Reach.Subst

/-!
Matching a pattern against a subject: only variables of the pattern are bound, each to a term of a
sort that its own accepts. Goals are taken in the order in which they arise, and collections wait
until there are no other goals. An unordered collection is matched in every way that assigns its
entries to distinct entries of the subject, and its frame takes whatever is left.
-/

namespace Reach.Matching

/-- Two collections of one kind that wait to be matched. -/
structure Deferred where
  kind : Kind
  pattern : List (Entry Term)
  patternFrame : Option Term
  subject : List (Entry Term)
  subjectFrame : Option Term

/-- What is bound so far and what is still to be matched. -/
structure Problem where
  subst : Subst
  goals : List Goal
  deferred : List Deferred

/-- Either a match, or the problems that one step leads to. -/
inductive Progress
  | solved (subst : Subst)
  | branches (problems : Enumeration Problem)

namespace Problem

def addGoals (p : Problem) (goals : List Goal) : Problem :=
  { p with goals := p.goals ++ goals }

/-- One goal, decomposed. A ground pattern is compared as a whole; labels are compared, but not the
sorts of applications. -/
def step (p : Problem) (pattern subject : Term) : Option Problem :=
  match pattern with
  | .var v =>
    match p.subst.get? v with
    | some bound => if bound = subject then some p else none
    | none =>
      if v.sort.accepts subject.sort then some { p with subst := p.subst.insert v subject }
      else none
  | pattern =>
    if pattern.ground then
      if pattern = subject then some p else none
    else
      match pattern, subject with
      | .app label _ args, .app label' _ args' =>
        if label = label' ∧ args.length = args'.length then some (p.addGoals (args.zip args'))
        else none
      | .collection kind entries frame, .collection kind' entries' frame' =>
        if kind = kind' then
          some { p with deferred := p.deferred ++ [⟨kind, entries, frame, entries', frame'⟩] }
        else none
      | _, _ => none

/-- Gives the pattern's frame everything that its entries did not take; without a frame nothing may
be left. -/
def bindRest (p : Problem) (d : Deferred) (rest : List (Entry Term)) : Option Problem :=
  match d.patternFrame with
  | some frame => some (p.addGoals [(frame, .normalized d.kind rest d.subjectFrame)])
  | none => if rest.isEmpty && d.subjectFrame.isNone then some p else none

/-- The entries of a list pattern match the front of the subject. -/
def expandOrdered (p : Problem) (d : Deferred) : Option Problem := do
  if d.pattern.length > d.subject.length then none
  let goals ← Pairing.allGoals (d.pattern.zip d.subject)
  (p.addGoals goals).bindRest d (d.subject.drop d.pattern.length)

/-- The problem in which the entries `left` of the pattern match the entries of `right` at these
positions. -/
def assign (p : Problem) (d : Deferred) (left right : List (Entry Term)) (positions : List Nat) :
    Option Problem := do
  let goals ← Pairing.allGoals (left.zip (Pairing.select right positions))
  (p.addGoals goals).bindRest d (Pairing.remaining right positions)

/-- The positions to which the entries `left` of the pattern can be assigned. Assignments that
differ only by an exchange of equal entries are tried once. -/
def assignments (left right : List (Entry Term)) : Enumeration (List Nat) :=
  let all := List.range left.length
  (Pairing.representatives left right
    ((Pairing.arrangements left.length (List.range right.length)).map (all, ·))).map Prod.snd

def expandUnordered (p : Problem) (d : Deferred) : Enumeration Problem :=
  match Pairing.cancel true d.pattern d.subject with
  | none => .nil
  | some ⟨goals, left, right⟩ =>
    let p := p.addGoals goals
    if left.length > right.length ∨ (d.patternFrame.isNone ∧ left.length < right.length) then .nil
    else if left.isEmpty then .ofOption (p.bindRest d right)
    else (assignments left right).filterMap (p.assign d left right)

def expand (p : Problem) (d : Deferred) : Enumeration Problem :=
  if d.kind.ordered then .ofOption (p.expandOrdered d) else p.expandUnordered d

def advance (p : Problem) : Progress :=
  match p.goals, p.deferred with
  | (pattern, subject) :: goals, _ =>
    .branches (.ofOption ({ p with goals }.step pattern subject))
  | [], d :: deferred => .branches ({ p with deferred }.expand d)
  | [], [] => .solved p.subst

/-- A bound on the number of steps to a match: a term is looked at once as a goal, and a collection
once more when its turn comes. -/
def weight (p : Problem) : Nat :=
  total (p.goals.map fun goal => 2 * goal.1.size) +
    total (p.deferred.map fun d => 2 * (Term.collection d.kind d.pattern d.patternFrame).size - 1)

/-- The matches that are found in at most `steps` steps each. -/
def solve : Nat → Problem → Enumeration Subst
  | 0, p =>
    match p.advance with
    | .solved s => .single s
    | .branches _ => .nil
  | steps + 1, p =>
    match p.advance with
    | .solved s => .single s
    | .branches problems => problems.flatMap (solve steps)

end Problem

/-- The matches that extend `seed`; what it binds, even to itself, is not bound again. -/
def enumerateFrom (seed : Subst) (pattern subject : Term) : Enumeration Subst :=
  let p : Problem := { subst := seed, goals := [(pattern, subject)], deferred := [] }
  p.solve p.weight

/-- Every substitution that takes the pattern to the subject, in a fixed order. -/
def enumerate (pattern subject : Term) : Enumeration Subst :=
  enumerateFrom .empty pattern subject

def first? (pattern subject : Term) : Option Subst :=
  (enumerate pattern subject).head?

end Reach.Matching
