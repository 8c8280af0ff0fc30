import Reach.Fresh
import Reach.Pairing
import Reach.Signature.Basic
import Reach.Subst

/-!
Unification modulo reordering of collections. Equations that involve a function application cannot
be decided by their shape and are kept as residual equations. Unordered collections are unified by
every partial pairing of their entries; when both have a frame, a fresh frame stands for the entries
that they share beyond the explicit ones. Unifiers are computed one at a time, and each draws its
fresh names when it is computed.
-/

namespace Reach

/-- A substitution together with the equations that it leaves open. -/
structure Unifier where
  subst : Subst
  residual : List Goal
  deriving DecidableEq

namespace Unification

structure Problem where
  subst : Subst
  goals : List Goal
  /-- Pairs of collections, which wait until there are no other goals. -/
  deferred : List Goal
  residual : List Goal

/-- A choice between the pairings of the entries of two collections. -/
structure Choice where
  base : Problem
  kind : Kind
  left : List (Entry Term)
  right : List (Entry Term)
  leftFrame : Option Term
  rightFrame : Option Term
  pairings : Enumeration (List Nat × List Nat)

inductive Progress
  | solved (unifier : Unifier)
  | failed
  | next (problem : Problem)
  | choose (choice : Choice)

def Progress.ofOption : Option Problem → Progress
  | some problem => next problem
  | none => failed

namespace Problem

def addGoals (p : Problem) (goals : List Goal) : Problem :=
  { p with goals := p.goals ++ goals }

def addResidual (p : Problem) (goal : Goal) : Problem :=
  { p with residual := p.residual ++ [goal] }

/-- The variable to bind and its term. Of two variables the one with the wider sort is bound. -/
def orient (v : Variable) (term : Term) : Option (Variable × Term) :=
  if v.sort.accepts term.sort then some (v, term)
  else
    match term with
    | .var w => if w.sort.accepts v.sort then some (w, .var v) else none
    | _ => none

/-- A variable inside its own term has no solution, unless the term is a function application. -/
def bind (sig : Signature) (p : Problem) (v : Variable) (term : Term) : Option Problem := do
  let (v, term) ← orient v term
  if term.mentions v then
    if sig.isCall term then some (p.addResidual (.var v, term)) else none
  else some { p with subst := p.subst.compose (.single v term) }

/-- One goal, with the substitution applied and decomposed. -/
def step (sig : Signature) (p : Problem) (goal : Goal) : Option Problem :=
  let a := p.subst.apply goal.1
  let b := p.subst.apply goal.2
  if a = b then some p
  else
    match a, b with
    | .var v, b => p.bind sig v b
    | a, .var v => p.bind sig v a
    | a, b =>
      if sig.isCall a || sig.isCall b then some (p.addResidual (a, b))
      else
        match a, b with
        | .app label _ args, .app label' _ args' =>
          if label = label' ∧ args.length = args'.length then some (p.addGoals (args.zip args'))
          else none
        | .collection kind _ _, .collection kind' _ _ =>
          if kind = kind' then some { p with deferred := p.deferred ++ [(a, b)] } else none
        | _, _ => none

/-- Two lists agree on their common front, and the frame of the shorter takes what the longer has
beyond it. -/
def expandOrdered (p : Problem) (kind : Kind) (left right : List (Entry Term))
    (leftFrame rightFrame : Option Term) : Option Problem := do
  let p := p.addGoals (← Pairing.allGoals (left.zip right))
  match left.drop right.length, right.drop left.length with
  | rest@(_ :: _), _ =>
    let frame ← rightFrame
    return p.addGoals [(frame, .normalized kind rest leftFrame)]
  | [], rest@(_ :: _) =>
    let frame ← leftFrame
    return p.addGoals [(frame, .normalized kind rest rightFrame)]
  | [], [] =>
    match leftFrame, rightFrame with
    | none, none => return p
    | _, _ =>
      return p.addGoals [(leftFrame.getD (.empty kind), rightFrame.getD (.empty kind))]

/-- The pairings to be tried: a side without a frame has all its entries paired. `none` means that
there is nothing to pair. -/
def pairings (left right : Nat) (leftFrame rightFrame : Bool) :
    Option (Enumeration (List Nat × List Nat)) :=
  match leftFrame, rightFrame with
  | false, false =>
    if left ≠ right then some .nil
    else if left = 0 then none
    else some (Pairing.injections left right left left)
  | true, false =>
    if left > right then some .nil else some (Pairing.injections left right left left)
  | false, true =>
    if right > left then some .nil else some (Pairing.injections left right right right)
  | true, true =>
    if left = 0 ∧ right = 0 then none
    else some (Pairing.injections left right (min left right) 0)

def expandUnordered (p : Problem) (kind : Kind) (left right : List (Entry Term))
    (leftFrame rightFrame : Option Term) : Progress :=
  match Pairing.cancel false left right with
  | none => .failed
  | some ⟨goals, left, right⟩ =>
    let p := p.addGoals goals
    match pairings left.length right.length leftFrame.isSome rightFrame.isSome with
    | some candidates =>
      .choose { base := p, kind, left, right, leftFrame, rightFrame,
                pairings := Pairing.representatives left right candidates }
    | none =>
      match leftFrame, rightFrame with
      | some first, some second => .next (p.addGoals [(first, second)])
      | _, _ => .next p

/-- Two collections whose turn has come. A frame that was bound in the meantime may have changed
their shape; then they are an ordinary goal again. -/
def expand (p : Problem) (goal : Goal) : Progress :=
  match p.subst.apply goal.1, p.subst.apply goal.2 with
  | .collection kind left leftFrame, .collection kind' right rightFrame =>
    if kind = kind' then
      if kind.ordered then .ofOption (p.expandOrdered kind left right leftFrame rightFrame)
      else p.expandUnordered kind left right leftFrame rightFrame
    else
      .next (p.addGoals
        [(.collection kind left leftFrame, .collection kind' right rightFrame)])
  | a, b => .next (p.addGoals [(a, b)])

/-- Residual equations that the substitution makes trivial are dropped. -/
def finish (p : Problem) : Unifier :=
  { subst := p.subst
    residual := (p.residual.map fun (a, b) => (p.subst.apply a, p.subst.apply b)).filter
      fun (a, b) => a ≠ b }

def advance (sig : Signature) (p : Problem) : Progress :=
  match p.goals, p.deferred with
  | goal :: goals, _ => .ofOption ({ p with goals }.step sig goal)
  | [], goal :: deferred => { p with deferred }.expand goal
  | [], [] => .solved p.finish

end Problem

namespace Choice

/-- The goals for the frames: each takes the entries that the other side has left over, and two
frames share a fresh one. -/
def frameGoals (c : Choice) (restLeft restRight : List (Entry Term)) (fresh : Fresh) :
    List Goal × Fresh :=
  match c.leftFrame, c.rightFrame with
  | none, none => ([], fresh)
  | some frame, none => ([(frame, .normalized c.kind restRight none)], fresh)
  | none, some frame => ([(frame, .normalized c.kind restLeft none)], fresh)
  | some first, some second =>
    let (shared, fresh) := fresh.variableLike { name := "Rest", sort := c.kind.sort }
    ([(first, .normalized c.kind restRight (some (.var shared))),
      (second, .normalized c.kind restLeft (some (.var shared)))], fresh)

/-- The problem for one pairing, unless it pairs entries of different shapes. -/
def branch (c : Choice) (pairing : List Nat × List Nat) (fresh : Fresh) : Option Problem × Fresh :=
  let paired := (Pairing.select c.left pairing.1).zip (Pairing.select c.right pairing.2)
  match Pairing.allGoals paired with
  | none => (none, fresh)
  | some goals =>
    let (frames, fresh) := c.frameGoals (Pairing.remaining c.left pairing.1)
      (Pairing.remaining c.right pairing.2) fresh
    (some (c.base.addGoals (goals ++ frames)), fresh)

end Choice

end Unification

/-- Unifiers on demand. Whoever asks for more hands over the counter, and gets it back with the
next unifier or with the end. -/
inductive Unifiers
  | finished (fresh : Fresh)
  | found (unifier : Unifier) (fresh : Fresh) (more : Fresh → Unifiers)
  /-- The budget of steps ran out on some branch. -/
  | cut (fresh : Fresh)

namespace Unification

/-- Explores one problem and then whatever is `later`. -/
abbrev Explore := Fresh → (Fresh → Unifiers) → Unifiers

/-- The pairings of a choice one after the other, each of them to its end. -/
def Choice.explore (c : Choice) (run : Problem → Explore) :
    Enumeration (List Nat × List Nat) → Explore
  | .nil, fresh, later => later fresh
  | .cons pairing tail, fresh, later =>
    match c.branch pairing fresh with
    | (none, fresh) => c.explore run (tail ()) fresh later
    | (some problem, fresh) => run problem fresh fun fresh => c.explore run (tail ()) fresh later

/-- Depth-first exploration, with at most `budget` steps on each branch. -/
def Problem.explore (sig : Signature) : Nat → Problem → Explore
  | 0, _, fresh, _ => .cut fresh
  | budget + 1, p, fresh, later =>
    match p.advance sig with
    | .solved unifier => .found unifier fresh later
    | .failed => later fresh
    | .next problem => problem.explore sig budget fresh later
    | .choose c => c.explore (Problem.explore sig budget) c.pairings fresh later

def start (a b : Term) : Problem :=
  { subst := .empty, goals := [(a, b)], deferred := [], residual := [] }

end Unification

/-- The unifiers of two terms, provided that one of their sorts accepts the other. -/
def unify (sig : Signature) (budget : Nat) (a b : Term) : Except SortError (Fresh → Unifiers) :=
  if a.sort.compatible b.sort then
    .ok fun fresh => (Unification.start a b).explore sig budget fresh .finished
  else .error (.mismatch a.sort b.sort "unification")

/-- At most `count` unifiers, each with the counter as it leaves it, and the counter at the end.
Nothing is explored beyond the last of them. -/
def Unifiers.take : Nat → (Fresh → Unifiers) → Fresh → List (Unifier × Fresh) × Fresh
  | 0, _, fresh => ([], fresh)
  | count + 1, explore, fresh =>
    match explore fresh with
    | .finished fresh => ([], fresh)
    | .cut fresh => ([], fresh)
    | .found unifier fresh more =>
      let (others, last) := take count more fresh
      ((unifier, fresh) :: others, last)

/-- How a sequence of unifiers is shown that has these explorations ahead of it. -/
def Unifiers.summary (pending : List (Fresh → Unifiers)) : String :=
  "Unifiers(" ++ pending.length.repr ++ " pending)"

end Reach
