import Reach.Decision.Deadline
import Std.Data.TreeMap

/-!
The store answers questions about constraints: whether one may be satisfiable, and whether one
follows from another. It simplifies first, asks its decision procedure only about what is left, and
may remember the answers.
-/

namespace Reach

/-- What to conclude from a query that gave no definite answer. -/
inductive Policy
  | assumeFeasible
  | fatal
  deriving DecidableEq

structure StoreConfig where
  timeout : Option Duration := none
  onUnknown : Policy := .assumeFeasible
  onTimeout : Policy := .fatal
  cached : Bool := true
  deriving DecidableEq

namespace StoreConfig

/-- The conclusion about feasibility, under the policies for unknown answers and timeouts. -/
def feasibility (config : StoreConfig) : Answer → Except QueryError Bool
  | .ok .sat => .ok true
  | .ok .unsat => .ok false
  | .ok (.unknown reason) =>
    match config.onUnknown with
    | .assumeFeasible => .ok true
    | .fatal => .error (.undecided reason)
  | .error (.timeout limit) =>
    match config.onTimeout with
    | .assumeFeasible => .ok true
    | .fatal => .error (.timeout limit)
  | .error other => .error other

/-- An implication is proved only by a definite answer. -/
def entailment (config : StoreConfig) : Answer → Except QueryError Bool
  | .ok verdict => .ok (verdict = .unsat)
  | .error (.timeout limit) =>
    match config.onTimeout with
    | .assumeFeasible => .ok false
    | .fatal => .error (.timeout limit)
  | .error other => .error other

end StoreConfig

structure Store where
  config : StoreConfig
  solver : Solver
  /-- The answers that were remembered, by simplified constraint. -/
  answers : Std.TreeMap Constraint Verdict

namespace Store

/-- A store that asks `procedure`, under a deadline if the configuration has one. -/
def new (procedure : Procedure) (config : StoreConfig) : Store :=
  { config
    solver := {
      procedure
      deadline := config.timeout.map fun timeout => .new timeout Deadline.defaultMaxWorkers }
    answers := ∅ }

def standard : Store :=
  new .builtin {}

def lookup? (store : Store) (c : Constraint) : Option Verdict :=
  if store.config.cached then store.answers[c]? else none

/-- Only answers are remembered, not failures. -/
def remember (store : Store) (c : Constraint) : Answer → Store
  | .ok verdict =>
    if store.config.cached then { store with answers := store.answers.insert c verdict } else store
  | .error _ => store

def query (sig : Signature) (c : Constraint) : StateM Store Answer := fun store =>
  match store.lookup? c with
  | some verdict => (.ok verdict, store)
  | none =>
    let (answer, solver) := Solver.ask sig c store.solver
    (answer, { store with solver }.remember c answer)

/-- Whether some assignment may satisfy `c`. -/
def feasible (sig : Signature) (c : Constraint) : StateM Store (Except QueryError Bool) := do
  let c := c.simplify sig
  if c.isFalse then return .ok false
  if c.isTrue then return .ok true
  let answer ← query sig c
  return (← get).config.feasibility answer

/-- Whether every assignment that satisfies `assumption` satisfies `conclusion`. -/
def implies (sig : Signature) (assumption conclusion : Constraint) :
    StateM Store (Except QueryError Bool) := do
  let conclusion := conclusion.simplify sig
  if conclusion.isTrue then return .ok true
  let c := (assumption.conjoin conclusion.toTerm.negate).simplify sig
  if c.isFalse then return .ok true
  let answer ← query sig c
  return (← get).config.entailment answer

end Store

end Reach
