import Reach.Decision.Procedure

/-!
Queries with a deadline. Each query runs on a worker of its own. A worker that gives no answer in
time is abandoned but goes on running, and while too many run no query is let through.
-/

namespace Reach

structure Deadline where
  timeout : Duration
  maxWorkers : Nat
  /-- Workers that were abandoned and still run. -/
  abandoned : Nat := 0
  /-- Workers that died; they are never struck off. -/
  lost : Nat := 0

namespace Deadline

def defaultMaxWorkers : Nat :=
  8

/-- At least one worker may run. -/
def new (timeout : Duration) (maxWorkers : Nat) : Deadline :=
  { timeout, maxWorkers := max maxWorkers 1 }

def running (d : Deadline) : Nat :=
  d.abandoned + d.lost

/-- Every abandoned worker comes to its end. -/
def release (d : Deadline) : Deadline :=
  { d with abandoned := 0 }

def overload (d : Deadline) : QueryError :=
  .unavailable (d.maxWorkers.repr ++ " timed out queries are still running")

def died : QueryError :=
  .unavailable "solver thread exited without answering"

/-- The answer to the query and the workers afterwards, given what its worker does. -/
def settle (d : Deadline) : Reply → Answer × Deadline
  | .answered answer => (answer, d)
  | .never => (.error (.timeout d.timeout), { d with abandoned := d.abandoned + 1 })
  | .died => (.error died, { d with lost := d.lost + 1 })

end Deadline

/-- A procedure, possibly under a deadline, and the number of elementary queries so far. -/
structure Solver where
  procedure : Procedure
  deadline : Option Deadline := none
  calls : Nat := 0

namespace Solver

def ask (sig : Signature) (c : Constraint) : StateM Solver Answer := fun solver =>
  match solver.deadline with
  | none =>
    let asked := solver.procedure.ask sig c
    let answer :=
      match asked.reply with
      | .answered answer => answer
      | .never => .error (.unavailable "the query is never answered")
      | .died => .error Deadline.died
    (answer, { solver with procedure := asked.next, calls := solver.calls + asked.calls })
  | some d =>
    if d.maxWorkers ≤ d.running then (.error d.overload, solver)
    else
      let asked := solver.procedure.ask sig c
      let (answer, d) := d.settle asked.reply
      (answer,
        { procedure := asked.next, deadline := some d, calls := solver.calls + asked.calls })

end Solver

end Reach
