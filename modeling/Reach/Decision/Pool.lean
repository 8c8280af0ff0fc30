import Reach.Decision.Deadline

/-!
Queries with a deadline side by side. Each query goes through its steps one at a time, and the steps of
different queries come in any order; what they share is a count. A query adds itself to the count before
it looks at the limit, and takes itself back where the limit was reached or its worker cannot be started.
A worker that was started takes the query back itself, once the procedure has answered, whether or not
anybody still waits for the answer.
-/

namespace Reach

namespace Pool

/-- Who asked a query whose worker was started. -/
inductive Caller
  | waiting
  | answered (answer : Answer)

inductive Worker
  | running
  /-- The procedure has answered, and the query still counts. -/
  | concluded (answer : Answer)
  /-- The query no longer counts, and the answer is still to be sent. -/
  | released (answer : Answer)
  | sent (answer : Answer)
  /-- It died without an answer, and nobody takes the query back. -/
  | dead

namespace Worker

def runs : Worker → Bool
  | running => true
  | _ => false

def working : Worker → Bool
  | running => true
  | concluded _ => true
  | _ => false

def isDead : Worker → Bool
  | dead => true
  | _ => false

end Worker

inductive Query
  | arriving
  /-- The limit was reached; the query counts until it takes itself back. -/
  | refused
  | rejected
  /-- The query counts, and its worker is still to be started. -/
  | admitted
  /-- The worker could not be started; the query counts until it takes itself back. -/
  | unstarted (reason : String)
  | failed (reason : String)
  | started (caller : Caller) (worker : Worker)

inductive Event
  /-- The count goes up by one; what it was before decides. -/
  | enter
  | start
  | fail (reason : String)
  /-- A query without a worker takes itself back. -/
  | leave
  | conclude (answer : Answer)
  | die
  /-- The worker takes its query back. -/
  | release
  | send
  | receive
  | timeOut
  /-- The worker is found to have died. -/
  | disconnect

namespace Query

/-- One step of a query, given the count, and the count after it. -/
def step (d : Deadline) (count : Nat) : Query → Event → Option (Query × Nat)
  | arriving, .enter => some (if d.maxWorkers ≤ count then refused else admitted, count + 1)
  | refused, .leave => some (rejected, count - 1)
  | admitted, .start => some (started .waiting .running, count)
  | admitted, .fail reason => some (unstarted reason, count)
  | unstarted reason, .leave => some (failed reason, count - 1)
  | started caller .running, .conclude answer => some (started caller (.concluded answer), count)
  | started caller .running, .die => some (started caller .dead, count)
  | started caller (.concluded answer), .release =>
    some (started caller (.released answer), count - 1)
  | started caller (.released answer), .send => some (started caller (.sent answer), count)
  | started .waiting (.sent answer), .receive =>
    some (started (.answered answer) (.sent answer), count)
  | started .waiting worker, .timeOut =>
    some (started (.answered (.error (.timeout d.timeout))) worker, count)
  | started .waiting .dead, .disconnect =>
    some (started (.answered (.error Deadline.died)) .dead, count)
  | _, _ => none

def answer? (d : Deadline) : Query → Option Answer
  | rejected => some (.error d.overload)
  | failed reason => some (.error (.unavailable reason))
  | started (.answered answer) _ => some answer
  | _ => none

/-- The worker runs the procedure. -/
def runs : Query → Bool
  | started _ worker => worker.runs
  | _ => false

/-- The worker was started and has not taken the query back. -/
def working : Query → Bool
  | started _ worker => worker.working
  | _ => false

def dead : Query → Bool
  | started _ worker => worker.isDead
  | _ => false

/-- The query counts, and no worker was started for it. -/
def pending : Query → Bool
  | refused => true
  | admitted => true
  | unstarted _ => true
  | _ => false

/-- There is an answer, and no worker is left. -/
def finished : Query → Bool
  | rejected => true
  | failed _ => true
  | started (.answered _) (.sent _) => true
  | _ => false

end Query

inductive Action
  /-- One more query. -/
  | call
  | advance (query : Nat) (event : Event)

def Action.deadly : Action → Bool
  | advance _ .die => true
  | _ => false

end Pool

/-- The queries so far, in the order in which they came, and the count that they share. -/
structure Pool where
  count : Nat := 0
  queries : List Pool.Query := []

namespace Pool

def step (d : Deadline) (pool : Pool) : Action → Option Pool
  | .call => some { pool with queries := pool.queries ++ [.arriving] }
  | .advance i event => do
    let query ← pool.queries[i]?
    let (next, count) ← query.step d pool.count event
    return { count, queries := pool.queries.set i next }

/-- The steps in this order, if each of them can be taken. -/
def run (d : Deadline) : Pool → List Action → Option Pool
  | pool, [] => some pool
  | pool, action :: later => (pool.step d action).bind fun next => next.run d later

/-- How many of the queries are of a sort. -/
def number (sort : Query → Bool) (pool : Pool) : Nat :=
  pool.queries.countP sort

end Pool

end Reach
