import Reach.Constraint.Bounds

/-!
Decision procedures as data. A procedure answers a query, fails, never answers, or dies; some of
them change by being asked, so asking returns the procedure that the next query goes to, together
with the number of elementary procedures that were reached.
-/

namespace Reach

abbrev Answer := Except QueryError Verdict

inductive Procedure
  /-- Always the same answer to the same query. -/
  | steady (answer : Signature → Constraint → Answer)
  /-- The answers in order; the last one is repeated. -/
  | script (next : Answer) (later : List Answer)
  /-- Each procedure in turn, until one does not answer that it does not know. -/
  | fallback (procedures : List Procedure)
  /-- Never answers. -/
  | hanging
  /-- Dies without an answer. -/
  | crashing

inductive Reply
  | answered (answer : Answer)
  | never
  | died

structure Asked (α : Type) where
  reply : Reply
  next : α
  calls : Nat

namespace Procedure

/-- The procedure that simplifies and bounds variables by intervals. -/
def builtin : Procedure :=
  steady fun sig c => .ok (c.decideLocally sig)

mutual

def ask (sig : Signature) (c : Constraint) : Procedure → Asked Procedure
  | steady answer => ⟨.answered (answer sig c), steady answer, 1⟩
  | script next later =>
    match later with
    | [] => ⟨.answered next, script next [], 1⟩
    | second :: rest => ⟨.answered next, script second rest, 1⟩
  | fallback procedures =>
    let asked := askAll sig c [] procedures
    ⟨asked.reply, fallback asked.next, asked.calls⟩
  | hanging => ⟨.never, hanging, 0⟩
  | crashing => ⟨.died, crashing, 1⟩
termination_by structural procedure => procedure

/-- If none of them knows, the reasons of all are given, one a line. -/
def askAll (sig : Signature) (c : Constraint) (reasons : List String) :
    List Procedure → Asked (List Procedure)
  | [] => ⟨.answered (.ok (.unknown ("\n".intercalate reasons))), [], 0⟩
  | first :: rest =>
    let asked := ask sig c first
    match asked.reply with
    | .answered (.ok (.unknown reason)) =>
      let others := askAll sig c (reasons ++ [reason]) rest
      ⟨others.reply, asked.next :: others.next, asked.calls + others.calls⟩
    | reply => ⟨reply, asked.next :: rest, asked.calls⟩
termination_by structural procedures => procedures

end

end Procedure

end Reach
