import Reach.Decision.Pool

/-!
Whatever the order in which queries with a deadline take their steps, the count tells how many of them
occupy a place. A query that is let through finds a place free, so that no more workers run than the
limit allows; a query that is turned away found none, and never has a worker. Asking one query after the
other is a special order of these steps.
-/

namespace Reach

namespace Pool

variable {d : Deadline} {pool next final : Pool} {action : Action} {schedule more : List Action}
  {i j count after : Nat} {query changed : Query} {queries : List Query} {event : Event}
  {sort first second : Query → Bool}

section Numbers

theorem countP_cons_toNat (sort : Query → Bool) (query : Query) (queries : List Query) :
    (query :: queries).countP sort = queries.countP sort + (sort query).toNat := by
  rw [List.countP_cons]
  cases sort query <;> rfl

/-- Two sorts together have as many queries as two others if they take the same part of each query. -/
theorem number_add_congr {third fourth : Query → Bool}
    (same : ∀ query ∈ pool.queries, (first query).toNat + (second query).toNat =
      (third query).toNat + (fourth query).toNat) :
    pool.number first + pool.number second = pool.number third + pool.number fourth := by
  unfold number
  generalize pool.queries = queries at same
  induction queries with
  | nil => rfl
  | cons query rest ih =>
    obtain ⟨here, others⟩ := List.forall_mem_cons.mp same
    have later := ih others
    rw [countP_cons_toNat, countP_cons_toNat, countP_cons_toNat, countP_cons_toNat]
    omega

/-- One query takes the place of another. -/
theorem countP_set (sort : Query → Bool) (changed : Query) (found : queries[i]? = some query) :
    (queries.set i changed).countP sort + (sort query).toNat =
      queries.countP sort + (sort changed).toNat := by
  induction queries generalizing i with
  | nil => cases found
  | cons head rest ih =>
    cases i with
    | zero =>
      cases found
      rw [List.set_cons_zero, countP_cons_toNat, countP_cons_toNat]
      omega
    | succ i =>
      have later := ih found
      rw [List.set_cons_succ, countP_cons_toNat, countP_cons_toNat]
      omega

theorem toNat_le_number (sort : Query → Bool) (found : pool.queries[i]? = some query) :
    (sort query).toNat ≤ pool.number sort := by
  cases among : sort query with
  | false => exact Nat.zero_le _
  | true => exact List.countP_pos_iff.mpr ⟨query, List.mem_of_getElem? found, among⟩

end Numbers

section Steps

theorem run_append (pool : Pool) (schedule more : List Action) :
    pool.run d (schedule ++ more) = (pool.run d schedule).bind fun next => next.run d more := by
  induction schedule generalizing pool with
  | nil => rfl
  | cons action later ih =>
    rw [List.cons_append, run, run, Option.bind_assoc]
    exact congrArg _ (funext ih)

/-- A step brings in a query, or is a step of one of them. -/
theorem step_cases (stepped : pool.step d action = some next) :
    action = .call ∧ next = { pool with queries := pool.queries ++ [.arriving] } ∨
      ∃ i event query changed count, action = .advance i event ∧ pool.queries[i]? = some query ∧
        query.step d pool.count event = some (changed, count) ∧
        next = { count, queries := pool.queries.set i changed } := by
  cases action with
  | call => exact .inl ⟨rfl, (Option.some.inj stepped).symm⟩
  | advance i event =>
    obtain ⟨query, found, stepped⟩ := Option.bind_eq_some_iff.mp stepped
    obtain ⟨⟨changed, count⟩, moved, stepped⟩ := Option.bind_eq_some_iff.mp stepped
    exact .inr ⟨i, event, query, changed, count, rfl, found, moved, (Option.some.inj stepped).symm⟩

/-- The query counts, and was let through. -/
def Query.placed : Query → Bool
  | admitted => true
  | unstarted _ => true
  | started _ worker => worker.working || worker.isDead
  | _ => false

/-- The query counts, and was turned away. -/
def Query.leaving : Query → Bool
  | refused => true
  | _ => false

/-- What a step does to the count it does to the places that the query occupies. -/
theorem Query.balance (moved : query.step d count event = some (changed, after))
    (counted : query.placed.toNat + query.leaving.toNat ≤ count) :
    after + query.placed.toNat + query.leaving.toNat =
      count + changed.placed.toNat + changed.leaving.toNat := by
  unfold Query.step at moved
  split at moved <;> cases moved
  · -- It enters, and occupies a place whether or not it may stay.
    split <;> rfl
  -- Where the count goes down the query was counted, so that nothing is cut off.
  all_goals
    simp [placed, leaving, Worker.working, Worker.isDead] at counted ⊢
    try omega

/-- A query comes to a place only where it finds the limit not reached. -/
theorem Query.place (moved : query.step d count event = some (changed, after)) :
    changed.placed.toNat ≤ query.placed.toNat ∨
      query.placed = false ∧ query.leaving = false ∧ count < d.maxWorkers := by
  unfold Query.step at moved
  split at moved <;> cases moved
  · split
    · exact .inl (Nat.le_refl _)
    · next free => exact .inr ⟨rfl, rfl, Nat.lt_of_not_le free⟩
  all_goals exact .inl (by simp [placed, Worker.working, Worker.isDead])

/-- The invariant of the pool: the count is the number of places that are occupied, and no more queries
were let through than the limit allows. -/
structure Balanced (d : Deadline) (pool : Pool) : Prop where
  count : pool.count = pool.number Query.placed + pool.number Query.leaving
  limit : pool.number Query.placed ≤ d.maxWorkers

private theorem balanced_empty (d : Deadline) : Balanced d {} :=
  ⟨rfl, Nat.zero_le _⟩

theorem Balanced.step (balanced : Balanced d pool) (stepped : pool.step d action = some next) :
    Balanced d next := by
  obtain ⟨total, limit⟩ := balanced
  rcases step_cases stepped with ⟨_, rfl⟩ | ⟨i, event, query, changed, after, _, found, moved, rfl⟩
  · -- A query that has just come occupies no place.
    have same (sort : Query → Bool) (absent : sort Query.arriving = false) :
        number sort { pool with queries := pool.queries ++ [Query.arriving] } = pool.number sort := by
      rw [number, List.countP_append, countP_cons_toNat, absent]
      rfl
    exact ⟨by rw [same _ rfl, same _ rfl]; exact total, by rw [same _ rfl]; exact limit⟩
  · have placed := countP_set Query.placed changed found
    have leaving := countP_set Query.leaving changed found
    have counted := Nat.add_le_add (toNat_le_number Query.placed found) (toNat_le_number Query.leaving found)
    have balance := Query.balance moved (total ▸ counted)
    have most := Bool.toNat_le changed.placed
    refine ⟨?_, ?_⟩ <;> dsimp only [number] at *
    · omega
    · rcases Query.place moved with fewer | ⟨outside, _, free⟩
      · omega
      · rw [outside, Bool.toNat_false] at placed
        omega

theorem Balanced.run (balanced : Balanced d pool) (ran : pool.run d schedule = some final) :
    Balanced d final := by
  induction schedule generalizing pool with
  | nil => exact Option.some.inj ran ▸ balanced
  | cons action later ih =>
    obtain ⟨next, stepped, ran⟩ := Option.bind_eq_some_iff.mp ran
    exact ih (balanced.step stepped) ran

end Steps

section Histories

variable {holds : Query → Prop}

private theorem exists_of_step (keeps : ∀ query event count changed after,
      Query.step d count query event = some (changed, after) → holds query → holds changed)
    (stepped : pool.step d action = some next) (found : pool.queries[j]? = some query) (here : holds query) :
    ∃ changed, next.queries[j]? = some changed ∧ holds changed := by
  obtain ⟨inside, _⟩ := List.getElem?_eq_some_iff.mp found
  rcases step_cases stepped with ⟨_, rfl⟩ | ⟨i, event, moving, changed, after, _, among, moved, rfl⟩
  · exact ⟨query, (List.getElem?_append_left inside).trans found, here⟩
  · by_cases same : i = j
    · subst same
      obtain rfl := Option.some.inj (among.symm.trans found)
      exact ⟨changed, List.getElem?_set_self inside, keeps _ _ _ _ _ moved here⟩
    · exact ⟨query, (List.getElem?_set_ne same).trans found, here⟩

/-- What each step of a query keeps holds of it for ever. -/
theorem exists_of_run (keeps : ∀ query event count changed after,
      Query.step d count query event = some (changed, after) → holds query → holds changed)
    (ran : pool.run d schedule = some final) (found : pool.queries[j]? = some query) (here : holds query) :
    ∃ changed, final.queries[j]? = some changed ∧ holds changed := by
  induction schedule generalizing pool query with
  | nil =>
    cases ran
    exact ⟨query, found, here⟩
  | cons action later ih =>
    obtain ⟨next, stepped, ran⟩ := Option.bind_eq_some_iff.mp ran
    obtain ⟨changed, found, here⟩ := exists_of_step keeps stepped found here
    exact ih ran found here

def Query.hasWorker : Query → Bool
  | started _ _ => true
  | _ => false

private theorem Query.hasWorker_of_step (query : Query) (event : Event) (count : Nat) (changed : Query)
    (after : Nat) (moved : query.step d count event = some (changed, after))
    (has : query.hasWorker = true) :
    changed.hasWorker = true := by
  unfold Query.step at moved
  split at moved <;> cases moved <;> first | rfl | cases has

theorem Query.hasWorker_of_start (moved : query.step d count .start = some (changed, after)) :
    changed.hasWorker = true := by
  unfold Query.step at moved
  split at moved <;> cases moved <;> first | rfl | contradiction

/-- A query whose worker is started has one for ever. -/
theorem hasWorker_of_start (ran : pool.run d schedule = some final)
    (started : Action.advance j .start ∈ schedule) :
    ∃ query, final.queries[j]? = some query ∧ query.hasWorker = true := by
  induction schedule generalizing pool with
  | nil => cases started
  | cons action later ih =>
    obtain ⟨next, stepped, ran⟩ := Option.bind_eq_some_iff.mp ran
    rcases List.mem_cons.mp started with rfl | started
    · rcases step_cases stepped with ⟨none, _⟩ | ⟨i, event, query, changed, after, same, found, moved, rfl⟩
      · cases none
      cases same
      obtain ⟨inside, _⟩ := List.getElem?_eq_some_iff.mp found
      exact exists_of_run Query.hasWorker_of_step ran (List.getElem?_set_self inside)
        (Query.hasWorker_of_start moved)
    · exact ih ran started

def Query.turnedAway : Query → Bool
  | refused => true
  | rejected => true
  | _ => false

private theorem Query.turnedAway_of_hasWorker (has : query.hasWorker = true) : query.turnedAway = false := by
  cases query <;> first | rfl | cases has

theorem Query.turnedAway_of_step (moved : query.step d count event = some (changed, after))
    (away : changed.turnedAway = true) :
    query.turnedAway = true ∨ event = .enter ∧ d.maxWorkers ≤ count := by
  unfold Query.step at moved
  split at moved <;> cases moved
  · split at away
    · next full => exact .inr ⟨rfl, full⟩
    · cases away
  all_goals first | exact .inl rfl | cases away

private theorem Query.turnedAway_kept (query : Query) (event : Event) (count : Nat) (changed : Query)
    (after : Nat) (moved : query.step d count event = some (changed, after))
    (away : query.turnedAway = true) :
    changed.turnedAway = true := by
  unfold Query.step at moved
  split at moved <;> cases moved <;> first | rfl | cases away

/-- The query entered while at least as many were counted as may run. -/
def EnteredFull (d : Deadline) (pool : Pool) (schedule : List Action) (j : Nat) : Prop :=
  ∃ before later full, schedule = before ++ .advance j .enter :: later ∧ pool.run d before = some full ∧
    d.maxWorkers ≤ full.count

theorem turnedAway_of_step (stepped : pool.step d action = some next)
    (found : next.queries[j]? = some changed) (away : changed.turnedAway = true) :
    (∃ query, pool.queries[j]? = some query ∧ query.turnedAway = true) ∨
      action = .advance j .enter ∧ d.maxWorkers ≤ pool.count := by
  rcases step_cases stepped with ⟨_, rfl⟩ | ⟨i, event, query, other, after, rfl, among, moved, rfl⟩
  · rcases Nat.lt_or_ge j pool.queries.length with inside | beyond
    · exact .inl ⟨changed, (List.getElem?_append_left inside).symm.trans found, away⟩
    · rw [List.getElem?_append_right beyond] at found
      obtain rfl := List.mem_singleton.mp (List.mem_of_getElem? found)
      cases away
  · obtain ⟨inside, _⟩ := List.getElem?_eq_some_iff.mp among
    by_cases same : i = j
    · subst same
      obtain rfl := Option.some.inj ((List.getElem?_set_self inside).symm.trans found)
      refine (Query.turnedAway_of_step moved away).imp (fun before => ⟨query, among, before⟩) ?_
      rintro ⟨rfl, full⟩
      exact ⟨rfl, full⟩
    · exact .inl ⟨changed, (List.getElem?_set_ne same).symm.trans found, away⟩

private theorem turnedAway_of_run (ran : pool.run d schedule = some final)
    (found : final.queries[j]? = some query) (away : query.turnedAway = true) :
    (∃ query, pool.queries[j]? = some query ∧ query.turnedAway = true) ∨ EnteredFull d pool schedule j := by
  induction schedule generalizing pool with
  | nil =>
    cases ran
    exact .inl ⟨query, found, away⟩
  | cons action later ih =>
    obtain ⟨next, stepped, ran⟩ := Option.bind_eq_some_iff.mp ran
    rcases ih ran with ⟨query, found, away⟩ | ⟨before, after, full, rfl, reached, limit⟩
    · refine (turnedAway_of_step stepped found away).imp_right fun ⟨same, limit⟩ => ?_
      exact ⟨[], later, pool, congrArg (· :: later) same, rfl, limit⟩
    · refine .inr ⟨action :: before, after, full, rfl, ?_, limit⟩
      rw [run, stepped]
      exact reached

/-- A query that is turned away came in while the limit was reached, and no worker was or will be started
for it. -/
theorem entered_of_turnedAway (ran : run d {} schedule = some pool) (found : pool.queries[j]? = some query)
    (away : query.turnedAway = true) :
    EnteredFull d {} schedule j ∧ ∀ more final, pool.run d more = some final →
      .advance j .start ∉ schedule ++ more := by
  refine ⟨(turnedAway_of_run ran found away).resolve_left fun ⟨_, absent, _⟩ => (nomatch absent), ?_⟩
  intro more final onward started
  have whole : run d {} (schedule ++ more) = some final := by
    rw [run_append, ran]
    exact onward
  obtain ⟨last, here, has⟩ := hasWorker_of_start whole started
  obtain ⟨same, there, away⟩ := exists_of_run Query.turnedAway_kept onward found away
  obtain rfl := Option.some.inj (here.symm.trans there)
  exact Bool.false_ne_true ((Query.turnedAway_of_hasWorker has).symm.trans away)

end Histories

section Alive

/-- No worker has died. -/
def Alive (pool : Pool) : Prop :=
  ∀ query ∈ pool.queries, query.dead = false

private theorem alive_empty : Alive {} :=
  nofun

private theorem Query.dead_of_step (moved : query.step d count event = some (changed, after))
    (alive : query.dead = false) (calm : (Action.advance i event).deadly = false) : changed.dead = false := by
  unfold Query.step at moved
  split at moved <;> cases moved
  · split <;> rfl
  all_goals first | rfl | exact alive | cases calm

theorem Alive.step (alive : pool.Alive) (calm : action.deadly = false)
    (stepped : pool.step d action = some next) : next.Alive := by
  rcases step_cases stepped with ⟨_, rfl⟩ | ⟨i, event, query, changed, after, rfl, found, moved, rfl⟩
  · exact List.forall_mem_append.mpr ⟨alive, List.forall_mem_singleton.mpr rfl⟩
  · intro other member
    rcases List.mem_or_eq_of_mem_set member with member | rfl
    · exact alive other member
    · exact Query.dead_of_step moved (alive query (List.mem_of_getElem? found)) calm

theorem Alive.run (alive : pool.Alive) (calm : ∀ action ∈ schedule, action.deadly = false)
    (ran : pool.run d schedule = some final) : final.Alive := by
  induction schedule generalizing pool with
  | nil => exact Option.some.inj ran ▸ alive
  | cons action later ih =>
    obtain ⟨here, calm⟩ := List.forall_mem_cons.mp calm
    obtain ⟨next, stepped, ran⟩ := Option.bind_eq_some_iff.mp ran
    exact ih (alive.step here stepped) calm ran

end Alive

private theorem Query.working_of_finished (query : Query) (finished : query.finished = true) :
    query.working = false := by
  unfold Query.finished at finished
  split at finished <;> first | rfl | cases finished

private theorem Query.pending_of_finished (query : Query) (finished : query.finished = true) :
    query.pending = false := by
  unfold Query.finished at finished
  split at finished <;> first | rfl | cases finished

/-- The account of the workers after any steps of any number of queries in any order, where no worker
dies: no more of them run than the limit allows; the count is the number of workers that have not taken
their query back, with the queries that count without a worker; a query that finds the limit reached came
in while it was, and no worker is ever started for it; and nothing counts once every query is finished. -/
theorem workers_accounted (calm : ∀ action ∈ schedule, action.deadly = false)
    (ran : run d {} schedule = some pool) :
    pool.number Query.runs ≤ d.maxWorkers ∧
      pool.count = pool.number Query.working + pool.number Query.pending ∧
      (∀ j query, pool.queries[j]? = some query → query.turnedAway = true →
        EnteredFull d {} schedule j ∧ ∀ more final, pool.run d more = some final →
          .advance j .start ∉ schedule ++ more) ∧
      ((∀ query ∈ pool.queries, query.finished = true) → pool.count = 0) := by
  have balanced := (balanced_empty d).run ran
  have alive := alive_empty.run calm ran
  have count : pool.count = pool.number Query.working + pool.number Query.pending := by
    refine balanced.count.trans (number_add_congr fun query member => ?_)
    have living := alive query member
    cases query with
    | started caller worker =>
      have same : (Query.started caller worker).placed = worker.working :=
        (congrArg (worker.working || ·) living).trans (Bool.or_false _)
      rw [same]
      rfl
    | _ => rfl
  refine ⟨?_, count, fun j query found away => entered_of_turnedAway ran found away, fun finished => ?_⟩
  · refine Nat.le_trans (List.countP_mono_left fun query _ runs => ?_) balanced.limit
    cases query with
    | started caller worker =>
      cases worker with
      | running => rfl
      | _ => cases runs
    | _ => cases runs
  · have none {sort : Query → Bool} (free : ∀ query, query.finished = true → sort query = false) :
        pool.number sort = 0 :=
      List.countP_eq_zero.mpr fun query member => Bool.eq_false_iff.mp (free query (finished query member))
    rw [count, none Query.working_of_finished, none Query.pending_of_finished]

/-- A single worker may run. -/
def oneWorker : Deadline :=
  .new ⟨20000000⟩ 1

/-- The first query is given up while its worker runs, and the second comes in the meantime. -/
def inTheMeantime : List Action :=
  [.call, .advance 0 .enter, .advance 0 .start, .advance 0 .timeOut, .call, .advance 1 .enter,
    .advance 0 (.conclude (.ok .sat)), .advance 0 .release, .advance 1 .leave, .advance 0 .send]

/-- The answer of the first query comes too late, and the second is turned away. -/
def afterwards : Pool where
  queries := [.started (.answered (.error (.timeout oneWorker.timeout))) (.sent (.ok .sat)), .rejected]

theorem workers_accounted_inTheMeantime :
    ∃ pool, ((∀ action ∈ inTheMeantime, action.deadly = false) ∧ run oneWorker {} inTheMeantime = some pool) ∧
      pool.queries.map (Query.answer? oneWorker) =
        [some (.error (.timeout oneWorker.timeout)), some (.error oneWorker.overload)] ∧
      pool.number Query.runs ≤ 1 ∧ EnteredFull oneWorker {} inTheMeantime 1 ∧ pool.count = 0 := by
  have calm : ∀ action ∈ inTheMeantime, action.deadly = false := by decide
  have ran : run oneWorker {} inTheMeantime = some afterwards := rfl
  obtain ⟨most, _, away, all⟩ := workers_accounted calm ran
  have finished : ∀ query ∈ afterwards.queries, query.finished = true := by
    simp [afterwards, Query.finished]
  exact ⟨afterwards, ⟨calm, ran⟩, rfl, most, (away 1 .rejected rfl rfl).1, all finished⟩

section OneByOne

variable {events : List Event} {running gone : Nat}

/-- Several steps of one query. -/
def Query.run (d : Deadline) : Nat → Query → List Event → Option (Query × Nat)
  | count, query, [] => some (query, count)
  | count, query, event :: later =>
    (query.step d count event).bind fun (next, count) => next.run d count later

theorem run_advance (found : pool.queries[i]? = some query)
    (ran : query.run d pool.count events = some (changed, after)) :
    pool.run d (events.map (.advance i)) = some { count := after, queries := pool.queries.set i changed } := by
  obtain ⟨inside, here⟩ := List.getElem?_eq_some_iff.mp found
  induction events generalizing pool query with
  | nil =>
    cases ran
    rw [List.map_nil, run, ← here, List.set_getElem_self]
  | cons event later ih =>
    obtain ⟨⟨next, count⟩, moved, ran⟩ := Option.bind_eq_some_iff.mp ran
    have stepped : pool.step d (.advance i event) =
        some { count, queries := pool.queries.set i next } := by
      simp only [step, found, moved, Option.bind_eq_bind, Option.bind_some, Option.pure_def]
    have onward := @ih { count, queries := pool.queries.set i next } next (List.getElem?_set_self inside) ran
      (by rwa [List.length_set]) (List.getElem_set_self _)
    rw [List.map_cons, run, stepped, Option.bind_some, onward, List.set_set]

/-- A query that comes and takes these steps. -/
theorem run_call (ran : Query.run d pool.count .arriving events = some (changed, after)) :
    pool.run d (.call :: events.map (.advance pool.queries.length)) =
      some { count := after, queries := pool.queries ++ [changed] } := by
  have found : (pool.queries ++ [Query.arriving])[pool.queries.length]? = some Query.arriving :=
    List.getElem?_concat_length
  have onward := @run_advance d { pool with queries := pool.queries ++ [Query.arriving] } _ _ _ _ _ found ran
  rw [run, step, Option.bind_some, onward, List.set_append_right _ _ (Nat.le_refl _), Nat.sub_self]
  rfl

/-- There is an answer, and what is left of the query is at most a worker that runs or has died. -/
def Query.settled : Query → Bool
  | rejected => true
  | failed _ => true
  | started (.answered _) .running => true
  | started (.answered _) (.sent _) => true
  | started (.answered _) .dead => true
  | _ => false

private theorem Query.exists_of_settled (settled : query.settled = true) (runs : query.runs = true) :
    ∃ answer, query = .started (.answered answer) .running := by
  unfold Query.settled at settled
  split at settled <;> first | exact ⟨_, rfl⟩ | cases runs | cases settled

/-- Every query is settled; so many of their workers run, and so many have died. -/
structure Settled (running gone : Nat) (pool : Pool) : Prop where
  queries : ∀ query ∈ pool.queries, query.settled = true
  runs : pool.number Query.runs = running
  dead : pool.number Query.dead = gone
  count : pool.count = running + gone

/-- One more query comes and is settled. -/
theorem Settled.concat {running' gone' : Nat} (settled : Settled running gone pool)
    (query : changed.settled = true) (runs : running + changed.runs.toNat = running')
    (dead : gone + changed.dead.toNat = gone') (count : after = running' + gone') :
    Settled running' gone' { count := after, queries := pool.queries ++ [changed] } where
  queries := List.forall_mem_append.mpr ⟨settled.queries, List.forall_mem_singleton.mpr query⟩
  runs := by
    rw [number, List.countP_append, countP_cons_toNat, List.countP_nil, Nat.zero_add, ← runs]
    exact congrArg (· + _) settled.runs
  dead := by
    rw [number, List.countP_append, countP_cons_toNat, List.countP_nil, Nat.zero_add, ← dead]
    exact congrArg (· + _) settled.dead
  count := count

/-- A query that is asked while no other is under way: its steps lead to the answer that is given, and to
the workers that are left. -/
theorem exists_run_of_ask {solver : Solver} (under : solver.deadline = some d)
    (settled : Settled d.abandoned d.lost pool) (sig : Signature) (c : Constraint) :
    ∃ schedule next query d', pool.run d schedule = some next ∧ next.queries = pool.queries ++ [query] ∧
      query.answer? d = some (Solver.ask sig c solver).1 ∧
      (Solver.ask sig c solver).2.deadline = some d' ∧ Settled d'.abandoned d'.lost next := by
  have count : pool.count = d.running := settled.count
  simp only [Solver.ask, under]
  by_cases full : d.maxWorkers ≤ d.running
  · have ran : Query.run d pool.count .arriving [.enter, .leave] = some (.rejected, pool.count) := by
      simp [Query.run, Query.step, count, full]
    rw [if_pos full]
    exact ⟨_, _, _, d, run_call ran, rfl, rfl, under, settled.concat rfl rfl rfl settled.count⟩
  · have admitted : Query.step d pool.count .arriving .enter = some (.admitted, pool.count + 1) := by
      rw [Query.step, count, if_neg full]
    rw [if_neg full]
    cases reply : (solver.procedure.ask sig c).reply with
    | answered answer =>
      have ran : Query.run d pool.count .arriving [.enter, .start, .conclude answer, .release, .send,
          .receive] = some (.started (.answered answer) (.sent answer), pool.count) := by
        rw [Query.run, admitted]
        rfl
      exact ⟨_, _, _, d, run_call ran, rfl, rfl, rfl, settled.concat rfl rfl rfl settled.count⟩
    | never =>
      have ran : Query.run d pool.count .arriving [.enter, .start, .timeOut] =
          some (.started (.answered (.error (.timeout d.timeout))) .running, pool.count + 1) := by
        rw [Query.run, admitted]
        rfl
      refine ⟨_, _, _, _, run_call ran, rfl, rfl, rfl, settled.concat rfl rfl rfl ?_⟩
      rw [settled.count, Nat.add_right_comm]
      rfl
    | died =>
      have ran : Query.run d pool.count .arriving [.enter, .start, .die, .disconnect] =
          some (.started (.answered (.error Deadline.died)) .dead, pool.count + 1) := by
        rw [Query.run, admitted]
        rfl
      refine ⟨_, _, _, _, run_call ran, rfl, rfl, rfl, settled.concat rfl rfl rfl ?_⟩
      rw [settled.count, Nat.add_assoc]
      rfl

/-- The workers that were abandoned can all come to their end. -/
theorem exists_run_of_release (settled : Settled running gone pool) :
    ∃ schedule next, pool.run d schedule = some next ∧ Settled 0 gone next := by
  induction running generalizing pool with
  | zero => exact ⟨[], pool, rfl, settled⟩
  | succ running ih =>
    obtain ⟨query, member, runs⟩ := List.countP_pos_iff.mp
      (Nat.lt_of_lt_of_eq (Nat.succ_pos running) settled.runs.symm)
    obtain ⟨i, found⟩ := List.mem_iff_getElem?.mp member
    obtain ⟨answer, rfl⟩ := Query.exists_of_settled (settled.queries query member) runs
    -- Whatever the worker answers, nobody waits for it.
    have ran : Query.run d pool.count (.started (.answered answer) .running)
        [.conclude answer, .release, .send] =
          some (.started (.answered answer) (.sent answer), pool.count - 1) := rfl
    have lessRuns := countP_set Query.runs (.started (.answered answer) (.sent answer)) found
    have sameDead := countP_set Query.dead (.started (.answered answer) (.sent answer)) found
    have after : Settled running gone
        { count := pool.count - 1
          queries := pool.queries.set i (.started (.answered answer) (.sent answer)) } := by
      refine ⟨fun other member => ?_, ?_, ?_, ?_⟩
      · rcases List.mem_or_eq_of_mem_set member with member | rfl
        · exact settled.queries other member
        · rfl
      · exact Nat.succ.inj (lessRuns.trans settled.runs)
      · exact sameDead.trans settled.dead
      · rw [settled.count, Nat.add_right_comm]
        rfl
    obtain ⟨schedule, next, onward, last⟩ := ih after
    refine ⟨[.conclude answer, .release, .send].map (.advance i) ++ schedule, next, ?_, last⟩
    rw [run_append, run_advance found ran]
    exact onward

end OneByOne

end Pool

end Reach
