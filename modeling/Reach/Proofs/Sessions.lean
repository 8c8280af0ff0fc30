import Reach.Proofs.Novelty

/-!
Fresh names never collide. In a session, one operation after the other, no variable is returned twice, and
none that is returned was at hand: in the rule, the state, the equations or the substitution that it was
drawn for. A rule that is renamed to be applied to a state shares no variable with the state.
-/

namespace Reach

/-- What a client can ask for that draws names. -/
inductive Operation
  | step (state : State) (mode : Mode)
  | applyRule (rule : Rule) (state : State) (mode : Mode) (limit : Option Nat)
  | searchFrom (initial : State) (pattern : Pattern) (config : SearchConfig)
  | search (term : Term) (pattern : Pattern) (config : SearchConfig)
  | prove (claims : List Rule) (config : ProofConfig)

namespace Operation

/-- The operation, and the variables of the states that it returns. -/
def perform {m : Type → Type} [Monad m] [MonadLiftT Engine m] [MonadFresh m] : Operation → m (List Variable)
  | step state mode => return (← Engine.step state mode).flatMap Successor.vars
  | applyRule rule state mode limit =>
    return (← Engine.applyRule rule state mode limit).flatMap Successor.vars
  | searchFrom initial pattern config =>
    return (← Engine.search initial pattern config).results.flatMap SearchResult.vars
  | search term pattern config =>
    return (← Session.search term pattern config).results.flatMap SearchResult.vars
  | prove claims config => return (← Session.prove claims config).residuals.flatMap State.freeVars

def run (operation : Operation) : Engine (List Variable) :=
  operation.perform

/-- The operation with a report of the names that it draws. -/
def record (operation : Operation) : Recording (List Variable) :=
  operation.perform

/-- The variables that the client hands over to be worked on. -/
def vars : Operation → List Variable
  | step state _ => state.freeVars
  | applyRule rule state _ _ => rule.allVars ++ state.freeVars
  | searchFrom initial _ _ => initial.freeVars
  | search term _ _ => term.vars
  | prove claims _ => claims.flatMap Rule.allVars

/-- The variables of the states that the operation returns here; none, if it fails. -/
def returned (operation : Operation) (context : Context) (world : World) : List Variable :=
  (operation.run.run context world).1.toOption.getD []

variable {context : Context} {world : World}

/-- Only the report is added. -/
theorem action_record (operation : Operation) : operation.record.action = operation.run := by
  cases operation <;>
    simp only [record, run, perform, Session.search, Session.prove, Recording.action_bind,
      Recording.action_pure, Recording.action_lift, Recording.action_step, Recording.action_applyRule,
      Recording.action_search, Recording.action_prove]

open Recording Engine in
private theorem safe_record (unmarked : context.definition.Unmarked) (operation : Operation)
    (given : world.fresh.Clears operation.vars) :
    operation.record.Safe context world fun returned last => last.Clears returned := by
  cases operation with
  | step state mode => exact (safe_step unmarked given mode).bind fun _ _ _ _ held => safe_pure held
  | applyRule rule state mode limit =>
    obtain ⟨known, given⟩ := Fresh.clears_append_iff.mp given
    exact (safe_applyRule unmarked known given mode).bind fun _ _ _ _ held => safe_pure held
  | searchFrom initial pattern config =>
    exact (safe_search unmarked given).bind fun _ _ _ _ held => safe_pure held
  | search term pattern config =>
    have searched : Safe (Session.search term pattern config) context world fun found last =>
        last.Clears (found.results.flatMap SearchResult.vars) := by
      refine safe_lift_bind (quiet_initial term) fun state after gave same => safe_search unmarked ?_
      obtain ⟨_, _, _, gave⟩ := gives_bind.mp gave
      obtain ⟨value, _, evaluated, gave⟩ := gives_bind.mp gave
      obtain ⟨rfl, rfl⟩ := gives_pure.mp gave
      obtain ⟨made, _⟩ := gives_evaluate.mp evaluated
      rw [same]
      exact Fresh.clears_state_iff.mpr ⟨given.evaluate unmarked made, nofun⟩
    exact searched.bind fun _ _ _ _ held => safe_pure held
  | prove claims config =>
    have proved : Safe (Session.prove claims config) context world fun result last =>
        last.Clears (result.residuals.flatMap State.freeVars) := by
      refine safe_lift_bind ?_ fun _ after _ same => safe_prove unmarked (same ▸ given)
      refine quiet_bind (quiet_forIn () fun claim _ => ?_) fun _ => quiet_pure _
      refine quiet_bind (quiet_forIn () fun term _ => ?_) fun _ => quiet_pure _
      exact quiet_bind (quiet_check term) fun _ => quiet_pure _
    exact proved.bind fun _ _ _ _ held => safe_pure held

end Operation

/-- A session of operations: each works on variables without mark and on those that were returned before,
and is followed by the next one whether it succeeds or fails. These are the events that it reports. -/
inductive Conducts (context : Context) : World → List Variable → List Event → World → Prop
  | done (world : World) (known : List Variable) : Conducts context world known [] world
  | next {world last : World} {known : List Variable} {events : List Event} (operation : Operation)
      (usable : ∀ v ∈ operation.vars, v.Unmarked ∨ v ∈ known)
      (rest : Conducts context (operation.run.run context world).2
        (known ++ operation.returned context world) events last) :
      Conducts context world known (operation.record.journal context world ++ events) last

theorem Conducts.accounted {context : Context} {world last : World} {known : List Variable}
    {events : List Event} (unmarked : context.definition.Unmarked)
    (session : Conducts context world known events last) (clears : world.fresh.Clears known) :
    Accounted world.fresh events last.fresh := by
  induction session with
  | done world known => exact .done _
  | @next world last known events operation usable rest ih =>
    have given : world.fresh.Clears operation.vars := fun v member =>
      (usable v member).elim Fresh.avoids_of_unmarked (clears v)
    have safe := Operation.safe_record unmarked operation given
    have accounted := safe.accounted
    rw [operation.action_record] at accounted
    refine accounted.append (ih (Fresh.clears_append_iff.mpr ⟨clears.mono accounted.onward, ?_⟩))
    have result := safe.result
    rw [operation.action_record] at result
    unfold Operation.returned
    cases ran : operation.run.run context world with
    | mk outcome after =>
      cases outcome with
      | error failure => exact Fresh.clears_nil
      | ok returned => exact result returned after ran

theorem Definition.unmarked_of_ofRules {sig : Signature} {rules : List Rule} {d : Definition}
    (made : ofRules sig rules = .ok d) (unmarked : ∀ rule ∈ rules, rule.Unmarked) : d.Unmarked := by
  refine ⟨?_, fun label rule member =>
    unmarked rule ((parted_of_ofRules made).1.mem_functionRules member).1⟩
  refine (holds_of_ofRules (fun d _ => ∀ rule ∈ d.rules, rule.Unmarked) nofun ?_ made).1
  intro d before rule member filed
  have added : ∀ rule' ∈ d.rules ++ [rule], rule'.Unmarked :=
    List.forall_mem_append.mpr ⟨filed, List.forall_mem_singleton.mpr (unmarked rule member)⟩
  unfold add
  split
  · split
    · exact filed
    · exact added
  · exact added

/-- Fresh names never collide, whatever the counter starts from, as long as it does not come to its end. The
report goes through all draws of the session. No variable is returned twice, no variable that is returned
is at hand, and no rule that is renamed for a state shares a variable with it. -/
theorem fresh_names_distinct {sig : Signature} {rules : List Rule} {context : Context} {start last : World}
    {events : List Event} (defined : Definition.ofRules sig rules = .ok context.definition)
    (unmarked : ∀ rule ∈ rules, rule.Unmarked) (session : Conducts context start [] events last)
    (unwrapped : last.fresh.position ≤ 2 ^ 64) :
    events.filterMap Event.position? =
        List.range' start.fresh.position (last.fresh.position - start.fresh.position) ∧
      (events.filterMap Event.result?).Nodup ∧
      (∀ fresh base atHand, .drawn fresh base atHand ∈ events → (fresh.variableLike base).1 ∉ atHand) ∧
      ∀ fresh rule state, .renamed fresh rule state ∈ events →
        ∀ v ∈ (rule.renameApart fresh).1.allVars, v ∉ state.freeVars := by
  have accounted := session.accounted (Definition.unmarked_of_ofRules defined unmarked) Fresh.clears_nil
  exact ⟨accounted.positions_eq, accounted.nodup_results unwrapped,
    fun fresh base atHand => accounted.not_mem_of_drawn unwrapped,
    fun fresh rule state => accounted.not_mem_of_renamed unwrapped⟩

/-- From `a` to `b`, which gets a new argument. -/
def moving : Rule where
  label := "move"
  lhs := heading "a" "X"
  rhs := heading "b" "Z"
  freshVariables := [⟨"Z", .int⟩]

/-- The rule is there, beside the one that goes back. -/
def moved : Context where
  definition :=
    { signature := headings
      rules := [moving, { label := "back", lhs := heading "b" "X", rhs := heading "a" "X" }]
      index := (Assoc.empty.insert "a" [0]).insert "b" [1]
      unindexed := []
      functions := .empty }

/-- The second operation starts from what the first one returns, with a name that it drew. -/
theorem fresh_names_distinct_moved :
    ∃ events last, Conducts moved {} [] events last ∧
      events.filterMap Event.result? =
        [⟨"X#0", .int⟩, ⟨"Z#1", .int⟩, ⟨"Z#2", .int⟩, ⟨"X#3", .int⟩] ∧
      (events.filterMap Event.result?).Nodup ∧
      ∀ fresh rule state, .renamed fresh rule state ∈ events →
        ∀ v ∈ (rule.renameApart fresh).1.allVars, v ∉ state.freeVars := by
  let first : Operation := .applyRule moving { term := heading "a" "Y" } .unifying none
  let second : Operation := .step { term := heading "b" "Z#2" } .unifying
  have defined : Definition.ofRules headings moved.definition.rules = .ok moved.definition := rfl
  have returned : ∀ v ∈ second.vars, v ∈ [] ++ first.returned moved {} := by
    decide +kernel
  have session := Conducts.next first (by decide +kernel)
    (.next second (fun v member => .inr (returned v member)) (.done _ _))
  obtain ⟨_, distinct, _, apart⟩ :=
    fresh_names_distinct defined (by decide +kernel) session (by decide +kernel)
  exact ⟨_, _, session, by decide +kernel, distinct, apart⟩

end Reach
