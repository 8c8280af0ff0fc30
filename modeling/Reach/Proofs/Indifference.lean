import Reach.Proofs.Quiet
import Reach.Search

/-!
What an action can tell of the world in which it runs. If the decision procedure is a function of the
constraint, a store answers the same question in the same way whatever was asked before, so that two
worlds look the same once their stores give the same replies and, to an action that draws names, once
their counters agree.
-/

namespace Reach

/-- The procedure is this function: it answers, and is no other for having been asked. -/
def Procedure.Computes (procedure : Procedure) (answer : Signature → Constraint → Answer) : Prop :=
  ∀ sig c, ∃ calls, procedure.ask sig c = ⟨.answered (answer sig c), procedure, calls⟩

theorem Procedure.computes_steady (answer : Signature → Constraint → Answer) :
    (steady answer).Computes answer :=
  fun _ _ => ⟨1, rfl⟩

section Asking

variable {sig : Signature} {answer : Signature → Constraint → Answer} {solver : Solver}

/-- All that a question changes is how many were asked. -/
theorem Solver.ask_of_computes (computes : solver.procedure.Computes answer) (sig : Signature)
    (c : Constraint) : ∃ answered calls, ∀ before,
      ask sig c { solver with calls := before } =
        (answered, { solver with calls := before + calls }) := by
  obtain ⟨procedure, deadline, _⟩ := solver
  obtain ⟨calls, asked⟩ := computes sig c
  cases deadline with
  | none => exact ⟨answer sig c, calls, fun before => by simp only [ask, asked]⟩
  | some d =>
    by_cases overloaded : d.maxWorkers ≤ d.running
    · exact ⟨.error d.overload, 0, fun before => by simp only [ask, if_pos overloaded, Nat.add_zero]⟩
    · exact ⟨answer sig c, calls, fun before => by
        simp only [ask, if_neg overloaded, asked, Deadline.settle]⟩

end Asking

/-- A store with a procedure that is a function, and what it replies to each query. -/
structure Store.Replies (sig : Signature) (config : StoreConfig) (reply : Constraint → Answer)
    (store : Store) : Prop where
  config : store.config = config
  procedure : ∃ answer, store.solver.procedure.Computes answer
  replies : ∀ c, (Store.query sig c store).1 = reply c

namespace Store

variable {sig : Signature} {config : StoreConfig} {reply : Constraint → Answer} {store : Store}

theorem replies_self (sig : Signature) (computes : ∃ answer, store.solver.procedure.Computes answer) :
    store.Replies sig store.config fun c => (query sig c store).1 :=
  ⟨rfl, computes, fun _ => rfl⟩

theorem query_of_lookup {c : Constraint} {verdict : Verdict} (found : store.lookup? c = some verdict) :
    query sig c store = (.ok verdict, store) := by
  simp only [query, found]

theorem query_of_not_lookup {c : Constraint} (missing : store.lookup? c = none) :
    query sig c store = ((Solver.ask sig c store.solver).1,
      { store with solver := (Solver.ask sig c store.solver).2 }.remember c
        (Solver.ask sig c store.solver).1) := by
  unfold query
  rw [missing]
  rfl

/-- An answer is looked up as before, unless it was just remembered. -/
theorem lookup_remember (store : Store) (c other : Constraint) (answer : Answer) :
    (store.remember c answer).lookup? other = store.lookup? other ∨
      other = c ∧ ∃ verdict, answer = .ok verdict ∧
        (store.remember c answer).lookup? other = some verdict := by
  cases answer with
  | error failure => exact .inl rfl
  | ok verdict =>
    unfold remember lookup?
    by_cases cached : store.config.cached = true
    · simp only [cached, ↓reduceIte]
      rw [Std.TreeMap.getElem?_insert]
      split
      · next same => exact .inr ⟨(Std.LawfulEqOrd.eq_of_compare same).symm, verdict, rfl, rfl⟩
      · exact .inl rfl
    · simp only [cached, Bool.false_eq_true, ↓reduceIte, true_or]

@[simp]
theorem remember_config (store : Store) (c : Constraint) (answer : Answer) :
    (store.remember c answer).config = store.config := by
  unfold remember
  split
  · split <;> rfl
  · rfl

@[simp]
theorem remember_solver (store : Store) (c : Constraint) (answer : Answer) :
    (store.remember c answer).solver = store.solver := by
  unfold remember
  split
  · split <;> rfl
  · rfl

/-- A reply depends on what can be looked up, and on no count of questions. -/
theorem query_congr {other : Store} {answer : Signature → Constraint → Answer} {c : Constraint}
    {asked : Nat} (computes : store.solver.procedure.Computes answer)
    (looked : other.lookup? c = store.lookup? c)
    (solver : other.solver = { store.solver with calls := asked }) :
    (query sig c other).1 = (query sig c store).1 := by
  cases known : store.lookup? c with
  | some verdict => rw [query_of_lookup known, query_of_lookup (looked.trans known)]
  | none =>
    obtain ⟨answered, calls, replied⟩ := Solver.ask_of_computes computes sig c
    rw [query_of_not_lookup known, query_of_not_lookup (looked.trans known), solver, replied asked]
    exact (congrArg Prod.fst (replied store.solver.calls)).symm

/-- A query changes no reply. -/
theorem Replies.query (replies : store.Replies sig config reply) (c : Constraint) :
    (query sig c store).2.Replies sig config reply := by
  cases missing : store.lookup? c with
  | some verdict =>
    rw [query_of_lookup missing]
    exact replies
  | none =>
    obtain ⟨same, ⟨answer, computes⟩, replied⟩ := replies
    obtain ⟨answered, calls, asked⟩ := Solver.ask_of_computes computes sig c
    have here := replied c
    have now : Solver.ask sig c store.solver =
        (answered, { store.solver with calls := store.solver.calls + calls }) := asked store.solver.calls
    rw [query_of_not_lookup missing, now] at here ⊢
    refine ⟨by rw [remember_config]; exact same, ⟨answer, by rw [remember_solver]; exact computes⟩,
      fun other => ?_⟩
    rcases lookup_remember { store with
      solver := { store.solver with calls := store.solver.calls + calls } } c other answered with
      before | ⟨rfl, verdict, rfl, found⟩
    · exact (query_congr computes before (remember_solver _ _ _)).trans (replied other)
    · rw [query_of_lookup found]
      exact here

/-- Whether a constraint is feasible follows from the replies. -/
theorem Replies.feasible {other : Store} (replies : store.Replies sig config reply)
    (others : other.Replies sig config reply) (c : Constraint) :
    (feasible sig c store).1 = (feasible sig c other).1 ∧
      (feasible sig c store).2.Replies sig config reply ∧
      (feasible sig c other).2.Replies sig config reply := by
  rw [feasible_eq, feasible_eq]
  split
  · exact ⟨rfl, replies, others⟩
  · split
    · exact ⟨rfl, replies, others⟩
    · have first := replies.query (c.simplify sig)
      have second := others.query (c.simplify sig)
      refine ⟨?_, first, second⟩
      rw [first.config, second.config, replies.replies, others.replies]

end Store

/-- Worlds that look the same to an action that draws no name. -/
def World.Answering (sig : Signature) (config : StoreConfig) (reply : Constraint → Answer)
    (first second : World) : Prop :=
  first.store.Replies sig config reply ∧ second.store.Replies sig config reply

/-- Worlds that look the same. -/
def World.Alike (sig : Signature) (config : StoreConfig) (reply : Constraint → Answer)
    (first second : World) : Prop :=
  first.Answering sig config reply second ∧ first.fresh = second.fresh

namespace Engine

variable {α β : Type} {context : Context} {same : World → World → Prop} {action : Engine α}

theorem run_ofExcept (outcome : Except Failure α) (context : Context) (world : World) :
    (ofExcept outcome).run context world = (outcome, world) := by
  cases outcome <;> rfl

theorem run_feasible (c : Constraint) (context : Context) (world : World) :
    (feasible c).run context world =
      ((Store.feasible context.definition.signature c world.store).1.mapError Failure.query,
        { world with store := (Store.feasible context.definition.signature c world.store).2 }) :=
  run_ofExcept _ context { world with store := _ }

theorem run_implies (c d : Constraint) (context : Context) (world : World) :
    (implies c d).run context world =
      ((Store.implies context.definition.signature c d world.store).1.mapError Failure.query,
        { world with store := (Store.implies context.definition.signature c d world.store).2 }) :=
  run_ofExcept _ context { world with store := _ }

/-- The action has the same outcome in worlds that are the same, and leaves worlds behind that are. -/
def Indifferent (context : Context) (same : World → World → Prop) (action : Engine α) : Prop :=
  ∀ first second, same first second →
    (action.run context first).1 = (action.run context second).1 ∧
      same (action.run context first).2 (action.run context second).2

theorem Indifferent.gives (indifferent : Indifferent context same action)
    {first second after : World} {value : α} (alike : same first second)
    (gives : Gives action context first value after) :
    ∃ other, Gives action context second value other ∧ same after other := by
  obtain ⟨outcome, behind⟩ := indifferent first second alike
  rw [gives] at outcome behind
  obtain ⟨other, given⟩ := exists_gives outcome.symm
  rw [given] at behind
  exact ⟨other, given, behind⟩

theorem indifferent_pure (value : α) : Indifferent context same (pure value) :=
  fun _ _ alike => ⟨rfl, alike⟩

theorem indifferent_throw (failure : Failure) : Indifferent context same (throw failure : Engine α) :=
  fun _ _ alike => ⟨rfl, alike⟩

theorem indifferent_bind {next : α → Engine β} (indifferent : Indifferent context same action)
    (later : ∀ value, Indifferent context same (next value)) :
    Indifferent context same (action >>= next) := by
  intro first second alike
  obtain ⟨outcome, behind⟩ := indifferent first second alike
  rw [run_bind, run_bind]
  generalize action.run context first = one at outcome behind
  generalize action.run context second = other at outcome behind
  obtain ⟨one, after⟩ := one
  obtain ⟨other, after'⟩ := other
  obtain rfl : one = other := outcome
  cases one with
  | error failure => exact ⟨rfl, behind⟩
  | ok value => exact later value after after' behind

theorem indifferent_ite {condition : Prop} [Decidable condition] {first second : Engine α}
    (left : Indifferent context same first) (right : Indifferent context same second) :
    Indifferent context same (if condition then first else second) := by
  split
  · exact left
  · exact right

theorem indifferent_read : Indifferent context same (read : Engine Context) :=
  fun _ _ alike => ⟨rfl, alike⟩

theorem indifferent_signature : Indifferent context same signature :=
  fun _ _ alike => ⟨rfl, alike⟩

theorem indifferent_budget : Indifferent context same budget :=
  fun _ _ alike => ⟨rfl, alike⟩

theorem indifferent_ofExcept (outcome : Except Failure α) :
    Indifferent context same (ofExcept outcome) := by
  cases outcome with
  | error failure => exact indifferent_throw failure
  | ok value => exact indifferent_pure value

theorem indifferent_evaluate (term : Term) : Indifferent context same (evaluate term) :=
  indifferent_bind indifferent_read fun _ => indifferent_ofExcept _

private theorem indifferent_lookups (rule : Rule) (s : Subst) : Indifferent context same (lookups rule s) :=
  indifferent_bind indifferent_read fun _ => indifferent_ofExcept _

private theorem indifferent_candidates (term : Term) (mode : Mode) :
    Indifferent context same (candidates term mode) := by
  rw [candidates_eq]
  exact indifferent_bind indifferent_read fun _ => indifferent_pure _

private theorem indifferent_mapM {items : List α} {f : α → Engine β}
    (each : ∀ item, Indifferent context same (f item)) : Indifferent context same (items.mapM f) := by
  induction items with
  | nil => exact indifferent_pure []
  | cons item rest ih =>
    rw [List.mapM_cons]
    exact indifferent_bind (each item) fun _ => indifferent_bind ih fun _ => indifferent_pure _

theorem indifferent_filterMapM {items : List α} {f : α → Engine (Option β)}
    (each : ∀ item, Indifferent context same (f item)) :
    Indifferent context same (items.filterMapM f) := by
  induction items with
  | nil => exact indifferent_pure []
  | cons item rest ih =>
    rw [List.filterMapM_cons]
    refine indifferent_bind (each item) fun outcome => ?_
    cases outcome with
    | none => exact ih
    | some value => exact indifferent_bind ih fun _ => indifferent_pure _

theorem indifferent_foldlM {items : List α} {step : β → α → Engine β} (start : β)
    (each : ∀ item value, Indifferent context same (step value item)) :
    Indifferent context same (items.foldlM step start) := by
  induction items generalizing start with
  | nil => exact indifferent_pure start
  | cons item rest ih =>
    rw [List.foldlM_cons]
    exact indifferent_bind (each item start) fun value => ih value

section Asking

variable (asks : ∀ c, Indifferent context same (feasible c)) (state : State)

include asks

theorem indifferent_remainder (successors : List Successor) :
    Indifferent context same (remainder state successors) := by
  unfold remainder
  split
  · exact indifferent_pure none
  · exact indifferent_bind (asks _) fun _ => indifferent_ite (indifferent_pure none)
      (indifferent_bind indifferent_signature fun _ => indifferent_pure _)

private theorem indifferent_finalsOf (successors : List Successor) :
    Indifferent context same (finalsOf state successors) :=
  indifferent_ite (indifferent_pure _)
    (indifferent_bind (indifferent_remainder asks state successors) fun _ => indifferent_pure _)

private theorem indifferent_firstMatch (pattern : Pattern) :
    Indifferent context same (firstMatch pattern state) := by
  unfold firstMatch
  induction Matching.enumerate pattern.term state.term with
  | nil => exact indifferent_pure none
  | cons s more ih =>
    exact indifferent_bind (indifferent_evaluate _) fun _ => indifferent_bind (asks _) fun _ =>
      indifferent_ite (indifferent_pure (some s)) (ih ())

theorem indifferent_searchResult? (config : SearchConfig) (pattern : Pattern) :
    Indifferent context same (searchResult? config pattern state) :=
  indifferent_bind (indifferent_firstMatch asks state pattern) fun _ => indifferent_pure _

end Asking

section Applying

variable {rule : Rule} {state : State} (asks : ∀ c, Indifferent context same (feasible c))
  (binds : ∀ s, Indifferent context same (bindFresh rule s))

include asks binds

private theorem indifferent_successor? (fit : Fit) (s : Subst) :
    Indifferent context same (successor? rule state fit s) :=
  indifferent_bind indifferent_signature fun _ => indifferent_bind (indifferent_evaluate _) fun _ =>
    indifferent_bind (asks _) fun _ => indifferent_ite (indifferent_pure none)
      (indifferent_bind (binds s) fun _ =>
        indifferent_bind (indifferent_evaluate _) fun _ =>
        indifferent_bind (indifferent_evaluate _) fun _ => indifferent_ite (indifferent_pure none)
          (indifferent_bind indifferent_read fun _ => indifferent_pure _))

private theorem indifferent_addSuccessors (fit : Fit) (limit : Option Nat) (bindings : List Subst)
    (found : List Successor) :
    Indifferent context same (addSuccessors rule state fit limit bindings found) := by
  induction bindings generalizing found with
  | nil => exact indifferent_pure found
  | cons s rest ih =>
    refine indifferent_bind (indifferent_successor? asks binds fit s) fun outcome => ?_
    cases outcome with
    | none => exact ih found
    | some next => exact indifferent_ite (indifferent_pure _) (ih _)

theorem indifferent_addFit (fit : Fit) (limit : Option Nat) (found : List Successor) :
    Indifferent context same (addFit rule state fit limit found) :=
  indifferent_bind (indifferent_lookups rule fit.subst) fun bindings =>
    indifferent_addSuccessors asks binds fit limit bindings found

theorem indifferent_addMatches (limit : Option Nat) (choices : Enumeration Subst)
    (found : List Successor) :
    Indifferent context same (addMatches rule state limit choices found) := by
  induction choices generalizing found with
  | nil => exact indifferent_pure found
  | cons s more ih =>
    exact indifferent_bind (indifferent_addFit asks binds { subst := s } limit found) fun found =>
      indifferent_ite (indifferent_pure found) (ih () found)

end Applying

section Drawing

variable (asks : ∀ c, Indifferent context same (feasible c))
  (draws : ∀ {γ : Type} (drawing : Fresh → γ × Fresh), Indifferent context same (draw drawing))
  (gets : ∀ {γ : Type} {next : Fresh → Engine γ}, (∀ fresh, Indifferent context same (next fresh)) →
    Indifferent context same (get >>= fun world => next world.fresh))

include draws

theorem indifferent_bindFresh (rule : Rule) (s : Subst) : Indifferent context same (bindFresh rule s) :=
  indifferent_bind
    (indifferent_foldlM s fun _ _ => indifferent_bind (draws _) fun _ => indifferent_pure _)
    fun _ => indifferent_foldlM _ fun _ _ => indifferent_bind (draws _) fun _ => indifferent_pure _

section Visiting

include gets

omit draws in
theorem indifferent_unifiers (a b : Term) : Indifferent context same (unifiers a b) := by
  refine indifferent_bind indifferent_signature fun sig => indifferent_bind indifferent_budget
    fun budget => ?_
  cases unify sig budget a b with
  | error error => exact indifferent_throw _
  | ok explore => exact gets fun fresh => indifferent_pure (explore fresh)

/-- A visit is indifferent if it is so at each unifier. -/
theorem indifferent_visit {γ : Type} {enough : γ → Bool} {next : Unifier → γ → Engine γ}
    (each : ∀ unifier value, Indifferent context same (next unifier value)) (unifiers : Unifiers) (value : γ) :
    Indifferent context same (visit enough next unifiers value) := by
  induction unifiers generalizing value with
  | finished fresh => exact indifferent_bind (draws _) fun _ => indifferent_pure value
  | cut fresh => exact indifferent_bind (draws _) fun _ => indifferent_throw _
  | found unifier fresh more ih =>
    exact indifferent_bind (draws _) fun _ => indifferent_bind (each unifier value) fun value =>
      indifferent_ite (indifferent_pure value) (gets fun fresh => ih fresh value)

end Visiting

section Stepping

variable (rule : Rule) (state : State) (limit : Option Nat)

include asks gets

private theorem indifferent_applyRule (mode : Mode) :
    Indifferent context same (applyRule rule state mode limit) := by
  cases mode with
  | matching => exact indifferent_addMatches asks (indifferent_bindFresh draws rule) limit _ _
  | unifying =>
    unfold applyRule
    simp only [copy_eq, forUnifiers_eq]
    refine indifferent_ite (indifferent_bind (draws _) fun rule => ?_) (indifferent_pure [])
    refine indifferent_bind (indifferent_unifiers gets rule.lhs state.term) fun unifiers => ?_
    exact indifferent_visit draws gets (fun unifier found => indifferent_addFit asks
      (indifferent_bindFresh draws rule) (fitOf state unifier) limit found) unifiers []

theorem indifferent_step (mode : Mode) : Indifferent context same (step state mode) :=
  indifferent_bind (indifferent_candidates state.term mode) fun _ =>
    indifferent_bind (indifferent_mapM fun rule => indifferent_applyRule asks draws gets rule state none mode)
      fun _ => indifferent_pure _

end Stepping

section Proving

variable (implications : ∀ c d, Indifferent context same (implies c d)) (state : State)

section Matches

include implications
omit draws

theorem indifferent_matchesTarget (claim : Rule) (choices : Enumeration Subst) :
    Indifferent context same (matchesTarget claim state choices) := by
  induction choices with
  | nil => exact indifferent_pure false
  | cons s more ih =>
    exact indifferent_bind (indifferent_evaluate _) fun _ => indifferent_bind (implications _ _) fun _ =>
      indifferent_ite (indifferent_pure true) (ih ())

theorem indifferent_applyHypothesis (hypothesis : Rule) (choices : Enumeration Subst) :
    Indifferent context same (applyHypothesis hypothesis state choices) := by
  induction choices with
  | nil => exact indifferent_pure none
  | cons s more ih =>
    exact indifferent_bind (indifferent_evaluate _) fun _ => indifferent_bind (implications _ _) fun _ =>
      indifferent_ite (ih ()) (indifferent_bind (indifferent_evaluate _) fun _ =>
        indifferent_bind (indifferent_evaluate _) fun _ => indifferent_bind indifferent_signature fun _ =>
          indifferent_ite (ih ()) (indifferent_pure _))

end Matches

include implications gets

theorem indifferent_reachesTarget (o : Obligation) (narrowing : Subst) :
    Indifferent context same (reachesTarget o state narrowing) := by
  unfold reachesTarget
  simp only [monadLift_self, forUnifiers_eq]
  refine indifferent_bind (indifferent_matchesTarget implications state _ _) fun _ =>
    indifferent_ite (indifferent_pure true) (indifferent_ite ?_ (indifferent_pure false))
  refine indifferent_bind (indifferent_unifiers gets _ _) fun unifiers => ?_
  refine indifferent_visit draws gets (fun unifier _ => ?_) unifiers false
  exact indifferent_bind (indifferent_evaluate _) fun _ => implications _ _

omit gets in
theorem indifferent_applyClaims (claims : List Rule) :
    Indifferent context same (applyClaims state claims) := by
  induction claims with
  | nil => exact indifferent_pure none
  | cons claim rest ih =>
    rw [applyClaims]
    simp only [copy_eq, monadLift_self]
    refine indifferent_bind (draws _) fun hypothesis => indifferent_bind
      (indifferent_applyHypothesis implications state _ _) fun outcome => ?_
    cases outcome with
    | none => exact ih
    | some next => exact indifferent_pure _

include asks

theorem indifferent_advance (o : Obligation) (claims : List Rule) (config : ProofConfig)
    (branch : Branch) : Indifferent context same (advance o claims config branch) := by
  have reaches (state : State) (narrowing : Subst) :
      Indifferent context same (reachesTarget o state narrowing) :=
    indifferent_reachesTarget draws gets implications state o narrowing
  refine indifferent_bind (reaches _ _) fun answer => indifferent_ite (indifferent_pure _)
    (indifferent_ite (indifferent_pure _) (indifferent_bind ?_ fun outcome => ?_))
  · exact indifferent_ite (indifferent_pure none) (indifferent_applyClaims draws implications _ claims)
  · cases outcome with
    | some next => exact indifferent_pure _
    | none =>
      refine indifferent_bind (indifferent_step asks draws gets _ _) fun successors =>
        indifferent_ite (indifferent_pure _) ?_
      refine indifferent_bind (indifferent_remainder asks _ _) fun outcome => ?_
      cases outcome with
      | none => exact indifferent_bind (indifferent_pure _) fun _ => indifferent_pure _
      | some rest =>
        exact indifferent_bind (reaches _ _) fun _ => indifferent_ite
          (indifferent_bind (indifferent_pure _) fun _ => indifferent_pure _)
          (indifferent_bind (indifferent_pure _) fun _ => indifferent_pure _)

private theorem indifferent_followBranches (o : Obligation) (claims : List Rule) (config : ProofConfig)
    (budget : Nat) (branches : List Branch) (residuals : List State) :
    Indifferent context same (followBranches o claims config budget branches residuals) := by
  induction budget generalizing branches residuals with
  | zero =>
    cases branches with
    | nil => exact indifferent_pure residuals
    | cons branch rest => exact indifferent_throw _
  | succ budget ih =>
    cases branches with
    | nil => exact indifferent_pure residuals
    | cons branch rest =>
      exact indifferent_bind (indifferent_advance asks draws gets implications o claims config branch)
        fun _ => ih _ _

theorem indifferent_proveClaim (claims : List Rule) (config : ProofConfig) (claim : Rule) :
    Indifferent context same (proveClaim claims config claim) := by
  unfold proveClaim
  simp only [monadLift_self, copy_eq]
  exact indifferent_bind indifferent_signature fun _ => indifferent_bind (draws _) fun _ =>
    indifferent_bind (indifferent_evaluate _) fun _ => indifferent_bind (indifferent_evaluate _) fun _ =>
      indifferent_bind (asks _) fun _ => indifferent_ite (indifferent_pure [])
        (indifferent_bind indifferent_budget fun _ =>
          indifferent_followBranches asks draws gets implications _ _ _ _ _ _)

end Proving

end Drawing

section Looks

variable {config : StoreConfig} {reply : Constraint → Answer}

/-- The action does the same again in a world that looks the same. -/
def Repeatable (context : Context) (config : StoreConfig) (reply : Constraint → Answer)
    (action : Engine α) : Prop :=
  Indifferent context (World.Alike context.definition.signature config reply) action

/-- No reply depends on the names that were drawn. -/
theorem indifferent_feasible (c : Constraint) :
    Indifferent context (World.Answering context.definition.signature config reply) (feasible c) := by
  intro first second ⟨replies, others⟩
  obtain ⟨answer, left, right⟩ := replies.feasible others c
  rw [run_feasible, run_feasible, answer]
  exact ⟨rfl, left, right⟩

private theorem repeatable_of_quiet {action : Engine α} (quiet : Quiet action)
    (indifferent : Indifferent context (World.Answering context.definition.signature config reply)
      action) :
    Repeatable context config reply action := by
  intro first second ⟨answering, counter⟩
  obtain ⟨outcome, behind⟩ := indifferent first second answering
  exact ⟨outcome, behind, (quiet context first).trans (counter.trans (quiet context second).symm)⟩

theorem repeatable_feasible (c : Constraint) :
    Repeatable context config reply (feasible c) :=
  repeatable_of_quiet (quiet_feasible c) (indifferent_feasible c)

private theorem repeatable_draw (drawing : Fresh → α × Fresh) :
    Repeatable context config reply (draw drawing) := by
  intro first second ⟨answering, counter⟩
  have run (world : World) : (draw drawing).run context world =
      (.ok (drawing world.fresh).1, { world with fresh := (drawing world.fresh).2 }) := rfl
  rw [run, run, counter]
  exact ⟨rfl, answering, rfl⟩

/-- Of the world only the counter is looked at. -/
theorem repeatable_get {next : Fresh → Engine β}
    (later : ∀ fresh, Repeatable context config reply (next fresh)) :
    Repeatable context config reply (get >>= fun world => next world.fresh) := by
  intro first second alike
  have run (world : World) : (get >>= fun world => next world.fresh : Engine β).run context world =
      (next world.fresh).run context world := rfl
  rw [run, run, alike.2]
  exact later second.fresh first second alike

private theorem repeatable_step (state : State) (mode : Mode) :
    Repeatable context config reply (step state mode) :=
  indifferent_step repeatable_feasible repeatable_draw repeatable_get state mode

section Searching

variable (search : SearchConfig) (pattern : Pattern)

theorem repeatable_closeLayer (atLimit : Bool) (budget position : Nat) (f : Frontier) :
    Repeatable context config reply (closeLayer search atLimit budget position f) := by
  induction budget generalizing position f with
  | zero => exact indifferent_throw _
  | succ budget ih =>
    unfold closeLayer
    split
    · exact indifferent_pure f
    · next state _ =>
      exact indifferent_bind (repeatable_step state .unifying) fun successors => indifferent_ite
        (indifferent_bind (indifferent_finalsOf repeatable_feasible state successors) fun _ => ih _ _)
        (indifferent_bind (indifferent_pure _) fun _ => ih _ _)

theorem repeatable_explore (budget depth : Nat) (layer : Array State) (seen : Std.TreeSet State)
    (results : Array SearchResult) :
    Repeatable context config reply (explore search pattern budget depth layer seen results) := by
  induction budget generalizing depth layer seen results with
  | zero => exact indifferent_throw _
  | succ budget ih =>
    exact indifferent_bind indifferent_budget fun _ =>
      indifferent_bind (repeatable_closeLayer search _ _ _ _) fun _ =>
      indifferent_bind (indifferent_filterMapM fun state =>
        indifferent_searchResult? repeatable_feasible state search pattern) fun _ =>
      indifferent_ite (indifferent_pure _) (ih _ _ _ _)

end Searching

end Looks

end Engine

end Reach
