import Reach.Proofs.Groundness

/-!
States that differ in what is known of them. Where a state is a ground value and its constraint says nothing,
the constraint never decides whether a closed rule applies: two such states with one term have the same
candidates, the same matches and successors with one term, and their successors are such states again.
-/

namespace Reach

/-- Every rule is closed, whether it is a step or defines a function. -/
structure Definition.Closed (d : Definition) : Prop where
  rules : ∀ rule ∈ d.rules, rule.Closed
  functions : ∀ label, ∀ rule ∈ d.functionRules label, rule.Closed

/-- Two states with the same ground value as their term, about which their constraints say nothing. -/
structure State.Resembles (context : Context) (first second : State) : Prop where
  term : second.term = first.term
  ground : first.term.ground = true
  value : context.definition.evaluate context.config.maxFunctionDepth first.term = .ok first.term
  left : first.constraint.Idle context.definition.signature
  right : second.constraint.Idle context.definition.signature

/-- A state resembles the one that its term stands for. -/
theorem State.Resembles.restart {context : Context} {state : State}
    (resembles : state.Resembles context state) : state.Resembles context { term := state.term } :=
  ⟨rfl, resembles.ground, resembles.value, resembles.left, Constraint.idle_top⟩

theorem State.Resembles.restarted {context : Context} {first second : State}
    (resembles : first.Resembles context second) :
    State.Resembles context { term := first.term } second :=
  ⟨resembles.term, resembles.ground, resembles.value, Constraint.idle_top, resembles.right⟩

namespace Engine

variable {α β γ δ : Type} {context : Context}

/-- With standard stores the second action succeeds where the first one does, with a result that is related
to that of the first one. -/
def Simulates (context : Context) (related : α → β → Prop) (first : Engine α) (second : Engine β) : Prop :=
  ∀ world other, world.store.Standard context.definition.signature →
    other.store.Standard context.definition.signature → ∀ value after,
    Gives first context world value after → after.store.Standard context.definition.signature ∧
      ∃ value' after', Gives second context other value' after' ∧
        after'.store.Standard context.definition.signature ∧ related value value'

section Combining

variable {related : α → β → Prop} {related' : γ → δ → Prop} {first : Engine α} {second : Engine β}

theorem simulates_pure {value : α} {value' : β} (relates : related value value') :
    Simulates context related (pure value) (pure value') := by
  intro world other standard standard' result after gives
  obtain ⟨rfl, rfl⟩ := gives_pure.mp gives
  exact ⟨standard, value', other, gives_pure.mpr ⟨rfl, rfl⟩, standard', relates⟩

theorem simulates_throw (failure : Failure) (second : Engine β) :
    Simulates context related (throw failure) second :=
  fun _ _ _ _ _ _ gives => absurd gives gives_throw

theorem simulates_bind {next : α → Engine γ} {next' : β → Engine δ}
    (simulates : Simulates context related first second)
    (later : ∀ value value', related value value' → Simulates context related' (next value) (next' value')) :
    Simulates context related' (first >>= next) (second >>= next') := by
  intro world other standard standard' result after gives
  obtain ⟨value, middle, begun, gives⟩ := gives_bind.mp gives
  obtain ⟨onward, value', middle', begun', onward', relates⟩ :=
    simulates world other standard standard' value middle begun
  obtain ⟨last, result', after', given, last', relates'⟩ :=
    later value value' relates middle middle' onward onward' result after gives
  exact ⟨last, result', after', gives_bind.mpr ⟨value', middle', begun', given⟩, last', relates'⟩

theorem simulates_read :
    Simulates context (fun one other => one = context ∧ other = context) (read : Engine Context) read := by
  intro world other standard standard' result after gives
  obtain ⟨rfl, rfl⟩ := gives_read.mp gives
  exact ⟨standard, _, other, gives_read.mpr ⟨rfl, rfl⟩, standard', rfl, rfl⟩

end Combining

/-- Successors that resemble each other. -/
abbrev Follow (context : Context) : Successor → Successor → Prop :=
  fun next next' => next.state.Resembles context next'.state

section Matching

variable {rule : Rule} {state first second : State} {s : Subst} {requires term ensures : Term}

/-- What is known of a state to which a rule applies says nothing, if the precondition is not refuted. -/
theorem idle_narrowed {sig : Signature} (idle : state.constraint.Idle sig)
    (decided : Constraint.Decided sig requires) (passed : Constraint.refuted requires = false) :
    (narrowed state { subst := s } s requires).Idle sig :=
  (idle.substitute rfl).and (Constraint.idle_top.conjoin decided passed)

/-- A refuted precondition leaves a contradiction. -/
theorem narrowed_of_refuted (failed : Constraint.refuted requires = true) :
    narrowed state { subst := s } s requires = .bottom := by
  have contradictory : guard { subst := s } s requires = .bottom :=
    Constraint.conjoin_of_refuted _ failed
  rw [narrowed, contradictory]
  rfl

/-- Whether a rule applies depends on its precondition only. -/
theorem feasible_narrowed {sig : Signature} {store : Store} (standard : store.Standard sig)
    (idle : state.constraint.Idle sig) (decided : Constraint.Decided sig requires) :
    (Store.feasible sig (narrowed state { subst := s } s requires) store).1 =
      .ok !Constraint.refuted requires := by
  cases failed : Constraint.refuted requires with
  | true =>
    rw [narrowed_of_refuted failed, Store.feasible_eq]
    rfl
  | false => exact (idle_narrowed idle decided failed).feasible standard

/-- A refuted postcondition leaves no successor. -/
theorem produced_of_refuted (failed : Constraint.refuted ensures = true) :
    produced context rule state { subst := s } s requires term ensures = none := by
  have contradictory : assumed context.definition.signature state { subst := s } s requires ensures =
      .bottom := by
    rw [assumed, Constraint.conjoin_of_refuted _ failed]
    rfl
  rw [produced, contradictory]
  rfl

/-- Otherwise nothing is known of the successor, if nothing is known of the state. -/
theorem exists_produced (idle : state.constraint.Idle context.definition.signature)
    (decided : Constraint.Decided context.definition.signature requires)
    (passed : Constraint.refuted requires = false)
    (decided' : Constraint.Decided context.definition.signature ensures)
    (passed' : Constraint.refuted ensures = false) :
    ∃ next, produced context rule state { subst := s } s requires term ensures = some next ∧
      next.state.term = term ∧ next.state.constraint.Idle context.definition.signature := by
  have left : (assumed context.definition.signature state { subst := s } s requires ensures).Idle
      context.definition.signature :=
    ((idle_narrowed idle decided passed).conjoin decided' passed').simplify
  have consistent : (assumed context.definition.signature state { subst := s } s requires
      ensures).isFalse = false := left.consistent
  exact ⟨_, if_neg (by simp [consistent]), rfl, left.project _⟩

/-- The successors of two states that resemble each other, with one ground value as their term. -/
theorem rel_produced (resembles : first.Resembles context second) (ground : term.ground = true)
    (value : context.definition.evaluate context.config.maxFunctionDepth term = .ok term)
    (decided : Constraint.Decided context.definition.signature requires)
    (passed : Constraint.refuted requires = false)
    (decided' : Constraint.Decided context.definition.signature ensures) :
    Option.Rel (Follow context) (produced context rule first { subst := s } s requires term ensures)
      (produced context rule second { subst := s } s requires term ensures) := by
  cases passed' : Constraint.refuted ensures with
  | true =>
    rw [produced_of_refuted passed', produced_of_refuted passed']
    exact .none
  | false =>
    obtain ⟨next, made, same, idle⟩ := @exists_produced context rule first s requires term ensures
      resembles.left decided passed decided' passed'
    obtain ⟨next', made', same', idle'⟩ := @exists_produced context rule second s requires term ensures
      resembles.right decided passed decided' passed'
    rw [made, made']
    exact .some ⟨same'.trans same.symm, same.symm ▸ ground, same.symm ▸ value, idle, idle'⟩

/-- What comes of a match does not depend on what is known of the state. -/
theorem simulates_successor? (definition : context.definition.Closed) (closed : rule.Closed)
    (resembles : first.Resembles context second)
    (matched : s ∈ (Matching.enumerate rule.lhs first.term).toList) :
    Simulates context (Option.Rel (Follow context))
      (successor? rule first { subst := s } s) (successor? rule second { subst := s } s) := by
  intro world other standard standard' outcome after gives
  obtain ⟨requires, answer, evaluated, asked, rest⟩ := (gives_successor? closed.toBare).mp gives
  obtain ⟨answered, rfl⟩ := gives_feasible.mp asked
  have grounds {term : Term} (within : ∀ v ∈ term.vars, v ∈ rule.lhs.vars) :
      (s.apply term).ground = true := Matching.ground_apply_of_mem resembles.ground matched within
  have decided := Definition.decided_of_evaluateWithin definition.functions
    (grounds fun v => closed.requires) evaluated
  rw [feasible_narrowed standard resembles.left decided] at answered
  obtain rfl : (!Constraint.refuted requires) = answer := Except.ok.inj answered
  have asked' : Gives (feasible (narrowed second { subst := s } s requires)) context other
      (!Constraint.refuted requires) _ :=
    gives_feasible.mpr ⟨feasible_narrowed standard' resembles.right decided, rfl⟩
  refine ⟨standard.feasible _, ?_⟩
  cases failed : Constraint.refuted requires with
  | true =>
    rw [failed] at rest asked'
    obtain rfl : outcome = none := rest
    exact ⟨none, _, (gives_successor? closed.toBare).mpr ⟨requires, false, evaluated, asked', rfl⟩,
      standard'.feasible _, .none⟩
  | false =>
    rw [failed] at rest asked'
    obtain ⟨term, ensures, target, promised, rfl⟩ := rest
    have decided' := Definition.decided_of_evaluateWithin definition.functions
      (grounds fun v => closed.ensures) promised
    have ground := Definition.ground_of_evaluateWithin definition.functions
      (grounds fun v => closed.rhs) target
    exact ⟨_, _, (gives_successor? closed.toBare).mpr ⟨requires, true, evaluated, asked', term, ensures,
      target, promised, rfl⟩, standard'.feasible _,
      rel_produced resembles ground (Definition.evaluateWithin_idempotent target) decided failed decided'⟩

private theorem simulates_addFit (definition : context.definition.Closed) (closed : rule.Closed)
    (resembles : first.Resembles context second)
    (matched : s ∈ (Matching.enumerate rule.lhs first.term).toList) (limit : Option Nat)
    {found found' : List Successor} (alike : List.Forall₂ (Follow context) found found') :
    Simulates context (List.Forall₂ (Follow context)) (addFit rule first { subst := s } limit found)
      (addFit rule second { subst := s } limit found') := by
  intro world other standard standard' result after gives
  obtain ⟨outcome, made, rfl⟩ := (gives_addFit closed.toBare).mp gives
  obtain ⟨onward, outcome', after', made', onward', follow⟩ :=
    simulates_successor? definition closed resembles matched world other standard standard' _ _ made
  refine ⟨onward, _, after', (gives_addFit closed.toBare).mpr ⟨outcome', made', rfl⟩, onward', ?_⟩
  refine List.rel_append alike ?_
  cases follow with
  | none => exact .nil
  | some follow => exact .cons follow .nil

private theorem simulates_addMatches (definition : context.definition.Closed) (closed : rule.Closed)
    (resembles : first.Resembles context second) (limit : Option Nat) {choices : Enumeration Subst}
    (each : ∀ s ∈ choices.toList, s ∈ (Matching.enumerate rule.lhs first.term).toList)
    {found found' : List Successor} (alike : List.Forall₂ (Follow context) found found') :
    Simulates context (List.Forall₂ (Follow context)) (addMatches rule first limit choices found)
      (addMatches rule second limit choices found') := by
  induction choices generalizing found found' with
  | nil => exact simulates_pure alike
  | cons s more ih =>
    obtain ⟨here, later⟩ := List.forall_mem_cons.mp each
    refine simulates_bind (simulates_addFit definition closed resembles here limit alike)
      fun found found' alike => ?_
    rw [alike.length_eq]
    split
    · exact simulates_pure alike
    · exact ih () later alike

theorem simulates_applyRule (definition : context.definition.Closed) (closed : rule.Closed)
    (resembles : first.Resembles context second) (limit : Option Nat) :
    Simulates context (List.Forall₂ (Follow context)) (applyRule rule first .matching limit)
      (applyRule rule second .matching limit) := by
  unfold applyRule
  rw [resembles.term]
  exact simulates_addMatches definition closed resembles limit (fun _ => id) .nil

private theorem rel_getLast? {α β : Type} {related : α → β → Prop} {items : List α} {items' : List β}
    (alike : List.Forall₂ related items items') :
    Option.Rel related items.getLast? items'.getLast? := by
  induction alike with
  | nil => exact .none
  | cons here later ih =>
    cases later with
    | nil => exact .some here
    | cons _ _ => simpa only [List.getLast?_cons_cons] using ih

private theorem simulates_firstOf (definition : context.definition.Closed)
    (resembles : first.Resembles context second) {rules : List Rule}
    (closed : ∀ rule ∈ rules, rule.Closed) :
    Simulates context (Option.Rel (Follow context)) (firstOf first .matching rules)
      (firstOf second .matching rules) := by
  induction rules with
  | nil => exact simulates_pure .none
  | cons rule rest ih =>
    obtain ⟨here, later⟩ := List.forall_mem_cons.mp closed
    refine simulates_bind (simulates_applyRule definition here resembles (some 1))
      fun found found' alike => ?_
    have last := rel_getLast? alike
    generalize found.getLast? = one, found'.getLast? = other at last
    cases last with
    | none => exact ih later
    | some follow => exact simulates_pure (.some follow)

/-- The candidates are those of the term. -/
theorem simulates_candidates (resembles : first.Resembles context second) :
    Simulates context (fun rules rules' => rules' = rules ∧ ∀ rule ∈ rules, rule ∈ context.definition.rules)
      (candidates first.term .matching) (candidates second.term .matching) := by
  intro world other standard standard' rules after gives
  obtain ⟨rfl, rfl⟩ := gives_candidates.mp gives
  exact ⟨standard, _, other, gives_candidates.mpr ⟨rfl, rfl⟩, standard', by rw [resembles.term],
    fun rule => mem_rules_of_mem_considered⟩

theorem simulates_first? (definition : context.definition.Closed)
    (resembles : first.Resembles context second) (keep : Rule → Bool) :
    Simulates context (Option.Rel (Follow context)) (first? first .matching keep)
      (first? second .matching keep) := by
  refine simulates_bind (simulates_candidates resembles) fun rules _ ⟨same, known⟩ => ?_
  subst same
  exact simulates_firstOf definition resembles fun rule member =>
    definition.rules rule (known rule (List.mem_filter.mp member).1)

end Matching

theorem Simulates.self {action : Engine α} {related : α → α → Prop} {world after : World} {value : α}
    (simulates : Simulates context related action action)
    (standard : world.store.Standard context.definition.signature)
    (gives : Gives action context world value after) :
    after.store.Standard context.definition.signature ∧ related value value := by
  obtain ⟨onward, value', after', gives', _, relates⟩ :=
    simulates world world standard standard value after gives
  cases gives.symm.trans gives'
  exact ⟨onward, relates⟩

end Engine

end Reach
