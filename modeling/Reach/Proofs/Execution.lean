import Reach.Proofs.Bounds
import Reach.Proofs.Completeness
import Reach.Step

/-!
What it takes for an action of the engine to give a result: each of its parts gives one, in the world
that the part before it leaves behind.
-/

namespace Reach

theorem State.mem_freeVars {state : State} {v : Variable} : v ∈ state.freeVars ↔
    v ∈ state.term.vars ∨ ∃ atom ∈ state.constraint.atoms, v ∈ atom.vars := by
  rw [State.freeVars, List.mem_eraseDups, List.mem_append, List.mem_flatMap]

/-- A rule that is nothing but its sides and conditions. -/
structure Rule.Bare (rule : Rule) : Prop where
  lookups : rule.lookups = []
  freshConstants : rule.freshConstants = []
  freshVariables : rule.freshVariables = []

theorem Rule.Bare.renameApart {rule : Rule} (bare : rule.Bare) (fresh : Fresh) :
    (rule.renameApart fresh).1.Bare where
  lookups := by simp [Rule.renameApart, Rule.substitute, bare.lookups]
  freshConstants := by simp [Rule.renameApart, Rule.substitute, bare.freshConstants]
  freshVariables := by simp [Rule.renameApart, Rule.substitute, bare.freshVariables]

/-- The counter went forward, and the store answers as before. -/
structure World.Leads (sig : Signature) (world after : World) : Prop where
  forward : world.fresh.position ≤ after.fresh.position
  standard : world.store.Standard sig → after.store.Standard sig

theorem World.leads_refl (sig : Signature) (world : World) : world.Leads sig world :=
  ⟨Nat.le_refl _, id⟩

theorem World.Leads.trans {sig : Signature} {first second third : World}
    (before : first.Leads sig second) (later : second.Leads sig third) : first.Leads sig third :=
  ⟨Nat.le_trans before.forward later.forward, later.standard ∘ before.standard⟩

namespace Engine

variable {α β : Type} {context : Context} {world after : World}

/-- The action succeeds with this result and leaves this world behind. -/
def Gives (action : Engine α) (context : Context) (world : World) (value : α) (after : World) : Prop :=
  action.run context world = (.ok value, after)

theorem exists_gives {action : Engine α} {value : α} (ok : (action.run context world).1 = .ok value) :
    ∃ after, Gives action context world value after :=
  ⟨(action.run context world).2, Prod.ext ok rfl⟩

theorem Gives.unique {action : Engine α} {value value' : α} {after' : World}
    (gives : Gives action context world value after) (gives' : Gives action context world value' after') :
    value = value' ∧ after = after' := by
  obtain ⟨outcome, same⟩ := Prod.mk.inj (gives.symm.trans gives')
  exact ⟨Except.ok.inj outcome, same⟩

theorem gives_pure {value result : α} :
    Gives (pure value) context world result after ↔ result = value ∧ after = world := by
  constructor
  · intro gives
    cases gives
    exact ⟨rfl, rfl⟩
  · rintro ⟨rfl, rfl⟩
    rfl

theorem gives_throw {failure : Failure} {result : α} :
    ¬Gives (throw failure) context world result after := by
  intro gives
  cases gives

/-- The next action runs in the world that the first one leaves, unless the first one fails. -/
theorem run_bind (action : Engine α) (next : α → Engine β) (context : Context) (world : World) :
    (action >>= next).run context world =
      match action.run context world with
      | (.ok value, middle) => (next value).run context middle
      | (.error failure, middle) => (.error failure, middle) := by
  simp only [run, ReaderT.run_bind, ExceptT.run_bind, StateT.run_bind]
  generalize StateT.run (ExceptT.run (ReaderT.run action context)) world = outcome
  obtain ⟨_ | _, _⟩ := outcome <;> rfl

theorem gives_bind {action : Engine α} {next : α → Engine β} {result : β} :
    Gives (action >>= next) context world result after ↔
      ∃ value middle, Gives action context world value middle ∧
        Gives (next value) context middle result after := by
  unfold Gives
  rw [run_bind]
  constructor
  · intro gives
    split at gives
    · next value middle first => exact ⟨value, middle, first, gives⟩
    · cases gives
  · rintro ⟨value, middle, first, second⟩
    rw [first]
    exact second

/-- What the first item gives, if it gives anything, comes before what the others give. -/
theorem gives_filterMapM_cons {action : α → Engine (Option β)} {item : α} {items : List α}
    {results : List β} : Gives ((item :: items).filterMapM action) context world results after ↔
      ∃ first middle rest, Gives (action item) context world first middle ∧
        Gives (items.filterMapM action) context middle rest after ∧ results = first.toList ++ rest := by
  rw [List.filterMapM_cons, gives_bind]
  refine exists_congr fun first => exists_congr fun middle => ?_
  cases first with
  | none => exact ⟨fun ⟨here, later⟩ => ⟨results, here, later, rfl⟩,
      fun ⟨_, here, later, same⟩ => ⟨here, same ▸ later⟩⟩
  | some value =>
    simp only [gives_bind, gives_pure]
    exact ⟨fun ⟨here, rest, _, later, same, last⟩ => ⟨rest, here, last ▸ later, same⟩,
      fun ⟨rest, here, later, same⟩ => ⟨here, rest, after, later, same, rfl⟩⟩

theorem gives_read {value : Context} :
    Gives read context world value after ↔ value = context ∧ after = world :=
  @gives_pure _ context _ _ _ _

theorem gives_get {value : World} :
    Gives get context world value after ↔ value = world ∧ after = world := by
  constructor
  · intro gives
    cases gives
    exact ⟨rfl, rfl⟩
  · rintro ⟨rfl, rfl⟩
    rfl

theorem gives_signature {value : Signature} :
    Gives signature context world value after ↔
      value = context.definition.signature ∧ after = world :=
  @gives_pure _ context _ _ _ _

theorem gives_budget {value : Nat} :
    Gives budget context world value after ↔ value = context.config.budget ∧ after = world :=
  @gives_pure _ context _ _ _ _

theorem gives_ofExcept {outcome : Except Failure α} {value : α} :
    Gives (ofExcept outcome) context world value after ↔ outcome = .ok value ∧ after = world := by
  cases outcome with
  | error failure => exact ⟨fun gives => absurd gives gives_throw, nofun⟩
  | ok result =>
    rw [ofExcept, gives_pure]
    exact and_congr_left fun _ => ⟨fun same => same ▸ rfl, fun same => by cases same; rfl⟩

theorem gives_evaluate {term value : Term} :
    Gives (evaluate term) context world value after ↔
      context.definition.evaluate context.config.maxFunctionDepth term = .ok value ∧ after = world := by
  unfold evaluate
  simp only [gives_bind, gives_read, gives_ofExcept]
  exact ⟨fun ⟨_, _, ⟨rfl, rfl⟩, made⟩ => made, fun made => ⟨_, _, ⟨rfl, rfl⟩, made⟩⟩

theorem gives_lookups {rule : Rule} {s : Subst} {value : List Subst} :
    Gives (lookups rule s) context world value after ↔
      context.definition.lookups context.config.maxFunctionDepth rule s = .ok value ∧
        after = world := by
  unfold lookups
  simp only [gives_bind, gives_read, gives_ofExcept]
  exact ⟨fun ⟨_, _, ⟨rfl, rfl⟩, made⟩ => made, fun made => ⟨_, _, ⟨rfl, rfl⟩, made⟩⟩

theorem gives_ask {question : Signature → StateM Store (Except QueryError Bool)} {value : Bool} :
    Gives (ask question) context world value after ↔
      (question context.definition.signature world.store).1 = .ok value ∧
        after = { world with store := (question context.definition.signature world.store).2 } := by
  let asked := question context.definition.signature world.store
  have unfolded : (ask question).run context world =
      run (ofExcept (asked.1.mapError Failure.query)) context { world with store := asked.2 } := rfl
  unfold Gives
  rw [unfolded]
  refine gives_ofExcept.trans (and_congr_left fun _ => ?_)
  change asked.1.mapError Failure.query = .ok value ↔ asked.1 = .ok value
  cases asked.1 <;> simp [Except.mapError]

theorem gives_feasible {c : Constraint} {value : Bool} :
    Gives (feasible c) context world value after ↔
      (Store.feasible context.definition.signature c world.store).1 = .ok value ∧
        after = { world with
          store := (Store.feasible context.definition.signature c world.store).2 } :=
  gives_ask

theorem gives_draw {drawing : Fresh → α × Fresh} {value : α} :
    Gives (draw drawing) context world value after ↔
      value = (drawing world.fresh).1 ∧ after = { world with fresh := (drawing world.fresh).2 } := by
  constructor
  · intro gives
    cases gives
    exact ⟨rfl, rfl⟩
  · rintro ⟨rfl, rfl⟩
    rfl

theorem gives_setFresh {fresh : Fresh} {value : Unit} :
    Gives (setFresh fresh) context world value after ↔ after = { world with fresh } := by
  rw [setFresh, gives_draw]
  exact and_iff_right rfl

theorem gives_renameApart {rule value : Rule} :
    Gives (renameApart rule) context world value after ↔
      value = (rule.renameApart world.fresh).1 ∧
        after = { world with fresh := (rule.renameApart world.fresh).2 } :=
  gives_draw

section Successors

variable {rule : Rule} {state : State} {fit : Fit} {s : Subst} {sig : Signature}
  {found result : List Successor}

/-- The condition under which a rule applies, once its precondition is evaluated. -/
def guard (fit : Fit) (s : Subst) (requires : Term) : Constraint :=
  (residualEquations s fit.residual).conjoin requires

/-- What is known of a state to which a rule applies. -/
def narrowed (state : State) (fit : Fit) (s : Subst) (requires : Term) : Constraint :=
  (state.constraint.substitute fit.narrowing).and (guard fit s requires)

/-- What is known of the successor, once the postcondition is evaluated. -/
def assumed (sig : Signature) (state : State) (fit : Fit) (s : Subst) (requires ensures : Term) :
    Constraint :=
  ((narrowed state fit s requires).conjoin ensures).simplify sig

theorem gives_bindFresh (bare : rule.Bare) {value : Subst} :
    Gives (bindFresh rule s) context world value after ↔ value = s ∧ after = world := by
  rw [bindFresh, bare.freshConstants, bare.freshVariables, List.foldlM_nil, gives_bind]
  simp only [gives_pure, List.foldlM_nil]
  exact ⟨fun ⟨_, _, ⟨rfl, rfl⟩, last⟩ => last, fun last => ⟨_, _, ⟨rfl, rfl⟩, last⟩⟩

/-- The successor, once its parts are evaluated, unless its constraint is contradictory. -/
def produced (context : Context) (rule : Rule) (state : State) (fit : Fit) (s : Subst)
    (requires term ensures : Term) : Option Successor :=
  let constraint := assumed context.definition.signature state fit s requires ensures
  if constraint.isFalse then none
  else some {
    state := { term, constraint := constraint.project term.freeVars }
    rule := rule.label
    transition := context.config.isTransition rule
    narrowing := fit.narrowing
    condition := (narrowingEquations fit.narrowing).and (guard fit s requires) }

/-- A successor comes out if the constraint is found feasible and stays consistent. -/
theorem gives_successor? (bare : rule.Bare) {outcome : Option Successor} :
    Gives (successor? rule state fit s) context world outcome after ↔
      ∃ requires answer, context.definition.evaluate context.config.maxFunctionDepth
          (s.apply rule.requires) = .ok requires ∧
        Gives (feasible (narrowed state fit s requires)) context world answer after ∧
        if answer then
          ∃ term ensures, context.definition.evaluate context.config.maxFunctionDepth
              (s.apply rule.rhs) = .ok term ∧
            context.definition.evaluate context.config.maxFunctionDepth (s.apply rule.ensures) =
              .ok ensures ∧
            outcome = produced context rule state fit s requires term ensures
        else outcome = none := by
  unfold successor?
  simp only [monadLift_self, bindFresh_eq, gives_bind, gives_signature, gives_evaluate]
  constructor
  · intro ⟨_, _, ⟨rfl, rfl⟩, requires, _, ⟨evaluated, rfl⟩, answer, middle, asked, gives⟩
    cases answer with
    | false =>
      obtain ⟨rfl, rfl⟩ := gives_pure.mp gives
      exact ⟨requires, false, evaluated, asked, rfl⟩
    | true =>
      simp only [Bool.not_true, Bool.false_eq_true, ↓reduceIte, gives_bind, gives_bindFresh bare,
        gives_evaluate] at gives
      obtain ⟨_, _, ⟨rfl, rfl⟩, term, _, ⟨target, rfl⟩, ensures, _, ⟨promised, rfl⟩, gives⟩ := gives
      split at gives
      · next contradictory =>
        obtain ⟨rfl, rfl⟩ := gives_pure.mp gives
        exact ⟨requires, true, evaluated, asked, term, ensures, target, promised,
          (if_pos contradictory).symm⟩
      · next consistent =>
        simp only [gives_bind, gives_read] at gives
        obtain ⟨_, _, ⟨rfl, rfl⟩, gives⟩ := gives
        obtain ⟨rfl, rfl⟩ := gives_pure.mp gives
        exact ⟨requires, true, evaluated, asked, term, ensures, target, promised,
          (if_neg consistent).symm⟩
  · intro ⟨requires, answer, evaluated, asked, rest⟩
    refine ⟨_, _, ⟨rfl, rfl⟩, requires, _, ⟨evaluated, rfl⟩, answer, after, asked, ?_⟩
    cases answer with
    | false => exact gives_pure.mpr ⟨rest, rfl⟩
    | true =>
      obtain ⟨term, ensures, target, promised, made⟩ := rest
      simp only [Bool.not_true, Bool.false_eq_true, ↓reduceIte, gives_bind, gives_bindFresh bare,
        gives_evaluate]
      refine ⟨_, _, ⟨rfl, rfl⟩, term, _, ⟨target, rfl⟩, ensures, _, ⟨promised, rfl⟩, ?_⟩
      split
      · next contradictory => exact gives_pure.mpr ⟨made.trans (if_pos contradictory), rfl⟩
      · next consistent =>
        simp only [gives_bind, gives_read]
        exact ⟨_, _, ⟨rfl, rfl⟩, gives_pure.mpr ⟨made.trans (if_neg consistent), rfl⟩⟩

/-- Without lookups a fit gives at most one successor, however many there may be. -/
theorem gives_addFit (bare : rule.Bare) {limit : Option Nat} :
    Gives (addFit rule state fit limit found) context world result after ↔
      ∃ outcome, Gives (successor? rule state fit fit.subst) context world outcome after ∧
        result = found ++ outcome.toList := by
  unfold addFit
  simp only [monadLift_self, gives_bind, gives_lookups]
  rw [Definition.lookups, bare.lookups, Evaluation.lookups]
  constructor
  · intro ⟨bindings, _, ⟨looked, rfl⟩, gives⟩
    cases looked
    unfold addSuccessors at gives
    obtain ⟨outcome, middle, made, gives⟩ := gives_bind.mp gives
    cases outcome with
    | none =>
      obtain ⟨rfl, rfl⟩ := gives_pure.mp gives
      exact ⟨none, made, (List.append_nil _).symm⟩
    | some next =>
      dsimp only [addSuccessors] at gives
      rw [ite_self] at gives
      obtain ⟨rfl, rfl⟩ := gives_pure.mp gives
      exact ⟨some next, made, rfl⟩
  · intro ⟨outcome, made, appended⟩
    refine ⟨_, _, ⟨rfl, rfl⟩, ?_⟩
    unfold addSuccessors
    refine gives_bind.mpr ⟨outcome, after, made, ?_⟩
    cases outcome with
    | none => exact gives_pure.mpr ⟨appended.trans (List.append_nil _), rfl⟩
    | some next =>
      dsimp only [addSuccessors]
      rw [ite_self]
      exact gives_pure.mpr ⟨appended, rfl⟩

theorem leads_of_gives_feasible {c : Constraint} {answer : Bool}
    (gives : Gives (feasible c) context world answer after) :
    world.Leads context.definition.signature after ∧ after.fresh = world.fresh := by
  obtain ⟨_, rfl⟩ := gives_feasible.mp gives
  exact ⟨⟨Nat.le_refl _, fun standard => standard.feasible c⟩, rfl⟩

/-- A unifier as a way to apply a rule. -/
def fitOf (state : State) (unifier : Unifier) : Fit :=
  { subst := unifier.subst
    residual := unifier.residual
    narrowing := unifier.subst.restrict fun v => state.freeVars.contains v }

/-- Adds the successors under the unifiers, until there are enough. -/
def addUnifiers (rule : Rule) (state : State) (limit : Option Nat) :
    Unifiers → List Successor → Engine (List Successor) :=
  visit (fun found => full limit found.length) (addUnifier rule state limit)

theorem addUnifiers_found (limit : Option Nat) (unifier : Unifier) (fresh : Fresh) (more : Fresh → Unifiers) :
    addUnifiers rule state limit (.found unifier fresh more) found = (do
      setFresh fresh
      let found ← addFit rule state (fitOf state unifier) limit found
      if full limit found.length then return found
      else addUnifiers rule state limit (more (← get).fresh) found) :=
  rfl

/-- Every unifier that is delivered has its turn, what comes of it is kept, and nothing else comes in. -/
theorem of_gives_addUnifiers (bare : rule.Bare) {unifiers : Unifiers}
    (gives : Gives (addUnifiers rule state none unifiers found) context world result after) :
    unifiers.Ends after.fresh ∧
      (world.store.Standard context.definition.signature →
        after.store.Standard context.definition.signature) ∧
      (∀ next ∈ found, next ∈ result) ∧
      (world.store.Standard context.definition.signature → ∀ unifier, unifiers.Delivers unifier →
        ∃ first second outcome, first.store.Standard context.definition.signature ∧
          Gives (successor? rule state (fitOf state unifier) unifier.subst) context first outcome
            second ∧ ∀ next ∈ outcome, next ∈ result) ∧
      ∀ next ∈ result, next ∈ found ∨ ∃ unifier first second, unifiers.Delivers unifier ∧
        (world.store.Standard context.definition.signature →
          first.store.Standard context.definition.signature) ∧
        Gives (successor? rule state (fitOf state unifier) unifier.subst) context first (some next)
          second := by
  induction unifiers generalizing world found with
  | finished fresh =>
    simp only [addUnifiers, visit, gives_bind, gives_pure, gives_setFresh] at gives
    obtain ⟨_, _, rfl, rfl, rfl⟩ := gives
    exact ⟨.finished, id, fun _ => id, fun _ _ => nofun, fun _ => .inl⟩
  | cut fresh =>
    simp only [addUnifiers, visit, gives_bind] at gives
    obtain ⟨_, _, _, gives⟩ := gives
    exact absurd gives gives_throw
  | found unifier fresh more ih =>
    simp only [addUnifiers_found, gives_bind, gives_setFresh] at gives
    obtain ⟨_, _, rfl, added, middle, fitted, gives⟩ := gives
    obtain ⟨outcome, made, rfl⟩ := (gives_addFit bare).mp fitted
    obtain ⟨_, _, _, asked, _⟩ := (gives_successor? bare).mp made
    obtain ⟨leads, counter⟩ := leads_of_gives_feasible asked
    simp only [full, Option.any_none, Bool.false_eq_true, ↓reduceIte, gives_bind, gives_get] at gives
    obtain ⟨_, _, ⟨rfl, rfl⟩, gives⟩ := gives
    rw [counter] at gives
    obtain ⟨ends, standard, kept, turns, origin⟩ := ih fresh gives
    refine ⟨.found _ _ ends, standard ∘ leads.standard, fun next member => ?_, fun before other => ?_,
      fun next member => ?_⟩
    · exact kept next (List.mem_append_left _ member)
    · intro delivers
      cases delivers with
      | here => exact ⟨{ world with fresh }, _, outcome, before, made, fun next member =>
          kept next (List.mem_append_right _ (Option.mem_toList.mpr member))⟩
      | later _ _ delivers => exact turns (leads.standard before) other delivers
    · rcases origin next member with old | ⟨other, first, second, delivers, onward, given⟩
      · rcases List.mem_append.mp old with old | new
        · exact .inl old
        · obtain rfl := Option.mem_toList.mp new
          exact .inr ⟨unifier, { world with fresh }, _, .here _ _, id, made⟩
      · exact .inr ⟨other, first, second, .later _ _ delivers, onward ∘ leads.standard, given⟩

theorem of_gives_unifiers {a b : Term} {value : Unifiers}
    (gives : Gives (unifiers a b) context world value after) :
    ∃ explore, unify context.definition.signature context.config.budget a b = .ok explore ∧
      value = explore world.fresh ∧ after = world := by
  unfold unifiers at gives
  simp only [gives_bind, gives_signature, gives_budget] at gives
  obtain ⟨_, _, ⟨rfl, rfl⟩, _, _, ⟨rfl, rfl⟩, gives⟩ := gives
  split at gives
  · next explore started =>
    simp only [gives_bind, gives_get] at gives
    obtain ⟨_, _, ⟨rfl, rfl⟩, gives⟩ := gives
    obtain ⟨rfl, rfl⟩ := gives_pure.mp gives
    exact ⟨explore, started, rfl, rfl⟩
  · exact absurd gives gives_throw

/-- A rule is applied by unifying a copy of it with the state. -/
theorem of_gives_applyRule (gives : Gives (applyRule rule state .unifying none) context world result after) :
    (rule.lhs.sort.compatible state.term.sort = false ∧ result = [] ∧ after = world) ∨
      ∃ explore, unify context.definition.signature context.config.budget
          (rule.renameApart world.fresh).1.lhs state.term = .ok explore ∧
        Gives (addUnifiers (rule.renameApart world.fresh).1 state none
          (explore (rule.renameApart world.fresh).2) []) context
          { world with fresh := (rule.renameApart world.fresh).2 } result after := by
  unfold applyRule at gives
  dsimp only at gives
  split at gives
  · simp only [copy_eq, forUnifiers_eq, gives_bind, gives_renameApart] at gives
    obtain ⟨_, _, ⟨rfl, rfl⟩, found, _, unified, gives⟩ := gives
    obtain ⟨explore, started, rfl, rfl⟩ := of_gives_unifiers unified
    exact .inr ⟨explore, started, gives⟩
  · next incompatible =>
    exact .inl ⟨by simpa using incompatible, gives_pure.mp gives⟩

theorem position_renameApart (rule : Rule) (fresh : Fresh) :
    fresh.position ≤ (rule.renameApart fresh).2.position := by
  have position := Rule.position_renameOnto rule.allVars .empty fresh
  exact (Nat.le_add_right _ _).trans (Nat.le_of_eq position.symm)

theorem position_of_ends {a b : Term} {budget : Nat} {explore : Fresh → Unifiers} {fresh last : Fresh}
    (started : unify sig budget a b = .ok explore) (ends : (explore fresh).Ends last) :
    fresh.position ≤ last.position := by
  unfold unify at started
  split at started
  · cases started
    obtain ⟨middle, forward, rest, _⟩ := Unification.passes_explore ends
    cases rest
    exact forward
  · cases started

theorem leads_of_gives_applyRule (bare : rule.Bare)
    (gives : Gives (applyRule rule state .unifying none) context world result after) :
    world.Leads context.definition.signature after := by
  rcases of_gives_applyRule gives with ⟨_, _, rfl⟩ | ⟨explore, started, gives⟩
  · exact World.leads_refl _ _
  · obtain ⟨ends, standard, _⟩ := of_gives_addUnifiers (bare.renameApart world.fresh) gives
    exact ⟨(position_renameApart rule world.fresh).trans (position_of_ends started ends), standard⟩

/-- Items that are paired have a partner each. -/
theorem exists_of_forall₂ {related : α → β → Prop} {items : List α} {results : List β}
    (paired : List.Forall₂ related items results) {item : α} (member : item ∈ items) :
    ∃ value ∈ results, related item value := by
  induction paired with
  | nil => cases member
  | cons here _ ih =>
    rcases List.mem_cons.mp member with rfl | member
    · exact ⟨_, List.mem_cons_self, here⟩
    · exact (ih member).imp fun value => And.imp_left (List.mem_cons_of_mem _)

/-- Each item of a list has its turn, in a world between the first and the last. -/
theorem turns_of_gives_mapM {leads : World → World → Prop} (refl : ∀ world, leads world world)
    (trans : ∀ {first second third}, leads first second → leads second third → leads first third)
    {action : α → Engine β} {items : List α} {results : List β}
    (each : ∀ item ∈ items, ∀ world value after, Gives (action item) context world value after →
      leads world after)
    (gives : Gives (items.mapM action) context world results after) :
    leads world after ∧ List.Forall₂ (fun item value => ∃ first second, leads world first ∧
      Gives (action item) context first value second ∧ leads second after) items results := by
  induction items generalizing world results with
  | nil =>
    rw [List.mapM_nil] at gives
    obtain ⟨rfl, rfl⟩ := gives_pure.mp gives
    exact ⟨refl _, .nil⟩
  | cons item rest ih =>
    obtain ⟨here, later⟩ := List.forall_mem_cons.mp each
    rw [List.mapM_cons] at gives
    simp only [gives_bind] at gives
    obtain ⟨value, middle, made, values, last, others, gives⟩ := gives
    obtain ⟨rfl, rfl⟩ := gives_pure.mp gives
    obtain ⟨onward, turns⟩ := ih later others
    have begun := here world value middle made
    refine ⟨trans begun onward, .cons ⟨world, middle, refl _, made, onward⟩ (turns.imp ?_)⟩
    exact fun _ _ ⟨first, second, before, given, behind⟩ =>
      ⟨first, second, trans begun before, given, behind⟩

theorem of_gives_mapM {action : α → Engine β} {items : List α} {results : List β}
    (leads : ∀ item ∈ items, ∀ world value after, Gives (action item) context world value after →
      world.Leads sig after)
    (gives : Gives (items.mapM action) context world results after) :
    world.Leads sig after ∧ ∀ item ∈ items, ∃ first second, ∃ value ∈ results,
      world.Leads sig first ∧ Gives (action item) context first value second ∧
        second.Leads sig after := by
  obtain ⟨onward, turns⟩ := turns_of_gives_mapM (World.leads_refl sig) World.Leads.trans leads gives
  refine ⟨onward, fun item member => ?_⟩
  obtain ⟨value, listed, first, second, given⟩ := exists_of_forall₂ turns member
  exact ⟨first, second, value, listed, given⟩

theorem exists_of_gives_mapM {action : α → Engine β} {items : List α} {results : List β}
    (gives : Gives (items.mapM action) context world results after) {value : β}
    (member : value ∈ results) :
    ∃ item ∈ items, ∃ first second, Gives (action item) context first value second := by
  obtain ⟨_, turns⟩ := @turns_of_gives_mapM _ _ context world after (fun _ _ => True)
    (fun _ => trivial) (fun _ _ => trivial) action items results (fun _ _ _ _ _ _ => trivial) gives
  obtain ⟨item, listed, first, second, _, given, _⟩ := exists_of_forall₂ turns.flip member
  exact ⟨item, listed, first, second, given⟩

/-- The rules that a step tries. -/
def tried (d : Definition) : Term → List Rule
  | .var _ => d.rules
  | term => d.candidates term

/-- The rules that a step considers. -/
def considered (d : Definition) (mode : Mode) (term : Term) : List Rule :=
  match mode with
  | .matching => d.candidates term
  | .unifying => tried d term

theorem mem_rules_of_mem_candidates {d : Definition} {term : Term} (member : rule ∈ d.candidates term) :
    rule ∈ d.rules := by
  obtain ⟨position, _, found⟩ := List.mem_filterMap.mp member
  exact List.mem_of_getElem? found

theorem mem_rules_of_mem_tried {d : Definition} {term : Term} (member : rule ∈ tried d term) :
    rule ∈ d.rules := by
  cases term with
  | var v => exact member
  | _ => exact mem_rules_of_mem_candidates member

theorem mem_rules_of_mem_considered {d : Definition} {mode : Mode} {term : Term}
    (member : rule ∈ considered d mode term) : rule ∈ d.rules := by
  cases mode with
  | matching => exact mem_rules_of_mem_candidates member
  | unifying => exact mem_rules_of_mem_tried member

theorem candidates_eq (term : Term) (mode : Mode) :
    candidates term mode = do return considered (← read).definition mode term := by
  cases mode with
  | matching => rfl
  | unifying => cases term <;> rfl

theorem gives_candidates {term : Term} {mode : Mode} {value : List Rule} :
    Gives (candidates term mode) context world value after ↔
      value = considered context.definition mode term ∧ after = world := by
  rw [candidates_eq]
  simp only [gives_bind, gives_read, gives_pure]
  exact ⟨fun ⟨_, _, ⟨rfl, rfl⟩, made⟩ => made, fun made => ⟨_, _, ⟨rfl, rfl⟩, made⟩⟩

theorem gives_step {mode : Mode} : Gives (step state mode) context world result after ↔
    ∃ results, Gives ((considered context.definition mode state.term).mapM fun rule =>
      applyRule rule state mode none) context world results after ∧ result = results.flatten := by
  unfold step
  simp only [monadLift_self, gives_bind, gives_candidates, gives_pure]
  constructor
  · rintro ⟨_, _, ⟨rfl, rfl⟩, results, _, made, rfl, rfl⟩
    exact ⟨results, made, rfl⟩
  · rintro ⟨results, made, rfl⟩
    exact ⟨_, _, ⟨rfl, rfl⟩, results, after, made, rfl, rfl⟩

/-- What is left of a state has its term, and a constraint on that. -/
theorem of_gives_remainder {rest : State}
    (gives : Gives (remainder state found) context world (some rest) after) :
    ∃ c : Constraint, rest = { state with
      constraint := (c.simplify context.definition.signature).project state.term.freeVars } := by
  unfold remainder at gives
  split at gives
  · cases (gives_pure.mp gives).1
  · next c _ =>
    obtain ⟨answer, _, _, gives⟩ := gives_bind.mp gives
    split at gives
    · cases (gives_pure.mp gives).1
    · obtain ⟨_, _, asked, gives⟩ := gives_bind.mp gives
      obtain ⟨rfl, _⟩ := gives_signature.mp asked
      exact ⟨c, Option.some.inj (gives_pure.mp gives).1⟩

end Successors

end Engine

end Reach
