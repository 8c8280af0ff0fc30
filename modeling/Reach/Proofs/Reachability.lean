import Reach.Proofs.Exploration
import Reach.Proofs.Exposure
import Reach.Proofs.Groundness
import Reach.Proofs.Modes
import Reach.Proofs.SubjectReduction

/-!
Search on ground states. Where a step leads from a state without variables depends neither on the names
that are drawn nor on what the store was asked before, so that the states have one relation of steps, and
a search finds what this relation has of the states that it visits. It reports the states that the
relation reaches with no more transitions than the limit allows.
-/

namespace Reach

/-- Where a state leads when a step is taken from it, with a store that answers truthfully and a counter
that does not wrap around. -/
def Steps (context : Context) : Links := fun state transition next =>
  ∃ world successors after, world.store.Standard context.definition.signature ∧
    Engine.Gives (Engine.step state .unifying) context world successors after ∧
    after.fresh.position ≤ 2 ^ 64 ∧
    ∃ successor ∈ successors, successor.transition = transition ∧ successor.state = next

/-- A ground state at which no left-hand side merges the entries of a set or a map. -/
structure State.Definite (d : Definition) (state : State) : Prop extends state.Concrete d.signature where
  unmerged : ∀ rule ∈ d.rules, Matching.Unmerged rule.lhs state.term

namespace Engine

variable {context : Context} {world after : World} {rule : Rule} {state start : State}
  {successors : List Successor} {next : Successor} {visits : List Visit} {pattern : Pattern} {limit : Nat}

/-- The successors of a ground state under a rule are those of its matches. -/
theorem mem_iff_of_gives_applyRule (executable : rule.Executable context.definition.signature)
    (concrete : state.Concrete context.definition.signature)
    (unmerged : Matching.Unmerged rule.lhs state.term)
    (standard : world.store.Standard context.definition.signature)
    (gives : Gives (applyRule rule state .unifying none) context world successors after)
    (unwrapped : after.fresh.position ≤ 2 ^ 64) :
    next ∈ successors ↔ ∃ s ∈ (Matching.enumerate rule.lhs state.term).toList,
      Steady (successor? rule state { subst := s } s) context (some next) := by
  rcases of_gives_applyRule gives with ⟨incompatible, rfl, _⟩ | ⟨explore, started, gives⟩
  · refine ⟨nofun, fun ⟨s, member, _⟩ => ?_⟩
    have matched := isCanonicalMatch_of_mem_enumerate executable concrete member
    cases (compatible_of_concrete executable concrete matched).symm.trans incompatible
  · constructor
    · intro member
      exact exists_match_of_successor executable concrete standard started gives unwrapped unmerged member
    · rintro ⟨s, member, steady⟩
      obtain ⟨outcome, steady', kept⟩ :=
        exists_successor_of_match executable concrete standard started gives unwrapped member
      exact kept next (steady.unique steady')

section Relation

variable (executable : ∀ rule ∈ context.definition.rules, rule.Executable context.definition.signature)
include executable

/-- The successors of a definite state are those of the matches of the rules that are tried. -/
theorem mem_iff_of_gives_step (definite : state.Definite context.definition)
    (standard : world.store.Standard context.definition.signature)
    (gives : Gives (step state .unifying) context world successors after)
    (unwrapped : after.fresh.position ≤ 2 ^ 64) :
    next ∈ successors ↔ ∃ rule ∈ tried context.definition state.term,
      ∃ s ∈ (Matching.enumerate rule.lhs state.term).toList,
        Steady (successor? rule state { subst := s } s) context (some next) := by
  obtain ⟨results, made, rfl⟩ := gives_step.mp gives
  have leads : ∀ rule ∈ tried context.definition state.term, ∀ world result after,
      Gives (applyRule rule state .unifying none) context world result after →
        world.Leads context.definition.signature after := fun rule member world result after =>
    leads_of_gives_applyRule (executable rule (mem_rules_of_mem_tried member)).toBare
  obtain ⟨_, turns⟩ := turns_of_gives_mapM (World.leads_refl _) World.Leads.trans leads made
  -- Each rule has its turn in a world that the step passes through.
  have turn {rule : Rule} {result : List Successor} (member : rule ∈ tried context.definition state.term)
      (taken : ∃ first second, world.Leads context.definition.signature first ∧
        Gives (applyRule rule state .unifying none) context first result second ∧
        second.Leads context.definition.signature after) :
      next ∈ result ↔ ∃ s ∈ (Matching.enumerate rule.lhs state.term).toList,
        Steady (successor? rule state { subst := s } s) context (some next) := by
    obtain ⟨first, second, before, applied, behind⟩ := taken
    have listed := mem_rules_of_mem_tried member
    exact mem_iff_of_gives_applyRule (executable rule listed) definite.toConcrete
      (definite.unmerged rule listed) (before.standard standard) applied (behind.forward.trans unwrapped)
  rw [List.mem_flatten]
  constructor
  · rintro ⟨result, listed, member⟩
    obtain ⟨rule, candidate, taken⟩ := exists_of_forall₂ turns.flip listed
    exact ⟨rule, candidate, (turn candidate taken).mp member⟩
  · rintro ⟨rule, candidate, matched⟩
    obtain ⟨result, listed, taken⟩ := exists_of_forall₂ turns candidate
    exact ⟨result, listed, (turn candidate taken).mpr matched⟩

omit executable in
theorem steps_of_logged (genuine : ∀ visit ∈ visits, visit.GenuineBy context after.fresh.position)
    (unwrapped : after.fresh.position ≤ 2 ^ 64) {transition : Bool} {other : State}
    (logged : Logged visits state transition other) : Steps context state transition other := by
  obtain ⟨visit, member, rfl, leads⟩ := logged
  obtain ⟨world, last, standard, stepped, within⟩ := genuine visit member
  exact ⟨world, visit.successors, last, standard, stepped, within.trans unwrapped, leads⟩

/-- A log of definite states has the steps from them. -/
theorem faithful_steps (genuine : ∀ visit ∈ visits, visit.GenuineBy context after.fresh.position)
    (unwrapped : after.fresh.position ≤ 2 ^ 64)
    (definite : ∀ state, Visited visits state → state.Definite context.definition) :
    Faithful (Steps context) visits where
  sound _ _ _ := steps_of_logged genuine unwrapped
  complete := by
    rintro state transition other ⟨visit, member, rfl⟩ steps
    obtain ⟨_, _, _, standard, stepped, within, successor, listed, leads⟩ := steps
    obtain ⟨_, _, standard', stepped', within'⟩ := genuine visit member
    have place := definite visit.state ⟨visit, member, rfl⟩
    have matched := (mem_iff_of_gives_step executable place standard stepped within).mp listed
    have again := (mem_iff_of_gives_step executable place standard' stepped'
      (within'.trans unwrapped)).mpr matched
    exact ⟨visit, member, rfl, successor, again, leads⟩

/-- What a search within a limit reports, in terms of steps alone. It is a state that the pattern accepts
and that is reachable with no more transitions than the limit allows. From definite states every such
state is reported, if the steps are untangled. -/
theorem results_reachable {initial : State} {outcome : SearchResults}
    (standard : world.store.Standard context.definition.signature)
    (gives : Gives (search initial pattern { depth := some limit }) context world outcome after)
    (unwrapped : after.fresh.position ≤ 2 ^ 64) :
    let start := { initial with
      constraint := initial.constraint.simplify context.definition.signature }
    (∀ result ∈ outcome.results, ∃ state, result = .state state ∧ Accepts context pattern state ∧
      ∃ count ≤ limit, Reaches (Steps context) start count state) ∧
    ((∀ count ≤ limit, ∀ state, Reaches (Steps context) start count state →
        state.Definite context.definition) →
      Untangled (Steps context) start limit → ∀ state, Accepts context pattern state →
        (.state state ∈ outcome.results ↔
          ∃ count ≤ limit, Reaches (Steps context) start count state)) := by
  intro start
  have bare : ∀ rule ∈ context.definition.rules, rule.Bare :=
    fun rule member => (executable rule member).toBare
  obtain ⟨found, visits, explored, _, genuine, visited, recorded⟩ :=
    explored_of_gives_search bare standard gives
  have reached {state : State} (known : Visited visits state) :
      ∃ count ≤ limit, Reaches (Steps context) start count state := by
    obtain ⟨count, within, chain⟩ := explored.reaches_of_visited known
    exact ⟨count, within, chain.mono fun _ _ _ => steps_of_logged genuine unwrapped⟩
  refine ⟨fun result reported => ?_, fun definite untangled state accepted => ⟨fun reported => ?_, ?_⟩⟩
  · obtain ⟨state, known, accepted, rfl⟩ := (recorded result).mp reported
    exact ⟨state, rfl, accepted, reached known⟩
  · obtain ⟨_, known, _, same⟩ := (recorded _).mp reported
    cases same
    exact reached known
  · rintro ⟨count, within, chain⟩
    have faithful := faithful_steps executable genuine unwrapped fun state known => by
      obtain ⟨count, within, chain⟩ := reached known
      exact definite count within state chain
    have known := Explored.visited_of_reaches faithful visited explored untangled within chain
    exact (recorded _).mpr ⟨state, known, accepted, rfl⟩

end Relation

end Engine

section Constructors

variable {sig : Signature} {context : Context} {rule : Rule} {state next start : State} {s : Subst}
  {term : Term}

/-- Where there are no sets and no maps nothing is merged. -/
theorem Matching.unmerged_of_constructors {pattern subject : Term} (within : pattern.Within sig.constructors) :
    Matching.Unmerged pattern subject := by
  intro s _ _ _
  refine within.mono fun node allowed => ?_
  cases node with
  | collection kind entries frame =>
    intro merging
    cases merging.symm.trans allowed
  | _ => trivial

/-- What is well-sorted but for repeated keys passes the check, if there are no maps in it. -/
theorem Signature.check_of_contains (contains : sig.sorts.Contains term)
    (within : term.Within sig.constructors) : sig.check term = .ok () := by
  refine (check_eq_ok_iff sig term).mpr ((contains.and within).mono fun node here => ?_)
  obtain ⟨sorted, built⟩ := here
  cases node with
  | var v => trivial
  | token sort value => trivial
  | app label sort args => exact sorted
  | collection kind entries frame =>
    refine ⟨sorted.1, fun rest member => Term.sort_eq_of_accepts (sorted.2 rest member), ?_⟩
    cases kind with
    | map => cases built
    | _ => rfl

private theorem Signature.callFree_of_constructors (within : term.Within sig.constructors) :
    term.Within sig.callFree :=
  within.mono fun node allowed => by
    cases node with
    | app label sort args => exact allowed
    | _ => trivial

/-- A rule between terms that are made of constructors, lists and bags. -/
structure Rule.Builds (sig : Signature) (rule : Rule) : Prop extends rule.Executable sig where
  source : rule.lhs.Within sig.constructors
  target : rule.rhs.Within sig.constructors
  canonicalTarget : rule.rhs.Canonical
  checkedTarget : sig.check rule.rhs = .ok ()

/-- A ground state that is made of constructors, lists and bags. -/
structure State.Built (sig : Signature) (state : State) : Prop extends state.Concrete sig where
  within : state.term.Within sig.constructors

theorem State.Built.definite (built : state.Built context.definition.signature)
    (builds : ∀ rule ∈ context.definition.rules, rule.Builds context.definition.signature) :
    state.Definite context.definition :=
  { built.toConcrete with
    unmerged := fun rule member => Matching.unmerged_of_constructors (builds rule member).source }

/-- Under a match the right-hand side is built as the state is. -/
theorem Rule.Builds.concrete_apply (builds : rule.Builds sig) (built : state.Built sig)
    (member : s ∈ (Matching.enumerate rule.lhs state.term).toList) :
    (s.apply rule.rhs).Concrete sig ∧ (s.apply rule.rhs).Within sig.constructors := by
  have matched := Engine.isCanonicalMatch_of_mem_enumerate builds.toExecutable built.toConcrete member
  have proper := (Signature.proper_of_check built.term.canonical built.term.checked).and built.within
  obtain ⟨fitting, _⟩ := Engine.fitting_of_isInstance proper (matched.isInstance builds.canonical)
  have within : (s.apply rule.rhs).Within sig.constructors := by
    refine Term.Within.apply builds.target fun v _ => ?_
    refine ((fitting.image ⟨trivial, trivial⟩).within).mono fun node allowed => ?_
    cases node <;> exact allowed.2
  have binds : sig.sorts.Binds s :=
    Discipline.binds_empty.matches (fun _ _ => trivial) (Signature.contains_of_check built.term.checked)
      member
  have contains := (binds.apply (Signature.contains_of_check builds.checkedTarget)).contains
  have ground : (s.apply rule.rhs).ground = true :=
    Matching.ground_apply_of_mem built.term.ground member fun v occurs =>
      builds.bound v (by simp [Rule.allVars, occurs])
  refine ⟨?_, within⟩
  exact {
    canonical := matched.canonical.apply builds.canonicalTarget
    checked := Signature.check_of_contains contains within
    callFree := Signature.callFree_of_constructors within
    ground }

/-- The successors of a built state are built. -/
theorem Engine.built_of_steady {successor : Successor}
    (hooks : context.definition.signature.HooksFunctions)
    (builds : rule.Builds context.definition.signature) (built : state.Built context.definition.signature)
    (member : s ∈ (Matching.enumerate rule.lhs state.term).toList)
    (steady : Engine.Steady (Engine.successor? rule state { subst := s } s) context (some successor)) :
    successor.state.Built context.definition.signature := by
  obtain ⟨_, gives, _⟩ := steady {} (Store.standard_standard _)
  obtain ⟨_, answer, _, _, rest⟩ := (Engine.gives_successor? builds.toBare).mp gives
  obtain ⟨concrete, within⟩ := builds.concrete_apply built member
  cases answer with
  | false => cases rest
  | true =>
    obtain ⟨term, ensures, evaluated, _, made⟩ := rest
    rw [Definition.evaluate_of_callFree hooks _ concrete.canonical concrete.callFree] at evaluated
    cases evaluated
    dsimp only [Engine.produced] at made
    split at made
    · cases made
    · cases made
      refine ⟨⟨concrete, fun atom listed => ?_⟩, within⟩
      refine List.eq_nil_iff_forall_not_mem.mpr fun v occurs => ?_
      have kept := (Constraint.of_mem_project listed).2 v occurs
      rw [Term.freeVars, (Term.ground_iff_vars_eq_nil _).mp concrete.ground] at kept
      cases kept

theorem State.Built.simplify (built : state.Built sig) (sig' : Signature) :
    State.Built sig { state with constraint := state.constraint.simplify sig' } where
  term := built.term
  within := built.within
  closed atom listed := by
    have none : ∀ v ∈ atom.vars, False := by
      refine Discipline.allowed_simplify (fun other member v occurs => ?_) atom listed
      rw [built.closed other member] at occurs
      cases occurs
    exact List.eq_nil_iff_forall_not_mem.mpr none

section Runs

variable (hooks : context.definition.signature.HooksFunctions)
  (builds : ∀ rule ∈ context.definition.rules, rule.Builds context.definition.signature)
include hooks builds

theorem Steps.built {transition : Bool} (steps : Steps context state transition next)
    (built : state.Built context.definition.signature) : next.Built context.definition.signature := by
  obtain ⟨_, _, _, standard, gives, unwrapped, successor, listed, _, rfl⟩ := steps
  obtain ⟨rule, candidate, s, member, steady⟩ := (Engine.mem_iff_of_gives_step
    (fun rule member => (builds rule member).toExecutable) (built.definite builds) standard gives
    unwrapped).mp listed
  exact Engine.built_of_steady hooks (builds rule (Engine.mem_rules_of_mem_tried candidate)) built member
    steady

/-- Steps lead from built states to built states. -/
theorem Reaches.built {count : Nat} (reaches : Reaches (Steps context) start count state)
    (built : start.Built context.definition.signature) : state.Built context.definition.signature := by
  induction reaches with
  | start => exact built
  | step _ steps ih => exact steps.built hooks builds ih

open Engine in
/-- From a ground state of constructors, lists and bags, under rules between such terms, a search reports
the states that the pattern accepts and that the steps reach within the limit, if these are untangled. -/
theorem mem_results_iff_reaches {world after : World} {pattern : Pattern} {limit : Nat} {initial : State}
    {outcome : SearchResults} (built : initial.Built context.definition.signature)
    (standard : world.store.Standard context.definition.signature)
    (gives : Gives (search initial pattern { depth := some limit }) context world outcome after)
    (unwrapped : after.fresh.position ≤ 2 ^ 64) :
    let start := { initial with
      constraint := initial.constraint.simplify context.definition.signature }
    Untangled (Steps context) start limit → ∀ state, Accepts context pattern state →
      (.state state ∈ outcome.results ↔ ∃ count ≤ limit, Reaches (Steps context) start count state) := by
  intro start untangled
  refine (results_reachable (fun rule member => (builds rule member).toExecutable) standard gives
    unwrapped).2 (fun count _ state reaches => ?_) untangled
  exact (reaches.built hooks builds (built.simplify _)).definite builds

end Runs

end Constructors

section Nodes

theorem built_node (number : Int) : State.Built nodes (node number) := by
  have constructor : nodes.isFunction "s" = false := by decide
  have within {fragment : Term.Fragment} (allowed : fragment.label "s" (.named "S"))
      (token : fragment.token .int (toString number)) : (node number).term.Within fragment :=
    Term.Everywhere.app_iff.mpr ⟨allowed, by simpa [Term.ofInt] using Term.Everywhere.token_iff.mpr token⟩
  exact {
    term := {
      canonical := .app _ _ (by simp [Term.ofInt, Term.Canonical.token])
      checked := rfl
      callFree := within constructor trivial
      ground := by simp [node, Term.ofInt] }
    closed := List.forall_mem_nil _
    within := within constructor trivial }

theorem builds_edge (first second : Int) (transition : Bool) :
    (edge first second transition).Builds nodes where
  lookups := rfl
  freshConstants := rfl
  freshVariables := rfl
  canonical := (built_node first).term.canonical
  checked := rfl
  callFree := (built_node first).term.callFree
  bound v occurs := by simp [Rule.allVars, edge, node, Term.ofInt, Term.truth, Term.ofBool] at occurs
  source := (built_node first).within
  target := (built_node second).within
  canonicalTarget := (built_node second).term.canonical
  checkedTarget := rfl

private theorem hooksFunctions_nodes : nodes.HooksFunctions := by
  have declared : Signature.builtin.declareAll [.constructor "s" [.int] (.named "S")] = .ok nodes := rfl
  exact Signature.hooksFunctions_builtin.declareAll (by decide) declared

/-- Where every step is a transition, the steps that lead within the limit are those that are found. -/
theorem mem_results_iff_reaches_path : ∃ after,
    Engine.Gives (Engine.search (node 0) anyNode { depth := some 1 }) path {}
      { results := [.state (node 0), .state (node 1)], depth := 1, states := 2 } after ∧
    ∀ state, Engine.Accepts path anyNode state →
      (.state state ∈ [SearchResult.state (node 0), .state (node 1)] ↔
        ∃ count ≤ 1, Reaches (Steps path) (node 0) count state) := by
  have gives : Engine.Gives (Engine.search (node 0) anyNode { depth := some 1 }) path {}
      ⟨[.state (node 0), .state (node 1)], 1, 2⟩
      ((Engine.search (node 0) anyNode { depth := some 1 } : Engine _).run path {}).2 :=
    Prod.ext (by decide +kernel) rfl
  have builds : ∀ rule ∈ path.definition.rules, rule.Builds nodes := by
    simp only [path, graph, List.forall_mem_cons, List.not_mem_nil, false_implies, implies_true, and_true]
    exact ⟨builds_edge 0 1 true, builds_edge 1 2 true⟩
  have transitions : ∀ rule ∈ path.definition.rules, path.config.isTransition rule = true := by decide
  have standard : Store.Standard path.definition.signature ({} : World).store :=
    Store.standard_standard nodes
  have uniform (state : State) (transition : Bool) (next : State) (steps : Steps path state transition next) :
      transition = true := by
    obtain ⟨_, _, _, _, stepped, _, successor, listed, rfl, _⟩ := steps
    obtain ⟨rule, known, same⟩ :=
      Engine.transition_of_gives_step (fun rule member => (builds rule member).toBare) stepped listed
    exact same.symm.trans (transitions rule known)
  exact ⟨_, gives, mem_results_iff_reaches hooksFunctions_nodes builds (built_node 0) standard gives
    (by decide +kernel) (untangled_of_uniform uniform)⟩

end Nodes

end Reach
