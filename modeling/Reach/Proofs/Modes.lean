import Reach.Proofs.Correspondence

/-!
The two ways to apply a rule agree on ground states. What a rule gives under a match it also gives under
the unifier that stands for the match, and the store answers both alike. So execution makes no step that
search does not make; search makes no other steps as long as no instance of the left-hand side that is
the state merges entries of a set or a map.
-/

namespace Reach

/-- A state with a concrete term and no variables in its constraint. -/
structure State.Concrete (sig : Signature) (state : State) : Prop where
  term : state.term.Concrete sig
  closed : ∀ atom ∈ state.constraint.atoms, atom.vars = []

theorem State.Concrete.freeVars {sig : Signature} {state : State} (concrete : state.Concrete sig) :
    state.freeVars = [] := by
  refine List.eq_nil_iff_forall_not_mem.mpr fun v occurs => ?_
  rcases State.mem_freeVars.mp occurs with occurs | ⟨atom, member, occurs⟩
  · rw [(Term.ground_iff_vars_eq_nil _).mp concrete.term.ground] at occurs
    cases occurs
  · rw [concrete.closed atom member] at occurs
    cases occurs

namespace Engine

variable {α : Type} {sig : Signature} {context : Context} {world after : World} {rule rule' : Rule}
  {state : State} {fit fit' : Fit} {s s' : Subst} {outcome : Option Successor} {unifier : Unifier}

/-- Wherever the store is a standard one, the action gives this value and leaves a standard store. -/
def Steady (action : Engine α) (context : Context) (value : α) : Prop :=
  ∀ world : World, world.store.Standard context.definition.signature → ∃ after : World,
    Gives action context world value after ∧ after.store.Standard context.definition.signature

theorem Steady.unique {action : Engine α} {value value' : α} (steady : Steady action context value)
    (steady' : Steady action context value') : value' = value := by
  have standard : Store.Standard context.definition.signature ({} : World).store :=
    Store.standard_standard _
  obtain ⟨_, gives, _⟩ := steady {} standard
  obtain ⟨_, gives', _⟩ := steady' {} standard
  exact Except.ok.inj (congrArg Prod.fst (gives'.symm.trans gives))

/-- What comes of a fit does not depend on what the store was asked before. -/
theorem steady_successor? (bare : rule.Bare)
    (standard : world.store.Standard context.definition.signature)
    (gives : Gives (successor? rule state fit s) context world outcome after) :
    Steady (successor? rule state fit s) context outcome := by
  obtain ⟨requires, answer, evaluated, asked, rest⟩ := (gives_successor? bare).mp gives
  intro other standard'
  obtain ⟨answered, _⟩ := gives_feasible.mp asked
  rw [standard.feasible_eq, ← standard'.feasible_eq] at answered
  exact ⟨_, (gives_successor? bare).mpr ⟨requires, answer, evaluated, gives_feasible.mpr ⟨answered, rfl⟩,
    rest⟩, standard'.feasible _⟩

/-- Rules that look alike under two fits without residual equations give the same successor. -/
theorem gives_successor?_congr (bare : rule.Bare) (bare' : rule'.Bare) (label : rule'.label = rule.label)
    (kind : context.config.isTransition rule' = context.config.isTransition rule)
    (narrowing : fit'.narrowing = fit.narrowing) (residual : fit.residual = [])
    (residual' : fit'.residual = []) (requires : s'.apply rule'.requires = s.apply rule.requires)
    (rhs : s'.apply rule'.rhs = s.apply rule.rhs)
    (ensures : s'.apply rule'.ensures = s.apply rule.ensures) :
    Gives (successor? rule' state fit' s') context world outcome after ↔
      Gives (successor? rule state fit s) context world outcome after := by
  have guards (condition : Term) : guard fit' s' condition = guard fit s condition := by
    rw [guard, guard, residual, residual']
    rfl
  have known (condition : Term) :
      narrowed state fit' s' condition = narrowed state fit s condition := by
    rw [narrowed, narrowed, narrowing, guards]
  have made (condition term ensured : Term) :
      produced context rule' state fit' s' condition term ensured =
        produced context rule state fit s condition term ensured := by
    rw [produced, produced, assumed, assumed, known, guards, narrowing, label, kind]
  rw [gives_successor? bare', gives_successor? bare, requires, rhs, ensures]
  simp only [known, made]

/-- On a ground state the renamed rule under a unifier gives what the rule gives under the match that
the unifier stands for. -/
theorem gives_successor?_of_carries {fresh : Fresh} (executable : rule.Executable sig)
    (concrete : state.Concrete sig) (unwrapped : (rule.renameApart fresh).2.position ≤ 2 ^ 64)
    (grounds : Unification.Grounds (rule.renameApart fresh).1.lhs state.term unifier)
    (matched : Matching.IsCanonicalMatch .empty rule.lhs state.term s)
    (carries : Rule.Carries (Rule.freshRenaming rule.allVars fresh).1 unifier.subst s rule.allVars) :
    Gives (successor? (rule.renameApart fresh).1 state (fitOf state unifier) unifier.subst) context world
        outcome after ↔
      Gives (successor? rule state { subst := s } s) context world outcome after := by
  have renames := rule.renames_renameApart fresh unwrapped
  have domain : ∀ v term, s.get? v = some term → v ∈ rule.allVars := by
    intro v term found
    refine Rule.mem_allVars_of_lhs (((matched.extension.domain v).mp ?_).resolve_left nofun)
    rw [found]
    rfl
  -- Without variables the left-hand side is the state, and nothing was bound.
  have bare : rule.allVars = [] → unifier.subst = .empty := by
    intro none
    refine grounds.bare (Subst.ground_apply_iff.mpr fun v occurs => ?_)
    have member := Rule.mem_allVars_of_lhs occurs
    rw [none] at member
    cases member
  have same {part : Term} (inside : ∀ v ∈ part.vars, v ∈ rule.allVars) :
      unifier.subst.apply ((Rule.freshRenaming rule.allVars fresh).1.apply part) = s.apply part :=
    carries.apply_part renames grounds.canonical domain bare inside
  refine gives_successor?_congr executable.toBare (executable.toBare.renameApart fresh) rfl rfl ?_ rfl
    grounds.closed (same ?_) (same ?_) (same ?_)
  · refine Assoc.ext ?_
    simp [fitOf, Assoc.restrict, concrete.freeVars, Assoc.empty]
  · exact fun v occurs => by simp [Rule.allVars, occurs]
  · exact fun v occurs => by simp [Rule.allVars, occurs]
  · exact fun v occurs => by simp [Rule.allVars, occurs]

/-- The matches have their turn one after the other, and each gives what it gives on its own. -/
theorem exists_addMatches (bare : rule.Bare) {choices : Enumeration Subst} {found : List Successor}
    (standard : world.store.Standard context.definition.signature)
    (each : ∀ s ∈ choices.toList, ∃ outcome, Steady (successor? rule state { subst := s } s) context outcome) :
    ∃ result after, Gives (addMatches rule state none choices found) context world result after ∧
      ∀ next, next ∈ result ↔ next ∈ found ∨ ∃ s ∈ choices.toList,
        Steady (successor? rule state { subst := s } s) context (some next) := by
  -- The world changes from match to match, but its store stays a standard one.
  induction choices generalizing world found with
  | nil =>
    refine ⟨found, world, gives_pure.mpr ⟨rfl, rfl⟩, fun next => ?_⟩
    simp [Enumeration.toList]
  | cons s more ih =>
    obtain ⟨⟨outcome, steady⟩, later⟩ := List.forall_mem_cons.mp each
    obtain ⟨middle, made, onward⟩ := steady world standard
    obtain ⟨result, after, gives, members⟩ := @ih () middle (found ++ outcome.toList) onward later
    refine ⟨result, after, ?_, fun next => ?_⟩
    · unfold addMatches
      refine gives_bind.mpr ⟨_, middle, (gives_addFit bare).mpr ⟨outcome, made, rfl⟩, ?_⟩
      simpa only [full, Option.any_none, Bool.false_eq_true, ↓reduceIte] using gives
    · have own : outcome = some next ↔
          Steady (successor? rule state { subst := s } s) context (some next) :=
        ⟨fun same => same ▸ steady, fun steady' => (steady.unique steady').symm⟩
      simp only [members, List.mem_append, Option.mem_toList, Enumeration.toList, List.mem_cons,
        exists_eq_or_imp, own, or_assoc]

/-- A rule whose left-hand side matches a ground state is not turned away for its sort. -/
theorem compatible_of_concrete (executable : rule.Executable sig) (concrete : state.Concrete sig)
    (matched : Matching.IsCanonicalMatch .empty rule.lhs state.term s) :
    rule.lhs.sort.compatible state.term.sort = true := by
  obtain ⟨matching, _⟩ := fitting_of_isInstance concrete.term.proper
    (matched.isInstance executable.canonical)
  have fixed := Matching.solves_ground (s := s) concrete.term.canonical concrete.term.ground
  exact Unification.compatible_of_apply_eq matching executable.canonical concrete.term.canonical
    (matched.image.trans fixed.1.symm)

theorem isCanonicalMatch_of_mem_enumerate (executable : rule.Executable sig) (concrete : state.Concrete sig)
    (member : s ∈ (Matching.enumerate rule.lhs state.term).toList) :
    Matching.IsCanonicalMatch .empty rule.lhs state.term s := by
  have unseeded : Subst.Canonical Assoc.empty := nofun
  exact Matching.isCanonicalMatch_of_mem executable.canonical concrete.term.canonical executable.checked
    concrete.term.checked unseeded member

section Turns

variable {successors : List Successor} {explore : Fresh → Unifiers}
  (executable : rule.Executable context.definition.signature)
  (concrete : state.Concrete context.definition.signature)
  (standard : world.store.Standard context.definition.signature)
  (started : unify context.definition.signature context.config.budget
    (rule.renameApart world.fresh).1.lhs state.term = .ok explore)
  (gives : Gives (addUnifiers (rule.renameApart world.fresh).1 state none
    (explore (rule.renameApart world.fresh).2) []) context
      { world with fresh := (rule.renameApart world.fresh).2 } successors after)
  (unwrapped : after.fresh.position ≤ 2 ^ 64)
include executable concrete standard started gives unwrapped

/-- What comes of a match is among the successors. -/
theorem exists_successor_of_match (member : s ∈ (Matching.enumerate rule.lhs state.term).toList) :
    ∃ outcome, Steady (successor? rule state { subst := s } s) context outcome ∧
      ∀ next ∈ outcome, next ∈ successors := by
  have isMatch := isCanonicalMatch_of_mem_enumerate executable concrete member
  obtain ⟨ends, _, _, turns, _⟩ := of_gives_addUnifiers (executable.toBare.renameApart world.fresh) gives
  have forward := (position_of_ends started ends).trans unwrapped
  obtain ⟨unifier, delivers, carries⟩ :=
    exists_unifier_of_isMatch executable concrete.term started isMatch ends unwrapped
  obtain ⟨first, second, outcome, onward, made, kept⟩ := turns standard unifier delivers
  have grounds := grounds_of_renamed executable concrete.term started forward delivers
  rw [gives_successor?_of_carries executable concrete forward grounds isMatch carries] at made
  exact ⟨outcome, steady_successor? executable.toBare onward made, kept⟩

/-- A successor comes of a match, where nothing merges. -/
theorem exists_match_of_successor (unmerged : Matching.Unmerged rule.lhs state.term) {next : Successor}
    (member : next ∈ successors) :
    ∃ s ∈ (Matching.enumerate rule.lhs state.term).toList,
      Steady (successor? rule state { subst := s } s) context (some next) := by
  obtain ⟨ends, _, _, _, origin⟩ := of_gives_addUnifiers (executable.toBare.renameApart world.fresh) gives
  have forward := (position_of_ends started ends).trans unwrapped
  rcases origin next member with impossible | ⟨unifier, first, second, delivers, onward, made⟩
  · cases impossible
  · obtain ⟨s, member, carries⟩ :=
      exists_isMatch_of_unifier executable concrete.term started forward delivers unmerged
    have isMatch := isCanonicalMatch_of_mem_enumerate executable concrete member
    have grounds := grounds_of_renamed executable concrete.term started forward delivers
    rw [gives_successor?_of_carries executable concrete forward grounds isMatch carries] at made
    exact ⟨s, member, steady_successor? executable.toBare (onward standard) made⟩

end Turns

end Engine

open Engine

/-- Execution and search on ground states. If unification gives the successors of a ground state under
a rule, then matching gives successors as well, and only some of these; and it gives all of these if no
substitution that takes the left-hand side to the state merges entries of a set or a map. -/
theorem matching_of_unifying {context : Context} {world after : World} {rule : Rule} {state : State}
    {successors : List Successor} (executable : rule.Executable context.definition.signature)
    (concrete : state.Concrete context.definition.signature)
    (standard : world.store.Standard context.definition.signature)
    (gives : Gives (applyRule rule state .unifying none) context world successors after)
    (unwrapped : after.fresh.position ≤ 2 ^ 64) :
    ∃ matched after', Gives (applyRule rule state .matching none) context world matched after' ∧
      (∀ next ∈ matched, next ∈ successors) ∧
      (Matching.Unmerged rule.lhs state.term → ∀ next ∈ successors, next ∈ matched) := by
  rcases of_gives_applyRule gives with ⟨incompatible, rfl, _⟩ | ⟨explore, started, gives⟩
  · have unmatched : ∀ s ∈ (Matching.enumerate rule.lhs state.term).toList, False := by
      intro s member
      have compatible := compatible_of_concrete executable concrete
        (isCanonicalMatch_of_mem_enumerate executable concrete member)
      cases compatible.symm.trans incompatible
    obtain ⟨matched, after', matching, members⟩ := @exists_addMatches context world rule state
      executable.toBare _ [] standard fun s member => (unmatched s member).elim
    refine ⟨matched, after', matching, fun next member => ?_, fun _ => nofun⟩
    rcases (members next).mp member with earlier | ⟨s, member, _⟩
    · exact earlier
    · exact (unmatched s member).elim
  · have each := @exists_successor_of_match context world after rule state
    obtain ⟨matched, after', matching, members⟩ := @exists_addMatches context world rule state
      executable.toBare _ [] standard fun s member =>
        (each executable concrete standard started gives unwrapped member).imp fun _ => And.left
    refine ⟨matched, after', matching, fun next member => ?_, fun unmerged next member => ?_⟩
    · rcases (members next).mp member with earlier | ⟨s, member, steady⟩
      · cases earlier
      · obtain ⟨outcome, steady', kept⟩ :=
          each executable concrete standard started gives unwrapped member
        exact kept next (steady.unique steady')
    · exact (members next).mpr (.inr
        (exists_match_of_successor executable concrete standard started gives unwrapped unmerged member))

section Release

/-- A constructor for a set beside a pair. -/
def holding : Signature :=
  ⟨pairs.labels.insert "held" (.constructor "held" [.set, .named "Pair"] (.named "Held"))⟩

/-- The pair of two terms, and a set that holds some terms. -/
def held (items : List Term) (a b : Term) : Term :=
  .app "held" (.named "Held") [.collection .set (items.map .element) none, pairOf a b]

/-- Empties the set if it holds the parts of the pair and nothing else. -/
def release : Rule :=
  { label := "release"
    lhs := held [.var ⟨"X", .int⟩, .var ⟨"Y", .int⟩] (.var ⟨"X", .int⟩) (.var ⟨"Y", .int⟩)
    rhs := held [] (.var ⟨"X", .int⟩) (.var ⟨"Y", .int⟩) }

def releasing : Context where
  definition :=
    { signature := holding, rules := [release], index := Assoc.empty.insert "held" [0], unindexed := []
      functions := .empty }

variable {items : List Term} {a b : Term}

theorem canonical_held (sorted : Term.normalized .set (items.map .element) none =
      .collection .set (items.map .element) none) (each : ∀ item ∈ items, item.Canonical)
    (left : a.Canonical) (right : b.Canonical) : (held items a b).Canonical := by
  have set : (Term.collection .set (items.map .element) none).Canonical :=
    .collection (by simpa [Entry.parts] using each) nofun sorted
  exact .app _ _ (by simp [set, canonical_pairOf left right])

theorem callFree_held (each : ∀ item ∈ items, item.Within holding.callFree)
    (left : a.Within holding.callFree) (right : b.Within holding.callFree) :
    (held items a b).Within holding.callFree := by
  have free : ∀ label ∈ ["held", "pair"], holding.isFunction label = false := by decide +kernel
  have set : (Term.collection .set (items.map .element) none).Within holding.callFree :=
    Term.Everywhere.collection_iff.mpr ⟨trivial, by simpa [Entry.parts] using each, nofun⟩
  have pair : (pairOf a b).Within holding.callFree :=
    within_pairOf (free "pair" (by simp)) left right
  exact Term.Everywhere.app_iff.mpr ⟨free "held" (by simp), by simp [set, pair]⟩

theorem executable_release : release.Executable holding where
  lookups := rfl
  freshConstants := rfl
  freshVariables := rfl
  canonical := canonical_held rfl (by simp [Term.Canonical.var]) (.var _) (.var _)
  checked := rfl
  callFree := by
    have var (v : Variable) : (Term.var v).Within holding.callFree := within_var trivial
    exact callFree_held (by simp [var]) (var _) (var _)
  bound := by decide +kernel

theorem concrete_held (items : List Int) (first second : Int)
    (sorted : Term.normalized .set ((items.map Term.ofInt).map .element) none =
      .collection .set ((items.map Term.ofInt).map .element) none)
    (checked : holding.check (held (items.map .ofInt) (.ofInt first) (.ofInt second)) = .ok ()) :
    State.Concrete holding { term := held (items.map .ofInt) (.ofInt first) (.ofInt second) } where
  term :=
    { canonical := canonical_held sorted (by simp [Term.ofInt, Term.Canonical.token]) (.token _ _) (.token _ _)
      checked
      callFree := by
        have number (n : Int) : (Term.ofInt n).Within holding.callFree := Term.Everywhere.token_iff.mpr trivial
        exact callFree_held (by simp [number]) (number _) (number _)
      ground := by simp [held, pairOf, Term.ofInt, Entry.parts] }
  closed := nofun

/-- Distinct parts of a pair stay distinct entries of the set. -/
theorem unmerged_release (differ : a ≠ b) : Matching.Unmerged release.lhs (held items a b) := by
  intro s _ _ image
  change s.apply (held [.var ⟨"X", .int⟩, .var ⟨"Y", .int⟩] (.var ⟨"X", .int⟩) (.var ⟨"Y", .int⟩)) =
    held items a b at image
  simp only [held, pairOf, List.map_cons, List.map_nil, Subst.apply_app_eq, Term.app.injEq,
    List.cons.injEq, true_and, and_true] at image
  obtain ⟨_, left, right⟩ := image
  have var (v : Variable) : Matching.Apart s (.var v) := Term.Everywhere.var_iff.mpr trivial
  have pair : Matching.Apart s (pairOf (.var ⟨"X", .int⟩) (.var ⟨"Y", .int⟩)) :=
    Term.Everywhere.app_iff.mpr ⟨trivial, by simp [var]⟩
  have set : Matching.Apart s
      (.collection .set [.element (.var ⟨"X", .int⟩), .element (.var ⟨"Y", .int⟩)] none) := by
    refine Term.Everywhere.collection_iff.mpr
      ⟨fun _ => ⟨?_, fun _ absent => absurd absent (by simp)⟩, by simp [Entry.parts, var], by simp⟩
    simpa [Entry.map, left, right] using differ
  exact Term.Everywhere.app_iff.mpr ⟨trivial, by simp [set, pair]⟩

end Release

/-- A run with one result gives it. -/
theorem Engine.gives_of_length {α : Type} {action : Engine (List α)} {context : Context} {world : World}
    (one : (action.run context world).1.toOption.map List.length = some 1) :
    ∃ results, Gives action context world results (action.run context world).2 ∧ results.length = 1 := by
  cases ok : (action.run context world).1 with
  | error failure =>
    rw [ok] at one
    cases one
  | ok results =>
    rw [ok] at one
    exact ⟨results, Prod.ext ok rfl, Option.some.inj one⟩

/-- A set of two numbers is released either way. -/
theorem matching_of_unifying_twoNumbers :
    let state : State := { term := held [.ofInt 1, .ofInt 2] (.ofInt 1) (.ofInt 2) }
    ∃ successors after, Gives (applyRule release state .unifying none) releasing {} successors after ∧
      successors.length = 1 ∧ ∃ matched after',
        Gives (applyRule release state .matching none) releasing {} matched after' ∧
          (∀ next ∈ matched, next ∈ successors) ∧ ∀ next ∈ successors, next ∈ matched := by
  intro state
  obtain ⟨successors, gives, one⟩ := @gives_of_length _ (applyRule release state .unifying none) releasing {}
    (by decide +kernel)
  obtain ⟨matched, after', matching, some, all⟩ := matching_of_unifying executable_release
    (concrete_held [1, 2] 1 2 rfl rfl) (Store.standard_standard holding)
    gives (by decide +kernel)
  exact ⟨successors, _, gives, one, matched, after', matching, some,
    all (unmerged_release (by decide))⟩

/-- If the parts of the pair are the same number, the set has one entry fewer than the pattern, and no
entries to choose for it. Unification has bound the parts before it comes to the set, where the two
entries of the pattern are one by then. -/
theorem matching_of_unifying_oneNumber :
    let state : State := { term := held [.ofInt 1] (.ofInt 1) (.ofInt 1) }
    (release.Executable holding ∧ state.Concrete holding) ∧
      (∃ successors after, Gives (applyRule release state .unifying none) releasing {} successors after ∧
        successors.length = 1) ∧
      ∃ after, Gives (applyRule release state .matching none) releasing {} [] after := by
  intro state
  refine ⟨⟨executable_release, concrete_held [1] 1 1 rfl rfl⟩, ?_, ?_⟩
  · obtain ⟨successors, gives, one⟩ := @gives_of_length _ (applyRule release state .unifying none)
      releasing {} (by decide +kernel)
    exact ⟨successors, _, gives, one⟩
  · exact exists_gives (by decide +kernel)

end Reach
