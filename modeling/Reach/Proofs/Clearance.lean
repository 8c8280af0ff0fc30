import Reach.Proofs.Satisfaction
import Reach.Proofs.Successors

/-!
Which variables there can be in what the engine computes: those of its inputs, those of the rules, and
those that were drawn on the way. Terms of allowed variables are a discipline that asks for nothing else,
so that what holds of every discipline tells where the variables of a result come from. A counter clears a
list of variables if no name that it is still to draw is among theirs.
-/

namespace Reach

/-- The variables that are bound, and those of the terms that they are bound to. -/
def Subst.vars (s : Subst) : List Variable :=
  s.entries.flatMap fun (v, term) => v :: term.vars

/-- The variables of both sides. -/
def Goal.vars (goal : Goal) : List Variable :=
  goal.1.vars ++ goal.2.vars

namespace Unification

def Problem.vars (p : Problem) : List Variable :=
  p.subst.vars ++ (p.goals ++ p.deferred ++ p.residual).flatMap Goal.vars

def Choice.vars (c : Choice) : List Variable :=
  c.base.vars ++ Goal.vars (.collection c.kind c.left c.leftFrame, .collection c.kind c.right c.rightFrame)

end Unification

def Unifier.vars (unifier : Unifier) : List Variable :=
  unifier.subst.vars ++ unifier.residual.flatMap Goal.vars

def Fit.vars (fit : Fit) : List Variable :=
  fit.subst.vars ++ (fit.residual.flatMap Goal.vars ++ fit.narrowing.vars)

def Successor.vars (next : Successor) : List Variable :=
  next.state.freeVars ++ (next.narrowing.vars ++ next.condition.freeVars)

namespace Discipline

open Term

/-- Nothing is asked of a term but that its variables are allowed. -/
def ofVars (allowed : Variable → Prop) : Discipline where
  var := allowed
  app _ _ _ := True
  entry _ _ := True
  fits _ _ := True
  fits_of_accepts _ := trivial
  fits_trans _ _ := trivial
  app_map _ _ _ := trivial
  entry_map _ _ := trivial

variable {allowed : Variable → Prop} {term : Term} {s : Subst} {goal : Goal} {rule : Rule}
  {d : Definition} {p : Unification.Problem} {c : Unification.Choice} {unifier : Unifier}
  {constraint : Constraint}

theorem contains_ofVars_iff : (ofVars allowed).Contains term ↔ ∀ v ∈ term.vars, allowed v := by
  constructor
  · exact fun contains v => allowed_of_mem contains
  · intro each
    refine Everywhere.mono (fun node here => ?_) (Within.of_vars each)
    cases node with
    | var v => exact here
    | collection kind entries frame => exact ⟨fun _ _ => trivial, fun _ _ => trivial⟩
    | _ => trivial

theorem has_ofVars {sort : TermSort} (each : ∀ v ∈ term.vars, allowed v) : (ofVars allowed).Has sort term :=
  ⟨contains_ofVars_iff.mpr each, trivial⟩

theorem binds_ofVars_iff : (ofVars allowed).Binds s ↔ ∀ v ∈ s.vars, allowed v := by
  constructor
  · intro binds v member
    obtain ⟨⟨key, term⟩, listed, inside⟩ := List.mem_flatMap.mp member
    obtain ⟨bound, has⟩ := binds key term (Assoc.get?_eq_some_iff.mpr listed)
    rcases List.mem_cons.mp inside with rfl | occurs
    · exact bound
    · exact allowed_of_mem has.contains occurs
  · intro each v term bound
    have listed := Assoc.get?_eq_some_iff.mp bound
    refine ⟨each v (List.mem_flatMap.mpr ⟨_, listed, List.mem_cons_self⟩), has_ofVars fun w occurs => ?_⟩
    exact each w (List.mem_flatMap.mpr ⟨_, listed, List.mem_cons_of_mem _ occurs⟩)

theorem admits_ofVars_iff : (ofVars allowed).Admits goal ↔ ∀ v ∈ goal.vars, allowed v := by
  rw [Goal.vars, List.forall_mem_append]
  exact ⟨fun admits => ⟨contains_ofVars_iff.mp admits.left, contains_ofVars_iff.mp admits.right⟩,
    fun ⟨left, right⟩ => ⟨contains_ofVars_iff.mpr left, contains_ofVars_iff.mpr right⟩⟩

theorem forall_admits_ofVars_iff {goals : List Goal} :
    (∀ goal ∈ goals, (ofVars allowed).Admits goal) ↔ ∀ v ∈ goals.flatMap Goal.vars, allowed v := by
  rw [List.forall_mem_flatMap]
  exact forall₂_congr fun goal _ => admits_ofVars_iff

theorem keeps_ofVars_iff : (ofVars allowed).Keeps p ↔ ∀ v ∈ p.vars, allowed v := by
  simp only [Unification.Problem.vars, List.flatMap_append, List.forall_mem_append,
    ← forall_admits_ofVars_iff, ← binds_ofVars_iff]
  exact ⟨fun keeps => ⟨keeps.binds, ⟨keeps.goals, keeps.deferred⟩, keeps.residual⟩,
    fun ⟨binds, ⟨goals, deferred⟩, residual⟩ => ⟨binds, goals, deferred, residual⟩⟩

theorem chooses_ofVars_iff : (ofVars allowed).Chooses c ↔ ∀ v ∈ c.vars, allowed v := by
  rw [Unification.Choice.vars, List.forall_mem_append, ← keeps_ofVars_iff, ← admits_ofVars_iff]
  exact ⟨fun chooses => ⟨chooses.base, contains_collection_iff.mpr chooses.left,
      contains_collection_iff.mpr chooses.right⟩,
    fun ⟨base, admits⟩ => ⟨base, contains_collection_iff.mp admits.left,
      contains_collection_iff.mp admits.right⟩⟩

theorem unifies_ofVars_iff : (ofVars allowed).Unifies unifier ↔ ∀ v ∈ unifier.vars, allowed v := by
  rw [Unifier.vars, List.forall_mem_append, ← forall_admits_ofVars_iff, ← binds_ofVars_iff]
  exact ⟨fun unifies => ⟨unifies.binds, unifies.residual⟩, fun ⟨binds, residual⟩ => ⟨binds, residual⟩⟩

theorem admissible_ofVars_iff : (ofVars allowed).Admissible rule ↔ ∀ v ∈ rule.allVars, allowed v := by
  simp only [Rule.allVars, List.mem_eraseDups, List.forall_mem_append, List.forall_mem_flatMap,
    ← contains_ofVars_iff]
  constructor
  · intro admissible
    exact ⟨⟨⟨⟨⟨⟨admissible.lhs, fun lookup listed => (admissible.lookups lookup listed).symm⟩,
      admissible.requires⟩, admissible.rhs⟩, admissible.ensures⟩, admissible.freshConstants⟩,
      admissible.freshVariables⟩
  · rintro ⟨⟨⟨⟨⟨⟨lhs, lookups⟩, requires⟩, rhs⟩, ensures⟩, freshConstants⟩, freshVariables⟩
    exact ⟨lhs, rhs, requires, ensures, fun lookup listed => (lookups lookup listed).symm, freshConstants,
      freshVariables⟩

theorem contains_ofVars_of_callHook {sig : Signature} {label : String} {args : List Term} {value : Term}
    (parts : ∀ arg ∈ args, (ofVars allowed).Contains arg) (called : sig.callHook label args = some value) :
    (ofVars allowed).Contains value :=
  (Signature.result_of_callHook called).everywhere parts (fun _ => trivial) (fun _ => trivial)
    (fun _ => trivial) fun _ _ _ _ _ _ => ⟨fun _ _ => trivial, fun _ _ => trivial⟩

/-- The rules of functions bring in no other variables than their own. -/
theorem governs_ofVars (each : ∀ label, ∀ rule ∈ d.functionRules label, ∀ v ∈ rule.allVars, allowed v) :
    (ofVars allowed).Governs d where
  hooks _ parts called := ⟨contains_ofVars_of_callHook parts called, trivial⟩
  rules label rule member := admissible_ofVars_iff.mpr (each label rule member)
  results _ _ _ := trivial

section Constraints

theorem contains_ofVars_evalBuiltins {sig : Signature} (contains : (ofVars allowed).Contains term) :
    (ofVars allowed).Contains (sig.evalBuiltins term) := by
  refine (has_fold rfl rfl (fun v => has_var) (fun label sort args here parts => ?_) contains).contains
  have whole : (ofVars allowed).Has sort (.app label sort args) :=
    ⟨Everywhere.app_iff.mpr ⟨here, parts⟩, trivial⟩
  unfold Signature.builtinAlgebra
  dsimp only
  cases called : sig.callHook label args with
  | none => exact whole
  | some value => exact ⟨contains_ofVars_of_callHook parts called, trivial⟩

/-- Simplification brings in no variables. -/
theorem retained_ofVars (sig : Signature) (allowed : Variable → Prop) :
    Constraint.Retained sig (ofVars allowed).Contains (ofVars allowed).Contains where
  side _ := contains_ofVars_evalBuiltins
  condition _ := contains_ofVars_evalBuiltins
  moved _ := id
  negated term contains := Everywhere.app_iff.mpr ⟨trivial, List.forall_mem_singleton.mpr contains⟩
  conjunct _ _ _ := Constraint.everywhere_sides
  replaced v value _ contains := by
    have replaced (term : Term) (inner : (ofVars allowed).Contains term) :
        (ofVars allowed).Contains ((Subst.single v value).apply term) := by
      refine contains_ofVars_iff.mpr fun w occurs => ?_
      rcases Subst.mem_vars_apply_single.mp occurs with ⟨inside, _⟩ | ⟨_, occurs⟩
      · exact contains_ofVars_iff.mp inner w inside
      · exact contains_ofVars_iff.mp contains w occurs
    exact ⟨replaced, replaced⟩

theorem over_ofVars_iff {atom : Atom} :
    atom.Over (ofVars allowed).Contains (ofVars allowed).Contains ↔ ∀ v ∈ atom.vars, allowed v := by
  cases atom with
  | eq left right =>
    rw [Atom.vars, List.forall_mem_append]
    exact and_congr contains_ofVars_iff contains_ofVars_iff
  | holds condition => exact contains_ofVars_iff

/-- The variables of a simplified constraint were there before. -/
theorem allowed_simplify {sig : Signature} (each : ∀ atom ∈ constraint.atoms, ∀ v ∈ atom.vars, allowed v) :
    ∀ atom ∈ (constraint.simplify sig).atoms, ∀ v ∈ atom.vars, allowed v :=
  have within := Constraint.Over.simplify (retained_ofVars sig allowed) fun atom member =>
    over_ofVars_iff.mpr (each atom member)
  fun atom member => over_ofVars_iff.mp (within.atoms atom member)

theorem allowed_ofTerm (each : ∀ v ∈ term.vars, allowed v) :
    ∀ atom ∈ (Constraint.ofTerm term).atoms, ∀ v ∈ atom.vars, allowed v :=
  have within := Constraint.over_top.conjoin (fun _ _ _ => Constraint.everywhere_sides)
    (contains_ofVars_iff.mpr each)
  fun atom member => over_ofVars_iff.mp (within.atoms atom member)

private theorem over_ofVars_allowed
    (within : constraint.Over (ofVars allowed).Contains (ofVars allowed).Contains) :
    ∀ v ∈ constraint.freeVars, allowed v := by
  intro v member
  obtain ⟨atom, listed, occurs⟩ := List.mem_flatMap.mp (List.mem_eraseDups.mp member)
  exact over_ofVars_iff.mp (within.atoms atom listed) v occurs

/-- The condition under which a rule applies is about what it binds and what it narrows. -/
theorem allowed_condition {narrowing : Subst} {residual : List Goal} {requires : Term}
    (narrowed : ∀ v ∈ narrowing.vars, allowed v) (binds : ∀ v ∈ s.vars, allowed v)
    (goals : ∀ v ∈ residual.flatMap Goal.vars, allowed v) (guard : ∀ v ∈ requires.vars, allowed v) :
    ∀ v ∈ ((Engine.narrowingEquations narrowing).and
      ((Engine.residualEquations s residual).conjoin requires)).freeVars, allowed v := by
  have bound := binds_ofVars_iff.mpr binds
  have unsolved := forall_admits_ofVars_iff.mpr goals
  refine over_ofVars_allowed ((Constraint.over_top.foldl_conjoinEq fun pair member => ?_).and
    ((Constraint.over_top.foldl_conjoinEq fun goal member => ?_).conjoin
      (fun _ _ _ => Constraint.everywhere_sides) (contains_ofVars_iff.mpr guard)))
  · obtain ⟨key, has⟩ := binds_ofVars_iff.mpr narrowed pair.1 pair.2 (Assoc.get?_eq_some_iff.mpr member)
    exact ⟨Everywhere.var_iff.mpr key, has.contains⟩
  · have admits := unsolved goal member
    exact ⟨(bound.apply admits.left).contains, (bound.apply admits.right).contains⟩

end Constraints

end Discipline

/-- The mark that a drawn name has is not in the name. -/
def Variable.Unmarked (v : Variable) : Prop :=
  '#' ∉ v.name.toList

instance (v : Variable) : Decidable v.Unmarked :=
  inferInstanceAs (Decidable ('#' ∉ v.name.toList))

def Rule.Unmarked (rule : Rule) : Prop :=
  ∀ v ∈ rule.allVars, v.Unmarked

instance (rule : Rule) : Decidable rule.Unmarked :=
  inferInstanceAs (Decidable (∀ v ∈ rule.allVars, v.Unmarked))

/-- No variable of a rule is marked. -/
structure Definition.Unmarked (d : Definition) : Prop where
  rules : ∀ rule ∈ d.rules, rule.Unmarked
  functions : ∀ label, ∀ rule ∈ d.functionRules label, rule.Unmarked

namespace Fresh

/-- None of the variables can be drawn any more. -/
def Clears (fresh : Fresh) (vars : List Variable) : Prop :=
  ∀ v ∈ vars, fresh.Avoids v

variable {fresh later : Fresh} {vars more : List Variable} {term value : Term} {s : Subst} {rule : Rule}
  {d : Definition} {limit : Nat}

theorem avoids_of_unmarked {v : Variable} (unmarked : v.Unmarked) : fresh.Avoids v := by
  intro stem number _ same
  refine unmarked ?_
  rw [same]
  simp [numbered]

theorem Clears.mono (clears : fresh.Clears vars) (onward : fresh.position ≤ later.position) :
    later.Clears vars :=
  fun v member => (clears v member).mono onward

theorem clears_nil : fresh.Clears [] :=
  nofun

theorem clears_flatMap_iff {α : Type} {items : List α} {f : α → List Variable} :
    fresh.Clears (items.flatMap f) ↔ ∀ item ∈ items, fresh.Clears (f item) :=
  List.forall_mem_flatMap

theorem Clears.singleton {α : Type} {item : α} {f : α → List Variable} (clears : fresh.Clears (f item)) :
    fresh.Clears ([item].flatMap f) :=
  clears_flatMap_iff.mpr (List.forall_mem_singleton.mpr clears)

theorem clears_append_iff : fresh.Clears (vars ++ more) ↔ fresh.Clears vars ∧ fresh.Clears more :=
  List.forall_mem_append

section Results

open Discipline

theorem Clears.apply (clears : fresh.Clears s.vars) (inner : fresh.Clears term.vars) :
    fresh.Clears (s.apply term).vars :=
  contains_ofVars_iff.mp ((binds_ofVars_iff.mpr clears).apply (contains_ofVars_iff.mpr inner)).contains

theorem Clears.insert {v : Variable} (clears : fresh.Clears s.vars) (key : fresh.Avoids v)
    (image : fresh.Clears term.vars) : fresh.Clears (Subst.vars (s.insert v term)) :=
  binds_ofVars_iff.mp ((binds_ofVars_iff.mpr clears).insert key (has_ofVars image))

theorem Clears.compose {other : Subst} (clears : fresh.Clears s.vars) (next : fresh.Clears other.vars) :
    fresh.Clears (s.compose other).vars :=
  binds_ofVars_iff.mp ((binds_ofVars_iff.mpr clears).compose (binds_ofVars_iff.mpr next))

theorem Clears.restrict (clears : fresh.Clears s.vars) (keep : Variable → Bool) :
    fresh.Clears (Subst.vars (s.restrict keep)) :=
  binds_ofVars_iff.mp ((binds_ofVars_iff.mpr clears).restrict keep)

theorem clears_ofList {pairs : List (Variable × Term)}
    (each : ∀ pair ∈ pairs, fresh.Avoids pair.1 ∧ fresh.Clears pair.2.vars) :
    fresh.Clears (Subst.vars (.ofList pairs)) := by
  have added (s : Subst) (clears : fresh.Clears s.vars) :
      fresh.Clears (Subst.vars (pairs.foldl (fun s pair => s.insert pair.1 pair.2) s)) := by
    induction pairs generalizing s with
    | nil => exact clears
    | cons pair rest ih =>
      obtain ⟨⟨key, image⟩, later⟩ := List.forall_mem_cons.mp each
      exact ih later _ (clears.insert key image)
  exact added .empty nofun

/-- A match binds variables of the pattern to terms over those of the subject. -/
theorem Clears.matches {pattern subject : Term} (clears : fresh.Clears s.vars)
    (poses : fresh.Clears pattern.vars) (given : fresh.Clears subject.vars) :
    fresh.Clears ((Matching.enumerateFrom s pattern subject).toList.flatMap Subst.vars) :=
  clears_flatMap_iff.mpr fun _ member => binds_ofVars_iff.mp
    ((binds_ofVars_iff.mpr clears).matches poses (contains_ofVars_iff.mpr given) member)

theorem Clears.lhs (known : fresh.Clears rule.allVars) : fresh.Clears rule.lhs.vars :=
  contains_ofVars_iff.mp (admissible_ofVars_iff.mpr known).lhs

theorem Clears.rhs (known : fresh.Clears rule.allVars) : fresh.Clears rule.rhs.vars :=
  contains_ofVars_iff.mp (admissible_ofVars_iff.mpr known).rhs

theorem Clears.requires (known : fresh.Clears rule.allVars) : fresh.Clears rule.requires.vars :=
  contains_ofVars_iff.mp (admissible_ofVars_iff.mpr known).requires

theorem Clears.substitute (clears : fresh.Clears s.vars) (known : fresh.Clears rule.allVars) :
    fresh.Clears (rule.substitute s).allVars :=
  admissible_ofVars_iff.mp ((admissible_ofVars_iff.mpr known).substitute (binds_ofVars_iff.mpr clears))

end Results

section Definitions

open Discipline

variable (unmarked : d.Unmarked)
include unmarked

theorem governs_avoids (fresh : Fresh) : (ofVars fresh.Avoids).Governs d :=
  governs_ofVars fun label rule member v occurs =>
    avoids_of_unmarked (unmarked.functions label rule member v occurs)

theorem Clears.evaluate (clears : fresh.Clears term.vars) (made : d.evaluate limit term = .ok value) :
    fresh.Clears value.vars :=
  contains_ofVars_iff.mp ((governs_avoids unmarked fresh).has_evaluate (contains_ofVars_iff.mpr clears)
    made).contains

theorem Clears.lookups {found : List Subst} (clears : fresh.Clears s.vars) (known : fresh.Clears rule.allVars)
    (made : d.lookups limit rule s = .ok found) : fresh.Clears (found.flatMap Subst.vars) :=
  clears_flatMap_iff.mpr fun s member => binds_ofVars_iff.mp ((governs_avoids unmarked fresh).binds_lookups
    (binds_ofVars_iff.mpr clears) (admissible_ofVars_iff.mpr known).lookups made s member)

end Definitions

section States

/-- A state clears if its term and its constraint do. -/
theorem clears_state_iff {state : State} : fresh.Clears state.freeVars ↔
    fresh.Clears state.term.vars ∧ ∀ atom ∈ state.constraint.atoms, fresh.Clears atom.vars := by
  simp only [Clears, State.freeVars, List.mem_eraseDups, List.forall_mem_append, List.forall_mem_flatMap]

theorem clears_projected (clears : fresh.Clears term.vars) (constraint : Constraint) :
    fresh.Clears ({ term, constraint := constraint.project term.freeVars } : State).freeVars := by
  refine clears_state_iff.mpr ⟨clears, fun atom member v occurs => clears v ?_⟩
  exact List.mem_eraseDups.mp ((Constraint.of_mem_project member).2 v occurs)

theorem clears_simplified {state : State} (clears : fresh.Clears state.freeVars) (sig : Signature) :
    fresh.Clears ({ state with constraint := state.constraint.simplify sig } : State).freeVars := by
  obtain ⟨term, atoms⟩ := clears_state_iff.mp clears
  exact clears_state_iff.mpr ⟨term, Discipline.allowed_simplify atoms⟩

end States

end Fresh

end Reach
