import Reach.Proofs.Narrowing
import Reach.Proofs.Operations
import Reach.Proofs.Remainder

/-!
Steps by unification, on the ground terms that a state stands for. What a rule makes of such a term, some
successor of the state stands for, with values that extend those of the state. Conversely the rule of a
successor applies to the term as soon as the condition of the successor is true; so a term that no rule
applies to is among those that the successors do not cover.
-/

namespace Reach

namespace Constraint

variable {sig : Signature} {algebra : Term.Algebra Term} {c d : Constraint} {atom : Atom}
  {a b condition : Term}

/-- A constraint that is true or refuted. -/
def Resolved (algebra : Term.Algebra Term) (c : Constraint) : Prop :=
  c.HoldsIn algebra ∨ c.RefutedIn algebra

private theorem resolved_top : top.Resolved algebra :=
  .inl ⟨rfl, nofun⟩

theorem Resolved.push (resolved : c.Resolved algebra) (here : atom.HoldsIn algebra ∨ atom.RefutedIn algebra) :
    (c.push atom).Resolved algebra := by
  rw [Resolved, holdsIn_push_iff, refutedIn_push_iff]
  rcases resolved with holds | refuted
  · exact here.imp (fun true => ⟨holds, true⟩) .inr
  · exact .inr (.inl refuted)

theorem refutedIn_pushAll_iff {atoms : List Atom} : (atoms.foldl Constraint.push c).RefutedIn algebra ↔
    c.RefutedIn algebra ∨ ∃ atom ∈ atoms, atom.RefutedIn algebra := by
  induction atoms generalizing c with
  | nil => simp
  | cons atom rest ih => rw [List.foldl_cons, ih, refutedIn_push_iff, or_assoc, List.exists_mem_cons_iff]

theorem Resolved.and (resolved : c.Resolved algebra) (more : d.Resolved algebra) :
    (c.and d).Resolved algebra := by
  rw [Resolved, holdsIn_and_iff]
  rcases more with holds | refuted
  · refine resolved.imp (fun true => ⟨true, holds⟩) fun refuted => ?_
    rw [Constraint.and, if_neg (by simp [holds.consistent]), refutedIn_pushAll_iff]
    exact .inl refuted
  · right
    unfold Constraint.and
    split
    · exact refutedIn_bottom
    · next consistent => exact refutedIn_pushAll_iff.mpr (.inr (refuted.resolve_left consistent))

theorem holdsIn_foldl_conjoinEq_iff {α : Type} {items : List α} {left right : α → Term} :
    (items.foldl (fun c item => c.conjoinEq (left item) (right item)) c).HoldsIn algebra ↔
      c.HoldsIn algebra ∧ ∀ item ∈ items, (left item).fold algebra = (right item).fold algebra := by
  induction items generalizing c with
  | nil => simp
  | cons item rest ih =>
    rw [List.foldl_cons, ih, holdsIn_conjoinEq_iff, and_assoc, List.forall_mem_cons]
    rfl

section Equations

variable {loose : String → Prop} (builtins : sig.HasBuiltins) (respects : algebra.Respects sig loose)
  (ground : ∀ term : Term, (term.fold algebra).ground = true)
include builtins respects ground

theorem Resolved.foldl_conjoinEq {α : Type} {items : List α} {left right : α → Term}
    (resolved : c.Resolved algebra) :
    (items.foldl (fun c item => c.conjoinEq (left item) (right item)) c).Resolved algebra := by
  induction items generalizing c with
  | nil => exact resolved
  | cons item rest ih =>
    have added : (c.conjoinEq (left item) (right item)).Resolved algebra := by
      unfold Constraint.conjoinEq
      split
      · exact resolved
      · refine resolved.push ?_
        rw [refutedIn_eq_iff builtins respects ground]
        exact Classical.em _
    exact ih added

omit ground in
theorem Resolved.conjoin (resolved : c.Resolved algebra)
    (bool : condition.fold algebra = .truth ∨ condition.fold algebra = .falsity) :
    (c.conjoin condition).Resolved algebra := by
  rw [Resolved, holdsIn_conjoin_iff builtins respects, refutedIn_conjoin_iff builtins respects]
  rcases resolved with holds | refuted
  · exact bool.imp (fun true => ⟨holds, true⟩) .inr
  · exact .inr (.inl refuted)

end Equations

end Constraint

section Evaluated

variable {sig : Signature} {hooks : Hook → Bool} {term : Term} {assign : Variable → Term}
  (elementary : sig.Elementary) (total : ∀ hook, hooks hook = true → hook.isTotal = true)
  (computed : term.Computed sig hooks)
include elementary total computed

theorem Term.Computed.stable : term.Everywhere (sig.Stable fun _ => False) :=
  Signature.stable_of_plain (computed.plain total elementary.hooksFunctions)

/-- Builtins may be evaluated before the variables have values. -/
theorem Signature.Supplies.fold_evalBuiltins (supplies : sig.Supplies assign) :
    (sig.evalBuiltins term).fold (sig.assigned assign) = term.fold (sig.assigned assign) :=
  Signature.fold_evalBuiltins supplies.respects (computed.stable elementary total)

end Evaluated

/-- A state of constructors and builtins on scalars; the values satisfy it, and make its term this one. -/
structure State.Denotes (sig : Signature) (state : State) (assign : Variable → Term) (a : Term) : Prop where
  computed : state.term.Computed sig Hook.isScalar
  supplies : sig.Supplies assign
  fulfilled : state.constraint.Fulfilled sig (fun _ => False) (sig.assigned assign)
  value : state.term.fold (sig.assigned assign) = a

private theorem Atom.holdsIn_assigned_congr {sig : Signature} {assign other : Variable → Term} {atom : Atom}
    (same : ∀ v ∈ atom.vars, other v = assign v) :
    atom.HoldsIn (sig.assigned other) ↔ atom.HoldsIn (sig.assigned assign) := by
  cases atom with
  | eq a b =>
    have left : a.fold (sig.assigned other) = a.fold (sig.assigned assign) :=
      Signature.fold_assigned_congr fun v occurs => same v (List.mem_append_left _ occurs)
    have right : b.fold (sig.assigned other) = b.fold (sig.assigned assign) :=
      Signature.fold_assigned_congr fun v occurs => same v (List.mem_append_right _ occurs)
    rw [HoldsIn, HoldsIn, left, right]
  | holds condition => rw [HoldsIn, HoldsIn, Signature.fold_assigned_congr same]

/-- What a state stands for depends on the values of its variables. -/
theorem State.Denotes.congr {sig : Signature} {state : State} {assign other : Variable → Term} {a : Term}
    (denotes : state.Denotes sig assign a) (supplies : sig.Supplies other)
    (same : ∀ v ∈ state.freeVars, other v = assign v) : state.Denotes sig other a where
  computed := denotes.computed
  supplies := supplies
  fulfilled := ⟨denotes.fulfilled.consistent, fun atom member => (Atom.holdsIn_assigned_congr fun v occurs =>
    same v (State.mem_freeVars.mpr (.inr ⟨atom, member, occurs⟩))).mpr (denotes.fulfilled.holds atom member),
    denotes.fulfilled.stable⟩
  value := (Signature.fold_assigned_congr fun v occurs =>
    same v (State.mem_freeVars.mpr (.inl occurs))).trans denotes.value

namespace Engine

open Unification

/-- The successor comes of this unifier of a state and of the copy of a rule that is made here. -/
structure Arises (sig : Signature) (rule : Rule) (state : State) (fresh : Fresh) (unifier : Unifier)
    (next : Successor) : Prop where
  ruled : rule.Elementary sig
  computed : state.term.Computed sig Hook.isScalar
  unwrapped : (rule.renameApart fresh).2.position ≤ 2 ^ 64
  run : Run sig (start (rule.renameApart fresh).1.lhs state.term) unifier
  narrowing : next.narrowing = (fitOf state unifier).narrowing
  term : next.state.term = sig.evalBuiltins (unifier.subst.apply (rule.renameApart fresh).1.rhs)
  condition : next.condition = (narrowingEquations (fitOf state unifier).narrowing).and
    (guard (fitOf state unifier) unifier.subst
      (sig.evalBuiltins (unifier.subst.apply (rule.renameApart fresh).1.requires)))

section Steps

variable {sig : Signature} {rules : List Rule} {context : Context} {world after : World} {rule : Rule}
  {state : State} {successors : List Successor} {next : Successor} {unifier : Unifier} {a b : Term}
  {assign other : Variable → Term}

/-- The copy of a part of a rule is a term of the same kind. -/
theorem computed_copy {fresh : Fresh} (unwrapped : (rule.renameApart fresh).2.position ≤ 2 ^ 64)
    {hooks : Hook → Bool} {part : Term} (computed : part.Computed sig hooks) :
    ((Rule.freshRenaming rule.allVars fresh).1.apply part).Computed sig hooks :=
  ((rule.renames_renameApart fresh unwrapped).computed sig hooks).apply computed

/-- A successor under a rule comes of a unifier. -/
theorem exists_arises_of_applyRule (collects : context.definition.Collects sig rules)
    (ruled : rule.Elementary sig) (computed : state.term.Computed sig Hook.isScalar)
    (unwrapped : after.fresh.position ≤ 2 ^ 64)
    (gives : Gives (applyRule rule state .unifying none) context world successors after)
    (member : next ∈ successors) : ∃ unifier, Arises sig rule state world.fresh unifier next := by
  have bare := ruled.toBare.renameApart world.fresh
  obtain rfl := collects.signature
  rcases of_gives_applyRule gives with ⟨_, rfl, _⟩ | ⟨explore, started, gives⟩
  · cases member
  obtain ⟨ends, _, _, _, origin⟩ := of_gives_addUnifiers bare gives
  obtain none | ⟨unifier, first, second, delivers, _, made⟩ := origin next member
  · cases none
  have run := run_of_delivers started delivers
  obtain ⟨requires, answer, evaluated, _, rest⟩ := (gives_successor? bare).mp made
  simp only [collects.evaluate] at evaluated rest
  cases evaluated
  split at rest
  · obtain ⟨term, ensures, target, _, made⟩ := rest
    cases target
    unfold produced at made
    dsimp only at made
    split at made
    · cases made
    · cases made
      exact ⟨unifier, ruled, computed, (position_of_ends started ends).trans unwrapped, run, rfl, rfl, rfl⟩
  · cases rest

namespace Arises

variable {fresh : Fresh} (arises : Arises sig rule state fresh unifier next)
include arises

theorem left : (rule.renameApart fresh).1.lhs.Computed sig Hook.isScalar :=
  (computed_copy arises.unwrapped arises.ruled.computedLhs).mono (by simp)

theorem bindings : unifier.subst.Computed sig Hook.isScalar :=
  (computed_of_run arises.left arises.computed arises.run).toComputed

theorem computedNarrowing : next.narrowing.Computed sig Hook.isScalar := by
  rw [arises.narrowing]
  exact arises.bindings.restrict _

variable (elementary : sig.Elementary)
include elementary

private theorem computedTerm : next.state.term.Computed sig Hook.isScalar := by
  rw [arises.term]
  exact ((arises.bindings.apply (computed_copy arises.unwrapped arises.ruled.computedRhs)).evalBuiltins
    elementary).1

variable (supplies : sig.Supplies assign)
include supplies

omit arises elementary supplies in
/-- The values that the copy of the rule and the unifier give to the variables of the rule. -/
def values (sig : Signature) (rule : Rule) (fresh : Fresh) (unifier : Unifier) (assign : Variable → Term) :
    Variable → Term :=
  (Rule.freshRenaming rule.allVars fresh).1.through sig (unifier.subst.through sig assign)

theorem supplies_bindings : sig.Supplies (unifier.subst.through sig assign) :=
  supplies.through elementary (fun _ => Hook.isTotal_of_isScalar) arises.bindings

theorem supplies_values : sig.Supplies (values sig rule fresh unifier assign) :=
  (arises.supplies_bindings elementary supplies).through elementary (fun _ => Hook.isTotal_of_isScalar)
    ((rule.renames_renameApart fresh arises.unwrapped).computed sig _)

theorem fold_copy (part : Term) :
    ((Rule.freshRenaming rule.allVars fresh).1.apply part).fold
        (sig.assigned (unifier.subst.through sig assign)) =
      part.fold (sig.assigned (values sig rule fresh unifier assign)) :=
  (arises.supplies_bindings elementary supplies).fold_apply _ part

/-- What the precondition evaluates to under the unifier has the value of the precondition. -/
theorem fold_requires : (sig.evalBuiltins (unifier.subst.apply (rule.renameApart fresh).1.requires)).fold
    (sig.assigned assign) =
      rule.requires.fold (sig.assigned (values sig rule fresh unifier assign)) := by
  have bindings := arises.bindings.mono fun _ => Hook.isTotal_of_isScalar
  have copy := computed_copy arises.unwrapped arises.ruled.computedRequires
  rw [← arises.fold_copy elementary supplies, ← supplies.fold_apply]
  exact supplies.fold_evalBuiltins elementary (fun _ => id) (bindings.apply copy)

theorem resolved : next.condition.Resolved (sig.assigned assign) := by
  have builtins := elementary.toHasBuiltins
  have equations {α : Type} {items : List α} {left right : α → Term} :
      (items.foldl (fun c item => c.conjoinEq (left item) (right item)) Constraint.top).Resolved
        (sig.assigned assign) :=
    Constraint.resolved_top.foldl_conjoinEq builtins supplies.respects supplies.ground
  rw [arises.condition]
  refine equations.and (equations.conjoin builtins supplies.respects ?_)
  rw [arises.fold_requires elementary supplies]
  exact arises.ruled.computedRequires.bool_cases elementary
    (arises.supplies_values elementary supplies) (fun _ => id)
    (Rule.check_conditions arises.ruled.checked).1

/-- Where the condition is true, the left-hand side has the value of the term. -/
theorem fold_lhs (holds : next.condition.HoldsIn (sig.assigned assign)) :
    rule.lhs.fold (sig.assigned (values sig rule fresh unifier assign)) =
      state.term.fold (sig.assigned assign) := by
  rw [arises.condition, Constraint.holdsIn_and_iff] at holds
  obtain ⟨narrowed, guarded⟩ := holds
  have narrowed := (Constraint.holdsIn_foldl_conjoinEq_iff.mp narrowed).2
  have solved := (Constraint.holdsIn_foldl_conjoinEq_iff.mp
    ((Constraint.holdsIn_conjoin_iff elementary.toHasBuiltins supplies.respects).mp guarded).1).2
  rw [← arises.fold_copy elementary supplies]
  refine fold_through_of_run elementary supplies arises.left arises.computed arises.run
    (fun v occurs term found => narrowed (v, term) (Assoc.get?_eq_some_iff.mp ?_)) solved
  have free : v ∈ state.freeVars := State.mem_freeVars.mpr (.inl occurs)
  rw [fitOf, Assoc.get?_restrict, if_pos (by simpa using free), found]

/-- Where the condition of a successor is true, its rule applies. -/
theorem rewrites (member : rule ∈ rules) (holds : next.condition.HoldsIn (sig.assigned assign)) :
    ∃ b, Rewrites sig rules (state.term.fold (sig.assigned assign)) b := by
  have requires : rule.requires.fold (sig.assigned (values sig rule fresh unifier assign)) = .truth := by
    have guarded := holds
    rw [arises.condition, Constraint.holdsIn_and_iff] at guarded
    rw [← arises.fold_requires elementary supplies]
    exact ((Constraint.holdsIn_conjoin_iff elementary.toHasBuiltins supplies.respects).mp guarded.2).2
  exact ⟨_, rule, member, _, arises.supplies_values elementary supplies,
    arises.fold_lhs elementary supplies holds, requires, rfl⟩

omit supplies in
/-- The condition may be evaluated before its variables have values. -/
theorem stable : ∀ atom ∈ next.condition.atoms, atom.Stable sig fun _ => False := by
  have stable {term : Term} (computed : term.Computed sig Hook.isTotal) :
      term.Everywhere (sig.Stable fun _ => False) := computed.stable elementary fun _ => id
  have bindings := arises.bindings.mono fun _ => Hook.isTotal_of_isScalar
  have narrowed := bindings.restrict fun v => state.freeVars.contains v
  have known := computed_of_run arises.left arises.computed arises.run
  have parted : next.condition.Over (Term.Everywhere (sig.Stable fun _ => False))
      (Term.Everywhere (sig.Stable fun _ => False)) := by
    rw [arises.condition]
    refine (Constraint.over_top.foldl_conjoinEq fun entry member => ?_).and
      ((Constraint.over_top.foldl_conjoinEq fun goal member => ?_).conjoin
        (fun _ _ _ => Constraint.everywhere_sides) ?_)
    · exact ⟨Term.Everywhere.var_iff.mpr trivial,
        stable (narrowed.get? (Assoc.get?_eq_some_iff.mpr member)).1⟩
    · obtain ⟨⟨first, _⟩, second, _⟩ := known.residual goal member
      exact ⟨stable (bindings.apply (first.mono fun _ => Hook.isTotal_of_isScalar)),
        stable (bindings.apply (second.mono fun _ => Hook.isTotal_of_isScalar))⟩
    · exact stable ((bindings.apply (computed_copy arises.unwrapped
        arises.ruled.computedRequires)).evalBuiltins elementary).1
  exact fun atom member => Atom.over_iff.mp (parted.atoms atom member)

end Arises

section Forward

variable (elementary : sig.Elementary) (collects : context.definition.Collects sig rules)
  (standard : world.store.Standard sig) (avoids : ∀ v ∈ state.freeVars, world.fresh.Avoids v)
  (unwrapped : after.fresh.position ≤ 2 ^ 64) (denotes : state.Denotes sig assign a)
  (supplies : sig.Supplies other) (same : rule.lhs.fold (sig.assigned other) = a)
  (requires : rule.requires.fold (sig.assigned other) = .truth)
include elementary collects standard avoids unwrapped denotes supplies same requires

/-- What a rule makes of a term that a state stands for, some successor under the rule stands for. -/
theorem exists_denotes_of_applyRule (determined : rule.Determined sig)
    (gives : Gives (applyRule rule state .unifying none) context world successors after) :
    ∃ next ∈ successors, ∃ merged, (∀ v, world.fresh.Avoids v → merged v = assign v) ∧
      (sig.assigned merged).Absorbs next.narrowing ∧
      next.state.Denotes sig merged (rule.rhs.fold (sig.assigned other)) := by
  have total : ∀ hook, Hook.isScalar hook = true → hook.isTotal = true := fun _ => Hook.isTotal_of_isScalar
  have lhs := determined.computedLhs
  have arising {next : Successor} (member : next ∈ successors) :=
    exists_arises_of_applyRule collects determined.toElementary denotes.computed unwrapped gives member
  rcases of_gives_applyRule gives with ⟨incompatible, _⟩ | ⟨explore, started, gives⟩
  · have accepted := (lhs.datum elementary supplies (by simp)).2
    have accepted' := (denotes.computed.datum elementary denotes.supplies total).2
    rw [same] at accepted
    rw [denotes.value] at accepted'
    have compatible : rule.lhs.sort.compatible state.term.sort = true := by
      simpa [TermSort.compatible] using accepts_or_accepts accepted accepted'
    cases compatible.symm.trans incompatible
  have bare := determined.toBare.renameApart world.fresh
  obtain ⟨ends, _, _, turns, _⟩ := of_gives_addUnifiers bare gives
  rw [collects.signature] at started turns
  have wide : (rule.renameApart world.fresh).2.position ≤ 2 ^ 64 :=
    (position_of_ends started ends).trans unwrapped
  have renames := rule.renames_renameApart world.fresh wide
  obtain ⟨merged, mergedSupplies, agree, values⟩ := renames.exists_supplies denotes.supplies supplies
  have value {part : Term} (inside : ∀ v ∈ part.vars, v ∈ rule.allVars) :
      ((Rule.freshRenaming rule.allVars world.fresh).1.apply part).fold (sig.assigned merged) =
        part.fold (sig.assigned other) :=
    mergedSupplies.fold_apply_congr fun v occurs => values v (inside v occurs)
  have denotes := denotes.congr mergedSupplies fun v occurs => agree v (avoids v occurs)
  have left : (rule.renameApart world.fresh).1.lhs.Computed sig Hook.isScalar :=
    (computed_copy wide lhs).mono (by simp)
  obtain ⟨unifier, delivers, solves⟩ := exists_delivers_of_fold elementary mergedSupplies left
    denotes.computed ((value fun v => Rule.mem_allVars_of_lhs).trans (same.trans denotes.value.symm))
    started ends
  obtain ⟨first, second, outcome, firstStandard, made, kept⟩ := turns standard unifier delivers
  have plain : ∀ part ∈ [(rule.renameApart world.fresh).1.rhs, (rule.renameApart world.fresh).1.requires,
      (rule.renameApart world.fresh).1.ensures], part.Within sig.plain := by
    have functions := elementary.hooksFunctions
    simp only [List.forall_mem_cons]
    exact ⟨(computed_copy wide determined.computedRhs).plain total functions,
      (computed_copy wide determined.computedRequires).plain (fun _ => id) functions,
      (computed_copy wide determined.computedEnsures).plain (fun _ => id) functions,
      fun _ absent => absurd absent List.not_mem_nil⟩
  have valued (v : Variable) : sig.Stable (fun _ => False) (merged v) :=
    ((mergedSupplies.datum v).toComputed.stable elementary (by simp)).here
  have inside {part : Term} (among : part ∈ [rule.lhs, rule.rhs, rule.requires, rule.ensures]) :
      ∀ v ∈ part.vars, v ∈ rule.allVars := fun v => Rule.mem_allVars_of_part among
  obtain ⟨next, rfl, _, narrowing, _, constraint, term⟩ := covers_successor? collects
    elementary.toHasBuiltins bare plain firstStandard mergedSupplies.respects valued solves
    denotes.fulfilled ((value (inside (by simp))).trans requires)
    ((value (inside (by simp))).trans (determined.promised other supplies requires)) made
  obtain ⟨_, arises⟩ := arising (kept next rfl)
  exact ⟨next, kept next rfl, merged, agree, narrowing ▸ solves.absorbs_narrowing,
    arises.computedTerm elementary, mergedSupplies, constraint, term.trans (value (inside (by simp)))⟩

end Forward

section Whole

variable (elementary : sig.Elementary) (collects : context.definition.Collects sig rules)
  (determined : ∀ rule ∈ rules, rule.Determined sig) (unwrapped : after.fresh.position ≤ 2 ^ 64)
  (denotes : state.Denotes sig assign a)
  (gives : Gives (step state .unifying) context world successors after)
include collects determined gives

/-- Each rule that is tried has its turn. -/
theorem turns_of_gives_step : ∃ results, successors = results.flatten ∧
    List.Forall₂ (fun rule found => ∃ first second, world.Leads sig first ∧
      Gives (applyRule rule state .unifying none) context first found second ∧ second.Leads sig after)
      (tried context.definition state.term) results := by
  obtain ⟨results, made, rfl⟩ := gives_step.mp gives
  refine ⟨results, rfl, (turns_of_gives_mapM (World.leads_refl sig) World.Leads.trans
    (fun rule among world value after given => ?_) made).2⟩
  have member : rule ∈ rules := collects.rules ▸ mem_rules_of_mem_tried among
  exact collects.signature ▸ leads_of_gives_applyRule (determined rule member).toBare given

include unwrapped

/-- Each successor comes of a unifier of a rule. -/
theorem exists_arises_of_step (computed : state.term.Computed sig Hook.isScalar)
    (member : next ∈ successors) :
    ∃ rule ∈ rules, ∃ fresh unifier, Arises sig rule state fresh unifier next := by
  obtain ⟨results, rfl, turns⟩ := turns_of_gives_step collects determined gives
  obtain ⟨found, listed, inside⟩ := List.mem_flatten.mp member
  obtain ⟨rule, among, first, second, _, given, behind⟩ := exists_of_forall₂ turns.flip listed
  have known : rule ∈ rules := collects.rules ▸ mem_rules_of_mem_tried among
  obtain ⟨unifier, arises⟩ := exists_arises_of_applyRule collects (determined rule known).toElementary
    computed (behind.forward.trans unwrapped) given inside
  exact ⟨rule, known, first.fresh, unifier, arises⟩

include elementary denotes

/-- What becomes of a term that a state stands for, some successor stands for. -/
theorem exists_denotes_of_step (standard : world.store.Standard sig)
    (avoids : ∀ v ∈ state.freeVars, world.fresh.Avoids v) (rewrites : Rewrites sig rules a b) :
    ∃ next ∈ successors, ∃ merged, (∀ v, world.fresh.Avoids v → merged v = assign v) ∧
      (sig.assigned merged).Absorbs next.narrowing ∧ next.state.Denotes sig merged b := by
  obtain ⟨rule, member, other, supplies, same, requires, rfl⟩ := rewrites
  have isTried : rule ∈ tried context.definition state.term :=
    mem_tried_of_fold elementary collects.filed (collects.rules ▸ member) (determined rule member).computedLhs
      denotes.supplies (fun _ => Hook.isTotal_of_isScalar) denotes.computed (same.trans denotes.value.symm)
  obtain ⟨results, rfl, turns⟩ := turns_of_gives_step collects determined gives
  obtain ⟨found, listed, first, second, before, given, behind⟩ := exists_of_forall₂ turns isTried
  obtain ⟨next, present, merged, agree, covered⟩ := exists_denotes_of_applyRule elementary collects
    (before.standard standard) (fun v occurs => (avoids v occurs).mono before.forward)
    (behind.forward.trans unwrapped) denotes supplies same requires (determined rule member) given
  exact ⟨next, List.mem_flatten.mpr ⟨found, listed, present⟩, merged,
    fun v avoided => agree v (avoided.mono before.forward), covered⟩

/-- The remainder of a state stands for what no rule takes any further. -/
theorem exists_remainder_of_stuck {now last : World} (standard : now.store.Standard sig)
    (stuck : ∀ b, ¬Rewrites sig rules a b) {outcome : Option State}
    (gives' : Gives (remainder state successors) context now outcome last) :
    ∃ rest, outcome = some rest ∧ rest.term = state.term ∧ rest.Denotes sig assign a := by
  obtain rfl := collects.signature
  have supplies := denotes.supplies
  have arising {next : Successor} (member : next ∈ successors) :=
    exists_arises_of_step collects determined unwrapped gives denotes.computed member
  have refuted : ∀ next ∈ successors,
      next.condition.RefutedIn (context.definition.signature.assigned assign) := by
    intro next member
    obtain ⟨rule, known, fresh, unifier, arises⟩ := arising member
    refine (arises.resolved elementary supplies).resolve_left fun holds => ?_
    obtain ⟨b, rewrites⟩ := arises.rewrites elementary supplies known holds
    exact stuck b (denotes.value ▸ rewrites)
  have stable : ∀ next ∈ successors, ∀ atom ∈ next.condition.atoms,
      atom.Stable context.definition.signature fun _ => False := by
    intro next member
    obtain ⟨rule, known, fresh, unifier, arises⟩ := arising member
    exact arises.stable elementary
  have decimal (v : Variable) : (assign v).Decimal :=
    Term.decimal_of_stable ((supplies.datum v).toComputed.stable elementary (by simp)).here
  obtain ⟨rest, _, given, term, _, fulfilled⟩ := exists_remainder elementary.toHasBuiltins standard
    supplies.respects decimal denotes.fulfilled refuted stable
  obtain ⟨rfl, _⟩ := gives'.unique given
  exact ⟨rest, rfl, term, term ▸ denotes.computed, supplies, fulfilled,
    (congrArg _ term).trans denotes.value⟩

end Whole

end Steps

end Engine

end Reach
