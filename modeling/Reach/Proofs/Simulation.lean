import Reach.Proofs.Execution
import Reach.Proofs.MostGeneral
import Reach.Proofs.Presentation
import Reach.Proofs.Semantics

/-!
A step on a symbolic state covers the steps of its instances. Where a rule applies to an instance,
the assignment of the instance and the match of the rule together make the renamed rule and the state
equal, so that they are an instance of a unifier. What is true of the instance then carries the
constraint of that unifier's successor past the store, the simplification and the projection.
-/

namespace Reach

/-- A rule between terms that unification is complete for: nothing but sides and conditions, every
variable on the left-hand side, which is made of constructors, lists and bags, and no builtins on
maps. -/
structure Rule.Narrows (sig : Signature) (rule : Rule) : Prop extends rule.Bare where
  built : rule.lhs.Within sig.constructors
  bound : ∀ v ∈ rule.allVars, v ∈ rule.lhs.vars
  plain : ∀ part ∈ [rule.lhs, rule.rhs, rule.requires, rule.ensures], part.Within sig.plain

/-- A well-sorted state whose term is made of constructors, lists and bags. -/
structure State.Narrows (sig : Signature) (state : State) : Prop where
  canonical : state.term.Canonical
  checked : sig.check state.term = .ok ()
  built : state.term.Within sig.constructors
  plain : state.term.Within sig.plain
  constraint : ∀ atom ∈ state.constraint.atoms, ∀ part ∈ atom.parts, part.Within sig.plain

/-- Variables are bound to well-sorted canonical terms of their sorts, without builtins on maps. -/
structure Subst.Concrete (sig : Signature) (s : Subst) : Prop where
  sorted : s.Sorted
  canonical : s.Canonical
  checked : ∀ v term, s.get? v = some term → sig.check term = .ok ()
  plain : ∀ v term, s.get? v = some term → term.Within sig.plain

/-- A rule for which a step is complete: its left-hand side, which need not be canonical, belongs to a
fragment that unification is complete for and has all its variables, and the builtins in the rule may be
evaluated at any time. -/
structure Rule.Regular (sig : Signature) (source : Term.Fragment) (rule : Rule) : Prop
    extends rule.Bare where
  within : rule.lhs.Within source
  shaped : rule.lhs.Everywhere Term.Shaped
  bound : ∀ v ∈ rule.allVars, v ∈ rule.lhs.vars
  plain : ∀ part ∈ [rule.rhs, rule.requires, rule.ensures], part.Within sig.plain

section Assignments

variable {sig : Signature} {s s' : Subst} {term : Term} {rule : Rule} {state : State}

theorem Subst.Concrete.fitting (concrete : s.Concrete sig) : s.Fitting sig.plain :=
  ⟨concrete.sorted, fun v term bound => ⟨concrete.canonical v term bound, concrete.plain v term bound,
    Signature.shaped_of_check (concrete.checked v term bound)⟩⟩

private theorem Subst.Concrete.check_image (concrete : s.Concrete sig) (v : Variable) :
    sig.check (s.image v) = .ok () := by
  cases bound : s.get? v with
  | none =>
    rw [Subst.image_of_get?_none bound]
    rfl
  | some term => simpa [Subst.image, bound] using concrete.checked v term bound

theorem State.Narrows.proper (narrows : state.Narrows sig) :
    state.term.Proper ((sig.declared.and sig.constructors).and sig.plain) :=
  ((Signature.proper_of_check narrows.canonical narrows.checked).and narrows.built).and narrows.plain

theorem Rule.Narrows.regular (narrows : rule.Narrows sig) (checked : sig.check rule.lhs = .ok ()) :
    rule.Regular sig ((sig.declared.and sig.constructors).and sig.plain) :=
  { narrows with
    within := (Term.Within.both (Signature.within_declared checked) narrows.built).both
      (narrows.plain rule.lhs (by simp))
    shaped := Signature.shaped_of_check checked
    plain := fun part member => narrows.plain part (List.mem_cons_of_mem _ member) }

theorem Constraint.Fulfilled.holds_valuation {c : Constraint} {loose : String → Prop}
    (fulfilled : c.Fulfilled sig loose (sig.valuation s)) : c.Holds sig s :=
  ⟨fulfilled.consistent, fun atom member => Atom.holds_iff.mpr (fulfilled.holds atom member)⟩

/-- Evaluation does not see a substitution that an assignment absorbs. -/
theorem Signature.absorbs_valuation {other : Subst} (canonical : other.Canonical)
    (absorbs : s.algebra.Absorbs other) : (sig.valuation s).Absorbs other := by
  intro v
  rw [← sig.evalBuiltins_apply, Subst.apply_eq_fold_algebra s (canonical.image v), absorbs v]
  rfl

end Assignments

namespace Rule

variable {sig : Signature} {target : Term.Fragment} {apart s s' θ : Subst} {term : Term} {rule : Rule}
  {fresh : Fresh} {vars : List Variable}

theorem nodup_eraseDups {α : Type} [DecidableEq α] (items : List α) : items.eraseDups.Nodup := by
  match items with
  | [] => simp
  | item :: rest =>
    rw [List.eraseDups_cons]
    refine List.nodup_cons.mpr ⟨?_, nodup_eraseDups _⟩
    simp [List.mem_eraseDups]
termination_by items.length
decreasing_by exact Nat.lt_succ_of_le (List.length_filter_le _ _)

theorem mem_allVars_of_lhs {v : Variable} (occurs : v ∈ rule.lhs.vars) : v ∈ rule.allVars := by
  simp [allVars, occurs]

/-- Renaming a rule apart. -/
theorem renames_renameApart (rule : Rule) (fresh : Fresh)
    (unwrapped : (rule.renameApart fresh).2.position ≤ 2 ^ 64) :
    Renames (freshRenaming rule.allVars fresh).1 rule.allVars fresh (rule.renameApart fresh).2 :=
  (renames_freshRenaming (nodup_eraseDups _) fresh unwrapped).2

/-- Each variable went to a new one, which has the value that `θ` gives to the old one. -/
def Carries (apart s θ : Subst) (vars : List Variable) : Prop :=
  ∀ v ∈ vars, ∃ w term, apart.get? v = some (.var w) ∧ s.get? w = some term ∧ θ.get? v = some term

/-- A renamed term has the values of the term, if its new variables have those of the old ones. -/
theorem fold_renamed {algebra : Term.Algebra Term} {onVar : Variable → Term}
    (normalizing : algebra.Normalizing)
    (same : ∀ v ∈ term.vars, ∃ w, apart.get? v = some (.var w) ∧ algebra.var w = onVar v) :
    (apart.apply term).fold algebra = term.fold { algebra with var := onVar } := by
  rw [normalizing.fold_apply]
  refine @Term.fold_congr _ (algebra.after apart) onVar term fun v occurs => ?_
  obtain ⟨w, renamed, valued⟩ := same v occurs
  have image : apart.image v = .var w := by rw [Subst.image, renamed, Option.getD_some]
  change (apart.image v).fold algebra = onVar v
  rw [image, Term.fold_var, valued]

theorem Carries.image (carries : Carries apart s θ vars) {v : Variable} (member : v ∈ vars) :
    ∃ w, apart.get? v = some (.var w) ∧ s.image w = θ.image v := by
  obtain ⟨w, term, renamed, valued, given⟩ := carries v member
  exact ⟨w, renamed, by rw [Subst.image, Subst.image, valued, given]; rfl⟩

/-- The renamed rule evaluates as the rule does under its match. -/
theorem Carries.fold_valuation (carries : Carries apart s θ vars) (inside : ∀ v ∈ term.vars, v ∈ vars) :
    (apart.apply term).fold (sig.valuation s) = term.fold (sig.valuation θ) := by
  refine fold_renamed (sig.normalizing_valuation s) fun v occurs => ?_
  obtain ⟨w, renamed, valued⟩ := carries.image (inside v occurs)
  exact ⟨w, renamed, congrArg sig.evalBuiltins valued⟩

/-- The renamed left-hand side goes where the left-hand side goes under its match. -/
theorem Carries.fold_algebra (carries : Carries apart s θ vars) (inside : ∀ v ∈ term.vars, v ∈ vars)
    (canonical : s.Canonical) : (apart.apply term).fold s.algebra = term.fold θ.algebra :=
  fold_renamed canonical.normalizing fun v occurs => carries.image (inside v occurs)

theorem Carries.apply_apply (carries : Carries apart s θ vars) (inside : ∀ v ∈ term.vars, v ∈ vars)
    (names : apart.Canonical) (canonical : s.Canonical) (whole : term.Canonical) :
    s.apply (apart.apply term) = θ.apply term := by
  rw [Subst.apply_eq_fold_algebra s (names.apply whole), Subst.apply_eq_fold_algebra θ whole]
  exact carries.fold_algebra inside canonical

section Renaming

variable {first last : Fresh} {fragment : Term.Fragment} (renames : Renames apart vars first last)
include renames

theorem Renames.get? {v : Variable} {image : Term} (found : apart.get? v = some image) :
    ∃ w, image = .var w ∧ w.sort = v.sort ∧ Fresh.Between first last w := by
  by_cases member : v ∈ vars
  · obtain ⟨w, renamed, sort, drawn⟩ := renames.bound v member
    exact ⟨w, Option.some.inj (found.symm.trans renamed), sort, drawn⟩
  · rw [renames.free v member] at found
    cases found

theorem Renames.canonical : apart.Canonical := by
  intro v image found
  obtain ⟨w, rfl, _⟩ := renames.get? found
  exact .var w

theorem Renames.sorted : apart.Sorted := by
  intro v image found
  obtain ⟨w, rfl, sort, _⟩ := renames.get? found
  exact (congrArg v.sort.accepts sort).trans (TermSort.accepts_self v.sort)

private theorem Renames.plain_apply (plain : term.Within sig.plain) : (apart.apply term).Within sig.plain := by
  refine Term.Within.apply plain fun v _ => ?_
  cases found : apart.get? v with
  | none =>
    rw [Subst.image_of_get?_none found]
    exact Term.Everywhere.var_iff.mpr trivial
  | some image =>
    obtain ⟨w, rfl, _⟩ := renames.get? found
    rw [Subst.image, found]
    exact Term.Everywhere.var_iff.mpr trivial

/-- Renaming puts a term in canonical form, unless nothing is renamed. -/
theorem Renames.apply_eq_fold (settled : term.ground = true → term.Canonical)
    (inside : ∀ v ∈ term.vars, v ∈ vars) : apart.apply term = term.fold apart.algebra := by
  by_cases ground : term.ground = true
  · exact Subst.apply_eq_fold_algebra apart (settled ground)
  · obtain ⟨v, occurs⟩ := List.exists_mem_of_ne_nil term.vars (mt (Term.ground_iff_vars_eq_nil term).mpr ground)
    obtain ⟨w, renamed, _⟩ := renames.bound v (inside v occurs)
    refine Subst.apply_eq_fold (Bool.eq_false_iff.mpr fun empty => ?_) term
    rw [Assoc.isEmpty_iff.mp empty v] at renamed
    cases renamed

/-- A renamed term has no names that are still to be drawn. -/
theorem Renames.proper_fold (within : term.Within fragment) (shaped : term.Everywhere Term.Shaped)
    (inside : ∀ v ∈ term.vars, v ∈ vars) :
    (term.fold apart.algebra).Proper (Unification.upTo fragment last) := by
  have images : ∀ v ∈ term.vars, ∃ w, apart.image v = .var w ∧ last.Avoids w := by
    intro v occurs
    obtain ⟨w, renamed, _, drawn⟩ := renames.bound v (inside v occurs)
    exact ⟨w, Subst.image_of_get? renamed, drawn.avoids⟩
  refine ⟨renames.canonical.normalizing.canonical term, ?_, ?_⟩
  · refine Term.Within.fold_algebra (within.mono fun node allowed => ?_) fun v occurs => ?_
    · cases node with
      | var v => trivial
      | _ => exact allowed
    · obtain ⟨w, image, avoids⟩ := images v occurs
      rw [image]
      exact Term.Everywhere.var_iff.mpr avoids
  · refine (Term.shaped_fold_algebra renames.sorted renames.canonical shaped fun v occurs => ?_).1
    obtain ⟨w, image, _⟩ := images v occurs
    rw [image]
    exact Term.Everywhere.var_iff.mpr trivial

theorem Renames.proper_apply (proper : term.Proper fragment) (inside : ∀ v ∈ term.vars, v ∈ vars) :
    (apart.apply term).Proper (Unification.upTo fragment last) := by
  rw [Subst.apply_eq_fold_algebra apart proper.canonical]
  exact renames.proper_fold proper.within proper.shaped inside

end Renaming

/-- The values of a match can be given to the renamed variables, beside an assignment of others. -/
theorem exists_carries {first last : Fresh} (fitting : s.Fitting target) (matching : θ.Fitting target)
    (renamed : ∀ v ∈ vars, ∃ w, apart.get? v = some (.var w) ∧ w.sort = v.sort ∧
      Fresh.Between first last w)
    (injective : ∀ v ∈ vars, ∀ w ∈ vars, apart.get? v = apart.get? w → v = w)
    (bound : ∀ v ∈ vars, ∃ term, θ.get? v = some term) :
    ∃ merged : Subst, merged.Fitting target ∧ Carries apart merged θ vars ∧
      ∀ v, first.Avoids v → merged.get? v = s.get? v := by
  induction vars with
  | nil => exact ⟨s, fitting, nofun, fun _ _ => rfl⟩
  | cons v rest ih =>
    obtain ⟨⟨w, found, sort, drawn⟩, renamedRest⟩ := List.forall_mem_cons.mp renamed
    obtain ⟨⟨term, given⟩, boundRest⟩ := List.forall_mem_cons.mp bound
    obtain ⟨merged, mergedFitting, carries, agree⟩ := ih renamedRest
      (fun u memberU u' memberU' => injective u (List.mem_cons_of_mem _ memberU) u'
        (List.mem_cons_of_mem _ memberU')) boundRest
    have accepted : w.sort.accepts term.sort = true := sort ▸ matching.sorted v term given
    refine ⟨merged.insert w term, mergedFitting.insert (matching.proper v term given) accepted,
      fun u member => ?_, fun u avoids => ?_⟩
    · by_cases same : u = v
      · subst same
        exact ⟨w, term, found, by rw [Assoc.get?_insert, if_pos rfl], given⟩
      · have member := (List.mem_cons.mp member).resolve_left same
        obtain ⟨w', term', found', valued, given'⟩ := carries u member
        refine ⟨w', term', found', ?_, given'⟩
        rw [Assoc.get?_insert, if_neg, valued]
        rintro rfl
        exact same (injective u (List.mem_cons_of_mem _ member) v List.mem_cons_self
          (found'.trans found.symm))
    · rw [Assoc.get?_insert, if_neg (avoids.ne_of_between drawn)]
      exact agree u avoids

end Rule

namespace Engine

variable {sig : Signature} {rules : List Rule} {context : Context} {world after : World}
  {rule : Rule} {state : State} {unifier : Unifier} {s : Subst}

/-- Where terms have these values, the bindings of a unifier and the equations that it leaves open are
true. -/
structure Solves (sig : Signature) (algebra : Term.Algebra Term) (unifier : Unifier) : Prop where
  absorbs : algebra.Absorbs unifier.subst
  equates : ∀ goal ∈ unifier.residual, algebra.Equates goal
  bound : ∀ v term, unifier.subst.get? v = some term → term.Proper sig.plain
  sides : ∀ goal ∈ unifier.residual, goal.1.Within sig.plain ∧ goal.2.Within sig.plain

namespace Solves

variable {algebra : Term.Algebra Term} (solves : Solves sig algebra unifier)
include solves

theorem plain_image (v : Variable) : (unifier.subst.image v).Within sig.plain := by
  cases found : unifier.subst.get? v with
  | none =>
    rw [Subst.image_of_get?_none found]
    exact Term.Everywhere.var_iff.mpr trivial
  | some term => simpa [Subst.image, found] using (solves.bound v term found).within

/-- What a part of a rule evaluates to under the unifier has the value of the part. -/
theorem fold_evaluated (respects : algebra.Respects sig fun _ => False) {term : Term}
    (plain : term.Within sig.plain) :
    (sig.evalBuiltins (unifier.subst.apply term)).fold algebra = term.fold algebra ∧
      (sig.evalBuiltins (unifier.subst.apply term)).Everywhere (sig.Stable fun _ => False) := by
  have plainImage := Term.Within.apply plain fun v _ => solves.plain_image v
  have stable := Signature.stable_of_plain plainImage
  refine ⟨?_, Signature.stable_evalBuiltins stable⟩
  rw [Signature.fold_evalBuiltins respects stable, solves.absorbs.fold_apply respects.normalizing]

omit solves in
theorem get?_of_narrowing {v : Variable} {term : Term}
    (found : (fitOf state unifier).narrowing.get? v = some term) :
    unifier.subst.get? v = some term := by
  rw [fitOf, Assoc.get?_restrict] at found
  split at found
  · exact found
  · cases found

theorem absorbs_narrowing : algebra.Absorbs (fitOf state unifier).narrowing := by
  intro v
  cases found : (fitOf state unifier).narrowing.get? v with
  | none =>
    rw [Subst.image_of_get?_none found]
    rfl
  | some term =>
    have absorbed := solves.absorbs v
    rwa [Subst.image_congr (found.trans (get?_of_narrowing found).symm)]

theorem plain_narrowing (v : Variable) : ((fitOf state unifier).narrowing.image v).Within sig.plain := by
  cases found : (fitOf state unifier).narrowing.get? v with
  | none =>
    rw [Subst.image_of_get?_none found]
    exact Term.Everywhere.var_iff.mpr trivial
  | some term =>
    rw [Subst.image_congr (found.trans (get?_of_narrowing found).symm)]
    exact solves.plain_image v

/-- The equations of the narrowing are true. -/
theorem fulfilled_narrowingEquations :
    (narrowingEquations (fitOf state unifier).narrowing).Fulfilled sig (fun _ => False) algebra := by
  have each : ∀ entry ∈ (fitOf state unifier).narrowing.entries,
      (Atom.eq (.var entry.1) entry.2).HoldsIn algebra ∧
        (Atom.eq (.var entry.1) entry.2).Stable sig fun _ => False := by
    intro ⟨v, term⟩ member
    have found := Assoc.get?_eq_some_iff.mpr member
    have image : (fitOf state unifier).narrowing.image v = term := by
      rw [Subst.image, found, Option.getD_some]
    refine ⟨?_, fun part inside => ?_⟩
    · have absorbed := @absorbs_narrowing sig state unifier algebra solves v
      rw [image] at absorbed
      exact absorbed.symm
    · rcases List.mem_pair.mp inside with rfl | rfl
      · exact Term.Everywhere.var_iff.mpr trivial
      · exact Signature.stable_of_plain (image ▸ solves.plain_narrowing v)
  have start : Constraint.top.Fulfilled sig (fun _ => False) algebra := Constraint.fulfilled_top
  unfold narrowingEquations
  generalize Constraint.top = c at start
  generalize (fitOf state unifier).narrowing.entries = entries at each
  induction entries generalizing c with
  | nil => exact start
  | cons entry rest ih =>
    obtain ⟨⟨holds, stable⟩, later⟩ := List.forall_mem_cons.mp each
    exact ih _ (start.conjoinEq holds stable) later

/-- The equations that are left open are true. -/
theorem fulfilled_residualEquations (normalizing : algebra.Normalizing) :
    (residualEquations unifier.subst unifier.residual).Fulfilled sig (fun _ => False) algebra := by
  have each : ∀ goal ∈ unifier.residual,
      (Atom.eq (unifier.subst.apply goal.1) (unifier.subst.apply goal.2)).HoldsIn algebra ∧
        (Atom.eq (unifier.subst.apply goal.1) (unifier.subst.apply goal.2)).Stable sig
          fun _ => False := by
    intro goal member
    have stable {side : Term} (plain : side.Within sig.plain) :
        (unifier.subst.apply side).Everywhere (sig.Stable fun _ => False) :=
      Signature.stable_of_plain (Term.Within.apply plain fun v _ => solves.plain_image v)
    refine ⟨?_, fun part inside => ?_⟩
    · rw [Atom.HoldsIn, solves.absorbs.fold_apply normalizing, solves.absorbs.fold_apply normalizing]
      exact solves.equates goal member
    · rcases List.mem_pair.mp inside with rfl | rfl
      · exact stable (solves.sides goal member).1
      · exact stable (solves.sides goal member).2
  have start : Constraint.top.Fulfilled sig (fun _ => False) algebra := Constraint.fulfilled_top
  unfold residualEquations
  generalize Constraint.top = c at start
  generalize unifier.residual = goals at each
  induction goals generalizing c with
  | nil => exact start
  | cons goal rest ih =>
    obtain ⟨⟨holds, stable⟩, later⟩ := List.forall_mem_cons.mp each
    exact ih _ (start.conjoinEq holds stable) later

end Solves

/-- A rule whose conditions are true where the unification is solved has a successor that is an instance
of the right-hand side there. -/
theorem covers_successor? {algebra : Term.Algebra Term}
    (collects : context.definition.Collects sig rules)
    (builtins : sig.HasBuiltins) (bare : rule.Bare)
    (plain : ∀ part ∈ [rule.rhs, rule.requires, rule.ensures], part.Within sig.plain)
    (standard : world.store.Standard sig) (respects : algebra.Respects sig fun _ => False)
    (valued : ∀ v, sig.Stable (fun _ => False) (algebra.var v)) (solves : Solves sig algebra unifier)
    (fulfilled : state.constraint.Fulfilled sig (fun _ => False) algebra)
    (requires : rule.requires.fold algebra = .truth) (ensures : rule.ensures.fold algebra = .truth)
    {outcome : Option Successor}
    (gives : Gives (successor? rule state (fitOf state unifier) unifier.subst) context world outcome
      after) :
    ∃ next, outcome = some next ∧ next.rule = rule.label ∧
      next.narrowing = (fitOf state unifier).narrowing ∧
      next.condition.Fulfilled sig (fun _ => False) algebra ∧
      next.state.constraint.Fulfilled sig (fun _ => False) algebra ∧
      next.state.term.fold algebra = rule.rhs.fold algebra := by
  have normalizing := respects.normalizing
  obtain ⟨required, answer, evaluated, asked, rest⟩ := (gives_successor? bare).mp gives
  simp only [collects.evaluate] at evaluated rest
  cases evaluated
  obtain ⟨sameRequires, stableRequires⟩ := solves.fold_evaluated respects (plain rule.requires (by simp))
  have guarded : (guard (fitOf state unifier) unifier.subst
      (sig.evalBuiltins (unifier.subst.apply rule.requires))).Fulfilled sig (fun _ => False) algebra :=
    (solves.fulfilled_residualEquations normalizing).conjoin builtins respects
      (sameRequires.trans requires) stableRequires
  have known : (narrowed state (fitOf state unifier) unifier.subst
      (sig.evalBuiltins (unifier.subst.apply rule.requires))).Fulfilled sig (fun _ => False) algebra :=
    (fulfilled.substitute normalizing solves.absorbs_narrowing
      (fun v => Signature.stable_of_plain (solves.plain_narrowing v))
      fun _ => Signature.within_without _).and guarded
  -- The store has no reason to refuse what is true somewhere.
  have granted : answer = true := by
    obtain ⟨answered, _⟩ := gives_feasible.mp asked
    rw [collects.signature, standard.feasible_of_fulfilled builtins respects valued known] at answered
    exact (Except.ok.inj answered).symm
  subst granted
  obtain ⟨term, ensured, target, promised, made⟩ := rest
  cases target
  cases promised
  obtain ⟨sameEnsures, stableEnsures⟩ := solves.fold_evaluated respects (plain rule.ensures (by simp))
  have final : (assumed sig state (fitOf state unifier) unifier.subst _ _).Fulfilled sig
      (fun _ => False) algebra :=
    (known.conjoin builtins respects (sameEnsures.trans ensures) stableEnsures).simplify builtins
      respects
  have consistent : (assumed sig state (fitOf state unifier) unifier.subst _ _).isFalse = false :=
    final.consistent
  simp only [produced, collects.signature, consistent, Bool.false_eq_true, ↓reduceIte] at made
  exact ⟨_, made, rfl, rfl, solves.fulfilled_narrowingEquations.and guarded,
    final.project normalizing _, (solves.fold_evaluated respects (plain rule.rhs (by simp))).1⟩

/-- Constructor terms without builtins on maps. -/
theorem constructed_plain (sig : Signature) :
    ((sig.declared.and sig.constructors).and sig.plain).Constructed sig sig.plain where
  free _ _ allowed := allowed.1.2
  labelled first second := Signature.sort_eq_of_declared first.1.1 second.1.1
  countable _ allowed := allowed.1.2
  var _ := trivial
  label _ _ allowed := allowed.2
  token _ _ allowed := allowed.2
  kind _ _ := trivial

section Covering

variable {source target : Term.Fragment} {θ : Subst} {result : List Successor}

/-- A match of a left-hand side binds its variables to parts of the subject. -/
theorem fitting_of_isInstance {subject : Term} (proper : subject.Proper target)
    (matched : Matching.IsInstance .empty rule.lhs subject θ) :
    θ.Fitting target ∧ ∀ v ∈ rule.lhs.vars, ∃ term, θ.get? v = some term := by
  have yields : rule.lhs.fold θ.algebra = subject := matched.yields
  refine ⟨⟨fun v term found => matched.extension.sorted v term rfl found, fun v term found => ?_⟩, ?_⟩
  · have occurs : v ∈ rule.lhs.vars := by
      simpa using (matched.extension.domain v).mp (Option.isSome_of_mem found)
    have image := Term.Proper.image_of_fold matched.canonical (yields ▸ proper) occurs
    rwa [Subst.image_of_get? found] at image
  · intro v occurs
    exact Option.isSome_iff_exists.mp ((matched.extension.domain v).mpr (.inr occurs))

/-- The constraint of a state is fulfilled by what agrees with an assignment that fulfills it. -/
theorem fulfilled_of_agree {s' : Subst} {c : Constraint}
    (fulfilled : c.Fulfilled sig (fun _ => False) (sig.valuation s))
    (agree : ∀ atom ∈ c.atoms, ∀ v ∈ atom.vars, s'.image v = s.image v) :
    c.Fulfilled sig (fun _ => False) (sig.valuation s') :=
  ⟨fulfilled.consistent, fun atom member => (Atom.holdsIn_congr (agree atom member)).mpr
    (fulfilled.holds atom member), fulfilled.stable⟩

/-- An assignment and a match of a rule with an instance of a term make one assignment, under which the
renamed left-hand side and the term are the same. -/
theorem exists_merged {term : Term} {fresh : Fresh} (bound : ∀ v ∈ rule.allVars, v ∈ rule.lhs.vars)
    (whole : term.Canonical) (proper : (s.apply term).Proper target)
    (avoids : ∀ v ∈ term.vars, fresh.Avoids v) (fitting : s.Fitting target)
    (matched : Matching.IsInstance .empty rule.lhs (s.apply term) θ)
    (unwrapped : (rule.renameApart fresh).2.position ≤ 2 ^ 64) :
    ∃ merged : Subst, merged.Fitting target ∧
      Rule.Carries (Rule.freshRenaming rule.allVars fresh).1 merged θ rule.allVars ∧
      (∀ v, fresh.Avoids v → merged.get? v = s.get? v) ∧
      (rule.renameApart fresh).1.lhs = rule.lhs.fold (Rule.freshRenaming rule.allVars fresh).1.algebra ∧
      merged.apply (rule.renameApart fresh).1.lhs = merged.apply term := by
  obtain ⟨matching, given⟩ := fitting_of_isInstance proper matched
  have renames := rule.renames_renameApart fresh unwrapped
  have renamed : (rule.renameApart fresh).1.lhs = _ :=
    renames.apply_eq_fold (fun ground => matched.whole ground ▸ proper.canonical)
      fun v => Rule.mem_allVars_of_lhs
  have canonical : (rule.renameApart fresh).1.lhs.Canonical := by
    rw [renamed]
    exact renames.canonical.normalizing.canonical rule.lhs
  obtain ⟨merged, mergedFitting, carries, agree⟩ := Rule.exists_carries fitting matching renames.bound
    renames.injective fun v member => given v (bound v member)
  refine ⟨merged, mergedFitting, carries, agree, renamed, ?_⟩
  calc
    merged.apply (rule.renameApart fresh).1.lhs = (rule.renameApart fresh).1.lhs.fold merged.algebra :=
      Subst.apply_eq_fold_algebra merged canonical
    _ = rule.lhs.fold θ.algebra :=
      carries.fold_algebra (fun v => Rule.mem_allVars_of_lhs) mergedFitting.canonical
    _ = s.apply term := matched.yields
    _ = merged.apply term := Subst.apply_congr whole fun v occurs =>
      (Subst.image_congr (agree v (avoids v occurs))).symm

variable (constructed : source.Constructed sig target)
  (weaker : ∀ node, target.allows node → sig.plain.allows node)
include constructed weaker

/-- An assignment under which a rule matches is, together with the match, an instance of a unifier of
the renamed rule and the state. -/
theorem exists_solves {fresh last : Fresh} {budget : Nat} {explore : Fresh → Unifiers}
    (regular : rule.Regular sig source) (proper : state.term.Proper source)
    (avoids : ∀ v ∈ state.term.vars, fresh.Avoids v) (fitting : s.Fitting target)
    (matched : Matching.IsInstance .empty rule.lhs (s.apply state.term) θ)
    (started : unify sig budget (rule.renameApart fresh).1.lhs state.term = .ok explore)
    (ends : (explore (rule.renameApart fresh).2).Ends last) (unwrapped : last.position ≤ 2 ^ 64) :
    ∃ unifier s', (explore (rule.renameApart fresh).2).Delivers unifier ∧
      Solves sig (sig.valuation s') unifier ∧ s'.Fitting target ∧ (∀ v, fresh.Avoids v → s'.get? v = s.get? v) ∧
      Rule.Carries (Rule.freshRenaming rule.allVars fresh).1 s' θ rule.allVars := by
  have later := position_renameApart rule fresh
  have forward := (position_of_ends started ends).trans unwrapped
  have renames := rule.renames_renameApart fresh forward
  obtain ⟨merged, mergedFitting, carries, agree, renamed, same⟩ := exists_merged regular.bound
    proper.canonical (fitting.apply (constructed.proper proper)) avoids fitting matched forward
  obtain ⟨unifier, s', delivered, inst⟩ := unify_complete constructed
    (renamed ▸ renames.proper_fold regular.within regular.shaped fun v => Rule.mem_allVars_of_lhs)
    ⟨proper.canonical, Term.within_upTo proper.within fun v occurs => (avoids v occurs).mono later,
      proper.shaped⟩
    mergedFitting same started ends unwrapped
  have solves : Solves sig (sig.valuation s') unifier :=
    { absorbs := Signature.absorbs_valuation (fun v term found => (inst.bound v term found).canonical)
        inst.absorbs
      equates := by simp [inst.closed]
      bound := fun v term found => (inst.bound v term found).mono weaker
      sides := by simp [inst.closed] }
  refine ⟨unifier, s', delivered, solves, inst.fitting,
    fun v avoided => (inst.agree v (avoided.mono later)).trans (agree v avoided), fun v member => ?_⟩
  obtain ⟨w, term, renamed, valued, given⟩ := carries v member
  obtain ⟨_, shape, _, drawn⟩ := renames.get? renamed
  cases shape
  exact ⟨w, term, renamed, (inst.agree w drawn.avoids).trans valued, given⟩

omit weaker in
private theorem compatible_of_isInstance (shaped : rule.lhs.Everywhere Term.Shaped)
    (proper : state.term.Proper source) (fitting : s.Fitting target)
    (matched : Matching.IsInstance .empty rule.lhs (s.apply state.term) θ) :
    rule.lhs.sort.compatible state.term.sort = true := by
  obtain ⟨matching, _⟩ := fitting_of_isInstance (fitting.apply (constructed.proper proper)) matched
  have left := (Term.shaped_fold_algebra matching.sorted matching.canonical shaped fun v _ =>
    (matching.image (constructed.var v)).shaped).2
  rw [show rule.lhs.fold θ.algebra = s.apply state.term from matched.yields] at left
  simpa [TermSort.compatible] using
    Unification.accepts_or_accepts left (fitting.sorted.apply proper.canonical)

/-- What the rule gives under its match is an instance of a successor under the rule. -/
theorem covers_applyRule (collects : context.definition.Collects sig rules)
    (builtins : sig.HasBuiltins) (regular : rule.Regular sig source)
    (proper : state.term.Proper source) (standard : world.store.Standard sig)
    (avoids : ∀ v ∈ state.freeVars, world.fresh.Avoids v) (unwrapped : after.fresh.position ≤ 2 ^ 64)
    (fitting : s.Fitting target)
    (fulfilled : state.constraint.Fulfilled sig (fun _ => False) (sig.valuation s))
    (matched : Matching.IsInstance .empty rule.lhs (s.apply state.term) θ)
    (requires : sig.evalBuiltins (θ.apply rule.requires) = .truth)
    (ensures : sig.evalBuiltins (θ.apply rule.ensures) = .truth)
    (gives : Gives (applyRule rule state .unifying none) context world result after) :
    ∃ next ∈ result, next.rule = rule.label ∧ ∃ s' : Subst, s'.Fitting target ∧
      (∀ v, world.fresh.Avoids v → s'.get? v = s.get? v) ∧ (sig.valuation s').Absorbs next.narrowing ∧
      next.condition.Fulfilled sig (fun _ => False) (sig.valuation s') ∧
      next.state.constraint.Fulfilled sig (fun _ => False) (sig.valuation s') ∧
      sig.evalBuiltins (s'.apply next.state.term) = sig.evalBuiltins (θ.apply rule.rhs) := by
  rcases of_gives_applyRule gives with ⟨incompatible, _⟩ | ⟨explore, started, gives⟩
  · have compatible := compatible_of_isInstance constructed regular.shaped proper fitting matched
    cases compatible.symm.trans incompatible
  rw [collects.signature] at started
  obtain ⟨ends, _, _, turns, _⟩ := of_gives_addUnifiers (regular.toBare.renameApart world.fresh) gives
  rw [collects.signature] at turns
  obtain ⟨unifier, s', delivered, solves, fitting', agree, carries⟩ := exists_solves constructed weaker
    regular proper (fun v occurs => avoids v (by simp [State.freeVars, occurs])) fitting matched started
    ends unwrapped
  obtain ⟨first, second, outcome, firstStandard, made, kept⟩ := turns standard unifier delivered
  have fulfilled' : state.constraint.Fulfilled sig (fun _ => False) (sig.valuation s') := by
    refine fulfilled_of_agree fulfilled fun atom member v occurs => ?_
    exact Subst.image_congr (agree v (avoids v (State.mem_freeVars.mpr (.inr ⟨atom, member, occurs⟩))))
  have renames := rule.renames_renameApart world.fresh ((position_of_ends started ends).trans unwrapped)
  have plain {part : Term} (member : part ∈ [rule.rhs, rule.requires, rule.ensures]) :
      ((Rule.freshRenaming rule.allVars world.fresh).1.apply part).Within sig.plain :=
    renames.plain_apply (regular.plain part member)
  have value {part : Term} (inside : ∀ v ∈ part.vars, v ∈ rule.allVars) :
      ((Rule.freshRenaming rule.allVars world.fresh).1.apply part).fold (sig.valuation s') =
        sig.evalBuiltins (θ.apply part) :=
    (carries.fold_valuation inside).trans (sig.evalBuiltins_apply θ part).symm
  obtain ⟨next, rfl, label, narrowing, condition, constraint, term⟩ := covers_successor? collects
    builtins (regular.toBare.renameApart world.fresh)
    (by simpa [Rule.renameApart, Rule.substitute] using ⟨plain (by simp), plain (by simp), plain (by simp)⟩)
    firstStandard (sig.respects_valuation s') (fun v => (Signature.stable_evalBuiltins
      (Signature.stable_of_plain ((fitting'.image (constructed.var _)).within.mono weaker))).here) solves
    fulfilled'
    ((value fun v occurs => by simp [Rule.allVars, occurs]).trans requires)
    ((value fun v occurs => by simp [Rule.allVars, occurs]).trans ensures) made
  refine ⟨next, kept next rfl, label, s', fitting', agree, narrowing ▸ solves.absorbs_narrowing,
    condition, constraint, ?_⟩
  rw [sig.evalBuiltins_apply, term]
  exact value fun v occurs => by simp [Rule.allVars, occurs]

end Covering

/-- A rule that matches an instance of a term is tried on the term. -/
theorem mem_tried_of_yields {d : Definition} {term : Term} {θ : Subst} (filed : d.Filed)
    (member : rule ∈ d.rules) (canonical : term.Canonical)
    (matched : Matching.Yields θ (rule.lhs, s.apply term)) : rule ∈ tried d term := by
  have named {label : String} (head : rule.lhs.label? = some label) :
      (s.apply term).label? = some label := by
    rw [← show rule.lhs.fold θ.algebra = s.apply term from matched]
    cases shape : rule.lhs with
    | app other sort args =>
      rw [shape] at head
      rw [Term.fold_app]
      exact head
    | _ =>
      rw [shape] at head
      cases head
  cases term with
  | var v => exact member
  | app label sort args =>
    refine filed.mem_candidates member ?_
    cases head : rule.lhs.label? with
    | none => exact .inl rfl
    | some other =>
      have same := named head
      rw [Subst.apply_app_eq] at same
      exact .inr (congrArg some (Option.some.inj same).symm)
  | token sort value =>
    refine filed.mem_candidates member (.inl (Option.eq_none_iff_forall_ne_some.mpr ?_))
    intro label head
    have same := named head
    rw [Subst.apply_token_eq] at same
    cases same
  | collection kind entries frame =>
    refine filed.mem_candidates member (.inl (Option.eq_none_iff_forall_ne_some.mpr ?_))
    intro label head
    have same := named head
    have collected := Subst.kind?_apply (s := s) canonical
    cases shape : s.apply (.collection kind entries frame) with
    | app other sort args =>
      rw [shape] at collected
      cases collected
    | _ =>
      rw [shape] at same
      cases same

/-- A step covers what every rule gives under its matches with an instance of the state. -/
theorem covers_step {source target : Term.Fragment} {θ : Subst} {successors : List Successor}
    (constructed : source.Constructed sig target)
    (weaker : ∀ node, target.allows node → sig.plain.allows node)
    (collects : context.definition.Collects sig rules) (builtins : sig.HasBuiltins)
    (regular : ∀ rule ∈ rules, rule.Regular sig source) (proper : state.term.Proper source)
    (standard : world.store.Standard sig) (avoids : ∀ v ∈ state.freeVars, world.fresh.Avoids v)
    (unwrapped : after.fresh.position ≤ 2 ^ 64) (fitting : s.Fitting target)
    (fulfilled : state.constraint.Fulfilled sig (fun _ => False) (sig.valuation s))
    (member : rule ∈ rules) (matched : Matching.IsInstance .empty rule.lhs (s.apply state.term) θ)
    (requires : sig.evalBuiltins (θ.apply rule.requires) = .truth)
    (ensures : sig.evalBuiltins (θ.apply rule.ensures) = .truth)
    (gives : Gives (step state .unifying) context world successors after) :
    ∃ next ∈ successors, next.rule = rule.label ∧ ∃ s' : Subst, s'.Fitting target ∧
      (∀ v, world.fresh.Avoids v → s'.get? v = s.get? v) ∧ (sig.valuation s').Absorbs next.narrowing ∧
      next.condition.Fulfilled sig (fun _ => False) (sig.valuation s') ∧
      next.state.constraint.Fulfilled sig (fun _ => False) (sig.valuation s') ∧
      sig.evalBuiltins (s'.apply next.state.term) = sig.evalBuiltins (θ.apply rule.rhs) := by
  obtain ⟨results, made, rfl⟩ := gives_step.mp gives
  have isTried : rule ∈ tried context.definition state.term :=
    mem_tried_of_yields collects.filed (collects.rules ▸ member) proper.canonical matched.yields
  have leads : ∀ rule ∈ tried context.definition state.term, ∀ world value after,
      Gives (applyRule rule state .unifying none) context world value after →
        world.Leads sig after := by
    intro rule tried world value after given
    have member := collects.rules ▸ mem_rules_of_mem_tried tried
    exact collects.signature ▸ leads_of_gives_applyRule (regular rule member).toBare given
  obtain ⟨_, turns⟩ := of_gives_mapM leads made
  obtain ⟨first, second, value, listed, before, given, behind⟩ := turns rule isTried
  obtain ⟨next, present, label, s', fitting', agree, covered⟩ := covers_applyRule constructed weaker
    collects builtins (regular rule member) proper (before.standard standard)
    (fun v occurs => (avoids v occurs).mono before.forward) (behind.forward.trans unwrapped) fitting
    fulfilled matched requires ensures given
  exact ⟨next, List.mem_flatten.mpr ⟨value, listed, present⟩, label, s', fitting',
    fun v avoided => agree v (avoided.mono before.forward), covered⟩

end Engine

theorem Rule.check_lhs {sig : Signature} {rule : Rule} (checked : rule.check sig = .ok ()) :
    sig.check rule.lhs = .ok () := by
  obtain ⟨terms, _⟩ := seq_eq_ok_iff.mp checked
  exact forM_eq_ok_iff.mp terms rule.lhs (by simp)

/-- A step covers the steps of the instances. The signature has constructors beside the builtins, the
rules and the state are made of constructors, lists and bags, the store is the standard one, and the
counter neither draws the name of a variable of the state nor wraps around. If a rule matches the
instance of the state under an assignment that satisfies its constraint, and its conditions are true,
some successor under that rule has an instance that extends the assignment and is the result. -/
theorem step_covers {decls : List Declaration} {sig : Signature} {rules : List Rule}
    {context : Context} {world after : World} {state : State} {successors : List Successor}
    {rule : Rule} {s θ : Subst} (declared : Signature.builtin.declareAll decls = .ok sig)
    (constructors : ∀ decl ∈ decls, decl.function = false ∧ decl.hook = none)
    (made : Definition.ofRules sig rules = .ok context.definition)
    (narrows : ∀ rule ∈ rules, rule.Narrows sig) (stateNarrows : state.Narrows sig)
    (standard : world.store.Standard sig) (avoids : ∀ v ∈ state.freeVars, world.fresh.Avoids v)
    (unwrapped : after.fresh.position ≤ 2 ^ 64) (concrete : s.Concrete sig)
    (holds : state.constraint.Holds sig s) (member : rule ∈ rules)
    (matched : θ ∈ (Matching.enumerate rule.lhs (s.apply state.term)).toList)
    (requires : context.definition.evaluate context.config.maxFunctionDepth
      (θ.apply rule.requires) = .ok .truth)
    (ensures : context.definition.evaluate context.config.maxFunctionDepth
      (θ.apply rule.ensures) = .ok .truth)
    (gives : Engine.Gives (Engine.step state .unifying) context world successors after) :
    ∃ next ∈ successors, next.rule = rule.label ∧ ∃ s' : Subst,
      (∀ v, world.fresh.Avoids v → s'.get? v = s.get? v) ∧
      next.condition.Holds sig s' ∧ next.state.constraint.Holds sig s' ∧
      sig.evalBuiltins (s'.apply next.state.term) = sig.evalBuiltins (θ.apply rule.rhs) := by
  have constructive := Signature.constructive_builtin.declareAll constructors declared
  have semantic : ∀ rule ∈ rules, ∀ label, rule.lhs.label? = some label →
      sig.isFunction label = false := by
    intro rule member label head
    have built := (narrows rule member).built
    cases shape : rule.lhs with
    | app other sort args =>
      rw [shape] at head built
      cases head
      exact built.here
    | _ =>
      rw [shape] at head
      cases head
  obtain ⟨collects, checked⟩ := Definition.collects_of_ofRules semantic made
  have checkedLhs := Rule.check_lhs (checked rule member)
  have unmapped : state.term.Within { kind := (· ≠ .map) } := by
    refine stateNarrows.built.mono fun node allowed => ?_
    cases node with
    | collection kind entries frame =>
      intro map
      subst map
      cases allowed
    | _ => trivial
  have checkedInstance : sig.check (s.apply state.term) = .ok () :=
    Signature.check_apply stateNarrows.canonical stateNarrows.checked unmapped concrete.sorted
      fun v _ => concrete.check_image v
  have empty : Subst.Canonical Assoc.empty := fun _ _ found => by cases found
  have isInstance := Matching.isInstance_of_mem (concrete.canonical.apply stateNarrows.canonical)
    checkedLhs checkedInstance empty matched
  simp only [collects.evaluate, Except.ok.injEq] at requires ensures
  have regular : ∀ rule ∈ rules, rule.Regular sig _ := fun rule member =>
    (narrows rule member).regular (Rule.check_lhs (checked rule member))
  have fulfilled : state.constraint.Fulfilled sig (fun _ => False) (sig.valuation s) :=
    ⟨holds.1, fun atom member => Atom.holds_iff.mp (holds.2 atom member), fun atom member part inside =>
      Signature.stable_of_plain (stateNarrows.constraint atom member part inside)⟩
  obtain ⟨next, present, label, s', _, agree, _, condition, constraint, term⟩ := Engine.covers_step
    (Engine.constructed_plain sig) (fun _ => id) collects constructive.toHasBuiltins regular
    stateNarrows.proper standard avoids unwrapped concrete.fitting fulfilled member isInstance requires
    ensures gives
  exact ⟨next, present, label, s', agree, condition.holds_valuation, constraint.holds_valuation, term⟩

section Pairs

/-- A constructor for pairs of integers. -/
def pairDeclaration : Declaration :=
  .constructor "pair" [.int, .int] (.named "Pair")

def pairs : Signature :=
  ⟨Signature.builtin.labels.insert "pair" pairDeclaration⟩

def pairOf (first second : Term) : Term :=
  .app "pair" (.named "Pair") [first, second]

/-- Swaps a pair whose second part is 1. -/
def swap : Rule :=
  { label := "swap"
    lhs := pairOf (.var ⟨"X", .int⟩) (.ofInt 1)
    rhs := pairOf (.ofInt 1) (.var ⟨"X", .int⟩) }

def swapping : Context where
  definition :=
    { signature := pairs, rules := [swap], index := Assoc.empty.insert "pair" [0], unindexed := []
      functions := .empty }

private theorem swap_declared : Signature.builtin.declareAll [pairDeclaration] = .ok pairs :=
  rfl

private theorem swap_made : Definition.ofRules pairs [swap] = .ok swapping.definition :=
  rfl

variable {a b : Term}

theorem canonical_pairOf (left : a.Canonical) (right : b.Canonical) : (pairOf a b).Canonical :=
  .app _ _ (by simp [left, right])

theorem within_pairOf {fragment : Term.Fragment} (allowed : fragment.label "pair" (.named "Pair"))
    (left : a.Within fragment) (right : b.Within fragment) : (pairOf a b).Within fragment :=
  Term.Everywhere.app_iff.mpr ⟨allowed, by simp [left, right]⟩

theorem constructor_pair : pairs.constructors.label "pair" (.named "Pair") :=
  show pairs.isFunction "pair" = false by decide +kernel

theorem plain_pair : pairs.plain.label "pair" (.named "Pair") := by
  intro name hook hooked
  have unhooked : pairs.hook? "pair" = none := by decide +kernel
  rw [unhooked] at hooked
  cases hooked

theorem plain_ofInt (sig : Signature) (number : Int) : (Term.ofInt number).Within sig.plain :=
  Term.Everywhere.token_iff.mpr fun _ => ⟨number, rfl⟩

theorem plain_truth (sig : Signature) : Term.truth.Within sig.plain :=
  Term.Everywhere.token_iff.mpr nofun

theorem within_var {fragment : Term.Fragment} {v : Variable} (allowed : fragment.var v) :
    (Term.var v).Within fragment :=
  Term.Everywhere.var_iff.mpr allowed

theorem narrows_swap : swap.Narrows pairs where
  lookups := rfl
  freshConstants := rfl
  freshVariables := rfl
  built := within_pairOf constructor_pair (within_var trivial) (Term.Everywhere.token_iff.mpr trivial)
  bound := by decide +kernel
  plain := by
    intro part member
    simp only [List.mem_cons, List.not_mem_nil, or_false] at member
    rcases member with rfl | rfl | rfl | rfl
    · exact within_pairOf plain_pair (within_var trivial) (plain_ofInt _ 1)
    · exact within_pairOf plain_pair (plain_ofInt _ 1) (within_var trivial)
    · exact plain_truth _
    · exact plain_truth _

/-- The pair of 2 and an unknown number. -/
def twoAnd (name : String) : State :=
  { term := pairOf (.ofInt 2) (.var ⟨name, .int⟩) }

theorem narrows_twoAnd (name : String) : (twoAnd name).Narrows pairs where
  canonical := canonical_pairOf (.token _ _) (.var _)
  checked := rfl
  built := within_pairOf constructor_pair (Term.Everywhere.token_iff.mpr trivial) (within_var trivial)
  plain := within_pairOf plain_pair (plain_ofInt _ 2) (within_var trivial)
  constraint := nofun

theorem concrete_single (name : String) (number : Int) :
    (Subst.single ⟨name, .int⟩ (.ofInt number)).Concrete pairs := by
  constructor
  · intro v term found
    obtain ⟨rfl, rfl⟩ := Subst.eq_of_get?_single found
    rfl
  · intro v term found
    obtain ⟨rfl, rfl⟩ := Subst.eq_of_get?_single found
    exact .token _ _
  · intro v term found
    obtain ⟨rfl, rfl⟩ := Subst.eq_of_get?_single found
    rfl
  · intro v term found
    obtain ⟨rfl, rfl⟩ := Subst.eq_of_get?_single found
    exact plain_ofInt _ number

end Pairs

/-- The unknown number may be 1; then the pair is swapped. -/
theorem step_covers_twoAnd : ∃ successors after,
    Engine.Gives (Engine.step (twoAnd "Y") .unifying) swapping {} successors after ∧
      ∃ next ∈ successors, next.rule = "swap" ∧ ∃ s' : Subst,
        (∀ v, Fresh.start.Avoids v → s'.get? v = (Subst.single ⟨"Y", .int⟩ (.ofInt 1)).get? v) ∧
        next.condition.Holds pairs s' ∧ next.state.constraint.Holds pairs s' ∧
        pairs.evalBuiltins (s'.apply next.state.term) = pairOf (.ofInt 1) (.ofInt 2) := by
  let outcome := (Engine.step (twoAnd "Y") .unifying : Engine _).run swapping {}
  obtain ⟨successors, ok⟩ : ∃ successors, outcome.1 = .ok successors := ⟨_, rfl⟩
  have gives : Engine.Gives (Engine.step (twoAnd "Y") .unifying) swapping {} successors outcome.2 :=
    Prod.ext ok rfl
  have avoids : ∀ v ∈ (twoAnd "Y").freeVars, Fresh.start.Avoids v := by
    intro v occurs stem number _ named
    have marked : '#' ∈ v.name.toList := by simp [named, Fresh.numbered]
    have only : v = ⟨"Y", .int⟩ := by
      simpa [twoAnd, State.freeVars, Constraint.top, pairOf, Term.ofInt] using occurs
    rw [only] at marked
    simp at marked
  have constructors : ∀ decl ∈ [pairDeclaration], decl.function = false ∧ decl.hook = none := by
    simp [pairDeclaration, Declaration.constructor]
  have matched : Subst.single ⟨"X", .int⟩ (.ofInt 2) ∈ (Matching.enumerate swap.lhs
      ((Subst.single ⟨"Y", .int⟩ (.ofInt 1)).apply (twoAnd "Y").term)).toList := by decide +kernel
  have covered := step_covers swap_declared constructors swap_made (by simpa using narrows_swap)
    (narrows_twoAnd "Y") (Store.standard_standard pairs) avoids (by decide +kernel)
    (concrete_single "Y" 1) ⟨rfl, List.forall_mem_nil _⟩ (List.mem_singleton_self swap) matched rfl rfl
    gives
  exact ⟨successors, outcome.2, gives, covered⟩

/-- A variable of the state may already have the name that is drawn for the variable of the rule. The
two are then taken for one, and the step of an instance is not covered. -/
theorem step_covers_capturedVariable :
    let s := Subst.single ⟨"X#0", .int⟩ (.ofInt 1)
    let θ := Subst.single ⟨"X", .int⟩ (.ofInt 2)
    ((∀ rule ∈ [swap], rule.Narrows pairs) ∧ (twoAnd "X#0").Narrows pairs ∧ s.Concrete pairs ∧
      (twoAnd "X#0").constraint.Holds pairs s ∧
      θ ∈ (Matching.enumerate swap.lhs (s.apply (twoAnd "X#0").term)).toList ∧
      swapping.definition.evaluate 256 (θ.apply swap.requires) = .ok .truth ∧
      swapping.definition.evaluate 256 (θ.apply swap.ensures) = .ok .truth) ∧
    ∃ after, Engine.Gives (Engine.step (twoAnd "X#0") .unifying) swapping {} [] after := by
  refine ⟨⟨by simpa using narrows_swap, narrows_twoAnd "X#0", concrete_single "X#0" 1, ⟨rfl, nofun⟩,
    by decide +kernel, rfl, rfl⟩, _, Prod.ext ?_ rfl⟩
  decide +kernel

end Reach
