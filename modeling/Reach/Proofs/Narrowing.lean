import Reach.Proofs.Elimination
import Reach.Proofs.Residuals
import Reach.Proofs.Traces

/-!
Steps by unification and the ground terms that a state stands for. Where variables have values that make a
left-hand side and a term the same, there is one unifier, whose bindings and open equations are true; so
the successor under that unifier stands for what the rule makes of the ground term. Conversely, where the
condition of a successor is true, its rule applies.
-/

namespace Reach

section Unifiers

open Unification

variable {sig : Signature} {a b : Term} {assign : Variable → Term} {unifier : Unifier}

/-- Terms of these variables, constructors and builtins on scalars. -/
def Signature.scope (sig : Signature) (vars : List Variable) : Term.Fragment :=
  (sig.declared.and (sig.computed Hook.isScalar)).and { var := (· ∈ vars) }

theorem Term.Computed.proper_scope {vars : List Variable} (computed : a.Computed sig Hook.isScalar)
    (inside : ∀ v ∈ a.vars, v ∈ vars) : a.Proper (sig.scope vars) :=
  ((Signature.proper_of_check computed.canonical computed.checked).and computed.within).and (.of_vars inside)

/-- What a unifier binds and leaves open are terms of the same kind, over the same variables. -/
structure Unifier.Computed (sig : Signature) (vars : List Variable) (unifier : Unifier) : Prop
    extends unifier.subst.Computed sig Hook.isScalar where
  bound : ∀ v term, unifier.subst.get? v = some term → v ∈ vars ∧ ∀ w ∈ term.vars, w ∈ vars
  residual : ∀ goal ∈ unifier.residual,
    (goal.1.Computed sig Hook.isScalar ∧ ∀ w ∈ goal.1.vars, w ∈ vars) ∧
      goal.2.Computed sig Hook.isScalar ∧ ∀ w ∈ goal.2.vars, w ∈ vars

variable (left : a.Computed sig Hook.isScalar) (right : b.Computed sig Hook.isScalar)
  (run : Run sig (start a b) unifier)
include left right run

theorem Unification.sound_of_computed : Sound (sig.scope (a.vars ++ b.vars)) (start a b) unifier :=
  sound_of_run_of_bare (fun _ allowed => allowed.1.2)
    (fun first second => Signature.sort_eq_of_declared first.1.1 second.1.1)
    (wellFormed_start (left.proper_scope fun _ => List.mem_append_left _)
      (right.proper_scope fun _ => List.mem_append_right _)) run

theorem Unification.computed_of_run : unifier.Computed sig (a.vars ++ b.vars) := by
  have sound := sound_of_computed left right run
  have unifies : sig.sorts.Unifies unifier :=
    (Discipline.keeps_start left.contains right.contains).run (fun _ => trivial) run
  have computed {term : Term} (contains : sig.sorts.Contains term)
      (proper : term.Proper (sig.scope (a.vars ++ b.vars))) :
      term.Computed sig Hook.isScalar ∧ ∀ w ∈ term.vars, w ∈ a.vars ++ b.vars := by
    have within : term.Within (sig.computed Hook.isScalar) := proper.within.mono fun node allowed => by
      cases node <;> exact allowed.1.2
    refine ⟨⟨Term.check_of_contains contains (within.mono fun node allowed => ?_), within⟩,
      fun w occurs => (proper.within.var_of_mem occurs).2⟩
    cases node with
    | collection kind entries frame => exact allowed
    | _ => trivial
  refine ⟨.of_get? fun v term bound => ⟨?_, sound.sorted v term bound⟩, fun v term bound => ?_,
    fun goal member => ?_⟩
  · exact (computed (unifies.binds v term bound).2.contains (sound.bound v term bound).2).1
  · obtain ⟨known, proper⟩ := sound.bound v term bound
    exact ⟨known.2, (computed (unifies.binds v term bound).2.contains proper).2⟩
  · have admits := unifies.residual goal member
    obtain ⟨⟨properLeft, properRight⟩, _⟩ := sound.residual goal member
    exact ⟨computed admits.left properLeft, computed admits.right properRight⟩

end Unifiers

section Complete

open Unification

variable {sig : Signature} {a b term : Term} {assign : Variable → Term} {unifier : Unifier}
  {vars : List Variable} (elementary : sig.Elementary)
include elementary

omit elementary in
theorem Term.Datum.isValue (datum : term.Datum sig) : sig.isValue term = true := by
  have ground := Term.Within.ground_iff.mpr datum.ground
  refine Signature.isValue_iff.mpr ((Term.Everywhere.and datum.within ground).mono fun node allowed => ?_)
  cases node with
  | var v => exact allowed.2
  | app label sort args => exact allowed.1.resolve_right fun ⟨_, _, _, _, impossible⟩ => nomatch impossible
  | collection kind entries frame => exact absurd allowed.1 id
  | _ => trivial

omit elementary in
/-- The values of some variables, as a substitution. -/
theorem Signature.Supplies.grounding (supplies : sig.Supplies assign) (vars : List Variable) :
    (Subst.ofValues assign vars).Grounding sig := by
  have valued {v : Variable} {term : Term} (found : (Subst.ofValues assign vars).get? v = some term) :
      term = assign v := by
    rw [Subst.get?_ofValues] at found
    split at found
    · exact (Option.some.inj found).symm
    · cases found
  refine ⟨fun v term found => ?_, fun v term found => ?_, fun v term found => ?_⟩
  · exact valued found ▸ supplies.sorted v
  · exact valued found ▸ (supplies.datum v).canonical
  · exact valued found ▸ (supplies.datum v).isValue

theorem Signature.Supplies.fold_valuation (supplies : sig.Supplies assign)
    (inside : ∀ v ∈ term.vars, v ∈ vars) :
    term.fold (sig.valuation (Subst.ofValues assign vars)) = term.fold (sig.assigned assign) := by
  refine Term.fold_congr fun v occurs => ?_
  have image : (Subst.ofValues assign vars).image v = assign v :=
    Subst.image_of_get? ((Subst.get?_ofValues assign vars v).trans (if_pos (inside v occurs)))
  show sig.evalBuiltins ((Subst.ofValues assign vars).image v) = assign v
  rw [image]
  exact (supplies.datum v).fold_eq elementary .var

omit elementary in
theorem Term.Computed.exposed {hooks : Hook → Bool} {part : Term} (computed : term.Computed sig hooks)
    (exposed : part.Exposed sig term) : part.Computed sig hooks :=
  ⟨(Signature.check_eq_ok_iff sig part).mpr
    (exposed.everywhere ((Signature.check_eq_ok_iff sig term).mp computed.checked)),
    exposed.everywhere computed.within⟩

/-- An application of a builtin on scalars has a flat sort. -/
theorem Term.Computed.flat_sort (computed : term.Computed sig Hook.isScalar)
    (applied : sig.isCall term = true) : sig.Flat term.sort := by
  cases term with
  | app label sort args =>
    obtain ⟨⟨decl, found, same, _⟩, allowed, _⟩ := app_iff.mp computed
    rcases allowed with free | ⟨name, hook, hooked, named, known⟩
    · cases free.symm.trans applied
    · obtain ⟨other, found', made, _⟩ := elementary.declared hooked named
      obtain rfl := Option.some.inj (found.symm.trans found')
      refine elementary.flat (?_ : sort.isScalar = true)
      rw [← same, made]
      exact hook.isScalar_sort (Hook.isTotal_of_isScalar known)
  | _ => cases applied

/-- No builtin is in the way of unifying such terms. -/
theorem Term.Computed.unobstructed (left : a.Computed sig Hook.isScalar)
    (right : b.Computed sig Hook.isScalar) {s : Subst} (bindings : s.Computed sig Hook.isScalar) :
    (Definition.empty sig).Unobstructed 0 s a b := by
  have computed {part : Term} (exposed : ExposedIn sig a b part) : part.Computed sig Hook.isScalar :=
    exposed.elim left.exposed right.exposed
  refine ⟨fun v call _ exposed applied below => ?_, fun v call value _ exposed applied evaluated accepted => ?_⟩
  · exact (computed exposed).flat_of_isCall elementary applied v below
  · have known := computed exposed
    rw [(Definition.collects_empty sig).evaluate] at evaluated
    obtain rfl := Except.ok.inj evaluated
    have kept := ((bindings.apply known).evalBuiltins elementary).2
    have shape : call.var? = none := by
      cases call with
      | var w => cases applied
      | _ => rfl
    rw [Subst.sort_apply known.canonical shape] at kept
    have same : call.sort = (sig.evalBuiltins (s.apply call)).sort := by
      simpa [TermSort.accepts, (known.flat_sort elementary applied).1] using kept
    rwa [same]

theorem Unifier.Computed.solves {algebra : Term.Algebra Term} (known : unifier.Computed sig vars)
    (absorbs : algebra.Absorbs unifier.subst) (equates : ∀ goal ∈ unifier.residual, algebra.Equates goal) :
    Engine.Solves sig algebra unifier where
  absorbs := absorbs
  equates := equates
  bound v term bound := by
    have computed := known.image v
    rw [Subst.image_of_get? bound] at computed
    exact ⟨computed.canonical, computed.plain (fun _ => Hook.isTotal_of_isScalar) elementary.hooksFunctions,
      Signature.shaped_of_check computed.checked⟩
  sides goal member := by
    obtain ⟨⟨left, _⟩, right, _⟩ := known.residual goal member
    exact ⟨left.plain (fun _ => Hook.isTotal_of_isScalar) elementary.hooksFunctions,
      right.plain (fun _ => Hook.isTotal_of_isScalar) elementary.hooksFunctions⟩

/-- Values that make two terms the same make the bindings of their unifier true, and its open equations.
It is the only one, and draws no names. -/
theorem Unification.exists_solves_of_fold (supplies : sig.Supplies assign)
    (left : a.Computed sig Hook.isScalar) (right : b.Computed sig Hook.isScalar)
    (same : a.fold (sig.assigned assign) = b.fold (sig.assigned assign)) :
    ∃ unifier steps, Engine.Solves sig (sig.assigned assign) unifier ∧
      ∀ budget fresh later, (start a b).explore sig budget fresh later =
        if steps ≤ budget then .found unifier fresh later else .cut fresh := by
  let s := Subst.ofValues assign (a.vars ++ b.vars)
  have grounding := supplies.grounding (a.vars ++ b.vars)
  have bindings : s.Computed sig Hook.isScalar := by
    refine .of_get? fun v term found => ?_
    rw [Subst.get?_ofValues] at found
    split at found
    · cases found
      exact ⟨(supplies.datum v).toComputed.mono (by simp), supplies.sorted v⟩
    · cases found
  have evaluates {term : Term} (inside : ∀ v ∈ term.vars, v ∈ a.vars ++ b.vars) :
      (Definition.empty sig).evaluate 0 (s.apply term) = .ok (term.fold (sig.assigned assign)) := by
    rw [(Definition.collects_empty sig).evaluate, sig.evalBuiltins_apply,
      supplies.fold_valuation elementary inside]
  obtain ⟨unifier, steps, compatible, found⟩ := @exists_found_start (Definition.empty sig) 0 s a b _
    elementary.hooksFunctions grounding left.canonical right.canonical left.checked right.checked
    left.bare right.bare (left.unobstructed elementary right bindings)
    (evaluates fun _ => List.mem_append_left _)
    ((evaluates fun _ => List.mem_append_right _).trans (congrArg Except.ok same.symm))
  have run : Run sig (start a b) unifier := by
    have yields : ((start a b).explore sig steps .start .finished).Yields unifier := by
      rw [show (start a b).explore sig steps .start .finished = _ from found steps .start .finished,
        if_pos (Nat.le_refl _)]
      exact .here _ _
    rcases run_of_explore yields with run | ⟨_, none⟩
    · exact run
    · cases none
  have known := computed_of_run left right run
  refine ⟨unifier, steps, known.solves elementary (fun v => ?_) fun goal member => ?_, found⟩
  · cases bound : unifier.subst.get? v with
    | none =>
      rw [Subst.image_of_get?_none bound]
      rfl
    | some term =>
      obtain ⟨value, var, image⟩ := compatible.bindings v term bound
      obtain ⟨listed, inside⟩ := known.bound v term bound
      rw [evaluates inside] at image
      rw [evaluates (by simpa using listed)] at var
      rw [Subst.image_of_get? bound]
      exact Except.ok.inj (image.trans var.symm)
  · obtain ⟨value, first, second⟩ := compatible.residual goal member
    obtain ⟨⟨_, insideLeft⟩, _, insideRight⟩ := known.residual goal member
    rw [evaluates insideLeft] at first
    rw [evaluates insideRight] at second
    exact Except.ok.inj (first.trans second.symm)

/-- Such a unifier is delivered, if the exploration is not cut short. -/
theorem Unification.exists_delivers_of_fold {budget : Nat} {explore : Fresh → Unifiers} {fresh last : Fresh}
    (supplies : sig.Supplies assign) (left : a.Computed sig Hook.isScalar)
    (right : b.Computed sig Hook.isScalar)
    (same : a.fold (sig.assigned assign) = b.fold (sig.assigned assign))
    (started : unify sig budget a b = .ok explore) (ends : (explore fresh).Ends last) :
    ∃ unifier, (explore fresh).Delivers unifier ∧ Engine.Solves sig (sig.assigned assign) unifier := by
  obtain ⟨unifier, steps, solves, found⟩ := exists_solves_of_fold elementary supplies left right same
  refine ⟨unifier, ?_, solves⟩
  rw [unify] at started
  split at started
  · cases started
    dsimp only at ends ⊢
    rw [found] at ends ⊢
    split at ends
    · next enough =>
      rw [if_pos enough]
      exact .here _ _
    · cases ends
  · cases started

omit elementary in
theorem Unification.run_of_delivers {budget : Nat} {explore : Fresh → Unifiers} {fresh : Fresh}
    (started : unify sig budget a b = .ok explore) (delivers : (explore fresh).Delivers unifier) :
    Run sig (start a b) unifier := by
  rw [unify] at started
  split at started
  · cases started
    exact (run_of_explore delivers.yields).resolve_right nofun
  · cases started

/-- Where the bindings of a unifier are true of the variables of one side, and its open equations are true,
the other side has the value of that side under the unifier. -/
theorem Unification.fold_through_of_run (supplies : sig.Supplies assign)
    (left : a.Computed sig Hook.isScalar) (right : b.Computed sig Hook.isScalar)
    (run : Run sig (start a b) unifier)
    (bound : ∀ v ∈ b.vars, ∀ term, unifier.subst.get? v = some term →
      assign v = term.fold (sig.assigned assign))
    (solved : ∀ goal ∈ unifier.residual, (unifier.subst.apply goal.1).fold (sig.assigned assign) =
      (unifier.subst.apply goal.2).fold (sig.assigned assign)) :
    a.fold (sig.assigned (unifier.subst.through sig assign)) = b.fold (sig.assigned assign) := by
  have sound := sound_of_computed left right run
  have merged : sig.Supplies (unifier.subst.through sig assign) :=
    supplies.through elementary (fun _ => Hook.isTotal_of_isScalar) (computed_of_run left right run).toComputed
  have absorbs : (sig.assigned (unifier.subst.through sig assign)).Absorbs unifier.subst := by
    intro v
    rw [← supplies.fold_apply, sound.idempotent.apply_image sound.canonical]
    rfl
  have equates : ∀ goal ∈ unifier.residual,
      (sig.assigned (unifier.subst.through sig assign)).Equates goal := by
    intro goal member
    have same := solved goal member
    rwa [supplies.fold_apply, supplies.fold_apply] at same
  have same := (sound.solves _ merged.respects.normalizing absorbs equates).equates _
    (List.mem_singleton_self _)
  refine Eq.trans same (Signature.fold_assigned_congr fun v occurs => ?_)
  exact Subst.through_eq_of_bound (bound v occurs)

end Complete

section Renamed

variable {sig : Signature} {assign other : Variable → Term} {apart : Subst} {vars : List Variable}
  {first last : Fresh}

/-- Renamed variables are variables. -/
theorem Rule.Renames.computed (renames : Rule.Renames apart vars first last) (sig : Signature)
    (hooks : Hook → Bool) : apart.Computed sig hooks := by
  refine .of_get? fun v image found => ⟨?_, renames.sorted v image found⟩
  obtain ⟨w, rfl, _⟩ := renames.get? found
  exact .var sig hooks w

/-- Renamed variables can have the values of the variables, beside any values of the others. -/
theorem Rule.Renames.exists_supplies (renames : Rule.Renames apart vars first last)
    (supplies : sig.Supplies assign) (supplies' : sig.Supplies other) :
    ∃ merged, sig.Supplies merged ∧ (∀ v, first.Avoids v → merged v = assign v) ∧
      ∀ v ∈ vars, apart.through sig merged v = other v := by
  classical
  let source (w : Variable) : Prop := ∃ v ∈ vars, apart.get? v = some (.var w)
  let merged (w : Variable) : Term := if named : source w then other named.choose else assign w
  have known {w : Variable} (named : source w) : ∃ v, merged w = other v ∧ v.sort = w.sort := by
    obtain ⟨member, renamed⟩ := named.choose_spec
    obtain ⟨w', found, same, _⟩ := renames.bound _ member
    cases renamed.symm.trans found
    exact ⟨_, dif_pos named, same.symm⟩
  have fresh {w : Variable} (unnamed : ¬source w) : merged w = assign w := dif_neg unnamed
  refine ⟨merged, ⟨fun w => ?_, fun w => ?_⟩, fun w avoids => fresh ?_, fun v member => ?_⟩
  · by_cases named : source w
    · obtain ⟨v, same, _⟩ := known named
      exact same ▸ supplies'.datum v
    · exact fresh named ▸ supplies.datum w
  · by_cases named : source w
    · obtain ⟨v, same, sort⟩ := known named
      exact same ▸ sort ▸ supplies'.sorted v
    · exact fresh named ▸ supplies.sorted w
  · rintro ⟨v, member, renamed⟩
    obtain ⟨w', found, _, drawn⟩ := renames.bound v member
    cases renamed.symm.trans found
    exact avoids.ne_of_between drawn rfl
  · obtain ⟨w, renamed, _, _⟩ := renames.bound v member
    have named : source w := ⟨v, member, renamed⟩
    have only : named.choose = v := renames.injective _ named.choose_spec.1 v member
      (named.choose_spec.2.trans renamed.symm)
    rw [Subst.through, Subst.image_of_get? renamed, Term.fold_var]
    exact (dif_pos named).trans (congrArg other only)

end Renamed

end Reach
