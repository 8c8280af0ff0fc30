import Reach.Proofs.Reflexivity
import Reach.Proofs.Rewriting

/-!
Why a branch of a proof may be closed. Each ground term that its state stands for is then an instance of the
target with a true postcondition. Matching holds the variables of the start fixed. Unification may bind them,
and what it binds is asked of the state only for the variables that the state has; so the variables that the
target still mentions have to be among them.
-/

namespace Reach

/-- The term is an instance of the right-hand side of a claim, with a true postcondition, where the variables
of the left-hand side have these values. -/
def Rule.Attains (sig : Signature) (claim : Rule) (assign : Variable → Term) (a : Term) : Prop :=
  ∃ other, sig.Supplies other ∧ (∀ v ∈ claim.lhs.vars, other v = assign v) ∧
    claim.rhs.fold (sig.assigned other) = a ∧ claim.ensures.fold (sig.assigned other) = .truth

/-- What the variables of the start have become and the target still mentions, the state has. -/
def Obligation.Tracks (o : Obligation) (narrowing : Subst) (state : State) : Prop :=
  ∀ v ∈ o.claim.lhs.vars, ∀ w ∈ (narrowing.apply (.var v)).vars,
    w ∈ ((Engine.seed o.fixed narrowing).apply o.claim.rhs).vars → w ∈ state.term.vars

/-- What is to be shown of a claim of constructors and total builtins, whose start is held fixed. -/
structure Obligation.Elementary (sig : Signature) (o : Obligation) : Prop where
  rhs : o.claim.rhs.Computed sig Hook.isScalar
  ensures : o.claim.ensures.Computed sig Hook.isTotal
  fixed : ∀ v ∈ o.claim.lhs.vars, v ∈ o.fixed

section Answers

variable {sig : Signature} {assign : Variable → Term} {state : State} {a : Term} {s : Subst} {part : Term}
  {context : Context} {world after : World} {c : Constraint}

/-- Integer variables have integers. -/
theorem Signature.Supplies.integer (elementary : sig.Elementary) (supplies : sig.Supplies assign)
    (v : Variable) (int : v.sort = .int) : ∃ value, assign v = .ofInt value := by
  have scalar : Term.Scalar .int (assign v) :=
    (supplies.datum v).of_sort elementary rfl (int ▸ supplies.sorted v)
  generalize assign v = value at scalar
  cases scalar with
  | int number => exact ⟨number, rfl⟩

variable {rules : List Rule} (elementary : sig.Elementary) (collects : context.definition.Collects sig rules)
  (standard : world.store.Standard sig) (denotes : state.Denotes sig assign a)
include elementary collects standard denotes

/-- What the store finds to follow from the constraint of a state is true of what it stands for. -/
theorem Engine.holdsIn_of_gives_implies (stable : ∀ atom ∈ c.atoms, atom.Stable sig fun _ => False)
    (gives : Gives (implies state.constraint c) context world true after) :
    c.HoldsIn (sig.assigned assign) := by
  obtain rfl := collects.signature
  exact Store.Standard.holdsIn_of_implies elementary.toHasBuiltins denotes.supplies.respects
    denotes.supplies.ground denotes.fulfilled.stable stable denotes.fulfilled.holdsIn standard
    (denotes.supplies.integer elementary) (gives_implies.mp gives).1

/-- A condition of a rule that is found to follow is true of the values of its bindings. -/
theorem Engine.fold_of_gives_implies_ofTerm (bindings : s.Computed sig Hook.isScalar)
    (inner : part.Computed sig Hook.isTotal)
    (gives : Gives (implies state.constraint (.ofTerm (sig.evalBuiltins (s.apply part)))) context world true
      after) : part.fold (sig.assigned (s.through sig assign)) = .truth := by
  have total : ∀ hook, Hook.isTotal hook = true → hook.isTotal = true := fun _ => id
  have image := (bindings.mono fun _ => Hook.isTotal_of_isScalar).apply inner
  have stable := (image.evalBuiltins elementary).1.stable elementary total
  have follows := holdsIn_of_gives_implies elementary collects standard denotes (fun atom member =>
    Atom.over_iff.mp ((Constraint.over_top.conjoin (fun _ _ _ => Constraint.everywhere_sides) stable).atoms
      atom member)) gives
  have holds := ((Constraint.holdsIn_conjoin_iff elementary.toHasBuiltins denotes.supplies.respects).mp
    follows).2
  rwa [denotes.supplies.fold_evalBuiltins elementary total image, denotes.supplies.fold_apply] at holds

/-- What unification asks of a state is true of what it stands for. -/
theorem Engine.unified_of_gives_implies {unifier : Unifier} {vars : List Variable}
    (known : unifier.Computed sig vars) (inner : part.Computed sig Hook.isTotal)
    (gives : Gives (implies state.constraint ((unifierEquations state.freeVars unifier).conjoin
      (sig.evalBuiltins (unifier.subst.apply part)))) context world true after) :
    (∀ v ∈ state.freeVars, ∀ term, unifier.subst.get? v = some term →
        assign v = term.fold (sig.assigned assign)) ∧
      (∀ goal ∈ unifier.residual, (unifier.subst.apply goal.1).fold (sig.assigned assign) =
        (unifier.subst.apply goal.2).fold (sig.assigned assign)) ∧
      part.fold (sig.assigned (unifier.subst.through sig assign)) = .truth := by
  have supplies := denotes.supplies
  have bindings := known.toComputed.mono fun _ => Hook.isTotal_of_isScalar
  have image := bindings.apply inner
  have stable {term : Term} (computed : term.Computed sig Hook.isTotal) :
      term.Everywhere (sig.Stable fun _ => False) := computed.stable elementary fun _ => id
  have parted : (unifierEquations state.freeVars unifier).Over
      (Term.Everywhere (sig.Stable fun _ => False)) (Term.Everywhere (sig.Stable fun _ => False)) := by
    refine (Constraint.over_top.foldl_conjoinEq fun entry member => ?_).foldl_conjoinEq fun goal member => ?_
    · have bound := bindings.get? (Assoc.get?_eq_some_iff.mpr (List.mem_of_mem_filter member))
      exact ⟨Term.Everywhere.var_iff.mpr trivial, stable bound.1⟩
    · obtain ⟨⟨first, _⟩, second, _⟩ := known.residual goal member
      exact ⟨stable (bindings.apply (first.mono fun _ => Hook.isTotal_of_isScalar)),
        stable (bindings.apply (second.mono fun _ => Hook.isTotal_of_isScalar))⟩
  have follows := holdsIn_of_gives_implies elementary collects standard denotes (fun atom member =>
    Atom.over_iff.mp ((parted.conjoin (fun _ _ _ => Constraint.everywhere_sides)
      (stable (image.evalBuiltins elementary).1)).atoms atom member)) gives
  obtain ⟨equations, promise⟩ :=
    (Constraint.holdsIn_conjoin_iff elementary.toHasBuiltins supplies.respects).mp follows
  obtain ⟨bound, solved⟩ := Constraint.holdsIn_foldl_conjoinEq_iff.mp equations
  replace bound := (Constraint.holdsIn_foldl_conjoinEq_iff.mp bound).2
  refine ⟨fun v free term found => bound (v, term) ?_, solved, ?_⟩
  · exact List.mem_filter.mpr ⟨Assoc.get?_eq_some_iff.mp found, by simpa using free⟩
  · rwa [supplies.fold_evalBuiltins elementary (fun _ => id) image, supplies.fold_apply] at promise

end Answers

namespace Engine

variable {sig : Signature} {rules : List Rule} {context : Context} {world after : World} {state : State}
  {claim : Rule}

section Answers

variable (collects : context.definition.Collects sig rules) (standard : world.store.Standard sig)
include collects

theorem gives_evaluate_iff {term value : Term} : Gives (evaluate term) context world value after ↔
    value = sig.evalBuiltins term ∧ after = world := by
  rw [gives_evaluate, collects.evaluate]
  exact and_congr_left fun _ => ⟨fun same => (Except.ok.inj same).symm, fun same => same ▸ rfl⟩

include standard

/-- A match for which the postcondition follows. -/
theorem exists_of_gives_matchesTarget {choices : Enumeration Subst}
    (gives : Gives (matchesTarget claim state choices) context world true after) :
    ∃ s ∈ choices.toList, ∃ now last, now.store.Standard sig ∧
      Gives (implies state.constraint (.ofTerm (sig.evalBuiltins (s.apply claim.ensures)))) context now true
        last := by
  induction choices generalizing world with
  | nil => cases (gives_pure.mp gives).1
  | cons s more ih =>
    simp only [matchesTarget, gives_bind, gives_evaluate_iff collects] at gives
    obtain ⟨_, now, ⟨rfl, rfl⟩, answer, middle, asked, rest⟩ := gives
    cases answer with
    | true => exact ⟨s, List.mem_cons_self, now, middle, standard, asked⟩
    | false =>
      have onward := (upholds_implies _ _).standard collects standard asked
      obtain ⟨found, member, settled⟩ := ih () onward rest
      exact ⟨found, List.mem_cons_of_mem _ member, settled⟩

/-- A unifier for which what it asks of the state and the postcondition follow. -/
theorem exists_of_gives_unifiesTarget {ensures : Term} {unifiers : Unifiers}
    (gives : Gives (visit id (fun unifier _ => unifiesTarget ensures state unifier) unifiers false) context world
      true after) : ∃ unifier, unifiers.Delivers unifier ∧ ∃ now last, now.store.Standard sig ∧
      Gives (implies state.constraint ((unifierEquations state.freeVars unifier).conjoin
        (sig.evalBuiltins (unifier.subst.apply ensures)))) context now true last := by
  induction unifiers generalizing world with
  | finished fresh =>
    obtain ⟨_, _, _, gives⟩ := gives_bind.mp gives
    cases (gives_pure.mp gives).1
  | cut fresh =>
    obtain ⟨_, _, _, gives⟩ := gives_bind.mp gives
    exact absurd gives gives_throw
  | found unifier fresh more ih =>
    simp only [visit, unifiesTarget, gives_bind, gives_setFresh, gives_evaluate_iff collects] at gives
    obtain ⟨_, _, rfl, answer, middle, ⟨_, _, ⟨rfl, rfl⟩, asked⟩, rest⟩ := gives
    cases answer with
    | true => exact ⟨unifier, .here _ _, { world with fresh }, middle, standard, asked⟩
    | false =>
      simp only [id, Bool.false_eq_true, ↓reduceIte, gives_bind, gives_get, existsAndEq, true_and] at rest
      have same : middle.fresh = fresh := (quiet_implies _ _).of_gives asked
      have drawn : Store.Standard sig { world with fresh := fresh }.store := standard
      have standard := (upholds_implies _ _).standard collects drawn asked
      rw [same] at rest
      obtain ⟨found, delivers, settled⟩ := ih fresh standard rest
      exact ⟨found, .later _ _ delivers, settled⟩

end Answers

section Closing

variable {o : Obligation} {narrowing : Subst} {assign : Variable → Term} {a : Term}

theorem get?_seed (fixed : List Variable) (narrowing : Subst) (v : Variable) :
    (seed fixed narrowing).get? v = if v ∈ fixed then some (narrowing.apply (.var v)) else none :=
  Subst.get?_ofValues (fun v => narrowing.apply (.var v)) fixed v

theorem computed_seed {hooks : Hook → Bool} (fixed : List Variable)
    (computed : narrowing.Computed sig hooks) : (seed fixed narrowing).Computed sig hooks := by
  refine .of_get? fun v term found => ?_
  rw [get?_seed] at found
  split at found
  · obtain rfl := Option.some.inj found
    rw [Subst.apply_var_eq]
    exact ⟨computed.image v, computed.sorted.image v⟩
  · cases found

/-- A variable that is held fixed stands for what it has become. -/
theorem image_seed {v : Variable} (fixed : v ∈ o.fixed) :
    (seed o.fixed narrowing).image v = narrowing.image v := by
  rw [Subst.image_of_get? ((get?_seed o.fixed narrowing v).trans (if_pos fixed)), Subst.apply_var_eq]

variable (elementary : sig.Elementary) (collects : context.definition.Collects sig rules)
  (owed : o.Elementary sig) (denotes : state.Denotes sig assign a)
  (narrowed : narrowing.Computed sig Hook.isScalar) (absorbs : (sig.assigned assign).Absorbs narrowing)
  (standard : world.store.Standard sig)
include elementary collects owed denotes narrowed absorbs standard

/-- What matching shows. -/
theorem attains_of_matchesTarget (gives : Gives (matchesTarget o.claim state
    (Matching.enumerateFrom (seed o.fixed narrowing) o.claim.rhs state.term)) context world true after) :
    o.claim.Attains sig assign a := by
  obtain ⟨s, listed, now, last, standard, asked⟩ := exists_of_gives_matchesTarget collects standard gives
  have seeded := computed_seed o.fixed narrowed
  have rhs := owed.rhs
  have matched := Matching.isCanonicalMatch_of_mem rhs.canonical denotes.computed.canonical rhs.checked
    denotes.computed.checked seeded.canonical listed
  have bindings := matched.computed rhs.bare denotes.computed seeded
  refine ⟨_, denotes.supplies.through elementary (fun _ => Hook.isTotal_of_isScalar) bindings,
    fun v occurs => ?_, ?_, ?_⟩
  · have kept := matched.extension.keeps v _
      ((get?_seed o.fixed narrowing v).trans (if_pos (owed.fixed v occurs)))
    rw [Subst.through, Subst.image_of_get? kept, Subst.apply_var_eq]
    exact absorbs v
  · rw [← denotes.supplies.fold_apply, matched.image]
    exact denotes.value
  · exact fold_of_gives_implies_ofTerm elementary collects standard denotes bindings owed.ensures asked

/-- What unification shows, if the state has the variables that matter. -/
theorem attains_of_unifiesTarget (tracks : o.Tracks narrowing state) {explore : Fresh → Unifiers}
    {fresh : Fresh} {budget : Nat}
    (started : unify sig budget ((seed o.fixed narrowing).apply o.claim.rhs) state.term = .ok explore)
    (gives : Gives (visit id
      (fun unifier _ => unifiesTarget ((seed o.fixed narrowing).apply o.claim.ensures) state unifier)
      (explore fresh) false) context world true after) : o.claim.Attains sig assign a := by
  obtain ⟨unifier, delivers, now, last, standard, asked⟩ :=
    exists_of_gives_unifiesTarget collects standard gives
  have total : ∀ hook, Hook.isScalar hook = true → hook.isTotal = true := fun _ => Hook.isTotal_of_isScalar
  have seeded := computed_seed o.fixed narrowed
  have target := seeded.apply owed.rhs
  have run := Unification.run_of_delivers started delivers
  have known := Unification.computed_of_run target denotes.computed run
  obtain ⟨bound, solved, promise⟩ := unified_of_gives_implies elementary collects standard denotes known
    ((seeded.mono total).apply owed.ensures) asked
  have merged := denotes.supplies.through elementary total known.toComputed
  refine ⟨_, merged.through elementary total seeded, fun v occurs => ?_, ?_, ?_⟩
  · have value : (narrowing.image v).fold (sig.assigned assign) = assign v := absorbs v
    rw [Subst.through, image_seed (owed.fixed v occurs), ← value]
    refine Signature.fold_assigned_congr fun w inside => Subst.through_eq_of_bound fun term found => ?_
    refine bound w (State.mem_freeVars.mpr (.inl ?_)) term found
    -- The unifier binds no other variables than those of the target and of the state.
    rcases List.mem_append.mp (known.bound w term found).1 with mentioned | here
    · exact tracks v occurs w (Subst.apply_var_eq narrowing v ▸ inside) mentioned
    · exact here
  · rw [← merged.fold_apply]
    refine (Unification.fold_through_of_run elementary denotes.supplies target denotes.computed run
      (fun v occurs => bound v (State.mem_freeVars.mpr (.inl occurs))) solved).trans ?_
    exact denotes.value
  · rwa [merged.fold_apply] at promise

/-- A ground term is an instance of the target if a state that stands for it is found to be one. -/
theorem attains_of_reachesTarget (tracks : o.Tracks narrowing state)
    (gives : Gives (reachesTarget o state narrowing) context world true after) :
    o.claim.Attains sig assign a := by
  rw [reachesTarget] at gives
  obtain ⟨answer, middle, matched, gives⟩ := gives_bind.mp gives
  cases answer with
  | true =>
    exact attains_of_matchesTarget elementary collects owed denotes narrowed absorbs standard matched
  | false =>
    have standard := Upholds.standard (indifferent_matchesTarget upholds_implies state o.claim _) collects
      standard matched
    dsimp only at gives
    simp only [Bool.false_eq_true, ↓reduceIte] at gives
    split at gives
    · obtain ⟨_, last, opened, given⟩ := gives_bind.mp gives
      obtain ⟨explore, started, rfl, rfl⟩ := of_gives_unifiers opened
      exact attains_of_unifiesTarget elementary collects owed denotes narrowed absorbs standard tracks
        (collects.signature ▸ started) given
    · cases (gives_pure.mp gives).1

end Closing

end Engine

end Reach
