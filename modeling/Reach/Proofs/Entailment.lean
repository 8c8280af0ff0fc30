import Reach.Proofs.Decision

/-!
What the store concludes about implications. It proves a conclusion that simplifies to nothing, and
one whose negation it can refute together with the assumption. Builtins may get stuck, so a condition
need be neither true nor false. But the store refutes only what is false somewhere: simplification
brings up no falsity that was not there, and the bounds refute only comparisons that are decided. So
where the assumption is true and the conclusion is not, nothing is refuted.
-/

namespace Reach

/-- The atom is false where terms have these values. -/
def Atom.RefutedIn (algebra : Term.Algebra Term) (atom : Atom) : Prop :=
  atom.toTerm.fold algebra = .falsity

namespace Constraint

variable {sig : Signature} {loose : String → Prop} {algebra : Term.Algebra Term} {c d : Constraint}
  {atom : Atom} {atoms : List Atom} {a b condition : Term}

/-- Something in the constraint is false where terms have these values. -/
def RefutedIn (algebra : Term.Algebra Term) (c : Constraint) : Prop :=
  c.contradiction = true ∨ ∃ atom ∈ c.atoms, atom.RefutedIn algebra

theorem refutedIn_bottom : bottom.RefutedIn algebra :=
  .inl rfl

private theorem not_refutedIn_top : ¬top.RefutedIn algebra := by
  intro refuted
  rcases refuted with contradictory | ⟨atom, member, _⟩
  · cases contradictory
  · cases member

theorem refutedIn_push_iff : (c.push atom).RefutedIn algebra ↔
    c.RefutedIn algebra ∨ atom.RefutedIn algebra := by
  unfold Constraint.push
  split
  · next idle =>
    refine ⟨.inl, fun refuted => refuted.elim id fun here => ?_⟩
    rcases Bool.or_eq_true_iff.mp idle with contradictory | known
    · exact .inl contradictory
    · exact .inr ⟨atom, List.contains_iff_mem.mp known, here⟩
  · simp only [RefutedIn, List.mem_append, List.mem_singleton, or_and_right, exists_or,
      exists_eq_left, or_assoc]

section Conditions

variable (builtins : sig.HasBuiltins) (respects : algebra.Respects sig loose)
include builtins respects

/-- A conjunction is false exactly when one of its sides is. -/
theorem fold_and_eq_falsity {sort : TermSort} :
    (Term.app Label.boolAnd sort [a, b]).fold algebra = .falsity ↔
      a.fold algebra = .falsity ∨ b.fold algebra = .falsity := by
  have hooked : sig.hook? Label.boolAnd = some "BOOL.and" := builtins.hook?_eq rfl
  have unfolded := respects.fold_hooked hooked sort [a, b]
  rw [List.map_cons, List.map_cons, List.map_nil, builtins.callHook_and] at unfolded
  rw [unfolded]
  generalize a.fold algebra = x
  generalize b.fold algebra = y
  constructor
  · intro same
    cases made : Hook.conjunction x y with
    | none =>
      rw [made] at same
      cases same
    | some result =>
      rw [made, Option.getD_some] at same
      subst same
      rcases Hook.conjunction_eq_some made with ⟨either, _⟩ | ⟨_, right⟩ | ⟨_, left⟩
      · exact either
      · exact .inr right.symm
      · exact .inl left.symm
  · rintro (rfl | rfl)
    · rw [Hook.conjunction_falsity_left]
      rfl
    · rw [Hook.conjunction_falsity_right]
      rfl

/-- A negation is false exactly when what it denies is true. -/
theorem fold_not_eq_falsity {sort : TermSort} :
    (Term.app Label.boolNot sort [condition]).fold algebra = .falsity ↔
      condition.fold algebra = .truth := by
  have hooked : sig.hook? Label.boolNot = some "BOOL.not" := builtins.hook?_eq rfl
  rw [respects.fold_hooked hooked, List.map_singleton, builtins.callHook_not]
  generalize condition.fold algebra = value
  constructor
  · intro same
    rcases known : value.bool? with _ | _ | _
    · rw [known] at same
      cases same
    · rw [known] at same
      exact absurd same Term.truth_ne_falsity
    · exact Term.bool?_eq_some_iff.mp known
  · rintro rfl
    rfl

/-- A condition is false exactly when one of its conjuncts is. -/
theorem conjuncts_refuted_iff : (∃ part ∈ conjuncts condition, part.fold algebra = .falsity) ↔
    condition.fold algebra = .falsity := by
  induction condition using Term.induct with
  | app label sort args ih =>
    rw [conjuncts]
    split
    · next shape =>
      obtain ⟨rfl, size⟩ := shape
      obtain ⟨a, b, rfl⟩ := List.length_eq_two.mp size
      rw [fold_and_eq_falsity builtins respects, ← ih a (by simp), ← ih b (by simp), conjunctsOfAll_eq]
      simp only [List.flatMap_cons, List.flatMap_nil, List.append_nil, List.mem_append, or_and_right,
        exists_or]
    · simp
  | _ => simp [conjuncts]

omit builtins in
private theorem refutedIn_assume_iff : (c.assume condition).RefutedIn algebra ↔
    c.RefutedIn algebra ∨ condition.fold algebra = .falsity := by
  unfold Constraint.assume
  split
  · next known =>
    refine (or_iff_left fun refuted => ?_).symm
    rw [Term.isTrue_iff.mp known] at refuted
    exact Term.truth_ne_falsity ((respects.fold_token _ _).symm.trans refuted)
  · split
    · next refuted =>
      rw [Term.isFalse_iff.mp refuted]
      exact ⟨fun _ => .inr (respects.fold_token _ _), fun _ => refutedIn_bottom⟩
    · exact refutedIn_push_iff

theorem refutedIn_conjoin_iff : (c.conjoin condition).RefutedIn algebra ↔
    c.RefutedIn algebra ∨ condition.fold algebra = .falsity := by
  rw [← conjuncts_refuted_iff builtins respects]
  unfold Constraint.conjoin
  generalize conjuncts condition = conditions
  induction conditions generalizing c with
  | nil => simp
  | cons first rest ih =>
    rw [List.foldl_cons, ih, refutedIn_assume_iff respects, or_assoc]
    simp only [List.mem_cons, or_and_right, exists_or, exists_eq_left]

/-- The conjunction of all atoms is false exactly when something in the constraint is. -/
theorem toTerm_eq_falsity_iff : c.toTerm.fold algebra = .falsity ↔ c.RefutedIn algebra := by
  have onward (terms : List Term) (first : Term) :
      (terms.foldl Term.conjunction first).fold algebra = .falsity ↔
        ∃ term ∈ first :: terms, term.fold algebra = .falsity := by
    induction terms generalizing first with
    | nil => simp
    | cons next rest ih =>
      rw [List.foldl_cons, ih, List.exists_mem_cons_iff, Term.conjunction,
        fold_and_eq_falsity builtins respects, or_assoc, List.exists_mem_cons_iff,
        List.exists_mem_cons_iff]
  have each : (∃ term ∈ c.atoms.map Atom.toTerm, term.fold algebra = .falsity) ↔
      ∃ atom ∈ c.atoms, atom.RefutedIn algebra := by
    simp only [List.mem_map, exists_exists_and_eq_and, Atom.RefutedIn]
  unfold Constraint.toTerm
  split
  · next contradictory => exact iff_of_true (respects.fold_token _ _) (.inl contradictory)
  · next consistent =>
    rw [RefutedIn, or_iff_right consistent, ← each]
    split
    · next none =>
      rw [none]
      refine iff_of_false (fun same => ?_) (by simp)
      exact Term.truth_ne_falsity ((respects.fold_token _ _).symm.trans same)
    · next first rest shape => rw [shape, onward]

end Conditions

section Ground

variable (builtins : sig.HasBuiltins) (respects : algebra.Respects sig loose)
  (ground : ∀ term : Term, (term.fold algebra).ground = true)
include builtins respects ground

/-- An equation between terms with ground values is decided. -/
theorem fold_toTerm_of_ground : (Atom.eq a b).toTerm.fold algebra =
    .ofBool (decide (a.fold algebra = b.fold algebra)) := by
  rw [fold_toTerm_eq builtins respects, Hook.onGround, ground a, ground b]
  rfl

theorem refutedIn_eq_iff : (Atom.eq a b).RefutedIn algebra ↔ ¬(Atom.eq a b).HoldsIn algebra := by
  rw [Atom.RefutedIn, fold_toTerm_of_ground builtins respects ground, Atom.HoldsIn]
  by_cases same : a.fold algebra = b.fold algebra <;> simp [same, Term.ofBool, Term.falsity]

theorem fold_toTerm_eq_truth_iff : atom.toTerm.fold algebra = .truth ↔ atom.HoldsIn algebra := by
  refine ⟨holdsIn_of_fold_toTerm builtins respects, fun holds => ?_⟩
  cases atom with
  | holds condition => exact holds
  | eq a b =>
    have same : a.fold algebra = b.fold algebra := holds
    rw [fold_toTerm_of_ground builtins respects ground, same, decide_eq_true rfl]
    rfl

/-- What is true is not false. -/
theorem HoldsIn.not_refutedIn (holds : c.HoldsIn algebra) : ¬c.RefutedIn algebra := by
  intro refuted
  rcases refuted with contradictory | ⟨atom, member, false⟩
  · cases holds.consistent.symm.trans contradictory
  · have true := (fold_toTerm_eq_truth_iff builtins respects ground).mpr (holds.holds atom member)
    exact Term.truth_ne_falsity (true.symm.trans false)

/-- The conjunction of all atoms is true exactly when the constraint is. -/
theorem toTerm_eq_truth_iff : c.toTerm.fold algebra = .truth ↔ c.HoldsIn algebra := by
  have onward (terms : List Term) (first : Term) :
      (terms.foldl Term.conjunction first).fold algebra = .truth ↔
        first.fold algebra = .truth ∧ ∀ term ∈ terms, term.fold algebra = .truth := by
    induction terms generalizing first with
    | nil => simp
    | cons next rest ih =>
      rw [List.foldl_cons, ih, Term.conjunction, fold_and_eq_truth builtins respects, and_assoc,
        List.forall_mem_cons]
  have each : (∀ term ∈ c.atoms.map Atom.toTerm, term.fold algebra = .truth) ↔
      ∀ atom ∈ c.atoms, atom.HoldsIn algebra := by
    simp only [List.forall_mem_map, fold_toTerm_eq_truth_iff builtins respects ground]
  unfold Constraint.toTerm
  split
  · next contradictory =>
    refine ⟨fun same => ?_, fun holds => ?_⟩
    · exact absurd (same.symm.trans (respects.fold_token _ _)) Term.truth_ne_falsity
    · cases holds.consistent.symm.trans contradictory
  · next consistent =>
    have whole : c.HoldsIn algebra ↔ ∀ atom ∈ c.atoms, atom.HoldsIn algebra :=
      ⟨HoldsIn.holds, fun holds => ⟨by simpa using consistent, holds⟩⟩
    rw [whole, ← each]
    split
    · next none =>
      rw [none]
      exact ⟨fun _ => nofun, fun _ => respects.fold_token _ _⟩
    · next first rest shape => rw [shape, onward, List.forall_mem_cons]

end Ground

section Simplification

variable {safe : Term → Prop} (builtins : sig.HasBuiltins) (respects : algebra.Respects sig loose)
  (commuting : Commuting sig algebra safe)
  (ground : ∀ term : Term, (term.fold algebra).ground = true)
include builtins respects commuting

theorem of_refutedIn_assumeEvaluated (here : safe condition)
    (refuted : (c.assumeEvaluated sig condition).RefutedIn algebra) :
    c.RefutedIn algebra ∨ condition.fold algebra = .falsity := by
  rw [← commuting.fold_evalBuiltins condition here]
  exact (refutedIn_conjoin_iff builtins respects).mp refuted

include ground

/-- Where simplification finds an equation false, its sides have different values. -/
theorem of_refutedIn_equateEvaluated (left : safe a) (right : safe b)
    (refuted : (c.equateEvaluated sig a b).RefutedIn algebra) :
    c.RefutedIn algebra ∨ (Atom.eq a b).RefutedIn algebra := by
  have same : (Atom.eq a b).RefutedIn algebra ↔
      ¬(sig.evalBuiltins a).fold algebra = (sig.evalBuiltins b).fold algebra := by
    rw [refutedIn_eq_iff builtins respects ground, Atom.HoldsIn, commuting.fold_evalBuiltins a left,
      commuting.fold_evalBuiltins b right]
  have canonicalLeft := sig.canonical_evalBuiltins a
  have canonicalRight := sig.canonical_evalBuiltins b
  have evaluatedLeft := sig.evaluated_evalBuiltins a
  have evaluatedRight := sig.evaluated_evalBuiltins b
  have safeLeft := commuting.side a left
  have safeRight := commuting.side b right
  have truth : (Term.ofBool true).fold algebra = .truth := respects.fold_token _ _
  have falsity : (Term.ofBool false).fold algebra = .falsity := respects.fold_token _ _
  have differ : Term.truth ≠ .falsity := Term.truth_ne_falsity
  rw [same]
  unfold Constraint.equateEvaluated at refuted
  generalize sig.evalBuiltins a = x at *
  generalize sig.evalBuiltins b = y at *
  dsimp only at refuted
  split at refuted
  · exact .inl refuted
  · next apart =>
    split at refuted
    · next known =>
      obtain rfl := Term.bool?_eq_some_iff.mp known
      refine (of_refutedIn_assumeEvaluated builtins respects commuting safeRight refuted).imp_right ?_
      intro false
      rwa [truth, false]
    · next known _ =>
      obtain rfl := Term.bool?_eq_some_iff.mp known
      refine (of_refutedIn_assumeEvaluated builtins respects commuting safeLeft refuted).imp_right ?_
      intro false
      rw [truth, false]
      exact differ.symm
    · next known _ =>
      obtain rfl := Term.bool?_eq_some_iff.mp known
      refine (of_refutedIn_assumeEvaluated builtins respects commuting (commuting.negated y safeRight)
        refuted).imp_right ?_
      intro false
      rw [falsity, (fold_not_eq_falsity builtins respects).mp false]
      exact differ.symm
    · next known _ _ =>
      obtain rfl := Term.bool?_eq_some_iff.mp known
      refine (of_refutedIn_assumeEvaluated builtins respects commuting (commuting.negated x safeLeft)
        refuted).imp_right ?_
      intro false
      rwa [falsity, (fold_not_eq_falsity builtins respects).mp false]
    · split at refuted
      · next values =>
        obtain ⟨valueLeft, valueRight⟩ := Bool.and_eq_true_iff.mp values
        rw [Signature.fold_of_ground respects canonicalLeft evaluatedLeft
            (Signature.within_of_isValue respects.function valueLeft)
            (Signature.ground_of_isValue valueLeft),
          Signature.fold_of_ground respects canonicalRight evaluatedRight
            (Signature.within_of_isValue respects.function valueRight)
            (Signature.ground_of_isValue valueRight)]
        exact .inr apart
      · split at refuted
        · refine (refutedIn_push_iff.mp refuted).imp_right fun unequal => ?_
          rw [refutedIn_eq_iff builtins respects ground, Atom.HoldsIn] at unequal
          exact fun equal => unequal equal.symm
        · refine (refutedIn_push_iff.mp refuted).imp_right fun unequal => ?_
          rwa [refutedIn_eq_iff builtins respects ground, Atom.HoldsIn] at unequal

theorem of_refutedIn_ofAtoms (each : ∀ atom ∈ atoms, atom.Over safe safe)
    (refuted : (ofAtoms sig atoms).RefutedIn algebra) : ∃ atom ∈ atoms, atom.RefutedIn algebra := by
  unfold Constraint.ofAtoms at refuted
  have every : top.RefutedIn algebra ∨ ∃ atom ∈ atoms, atom.RefutedIn algebra := by
    generalize top = c at refuted ⊢
    induction atoms generalizing c with
    | nil => exact .inl refuted
    | cons first rest ih =>
      obtain ⟨here, later⟩ := List.forall_mem_cons.mp each
      rcases ih later _ refuted with added | ⟨atom, member, false⟩
      · have split : c.RefutedIn algebra ∨ first.RefutedIn algebra := by
          cases first with
          | eq a b =>
            exact of_refutedIn_equateEvaluated builtins respects commuting ground here.1 here.2 added
          | holds condition =>
            exact of_refutedIn_assumeEvaluated builtins respects commuting here added
        exact split.imp_right fun false => ⟨first, List.mem_cons_self, false⟩
      · exact .inr ⟨atom, List.mem_cons_of_mem _ member, false⟩
  exact every.resolve_left not_refutedIn_top

/-- Where the variable has the value that is put in for it, the other atoms mean the same; where it
has not, the equation that says so is false. -/
theorem of_refutedIn_propagate {v : Variable} {value : Term} (parted : c.Over safe safe)
    (defined : .eq (.var v) value ∈ c.atoms) (known : sig.isValue value = true)
    (refuted : (c.propagate sig v value).RefutedIn algebra) : c.RefutedIn algebra := by
  obtain ⟨image, member, false⟩ := of_refutedIn_ofAtoms builtins respects commuting ground
    (parted.propagated commuting.toRetained defined known) refuted
  obtain ⟨atom, present, rfl⟩ := List.mem_map.mp member
  by_cases holds : (Atom.eq (.var v) value).HoldsIn algebra
  · refine .inr ⟨atom, present, ?_⟩
    unfold Constraint.propagated at false
    split at false
    · exact false
    · have absorbed := (Subst.absorbs_single holds).fold_apply respects.normalizing
      cases atom <;> simpa only [Atom.RefutedIn, Atom.map, Atom.toTerm, Term.fold_app, List.map_cons,
        List.map_nil, absorbed] using false
  · exact .inr ⟨_, defined, (refutedIn_eq_iff builtins respects ground).mpr holds⟩

/-- Simplification brings up no falsity that was not there. -/
theorem of_refutedIn_simplify (each : ∀ atom ∈ c.atoms, atom.Over safe safe)
    (refuted : (c.simplify sig).RefutedIn algebra) : c.RefutedIn algebra := by
  have every (rounds : Nat) (done : List Variable) {c : Constraint} (parted : c.Over safe safe)
      (refuted : (c.propagateAll sig rounds done).RefutedIn algebra) : c.RefutedIn algebra := by
    induction rounds generalizing done c with
    | zero => exact refuted
    | succ rounds ih =>
      rw [Constraint.propagateAll] at refuted
      split at refuted
      · exact refuted
      · next v value found =>
        obtain ⟨defined, known⟩ := of_binding? found
        have later := ih _ (parted.propagate commuting.toRetained defined known) refuted
        exact of_refutedIn_propagate builtins respects commuting ground parted defined known later
  unfold Constraint.simplify at refuted
  split at refuted
  · next contradictory => exact .inl contradictory
  · have evaluated := every _ _ (.ofAtoms commuting.toRetained each) refuted
    exact .inr (of_refutedIn_ofAtoms builtins respects commuting ground each evaluated)

end Simplification

section Stability

variable (builtins : sig.HasBuiltins)
include builtins

private theorem stable_toTerm_atom (stable : atom.Stable sig fun _ => False) :
    atom.toTerm.Everywhere (sig.Stable fun _ => False) := by
  cases atom with
  | holds condition => exact stable condition (List.mem_singleton_self condition)
  | eq a b =>
    refine Term.Everywhere.app_iff.mpr ⟨fun name hook hooked named => ?_, fun part member => ?_⟩
    · have known : sig.hook? Label.termEq = some _ := builtins.hook?_eq rfl
      rw [known] at hooked
      cases hooked
      cases named
      exact ⟨rfl, fun _ _ _ => Signature.within_without _⟩
    · exact stable part (by simpa [Atom.parts] using member)

private theorem stable_conjunction (left : a.Everywhere (sig.Stable fun _ => False))
    (right : b.Everywhere (sig.Stable fun _ => False)) :
    (a.conjunction b).Everywhere (sig.Stable fun _ => False) := by
  refine Term.Everywhere.app_iff.mpr ⟨fun name hook hooked named => ?_, by simp [left, right]⟩
  have known : sig.hook? Label.boolAnd = some _ := builtins.hook?_eq rfl
  rw [known] at hooked
  cases hooked
  cases named
  exact ⟨rfl, nofun⟩

theorem stable_toTerm (stable : ∀ atom ∈ c.atoms, atom.Stable sig fun _ => False) :
    c.toTerm.Everywhere (sig.Stable fun _ => False) := by
  have onward {terms : List Term} {first : Term} (here : first.Everywhere (sig.Stable fun _ => False))
      (later : ∀ term ∈ terms, term.Everywhere (sig.Stable fun _ => False)) :
      (terms.foldl Term.conjunction first).Everywhere (sig.Stable fun _ => False) := by
    induction terms generalizing first with
    | nil => exact here
    | cons next rest ih =>
      obtain ⟨second, later⟩ := List.forall_mem_cons.mp later
      exact ih (stable_conjunction builtins here second) later
  have each : ∀ term ∈ c.atoms.map Atom.toTerm, term.Everywhere (sig.Stable fun _ => False) :=
    List.forall_mem_map.mpr fun atom member => stable_toTerm_atom builtins (stable atom member)
  unfold Constraint.toTerm
  split
  · exact Term.Everywhere.token_iff.mpr nofun
  · split
    · exact Term.Everywhere.token_iff.mpr nofun
    · next first rest shape =>
      rw [shape] at each
      obtain ⟨here, later⟩ := List.forall_mem_cons.mp each
      exact onward here later

end Stability

end Constraint

namespace Subst

/-- Each of the variables is bound, what is bound is a ground term that evaluates to itself, and
integer variables are bound to integers. -/
structure Assigns (sig : Signature) (vars : List Variable) (s : Subst) : Prop where
  covers : ∀ v ∈ vars, (s.get? v).isSome
  ground : ∀ v term, s.get? v = some term → term.ground = true
  fixed : ∀ v term, s.get? v = some term → sig.evalBuiltins term = term
  integer : ∀ v term, s.get? v = some term → v.sort = .int → ∃ value : Int, term = .ofInt value

/-- The value of each variable; those that are not bound are 0. -/
def orZero (sig : Signature) (s : Subst) (v : Variable) : Term :=
  (s.get? v).elim (.ofInt 0) sig.evalBuiltins

variable {sig : Signature} {vars : List Variable} {s : Subst} {c : Constraint}

theorem Assigns.ground_orZero (assigns : s.Assigns sig vars) (v : Variable) :
    (s.orZero sig v).ground = true := by
  unfold orZero
  cases bound : s.get? v with
  | none => rfl
  | some term =>
    rw [Option.elim_some, assigns.fixed v term bound]
    exact assigns.ground v term bound

theorem Evaluated.decimal_orZero (evaluated : s.Evaluated sig) (v : Variable) :
    (s.orZero sig v).Decimal := by
  unfold orZero
  cases bound : s.get? v with
  | none => exact Term.decimal_of_within (Term.Everywhere.token_iff.mpr fun _ => ⟨0, rfl⟩)
  | some term =>
    rw [Option.elim_some, evaluated.fixed v term bound]
    exact Term.decimal_of_within (evaluated.decimal v term bound)

theorem canonical_orZero (sig : Signature) (s : Subst) (v : Variable) :
    (s.orZero sig v).Canonical := by
  unfold orZero
  cases s.get? v with
  | none => exact .token _ _
  | some term => exact sig.canonical_evalBuiltins term

private theorem Assigns.integer_orZero (assigns : s.Assigns sig vars) (v : Variable) (integer : v.sort = .int) :
    ∃ value, s.orZero sig v = .ofInt value := by
  unfold orZero
  cases bound : s.get? v with
  | none => exact ⟨0, rfl⟩
  | some term =>
    obtain ⟨value, rfl⟩ := assigns.integer v term bound integer
    exact ⟨value, rfl⟩

/-- The value of a term depends on the variables that occur in it. -/
theorem fold_orZero {term : Term} (covers : ∀ v ∈ term.vars, (s.get? v).isSome) :
    term.fold (sig.assigned (s.orZero sig)) = term.fold (sig.valuation s) := by
  refine @Term.fold_congr _ (sig.assigned (s.orZero sig)) (sig.valuation s).var term fun v occurs => ?_
  obtain ⟨image, bound⟩ := Option.isSome_iff_exists.mp (covers v occurs)
  show (s.get? v).elim (.ofInt 0) sig.evalBuiltins = sig.evalBuiltins ((s.get? v).getD (.var v))
  rw [bound]
  rfl

theorem holdsIn_orZero_iff (covers : ∀ v ∈ c.freeVars, (s.get? v).isSome) :
    c.HoldsIn (sig.assigned (s.orZero sig)) ↔ c.Holds sig s := by
  have each : ∀ atom ∈ c.atoms, atom.HoldsIn (sig.assigned (s.orZero sig)) ↔
      atom.HoldsIn (sig.valuation s) := by
    intro atom member
    have free : ∀ v ∈ atom.vars, (s.get? v).isSome := fun v occurs =>
      covers v (Constraint.mem_freeVars.mpr ⟨atom, member, occurs⟩)
    cases atom with
    | eq a b =>
      rw [Atom.HoldsIn, Atom.HoldsIn, fold_orZero fun v occurs => free v (List.mem_append_left _ occurs),
        fold_orZero fun v occurs => free v (List.mem_append_right _ occurs)]
    | holds condition => rw [Atom.HoldsIn, Atom.HoldsIn, fold_orZero free]
  rw [Constraint.holds_iff]
  refine ⟨fun holds => ⟨holds.consistent, fun atom member => ?_⟩,
    fun holds => ⟨holds.consistent, fun atom member => ?_⟩⟩
  · exact (each atom member).mp (holds.holds atom member)
  · exact (each atom member).mpr (holds.holds atom member)

end Subst

namespace Store

variable {sig : Signature} {store : Store} {assumption conclusion : Constraint} {s : Subst}

/-- The assumption together with the negation of the conclusion, which the store tries to refute. -/
def denied (sig : Signature) (assumption conclusion : Constraint) : Constraint :=
  (assumption.conjoin (conclusion.simplify sig).toTerm.negate).simplify sig

theorem implies_eq (sig : Signature) (assumption conclusion : Constraint) (store : Store) :
    Store.implies sig assumption conclusion store =
      if (conclusion.simplify sig).isTrue then (.ok true, store)
      else if (denied sig assumption conclusion).isFalse then (.ok true, store)
      else ((Store.query sig (denied sig assumption conclusion) store).2.config.entailment
        (Store.query sig (denied sig assumption conclusion) store).1,
          (Store.query sig (denied sig assumption conclusion) store).2) := by
  unfold Store.implies
  dsimp only [bind, StateT.bind, pure, StateT.pure, get, getThe, MonadStateOf.get, StateT.get]
  split
  · rfl
  · unfold denied
    split <;> rfl

/-- A store that was asked stays a standard one. -/
theorem Standard.implies (standard : store.Standard sig) (assumption conclusion : Constraint) :
    (Store.implies sig assumption conclusion store).2.Standard sig := by
  rw [implies_eq]
  split
  · exact standard
  · split
    · exact standard
    · exact (standard.query _).2

section Soundness

variable {algebra : Term.Algebra Term} {c : Constraint} (builtins : sig.HasBuiltins)
  (respects : algebra.Respects sig fun _ => False)
  (ground : ∀ term : Term, (term.fold algebra).ground = true)
include builtins respects ground

/-- The local procedure refutes only what is false, if integer variables have integers for values. -/
theorem decideLocally_ne_of_not_refutedIn
    (integer : ∀ v : Variable, v.sort = .int → ∃ value, algebra.var v = .ofInt value)
    (stable : ∀ atom ∈ c.atoms, atom.Stable sig fun _ => False)
    (consistent : ¬c.RefutedIn algebra) : c.decideLocally sig ≠ .unsat := by
  have commuting := Constraint.commuting_stable builtins respects
  have left : ¬(c.simplify sig).RefutedIn algebra := by
    intro refuted
    refine consistent (Constraint.of_refutedIn_simplify builtins respects commuting ground ?_ refuted)
    exact fun atom member => Atom.over_iff.mpr (stable atom member)
  have bounded : ∀ atom ∈ (c.simplify sig).atoms, ∀ comparison v bound,
      Bounds.boundOf? atom = some (comparison, v, bound) → Bounds.Bounded algebra comparison v bound := by
    intro atom member comparison v bound found
    obtain ⟨value, same⟩ := integer v (Bounds.integer_of_boundOf? found)
    have decided := Bounds.fold_of_boundOf? builtins respects
      (Constraint.stable_simplify builtins respects.function stable atom member) found same
    refine .inl ⟨value, same, ?_⟩
    by_contra fails
    refine left (.inr ⟨atom, member, ?_⟩)
    rw [Bool.not_eq_true] at fails
    rw [Atom.RefutedIn, decided, fails]
    rfl
  rw [ne_eq, Constraint.decideLocally_eq_unsat_iff, not_or, Bounds.not_refute bounded]
  exact ⟨fun contradictory => left (.inl contradictory), nofun⟩

variable (stableAssumption : ∀ atom ∈ assumption.atoms, atom.Stable sig fun _ => False)
  (stableConclusion : ∀ atom ∈ conclusion.atoms, atom.Stable sig fun _ => False)
  (holds : assumption.HoldsIn algebra)
include stableAssumption stableConclusion holds

omit ground in
theorem over_denial : (assumption.conjoin (conclusion.simplify sig).toTerm.negate).Over
    (Term.Everywhere (sig.Stable fun _ => False)) (Term.Everywhere (sig.Stable fun _ => False)) := by
  have left := Constraint.stable_simplify builtins respects.function stableConclusion
  refine Constraint.Over.conjoin ⟨fun contradictory => ?_, fun atom member => ?_⟩
    (fun _ _ _ => Constraint.everywhere_sides)
    (Constraint.stable_negate builtins (Constraint.stable_toTerm builtins left))
  · cases holds.consistent.symm.trans contradictory
  · exact Atom.over_iff.mpr (stableAssumption atom member)

/-- Where the assumption is true and the conclusion is not, the negated conclusion is not false, though
it need not be true. -/
theorem not_refutedIn_denied (fails : ¬conclusion.HoldsIn algebra) :
    ¬(denied sig assumption conclusion).RefutedIn algebra := by
  have commuting := Constraint.commuting_stable builtins respects
  have left : ¬(conclusion.simplify sig).HoldsIn algebra := by
    rwa [Constraint.holdsIn_simplify_iff builtins respects commuting fun atom member =>
      Atom.over_iff.mpr (stableConclusion atom member)]
  have open' : ¬(assumption.conjoin (conclusion.simplify sig).toTerm.negate).RefutedIn algebra := by
    rw [Constraint.refutedIn_conjoin_iff builtins respects, Term.negate,
      Constraint.fold_not_eq_falsity builtins respects,
      Constraint.toTerm_eq_truth_iff builtins respects ground, not_or]
    exact ⟨holds.not_refutedIn builtins respects ground, left⟩
  intro refuted
  exact open' (Constraint.of_refutedIn_simplify builtins respects commuting ground
    (over_denial builtins respects stableAssumption stableConclusion holds).atoms refuted)

/-- What the store finds to follow is true, where all variables have ground values and the integer
variables have integers. -/
theorem Standard.holdsIn_of_implies (standard : store.Standard sig)
    (integer : ∀ v : Variable, v.sort = .int → ∃ value, algebra.var v = .ofInt value)
    (implied : (Store.implies sig assumption conclusion store).1 = .ok true) :
    conclusion.HoldsIn algebra := by
  by_contra fails
  have left := not_refutedIn_denied builtins respects ground stableAssumption stableConclusion holds fails
  have stable : ∀ atom ∈ (denied sig assumption conclusion).atoms, atom.Stable sig fun _ => False :=
    Constraint.stable_simplify builtins respects.function fun atom member => Atom.over_iff.mp
      ((over_denial builtins respects stableAssumption stableConclusion holds).atoms atom member)
  rw [implies_eq] at implied
  split at implied
  · next known =>
    -- Nothing is left of the conclusion, so it holds.
    obtain ⟨consistent, none⟩ := Bool.and_eq_true_iff.mp known
    have commuting := Constraint.commuting_stable builtins respects
    refine fails ((Constraint.holdsIn_simplify_iff builtins respects commuting fun atom member =>
      Atom.over_iff.mpr (stableConclusion atom member)).mp ⟨by simpa using consistent, ?_⟩)
    rw [List.isEmpty_iff.mp none]
    exact nofun
  · split at implied
    · next contradictory => exact left (.inl contradictory)
    · obtain ⟨answer, after⟩ := standard.query (denied sig assumption conclusion)
      have verdict : (denied sig assumption conclusion).decideLocally sig ≠ .unsat :=
        decideLocally_ne_of_not_refutedIn builtins respects ground integer stable left
      rw [answer, after.config] at implied
      simp [StoreConfig.entailment, verdict] at implied

end Soundness

/-- What the store finds to follow from a constraint is true wherever the constraint is, under every
assignment of evaluated ground terms with integers for the integer variables. -/
theorem holds_of_implies (standard : store.Standard sig) (builtins : sig.HasBuiltins)
    (plainAssumption : ∀ atom ∈ assumption.atoms, ∀ part ∈ atom.parts, part.Within sig.plain)
    (plainConclusion : ∀ atom ∈ conclusion.atoms, ∀ part ∈ atom.parts, part.Within sig.plain)
    (assigns : s.Assigns sig (assumption.freeVars ++ conclusion.freeVars))
    (implied : (Store.implies sig assumption conclusion store).1 = .ok true)
    (holds : assumption.Holds sig s) : conclusion.Holds sig s := by
  have stable {c : Constraint} (plain : ∀ atom ∈ c.atoms, ∀ part ∈ atom.parts, part.Within sig.plain) :
      ∀ atom ∈ c.atoms, atom.Stable sig fun _ => False :=
    fun atom member part inside => Signature.stable_of_plain (plain atom member part inside)
  rw [← Subst.holdsIn_orZero_iff fun v free => assigns.covers v (List.mem_append_left _ free)] at holds
  rw [← Subst.holdsIn_orZero_iff fun v free => assigns.covers v (List.mem_append_right _ free)]
  exact standard.holdsIn_of_implies builtins
    (Signature.respects_assigned (Subst.canonical_orZero sig s))
    (Signature.ground_assigned assigns.ground_orZero) (stable plainAssumption) (stable plainConclusion)
    holds assigns.integer_orZero implied

/-- An unknown number is less than this one. -/
def lessThan (bound : Int) : Constraint :=
  { atoms := [.holds (.app Label.intLt .bool [.var ⟨"X", .int⟩, .ofInt bound])]
    contradiction := false }

theorem plain_lessThan (bound : Int) : ∀ atom ∈ (lessThan bound).atoms, ∀ part ∈ atom.parts,
    part.Within Signature.builtin.plain := by
  have hooked : Signature.builtin.hook? Label.intLt = some "INT.lt" := rfl
  have var : (Term.var ⟨"X", .int⟩).Within Signature.builtin.plain :=
    Term.Everywhere.var_iff.mpr trivial
  have number : (Term.ofInt bound).Within Signature.builtin.plain :=
    Term.Everywhere.token_iff.mpr fun _ => ⟨bound, rfl⟩
  have whole : (Term.app Label.intLt .bool [.var ⟨"X", .int⟩, .ofInt bound]).Within
      Signature.builtin.plain := Signature.plain_app hooked rfl rfl (by simp [var, number])
  simpa [lessThan, Atom.parts] using whole

/-- What is less than 5 is less than 10. -/
theorem holds_of_implies_lessThan :
    (Store.implies Signature.builtin (lessThan 5) (lessThan 10) .standard).1 = .ok true ∧
      (lessThan 10).Holds Signature.builtin (.single ⟨"X", .int⟩ (.ofInt 3)) := by
  have implied : (Store.implies Signature.builtin (lessThan 5) (lessThan 10) .standard).1 =
      .ok true := by decide +kernel
  have assigns : (Subst.single ⟨"X", .int⟩ (.ofInt 3)).Assigns Signature.builtin
      ((lessThan 5).freeVars ++ (lessThan 10).freeVars) := by
    refine ⟨by decide +kernel, fun v term found => ?_, fun v term found => ?_,
      fun v term found _ => ⟨3, (Subst.eq_of_get?_single found).2⟩⟩
    · rw [(Subst.eq_of_get?_single found).2]
      rfl
    · rw [(Subst.eq_of_get?_single found).2]
      rfl
  have less : (lessThan 5).Holds Signature.builtin (.single ⟨"X", .int⟩ (.ofInt 3)) :=
    ⟨rfl, by simp only [lessThan, List.forall_mem_singleton]; rfl⟩
  exact ⟨implied, holds_of_implies (standard_standard _)
    Signature.constructive_builtin.toHasBuiltins (plain_lessThan 5) (plain_lessThan 10) assigns implied
    less⟩

end Store

end Reach
