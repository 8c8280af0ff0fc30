import Reach.Proofs.Entailment
import Reach.Proofs.Execution

/-!
What is left of a state without the instances that its successors cover. A condition that is decided and
not true has a true negation, so that negating the conditions loses no instance that is not covered, and
neither do the question whether anything is left, simplification and projection.
-/

namespace Reach

/-- The atom is true or false under an assignment. -/
def Atom.Decided (sig : Signature) (s : Subst) (atom : Atom) : Prop :=
  sig.evalBuiltins (s.apply atom.toTerm) = .truth ∨ sig.evalBuiltins (s.apply atom.toTerm) = .falsity

theorem Atom.vars_toTerm (atom : Atom) : atom.toTerm.vars = atom.vars := by
  cases atom <;> simp [toTerm, vars]

namespace Constraint

variable {sig : Signature} {c : Constraint} {s : Subst} {algebra : Term.Algebra Term}

/-- A condition that is decided is false unless it is true. -/
theorem refutedIn_orZero_of_decided (builtins : sig.HasBuiltins)
    (covers : ∀ v ∈ c.freeVars, (s.get? v).isSome) (decided : ∀ atom ∈ c.atoms, atom.Decided sig s)
    (fails : ¬c.Holds sig s) : c.RefutedIn (sig.assigned (s.orZero sig)) := by
  have respects : (sig.assigned (s.orZero sig)).Respects sig fun _ => False :=
    Signature.respects_assigned (Subst.canonical_orZero sig s)
  rw [← Subst.holdsIn_orZero_iff covers] at fails
  by_contra open'
  rw [RefutedIn, not_or, Bool.not_eq_true, not_exists] at open'
  refine fails ⟨open'.1, fun atom member => holdsIn_of_fold_toTerm builtins respects ?_⟩
  have free : ∀ v ∈ atom.toTerm.vars, (s.get? v).isSome := by
    intro v occurs
    rw [atom.vars_toTerm] at occurs
    exact covers v (mem_freeVars.mpr ⟨atom, member, occurs⟩)
  rw [Subst.fold_orZero free, ← sig.evalBuiltins_apply]
  refine (decided atom member).resolve_right fun false => open'.2 atom ⟨member, ?_⟩
  rw [Atom.RefutedIn, Subst.fold_orZero free, ← sig.evalBuiltins_apply, false]

end Constraint

namespace Engine

variable {sig : Signature} {algebra : Term.Algebra Term} {c : Constraint} {s : Subst}
  {context : Context} {world : World} {state : State} {successors : List Successor}

/-- Where all conditions are false, what is uncovered is what there was. -/
theorem exists_uncovered (builtins : sig.HasBuiltins) (respects : algebra.Respects sig fun _ => False)
    (fulfilled : c.Fulfilled sig (fun _ => False) algebra)
    (refuted : ∀ successor ∈ successors, successor.condition.RefutedIn algebra)
    (stable : ∀ successor ∈ successors, ∀ atom ∈ successor.condition.atoms,
      atom.Stable sig fun _ => False) :
    ∃ rest, uncovered c successors = some rest ∧ rest.Fulfilled sig (fun _ => False) algebra := by
  have partial' : ¬(successors.any fun successor => successor.condition.isTrue) = true := by
    intro covered
    obtain ⟨successor, member, true⟩ := List.any_eq_true.mp covered
    obtain ⟨consistent, none⟩ := Bool.and_eq_true_iff.mp true
    rcases refuted successor member with contradictory | ⟨atom, inside, _⟩
    · simp [contradictory] at consistent
    · rw [List.isEmpty_iff.mp none] at inside
      cases inside
  refine ⟨_, if_neg partial', ?_⟩
  clear partial'
  induction successors generalizing c with
  | nil => exact fulfilled
  | cons successor rest ih =>
    obtain ⟨here, later⟩ := List.forall_mem_cons.mp refuted
    obtain ⟨stableHere, stableLater⟩ := List.forall_mem_cons.mp stable
    refine ih (fulfilled.conjoin builtins respects ?_ ?_) later stableLater
    · exact (Constraint.fold_not_eq_truth builtins respects).mpr
        ((Constraint.toTerm_eq_falsity_iff builtins respects).mpr here)
    · exact Constraint.stable_negate builtins (Constraint.stable_toTerm builtins stableHere)

/-- Where all conditions are false, there is a remainder, and its constraint is fulfilled. -/
theorem exists_remainder (builtins : context.definition.signature.HasBuiltins)
    (standard : world.store.Standard context.definition.signature)
    (respects : algebra.Respects context.definition.signature fun _ => False)
    (decimal : ∀ v, (algebra.var v).Decimal)
    (fulfilled : state.constraint.Fulfilled context.definition.signature (fun _ => False) algebra)
    (refuted : ∀ successor ∈ successors, successor.condition.RefutedIn algebra)
    (stable : ∀ successor ∈ successors, ∀ atom ∈ successor.condition.atoms,
      atom.Stable context.definition.signature fun _ => False) :
    ∃ rest after, Gives (remainder state successors) context world (some rest) after ∧
      rest.term = state.term ∧ (∀ v ∈ rest.constraint.freeVars, v ∈ state.term.vars) ∧
      rest.constraint.Fulfilled context.definition.signature (fun _ => False) algebra := by
  obtain ⟨left, kept, open'⟩ := exists_uncovered builtins respects fulfilled refuted stable
  have feasible := standard.feasible_of_decimal builtins respects (fun v _ => decimal v) open'
  refine ⟨⟨state.term, (left.simplify context.definition.signature).project state.term.freeVars⟩,
    { world with store := (Store.feasible context.definition.signature left world.store).2 }, ?_, rfl,
    fun v free => ?_, (open'.simplify builtins respects).project respects.normalizing _⟩
  · unfold remainder
    rw [kept]
    refine gives_bind.mpr ⟨true, _, gives_feasible.mpr ⟨feasible, rfl⟩, ?_⟩
    exact gives_bind.mpr ⟨_, _, gives_signature.mpr ⟨rfl, rfl⟩, gives_pure.mpr ⟨rfl, rfl⟩⟩
  · obtain ⟨atom, member, occurs⟩ := Constraint.mem_freeVars.mp free
    exact List.mem_eraseDups.mp ((Constraint.of_mem_project member).2 v occurs)

/-- An instance of the state that none of the successors covers, though each condition is decided. -/
structure Escapes (sig : Signature) (state : State) (successors : List Successor) (s : Subst) :
    Prop where
  evaluated : s.Evaluated sig
  covers : ∀ v ∈ state.freeVars, (s.get? v).isSome
  coversConditions : ∀ successor ∈ successors, ∀ v ∈ successor.condition.freeVars, (s.get? v).isSome
  holds : state.constraint.Holds sig s
  decided : ∀ successor ∈ successors, ∀ atom ∈ successor.condition.atoms, atom.Decided sig s
  fails : ∀ successor ∈ successors, ¬successor.condition.Holds sig s

/-- The remainder of a state keeps every instance that no successor covers. -/
theorem remainder_keeps_uncovered (builtins : context.definition.signature.HasBuiltins)
    (standard : world.store.Standard context.definition.signature)
    (plain : ∀ atom ∈ state.constraint.atoms, ∀ part ∈ atom.parts,
      part.Within context.definition.signature.plain)
    (plainConditions : ∀ successor ∈ successors, ∀ atom ∈ successor.condition.atoms,
      ∀ part ∈ atom.parts, part.Within context.definition.signature.plain)
    (escapes : Escapes context.definition.signature state successors s) :
    ∃ rest after, Gives (remainder state successors) context world (some rest) after ∧
      rest.term = state.term ∧ rest.constraint.Holds context.definition.signature s := by
  let sig := context.definition.signature
  let algebra := sig.assigned (s.orZero sig)
  have respects : algebra.Respects sig fun _ => False :=
    Signature.respects_assigned (Subst.canonical_orZero sig s)
  have coversConstraint : ∀ v ∈ state.constraint.freeVars, (s.get? v).isSome := fun v free =>
    escapes.covers v (State.mem_freeVars.mpr (.inr (Constraint.mem_freeVars.mp free)))
  have fulfilled : state.constraint.Fulfilled sig (fun _ => False) algebra :=
    ⟨escapes.holds.1, ((Subst.holdsIn_orZero_iff coversConstraint).mpr escapes.holds).holds,
      fun atom member part inside => Signature.stable_of_plain (plain atom member part inside)⟩
  obtain ⟨rest, after, gives, term, within, left⟩ := exists_remainder builtins standard respects
    (fun v => escapes.evaluated.decimal_orZero v) fulfilled
    (fun successor member => Constraint.refutedIn_orZero_of_decided builtins
      (escapes.coversConditions successor member) (escapes.decided successor member)
      (escapes.fails successor member))
    fun successor member atom among part inside =>
      Signature.stable_of_plain (plainConditions successor member atom among part inside)
  refine ⟨rest, after, gives, term, (Subst.holdsIn_orZero_iff fun v free => escapes.covers v ?_).mp left.holdsIn⟩
  exact State.mem_freeVars.mpr (.inl (within v free))

/-- An unknown number. -/
def someNumber : State :=
  { term := .var ⟨"X", .int⟩ }

/-- What leads back to the number under a condition. -/
def backWhere (condition : Constraint) : Successor :=
  { state := someNumber, rule := "back", transition := true, narrowing := .empty, condition }

/-- The number is 10. -/
def isTen : Constraint :=
  { atoms := [.eq (.var ⟨"X", .int⟩) (.ofInt 10)], contradiction := false }

def withoutRules : Context where
  definition :=
    { signature := .builtin, rules := [], index := .empty, unindexed := [], functions := .empty }

/-- Of an unknown number 12 is left, after what is less than 10 and 10 itself. -/
theorem remainder_keeps_uncovered_twelve :
    ∃ rest after, Gives (remainder someNumber [backWhere (Store.lessThan 10), backWhere isTen])
        withoutRules {} (some rest) after ∧ rest.term = someNumber.term ∧
      rest.constraint.Holds Signature.builtin (.single ⟨"X", .int⟩ (.ofInt 12)) := by
  have integers : (Subst.single ⟨"X", .int⟩ (.ofInt 12)).Integers (Store.lessThan 10) := by
    exact ⟨by decide +kernel, fun v term found => ⟨12, (Subst.eq_of_get?_single found).2⟩⟩
  have plainTen : ∀ atom ∈ isTen.atoms, ∀ part ∈ atom.parts, part.Within Signature.builtin.plain := by
    have var : (Term.var ⟨"X", .int⟩).Within Signature.builtin.plain :=
      Term.Everywhere.var_iff.mpr trivial
    have number : (Term.ofInt 10).Within Signature.builtin.plain :=
      Term.Everywhere.token_iff.mpr fun _ => ⟨10, rfl⟩
    simp [isTen, Atom.parts, var, number]
  have escapes : Escapes Signature.builtin someNumber
      [backWhere (Store.lessThan 10), backWhere isTen] (.single ⟨"X", .int⟩ (.ofInt 12)) := by
    have holds : someNumber.constraint.Holds Signature.builtin (.single ⟨"X", .int⟩ (.ofInt 12)) :=
      ⟨rfl, List.forall_mem_nil _⟩
    refine ⟨integers.evaluated _, by decide +kernel, by decide +kernel, holds, ?_, ?_⟩
    · simp only [List.forall_mem_cons, List.not_mem_nil, false_implies, implies_true, and_true,
        backWhere, Store.lessThan, isTen]
      exact ⟨.inr (by decide +kernel), .inr (by decide +kernel)⟩
    · refine List.forall_mem_cons.mpr ⟨fun holds => ?_, List.forall_mem_singleton.mpr fun holds => ?_⟩
      all_goals
        have first := holds.2 _ List.mem_cons_self
        unfold Atom.Holds at first
        revert first
        decide +kernel
  refine @remainder_keeps_uncovered _ withoutRules {} someNumber _
    Signature.constructive_builtin.toHasBuiltins (Store.standard_standard _)
    (List.forall_mem_nil _) ?_ escapes
  exact List.forall_mem_cons.mpr ⟨Store.plain_lessThan 10, List.forall_mem_singleton.mpr plainTen⟩

end Engine

end Reach
