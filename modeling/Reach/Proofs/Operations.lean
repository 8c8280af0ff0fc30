import Reach.Proofs.Entailment
import Reach.Proofs.Projection
import Reach.Proofs.Remainder

/-!
The operations on constraints mean what they say: an assignment satisfies a constraint with something
added to it if it satisfies both, an instance if it satisfies the constraint after the substitution, and
it makes the constraint as one term true if it satisfies the constraint. A contradiction stays one.
-/

namespace Reach

namespace Signature

variable {sig : Signature} {term : Term}

private theorem ground_evalBuiltins (ground : term.ground = true) : (sig.evalBuiltins term).ground = true :=
  Term.Within.ground_iff.mp (everywhere_evalBuiltins (Term.Within.ground_iff.mpr ground) (fun _ => id)
    (fun _ _ _ => trivial) (fun _ _ _ _ _ => trivial) (fun _ => trivial) (fun _ => trivial)
    (fun _ => trivial) fun _ _ _ _ _ _ => trivial)

/-- To evaluate under a composition is to evaluate the instance. -/
theorem valuation_compose (sig : Signature) (s rho : Subst) :
    sig.valuation (s.compose rho) = (sig.valuation rho).after s := by
  refine congrArg (fun onVar => { sig.builtinAlgebra with var := onVar }) (funext fun v => ?_)
  rw [Subst.image_compose]
  exact sig.evalBuiltins_apply rho (s.image v)

end Signature

namespace Subst

variable {sig : Signature} {s : Subst}

theorem ground_orZero (ground : ∀ v term, s.get? v = some term → term.ground = true) (v : Variable) :
    (s.orZero sig v).ground = true := by
  unfold orZero
  cases bound : s.get? v with
  | none => rfl
  | some term => exact Signature.ground_evalBuiltins (ground v term bound)

end Subst

namespace Constraint

variable {sig : Signature} {algebra : Term.Algebra Term} {c d : Constraint} {a b : Term} {s rho : Subst}

theorem holdsIn_pushAll_iff {atoms : List Atom} : (atoms.foldl push c).HoldsIn algebra ↔
    c.HoldsIn algebra ∧ ∀ atom ∈ atoms, atom.HoldsIn algebra := by
  induction atoms generalizing c with
  | nil => exact ⟨fun holds => ⟨holds, nofun⟩, And.left⟩
  | cons first rest ih => rw [List.foldl_cons, ih, holdsIn_push_iff, and_assoc, List.forall_mem_cons]

theorem holdsIn_conjoinEq_iff : (c.conjoinEq a b).HoldsIn algebra ↔
    c.HoldsIn algebra ∧ (Atom.eq a b).HoldsIn algebra := by
  unfold conjoinEq
  split
  · next same =>
    subst same
    exact ⟨fun holds => ⟨holds, rfl⟩, And.left⟩
  · exact holdsIn_push_iff

theorem holdsIn_and_iff : (c.and d).HoldsIn algebra ↔ c.HoldsIn algebra ∧ d.HoldsIn algebra := by
  unfold and
  split
  · next contradictory =>
    refine ⟨fun holds => absurd holds not_holdsIn_bottom, fun ⟨_, holds⟩ => ?_⟩
    cases holds.consistent.symm.trans contradictory
  · next consistent =>
    have whole : d.HoldsIn algebra ↔ ∀ atom ∈ d.atoms, atom.HoldsIn algebra :=
      ⟨HoldsIn.holds, fun holds => ⟨by simpa using consistent, holds⟩⟩
    rw [holdsIn_pushAll_iff, whole]

private theorem holdsIn_substitute_iff (normalizing : algebra.Normalizing) :
    (c.substitute s).HoldsIn algebra ↔ c.HoldsIn (algebra.after s) := by
  unfold substitute
  split
  · next contradictory =>
    refine ⟨fun holds => absurd holds not_holdsIn_bottom, fun holds => ?_⟩
    cases holds.consistent.symm.trans contradictory
  · next consistent =>
    rw [holdsIn_pushAll_iff, List.forall_mem_map]
    simp only [Atom.holdsIn_map_apply_iff normalizing]
    exact ⟨fun ⟨_, holds⟩ => ⟨by simpa using consistent, holds⟩, fun holds => ⟨⟨rfl, nofun⟩, holds.holds⟩⟩

private theorem holds_substitute_iff : (c.substitute s).Holds sig rho ↔ c.Holds sig (s.compose rho) := by
  rw [holds_iff, holds_iff, holdsIn_substitute_iff (sig.normalizing_valuation rho),
    sig.valuation_compose]

/-- The variables of a constraint as one term are its own. -/
theorem mem_freeVars_of_toTerm {v : Variable} (occurs : v ∈ c.toTerm.vars) : v ∈ c.freeVars := by
  have onward (terms : List Term) (first : Term) (inside : v ∈ (terms.foldl Term.conjunction first).vars) :
      ∃ term ∈ first :: terms, v ∈ term.vars := by
    induction terms generalizing first with
    | nil => exact ⟨first, List.mem_singleton_self first, inside⟩
    | cons next rest ih =>
      obtain ⟨term, member, occurs⟩ := ih _ inside
      rcases List.mem_cons.mp member with rfl | later
      · obtain ⟨side, given, occurs⟩ := Term.mem_vars_app.mp occurs
        exact ⟨side, List.mem_append_left rest given, occurs⟩
      · exact ⟨term, by simp [later], occurs⟩
  unfold toTerm at occurs
  split at occurs
  · cases occurs
  · split at occurs
    · cases occurs
    · next first rest shape =>
      obtain ⟨term, member, occurs⟩ := onward rest first occurs
      rw [← shape] at member
      obtain ⟨atom, inside, rfl⟩ := List.mem_map.mp member
      exact mem_freeVars.mpr ⟨atom, inside, atom.vars_toTerm ▸ occurs⟩

/-- A ground assignment of all variables makes the constraint as one term true if it satisfies it. -/
theorem holds_toTerm_iff (builtins : sig.HasBuiltins)
    (ground : ∀ v term, rho.get? v = some term → term.ground = true)
    (covers : ∀ v ∈ c.freeVars, (rho.get? v).isSome) :
    sig.evalBuiltins (rho.apply c.toTerm) = .truth ↔ c.Holds sig rho := by
  have respects := @Signature.respects_assigned sig _ (Subst.canonical_orZero sig rho)
  have free : ∀ v ∈ c.toTerm.vars, (rho.get? v).isSome := fun v occurs =>
    covers v (mem_freeVars_of_toTerm occurs)
  rw [sig.evalBuiltins_apply, ← Subst.fold_orZero free, ← Subst.holdsIn_orZero_iff covers]
  exact toTerm_eq_truth_iff builtins respects (Signature.ground_assigned (Subst.ground_orZero ground))

/-- The operations on constraints mean what they say. -/
theorem holds_operations_iff (builtins : sig.HasBuiltins) (c d : Constraint) (condition a b : Term)
    (s rho : Subst) (ground : ∀ v term, rho.get? v = some term → term.ground = true)
    (covers : ∀ v ∈ c.freeVars, (rho.get? v).isSome) :
    ((c.conjoin condition).Holds sig rho ↔
      c.Holds sig rho ∧ sig.evalBuiltins (rho.apply condition) = .truth) ∧
    ((c.conjoinEq a b).Holds sig rho ↔
      c.Holds sig rho ∧ sig.evalBuiltins (rho.apply a) = sig.evalBuiltins (rho.apply b)) ∧
    ((c.and d).Holds sig rho ↔ c.Holds sig rho ∧ d.Holds sig rho) ∧
    ((c.substitute s).Holds sig rho ↔ c.Holds sig (s.compose rho)) ∧
    (sig.evalBuiltins (rho.apply c.toTerm) = .truth ↔ c.Holds sig rho) := by
  refine ⟨?_, ?_, ?_, holds_substitute_iff, holds_toTerm_iff builtins ground covers⟩
  · rw [holds_iff, holds_iff, sig.evalBuiltins_apply,
      holdsIn_conjoin_iff builtins (sig.respects_valuation rho)]
  · rw [holds_iff, holds_iff, holdsIn_conjoinEq_iff, sig.evalBuiltins_apply, sig.evalBuiltins_apply]
    rfl
  · rw [holds_iff, holds_iff, holds_iff, holdsIn_and_iff]

/-- A number is 3, and a set with it and with what else there is has fewer elements than another number. -/
def smallSet : Constraint :=
  { atoms := [.eq (.var ⟨"X", .int⟩) (.ofInt 3), .holds (.app Label.intLt .bool [.app Label.setSize .int
      [.collection .set [.element (.var ⟨"X", .int⟩)] (some (.var ⟨"F", .set⟩))], .var ⟨"Y", .int⟩])]
    contradiction := false }

/-- The set is 3 and 4, once its frame has a value, and the other number is one more than 6. -/
theorem holds_operations_iff_smallSet :
    let rho : Subst := .ofList [(⟨"X", .int⟩, .ofInt 3), (⟨"Y", .int⟩, .ofInt 7), (⟨"Z", .int⟩, .ofInt 6),
      (⟨"F", .set⟩, .collection .set [.element (.ofInt 3), .element (.ofInt 4)] none)]
    let next := Term.app Label.intAdd .int [.var ⟨"Z", .int⟩, .ofInt 1]
    let less := Term.app Label.intLt .bool [.var ⟨"Z", .int⟩, .ofInt 9]
    (smallSet.conjoin (less.conjunction (Term.truth.conjunction less))).Holds Signature.builtin rho ∧
      (smallSet.conjoinEq (.var ⟨"Y", .int⟩) next).Holds Signature.builtin rho ∧
      ¬(smallSet.and bottom).Holds Signature.builtin rho ∧
      (smallSet.substitute (.single ⟨"Y", .int⟩ next)).Holds Signature.builtin rho ∧
      Signature.builtin.evalBuiltins (rho.apply smallSet.toTerm) = .truth := by
  intro rho next less
  have builtins := Signature.constructive_builtin.toHasBuiltins
  have ground : ∀ v term, rho.get? v = some term → term.ground = true := fun v term found =>
    have each : ∀ entry ∈ rho.entries, entry.2.ground = true := by decide +kernel
    each _ (Assoc.get?_eq_some_iff.mp found)
  have covers : ∀ v ∈ smallSet.freeVars, (rho.get? v).isSome := by decide +kernel
  obtain ⟨conjoin, conjoinEq, and, substitute, whole⟩ := holds_operations_iff builtins smallSet bottom
    (less.conjunction (Term.truth.conjunction less)) (.var ⟨"Y", .int⟩) next (.single ⟨"Y", .int⟩ next) rho
    ground covers
  have holds : smallSet.Holds Signature.builtin rho := by
    refine ⟨rfl, List.forall_mem_cons.mpr ⟨?_, List.forall_mem_singleton.mpr ?_⟩⟩
    all_goals
      unfold Atom.Holds
      decide +kernel
  refine ⟨conjoin.mpr ⟨holds, by decide +kernel⟩, conjoinEq.mpr ⟨holds, by decide +kernel⟩,
    (fun both => nomatch (and.mp both).2.1), substitute.mpr ⟨rfl, ?_⟩, whole.mpr holds⟩
  refine List.forall_mem_cons.mpr ⟨?_, List.forall_mem_singleton.mpr ?_⟩
  all_goals
    unfold Atom.Holds
    decide +kernel

end Constraint

end Reach
