import Reach.Proofs.Satisfaction
import Reach.Proofs.Substitution

/-!
Projection is existential quantification, as far as equations allow. What an assignment satisfies it
also satisfies projected, with the variables kept and no others; where elimination leaves no other
variable, an assignment of the kept ones that satisfies the projection extends to the whole constraint.
-/

namespace Reach

/-- To assign a variable what a term becomes is to evaluate with the term in place of the variable. -/
theorem Signature.valuation_insert (sig : Signature) (s : Subst) (v : Variable) (term : Term) :
    sig.valuation (s.insert v (s.apply term)) = (sig.valuation s).after (.single v term) := by
  refine congrArg (fun onVar => { sig.builtinAlgebra with var := onVar }) (funext fun w => ?_)
  rw [Subst.image, Assoc.get?_insert, Subst.image_single]
  split
  · exact sig.evalBuiltins_apply s term
  · rfl

namespace Atom

variable {algebra : Term.Algebra Term} {other : Subst} {atom : Atom}

theorem holdsIn_map_apply_iff (normalizing : algebra.Normalizing) :
    (atom.map other.apply).HoldsIn algebra ↔ atom.HoldsIn (algebra.after other) := by
  cases atom <;> simp only [map, HoldsIn, normalizing.fold_apply]

/-- Replacing a variable that an atom does not mention leaves the atom as it is. -/
theorem map_single_eq_self {v : Variable} {term : Term} (canonical : ∀ part ∈ atom.parts, part.Canonical)
    (absent : v ∉ atom.vars) : atom.map (Subst.single v term).apply = atom := by
  cases atom with
  | eq a b =>
    obtain ⟨left, right⟩ := List.forall_mem_cons.mp canonical
    obtain ⟨freeLeft, freeRight⟩ := not_or.mp (mt List.mem_append.mpr absent)
    rw [Atom.map, Subst.apply_single_eq_self left freeLeft,
      Subst.apply_single_eq_self (List.forall_mem_singleton.mp right) freeRight]
  | holds condition =>
    rw [Atom.map, Subst.apply_single_eq_self (List.forall_mem_singleton.mp canonical) absent]

end Atom

namespace Constraint

variable {sig : Signature} {algebra : Term.Algebra Term} {c : Constraint} {keep : List Variable}
  {s : Subst} {atom : Atom}

/-- A variable may be given the value of its definition, which does not depend on it. -/
theorem holdsIn_after_of_eliminable {v : Variable} {term : Term}
    (found : eliminable keep atom = some (v, term)) :
    atom.HoldsIn (algebra.after (.single v term)) := by
  obtain ⟨shape, _, absent⟩ := of_eliminable found
  have defined : (Term.var v).fold (algebra.after (.single v term)) = term.fold algebra :=
    congrArg (Term.fold algebra) (by rw [Subst.image_single, if_pos rfl])
  have independent : term.fold algebra = term.fold (algebra.after (.single v term)) := by
    refine Term.fold_congr fun w occurs => ?_
    have other : w ≠ v := by
      rintro rfl
      cases absent.symm.trans ((Term.mem_vars_iff_mentions w term).mp occurs)
    rw [Subst.image_single, if_neg other, Term.fold_var]
  rcases shape with rfl | rfl
  · exact defined.trans independent
  · exact (defined.trans independent).symm

/-- What elimination leaves is satisfied by no more than it has to: the eliminated variables can be
given values that satisfy all of it. -/
theorem exists_holds_of_eliminate {atoms : List Atom} (rounds : Nat)
    (left : ∀ atom ∈ eliminate keep rounds atoms, atom.Holds sig s) :
    ∃ extended : Subst, (∀ v ∈ keep, extended.image v = s.image v) ∧
      ∀ atom ∈ atoms, atom.Holds sig extended := by
  induction rounds generalizing atoms with
  | zero => exact ⟨s, fun _ _ => rfl, left⟩
  | succ rounds ih =>
    rw [eliminate] at left
    split at left
    · exact ⟨s, fun _ _ => rfl, left⟩
    · next v term others taken =>
      obtain ⟨definition, _, found, _, covered⟩ := of_takeEliminable taken
      obtain ⟨extended, same, holds⟩ := ih left
      refine ⟨extended.insert v (extended.apply term), fun w kept => ?_, fun atom member => ?_⟩
      · have other : w ≠ v := fun equal => (of_eliminable found).2.1 (equal ▸ kept)
        rw [← same w kept, Subst.image, Assoc.get?_insert, if_neg other, Subst.image]
      · rw [Atom.holds_iff, sig.valuation_insert]
        rcases covered atom member with rfl | remains
        · exact holdsIn_after_of_eliminable found
        · have normalizing := sig.normalizing_valuation extended
          exact (Atom.holdsIn_map_apply_iff normalizing).mp
            (Atom.holds_iff.mp (holds _ (List.mem_map_of_mem remains)))

/-- What a constraint says with the kept variables alone, its projection says. -/
theorem mem_project_of_vars (consistent : c.contradiction = false)
    (canonical : ∀ atom ∈ c.atoms, ∀ part ∈ atom.parts, part.Canonical)
    (member : atom ∈ c.atoms) (kept : ∀ v ∈ atom.vars, v ∈ keep) : atom ∈ (c.project keep).atoms := by
  have parts := canonical atom member
  have remains (rounds : Nat) (atoms : List Atom) (member : atom ∈ atoms) :
      atom ∈ eliminate keep rounds atoms := by
    induction rounds generalizing atoms with
    | zero => exact member
    | succ rounds ih =>
      rw [eliminate]
      split
      · exact member
      · next v term others taken =>
        obtain ⟨definition, _, found, _, covered⟩ := of_takeEliminable taken
        obtain ⟨shape, outside, _⟩ := of_eliminable found
        have unchanged : atom.map (Subst.single v term).apply = atom :=
          Atom.map_single_eq_self parts fun occurs => outside (kept v occurs)
        refine ih _ (List.mem_map.mpr ⟨atom, ?_, unchanged⟩)
        -- The definition has a variable that is not kept, and the atom has none.
        refine (covered atom member).resolve_left fun same => outside (kept v ?_)
        rcases shape with rfl | rfl <;> simp [same, Atom.vars]
  exact (mem_project_iff consistent).mpr ⟨remains _ _ member, kept⟩

/-- Where elimination leaves none but the kept variables, the projection is satisfied by the
assignments that extend to an assignment of the whole constraint. -/
theorem holds_project_iff (consistent : c.contradiction = false)
    (said : ∀ atom ∈ eliminate keep c.atoms.length c.atoms, ∀ v ∈ atom.vars, v ∈ keep) :
    (∀ atom ∈ (c.project keep).atoms, atom.Holds sig s) ↔
      ∃ extended : Subst, (∀ v ∈ keep, extended.image v = s.image v) ∧
        ∀ atom ∈ c.atoms, atom.Holds sig extended := by
  constructor
  · refine fun holds => exists_holds_of_eliminate c.atoms.length fun atom left => ?_
    exact holds atom ((mem_project_iff consistent).mpr ⟨left, said atom left⟩)
  · rintro ⟨extended, same, holds⟩ atom member
    obtain ⟨left, inside⟩ := of_mem_project member
    refine Atom.holds_iff.mpr ((Atom.holdsIn_congr fun v occurs => same v (inside v occurs)).mp ?_)
    exact holdsIn_eliminate (sig.normalizing_valuation extended) keep _
      (fun atom member => Atom.holds_iff.mp (holds atom member)) atom left

/-- A projection mentions only the variables kept, keeps what is said with these alone, and is
satisfied by what satisfies the constraint. -/
theorem project_sound (sig : Signature) (keep : List Variable)
    (canonical : ∀ atom ∈ c.atoms, ∀ part ∈ atom.parts, part.Canonical) :
    (∀ v ∈ (c.project keep).freeVars, v ∈ keep) ∧
      (c.project keep).contradiction = c.contradiction ∧
      (c.contradiction = false → ∀ atom ∈ c.atoms, (∀ v ∈ atom.vars, v ∈ keep) →
        atom ∈ (c.project keep).atoms) ∧
      ∀ s : Subst, (∀ atom ∈ c.atoms, atom.Holds sig s) →
        ∀ atom ∈ (c.project keep).atoms, atom.Holds sig s := by
  refine ⟨fun v occurs => ?_, project_contradiction, fun consistent atom member kept => ?_,
    fun s holds atom member => ?_⟩
  · obtain ⟨atom, member, inside⟩ := mem_freeVars.mp occurs
    exact (of_mem_project member).2 v inside
  · exact mem_project_of_vars consistent canonical member kept
  · refine Atom.holds_iff.mpr ?_
    exact holdsIn_eliminate (sig.normalizing_valuation s) keep _
      (fun atom member => Atom.holds_iff.mp (holds atom member)) atom (of_mem_project member).1

/-- A successor is less than 5, and something else is less than 3. -/
def boundedSuccessor : Constraint :=
  let x := Term.var ⟨"X", .int⟩
  let y := Term.var ⟨"Y", .int⟩
  let z := Term.var ⟨"Z", .int⟩
  { atoms := [.eq y (.app Label.intAdd .int [x, .ofInt 1]),
      .holds (.app Label.intLt .bool [y, .ofInt 5]), .holds (.app Label.intLt .bool [z, .ofInt 3])]
    contradiction := false }

/-- Of a successor that is less than 5 remains that the number is, and 2 is such a number. -/
theorem project_sound_successor :
    (boundedSuccessor.project [⟨"X", .int⟩]).atoms = [.holds (.app Label.intLt .bool
        [.app Label.intAdd .int [.var ⟨"X", .int⟩, .ofInt 1], .ofInt 5])] ∧
      ∀ atom ∈ (boundedSuccessor.project [⟨"X", .int⟩]).atoms, atom.Holds Signature.builtin
        (Assoc.ofList [(⟨"X", .int⟩, .ofInt 2), (⟨"Y", .int⟩, .ofInt 3), (⟨"Z", .int⟩, .ofInt 0)]) := by
  have canonical : ∀ atom ∈ boundedSuccessor.atoms, ∀ part ∈ atom.parts, part.Canonical := by
    simp [boundedSuccessor, Atom.parts, Term.ofInt, Term.Canonical.app, Term.Canonical.var,
      Term.Canonical.token]
  refine ⟨by decide +kernel, ?_⟩
  refine (project_sound Signature.builtin [⟨"X", .int⟩] canonical).2.2.2 _ ?_
  simp only [boundedSuccessor, List.forall_mem_cons, List.not_mem_nil, false_implies, implies_true,
    and_true]
  refine ⟨?_, ?_, ?_⟩
  all_goals
    unfold Atom.Holds
    decide +kernel

end Constraint

end Reach
