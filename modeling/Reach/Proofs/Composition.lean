import Reach.Proofs.Substitution

/-!
Composing substitutions is applying them one after the other, whatever terms they bind. On a canonical
term the images need not be canonical: an unordered collection with entries is arranged anew by each
application, and arranging its images once or twice comes to the same.
-/

namespace Reach

namespace Term.Canonical

variable {algebra : Algebra Term} {s : Subst} {term : Term}

/-- Folding an instance of a canonical term is one fold of the term, even if what the substitution binds
is not canonical. -/
theorem fold_instance (canonical : term.Canonical) (rebuilds : algebra.collection = Term.normalized)
    (s : Subst) : (term.fold s.algebra).fold algebra = term.fold (algebra.after s) := by
  induction canonical with
  | var v => rfl
  | token sort value => rfl
  | app label sort parts ih =>
    have outer : ∀ images, (Term.app label sort images).fold algebra =
        algebra.app label sort (images.map (fold algebra)) := fold_app algebra label sort
    rw [fold_app, fold_app]
    refine (outer _).trans (congrArg _ ?_)
    rw [List.map_map]
    exact List.map_congr_left ih
  | collection parts rest arranged ihEntries ihFrame =>
    rename_i kind entries frame
    obtain ⟨_, _, bare⟩ := normalized_eq_self_iff.mp arranged
    rw [fold_collection, fold_collection]
    change (Term.normalized _ _ _).fold algebra = algebra.collection _ _ _
    rw [rebuilds]
    by_cases empty : entries = []
    · -- Without entries there is no frame either, and nothing to arrange.
      rw [bare empty, empty]
      change (Term.normalized kind [] none).fold algebra = Term.normalized kind [] none
      rw [normalized_nil_none, Term.empty, fold_collection, rebuilds]
      exact normalized_nil_none kind
    · have filled : entries.map (Entry.map (fold s.algebra)) ≠ [] := mt List.map_eq_nil_iff.mp empty
      rw [fold_normalized_of_filled rebuilds (splice_ne_nil filled), List.map_map, Option.map_map]
      congr 1
      · refine List.map_congr_left fun entry member => ?_
        rw [Function.comp_apply, Entry.map_map]
        exact Entry.map_congr fun part inside => ihEntries entry member part inside
      · exact Option.map_congr fun last member => ihFrame last member

end Term.Canonical

namespace Subst

variable {s other : Subst} {term : Term}


/-- The instance of a canonical term under a composition is the instance of its instance. -/
theorem apply_compose_eq (canonical : term.Canonical) (s other : Subst) :
    (s.compose other).apply term = other.apply (s.apply term) := by
  by_cases still : other.isEmpty = true
  · have same (v : Variable) : (s.compose other).image v = s.image v := by
      rw [image_compose, apply_eq_id_of_isEmpty still]
      rfl
    rw [apply_eq_id_of_isEmpty still, id_eq]
    exact apply_congr canonical fun v _ => same v
  · have moves : other.isEmpty = false := by simpa using still
    rw [apply_eq_fold_algebra _ canonical, apply_eq_fold_algebra s canonical, apply_eq_fold moves,
      canonical.fold_instance rfl]
    refine Term.fold_congr fun v _ => ?_
    rw [← apply_eq_fold moves]
    exact image_compose s other v

/-- The frame of a set is bound to a set that is out of order and has a frame itself. Later bindings
make entries of the two equal, and all that is left is the set of three numbers. -/
theorem apply_compose_eq_spliced :
    let number (text : String) := Entry.element (Term.token .int text)
    let name (text : String) := Entry.element (Term.var ⟨text, .int⟩)
    let pattern := Term.collection .set [name "X", number "1"] (some (.var ⟨"R", .set⟩))
    let rest := Term.collection .set [number "2", name "Y"] (some (.var ⟨"Q", .set⟩))
    let s := single ⟨"R", .set⟩ rest
    let other : Subst := .ofList [(⟨"X", .int⟩, .token .int "1"), (⟨"Y", .int⟩, .token .int "2"),
      (⟨"Q", .set⟩, .collection .set [number "3"] none)]
    pattern.Canonical ∧ ¬rest.Canonical ∧
      (s.compose other).apply pattern = other.apply (s.apply pattern) ∧
      other.apply (s.apply pattern) = .collection .set [number "1", number "2", number "3"] none := by
  intro number name pattern rest s other
  have canonical : pattern.Canonical := by
    refine .collection ?_ (by simp [Term.Canonical.var]) rfl
    simp [number, name, Entry.parts, Term.Canonical.token, Term.Canonical.var]
  refine ⟨canonical, fun sorted => ?_, apply_compose_eq canonical s other, by decide +kernel⟩
  have arranged : Term.normalized .set [number "2", name "Y"] (some (.var ⟨"Q", .set⟩)) = rest :=
    sorted.normalized_eq
  exact absurd arranged (by decide +kernel)

end Subst

end Reach
