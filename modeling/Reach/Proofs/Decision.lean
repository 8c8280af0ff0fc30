import Reach.Proofs.Bounds

/-!
What the verdicts of the local decision procedure mean. It calls a constraint unsatisfiable only if no
assignment satisfies it, and satisfiable only if every assignment does. Where simplification leaves
nothing but comparisons of single variables with constants, it finds every unsatisfiable constraint:
the bounds on each variable are decided exactly, and the variables do not depend on each other.
-/

namespace Reach

namespace Subst

/-- Variables are replaced by ground terms that evaluate to themselves, in which integers are plain
decimals. -/
structure Evaluated (sig : Signature) (s : Subst) : Prop where
  ground : ∀ v term, s.get? v = some term → term.ground = true
  fixed : ∀ v term, s.get? v = some term → sig.evalBuiltins term = term
  decimal : ∀ v term, s.get? v = some term → term.Within .decimals

/-- Integers are assigned to variables, to those of the constraint at least. -/
structure Integers (c : Constraint) (s : Subst) : Prop where
  covers : ∀ v ∈ c.freeVars, (s.get? v).isSome
  integer : ∀ v term, s.get? v = some term → ∃ value : Int, term = .ofInt value

/-- Each of the variables is bound to its value. -/
def ofValues (value : Variable → Term) (vars : List Variable) : Subst :=
  Assoc.ofList (vars.map fun v => (v, value v))

variable {sig : Signature} {c : Constraint} {s : Subst}

theorem get?_ofValues (value : Variable → Term) (vars : List Variable) (v : Variable) :
    (ofValues value vars).get? v = if v ∈ vars then some (value v) else none := by
  have every (all : Subst) : ((vars.map fun v => (v, value v)).foldl
      (fun (map : Subst) entry => map.insert entry.1 entry.2) all).get? v =
        if v ∈ vars then some (value v) else all.get? v := by
    induction vars generalizing all with
    | nil => rfl
    | cons first rest ih =>
      rw [List.map_cons, List.foldl_cons, ih, Assoc.get?_insert]
      by_cases later : v ∈ rest
      · rw [if_pos later, if_pos (List.mem_cons_of_mem _ later)]
      · rw [if_neg later]
        by_cases here : v = first
        · rw [if_pos here, if_pos (by simp [here]), here]
        · rw [if_neg here, if_neg (by simp [here, later])]
  exact every .empty

private theorem Evaluated.decimal_var (evaluated : s.Evaluated sig) (v : Variable) :
    ((sig.valuation s).var v).Decimal := by
  show (sig.evalBuiltins (s.image v)).Decimal
  cases bound : s.get? v with
  | none =>
    rw [image_of_get?_none bound]
    exact nofun
  | some term =>
    rw [show s.image v = term by simp [image, bound], evaluated.fixed v term bound]
    exact Term.decimal_of_within (evaluated.decimal v term bound)

theorem Integers.evaluated (integers : s.Integers c) (sig : Signature) : s.Evaluated sig := by
  constructor
  · intro v term bound
    obtain ⟨value, rfl⟩ := integers.integer v term bound
    rfl
  · intro v term bound
    obtain ⟨value, rfl⟩ := integers.integer v term bound
    rfl
  · intro v term bound
    obtain ⟨value, rfl⟩ := integers.integer v term bound
    exact Term.Everywhere.token_iff.mpr fun _ => ⟨value, rfl⟩

end Subst

namespace Label

/-- The labels of the comparisons of integers and of terms. -/
def comparisons : List String :=
  [intLt, intLe, intGt, intGe, intEq, intNe, termEq, termNe]

end Label

namespace Bounds

variable {atom : Atom} {a b : Term}

/-- On one side there is a linear term, on the other a constant. -/
def Sides (a b : Term) : Prop :=
  (∃ v offset, Linear a v offset) ∧ (∃ constant, b.int? = some constant) ∨
    (∃ constant, a.int? = some constant) ∧ ∃ v offset, Linear b v offset

/-- A comparison of a linear term with a constant, possibly under one negation. -/
inductive Single : Atom → Prop
  | equation {a b : Term} (sides : Sides a b) : Single (.eq a b)
  | comparison {label : String} {sort : TermSort} {a b : Term} (listed : label ∈ Label.comparisons)
      (sides : Sides a b) : Single (.holds (.app label sort [a, b]))
  | negation {label : String} {sort inner : TermSort} {a b : Term}
      (listed : label ∈ Label.comparisons) (sides : Sides a b) :
      Single (.holds (.app Label.boolNot sort [.app label inner [a, b]]))

theorem comparison?_of_listed {label : String} (listed : label ∈ Label.comparisons) :
    ∃ comparison, comparison? label = some comparison ∧ label ≠ Label.boolNot := by
  revert label
  decide

theorem exists_normalForm? (sides : Sides a b) (comparison : Comparison) :
    ∃ result v bound, normalForm? comparison a b = some (result, v, bound) := by
  rcases sides with ⟨⟨v, offset, linear⟩, constant, known⟩ | ⟨⟨constant, known⟩, v, offset, linear⟩
  · exact ⟨comparison, v, constant - offset,
      by simp only [normalForm?, linear?_eq_some_iff.mpr linear, known]⟩
  · refine ⟨comparison.flip, v, constant - offset, ?_⟩
    have other : linear? a = none := by
      cases a with
      | token sort text => rfl
      | _ => cases known
    simp only [normalForm?, other, linear?_eq_some_iff.mpr linear, known]

private theorem Single.exists_boundOf? (single : Single atom) :
    ∃ comparison v bound, boundOf? atom = some (comparison, v, bound) := by
  cases single with
  | equation sides => exact exists_normalForm? sides .eq
  | comparison listed sides =>
    obtain ⟨comparison, known, differ⟩ := comparison?_of_listed listed
    obtain ⟨result, v, bound, found⟩ := exists_normalForm? sides comparison
    exact ⟨result, v, bound, by simp [boundOf?, comparisonOf?, differ, known, found]⟩
  | negation listed sides =>
    obtain ⟨comparison, known, _⟩ := comparison?_of_listed listed
    obtain ⟨result, v, bound, found⟩ := exists_normalForm? sides comparison.negate
    exact ⟨result, v, bound, by simp [boundOf?, comparisonOf?, known, found]⟩

end Bounds

namespace Constraint

variable {sig : Signature} {c : Constraint} {s : Subst}

theorem not_holds_of_unsat (builtins : sig.HasBuiltins)
    (plain : ∀ atom ∈ c.atoms, ∀ part ∈ atom.parts, part.Within sig.plain)
    (evaluated : s.Evaluated sig) (unsat : c.decideLocally sig = .unsat) : ¬c.Holds sig s := by
  intro holds
  have fulfilled : c.Fulfilled sig (fun _ => False) (sig.valuation s) :=
    ⟨holds.1, (holds_iff.mp holds).holds, fun atom member part inside =>
      Signature.stable_of_plain (plain atom member part inside)⟩
  exact fulfilled.decideLocally_ne builtins (sig.respects_valuation s)
    (fun v _ => evaluated.decimal_var v) unsat

/-- A constraint is found satisfiable only if nothing is left of it. -/
theorem holds_of_sat (builtins : sig.HasBuiltins)
    (plain : ∀ atom ∈ c.atoms, ∀ part ∈ atom.parts, part.Within sig.plain)
    (sat : c.decideLocally sig = .sat) : c.Holds sig s := by
  have unmapped := fun atom member part inside =>
    Signature.unmapped_of_plain (plain atom member part inside)
  rw [holds_iff, ← holdsIn_simplify_iff_of_unmapped builtins (sig.respects_valuation s) unmapped]
  unfold decideLocally at sat
  dsimp only at sat
  split at sat
  · cases sat
  · split at sat
    · next known =>
      obtain ⟨consistent, none⟩ := Bool.and_eq_true_iff.mp known
      refine ⟨by simpa using consistent, ?_⟩
      rw [List.isEmpty_iff.mp none]
      exact nofun
    · split at sat <;> cases sat

/-- Where the bounds of single variables are all that is left, they leave an integer for each of the
variables unless the constraint is found unsatisfiable. -/
theorem exists_holds_of_ne_unsat (builtins : sig.HasBuiltins)
    (plain : ∀ atom ∈ c.atoms, ∀ part ∈ atom.parts, part.Within sig.plain)
    (single : ∀ atom ∈ (c.simplify sig).atoms, Bounds.Single atom)
    (open' : c.decideLocally sig ≠ .unsat) : ∃ s : Subst, s.Integers c ∧ c.Holds sig s := by
  rw [ne_eq, decideLocally_eq_unsat_iff, not_or, Bool.not_eq_true, Bool.not_eq_true] at open'
  obtain ⟨consistent, left⟩ := open'
  obtain ⟨value, leaves⟩ := Classical.axiomOfChoice (Bounds.refute_eq_false_iff.mp left)
  let bounded := (c.simplify sig).atoms.filterMap fun atom =>
    (Bounds.boundOf? atom).map fun (_, v, _) => v
  let s := Subst.ofValues (fun v => .ofInt (value v)) (c.freeVars ++ bounded)
  have bound := Subst.get?_ofValues (fun v => .ofInt (value v)) (c.freeVars ++ bounded)
  refine ⟨s, ⟨fun v free => ?_, fun v term found => ?_⟩, ?_⟩
  · rw [bound, if_pos (List.mem_append_left _ free)]
    rfl
  · rw [bound] at found
    split at found
    · exact ⟨value v, (Option.some.inj found).symm⟩
    · cases found
  have unmapped := fun atom member part inside =>
    Signature.unmapped_of_plain (plain atom member part inside)
  have respects := sig.respects_valuation s
  rw [holds_iff, ← holdsIn_simplify_iff_of_unmapped builtins respects unmapped]
  refine ⟨consistent, fun atom member => holdsIn_of_fold_toTerm builtins respects ?_⟩
  obtain ⟨comparison, v, limit, found⟩ := (single atom member).exists_boundOf?
  have listed : v ∈ c.freeVars ++ bounded :=
    List.mem_append_right _ (List.mem_filterMap.mpr ⟨atom, member, by rw [found]; rfl⟩)
  have same : (sig.valuation s).var v = .ofInt (value v) := by
    show sig.evalBuiltins (s.image v) = _
    rw [Subst.image, bound, if_pos listed]
    rfl
  have stable := stable_simplify builtins respects.function
    (fun atom member part inside => Signature.stable_of_plain (plain atom member part inside))
    atom member
  rw [Bounds.fold_of_boundOf? builtins respects stable found same,
    leaves v atom member comparison limit found]
  rfl

/-- The local procedure is sound, and complete for bounds on single variables. A constraint that it
refutes is satisfied by no assignment of evaluated ground terms, and one that it finds satisfiable by
all of them. If simplification leaves only comparisons of single variables with constants, it refutes
exactly what no assignment of integers satisfies. -/
theorem decideLocally_correct (builtins : sig.HasBuiltins)
    (plain : ∀ atom ∈ c.atoms, ∀ part ∈ atom.parts, part.Within sig.plain) :
    (c.decideLocally sig = .unsat → ∀ s : Subst, s.Evaluated sig → ¬c.Holds sig s) ∧
    (c.decideLocally sig = .sat → ∀ s : Subst, s.Evaluated sig → c.Holds sig s) ∧
    ((∀ atom ∈ (c.simplify sig).atoms, Bounds.Single atom) →
      (c.decideLocally sig = .unsat ↔ ∀ s : Subst, s.Integers c → ¬c.Holds sig s)) := by
  refine ⟨fun unsat s evaluated => not_holds_of_unsat builtins plain evaluated unsat,
    fun sat s _ => holds_of_sat builtins plain sat, fun single => ⟨fun unsat s integers => ?_, ?_⟩⟩
  · exact not_holds_of_unsat builtins plain (integers.evaluated sig) unsat
  · intro none
    by_contra open'
    obtain ⟨s, integers, holds⟩ := exists_holds_of_ne_unsat builtins plain single open'
    exact none s integers holds

/-- A number is 9 or 10, but neither of the two. -/
def nineOrTen : Constraint :=
  { atoms := [
      .holds (.app Label.intGe .bool [.var ⟨"X", .int⟩, .ofInt 9]),
      .holds (Term.negate (.app Label.intGt .bool [.var ⟨"X", .int⟩, .ofInt 10])),
      .holds (.app Label.intNe .bool [.var ⟨"X", .int⟩, .ofInt 10]),
      .holds (Term.negate (.app Label.termEq .bool [.ofInt 9, .var ⟨"X", .int⟩]))]
    contradiction := false }

private theorem single_nineOrTen : ∀ atom ∈ nineOrTen.atoms, Bounds.Single atom := by
  have sides (number : Int) : Bounds.Sides (.var ⟨"X", .int⟩) (.ofInt number) :=
    .inl ⟨⟨_, _, .var rfl⟩, number, Term.int?_ofInt number⟩
  have flipped (number : Int) : Bounds.Sides (.ofInt number) (.var ⟨"X", .int⟩) :=
    .inr ⟨⟨number, Term.int?_ofInt number⟩, _, _, .var rfl⟩
  simp only [nineOrTen, List.forall_mem_cons]
  exact ⟨.comparison (by decide) (sides 9), .negation (by decide) (sides 10),
    .comparison (by decide) (sides 10), .negation (by decide) (flipped 9), nofun⟩

private theorem plain_nineOrTen : ∀ atom ∈ nineOrTen.atoms, ∀ part ∈ atom.parts,
    part.Within Signature.builtin.plain := by
  have var : (Term.var ⟨"X", .int⟩).Within Signature.builtin.plain :=
    Term.Everywhere.var_iff.mpr trivial
  have number (value : Int) : (Term.ofInt value).Within Signature.builtin.plain :=
    Term.Everywhere.token_iff.mpr fun _ => ⟨value, rfl⟩
  have compare {label : String} {a b : Term} (listed : label ∈ Label.comparisons)
      (left : a.Within Signature.builtin.plain) (right : b.Within Signature.builtin.plain) :
      (Term.app label .bool [a, b]).Within Signature.builtin.plain := by
    obtain ⟨comparison, known, _⟩ := Bounds.comparison?_of_listed listed
    obtain ⟨name, hook, hooked, named, which⟩ := Bounds.hook_of_comparison known
    refine Signature.plain_app hooked named ?_ (by simp [left, right])
    rcases which with rfl | ⟨_, rfl⟩ | ⟨_, rfl⟩ <;> rfl
  have negate {condition : Term} (inner : condition.Within Signature.builtin.plain) :
      condition.negate.Within Signature.builtin.plain :=
    Signature.plain_app (show Signature.builtin.hook? Label.boolNot = some "BOOL.not" from rfl) rfl rfl
      (by simpa using inner)
  simp only [nineOrTen, List.forall_mem_cons, Atom.parts, List.not_mem_nil, false_implies, implies_true,
    and_true]
  exact ⟨compare (by decide) var (number 9), negate (compare (by decide) var (number 10)),
    compare (by decide) var (number 10), negate (compare (by decide) (number 9) var)⟩

/-- No integer is left, and the procedure finds that out. -/
theorem decideLocally_correct_nineOrTen : nineOrTen.decideLocally Signature.builtin = .unsat ∧
    ∀ s : Subst, s.Integers nineOrTen → ¬nineOrTen.Holds Signature.builtin s := by
  have unsat : nineOrTen.decideLocally Signature.builtin = .unsat := by decide +kernel
  have left : nineOrTen.simplify Signature.builtin = nineOrTen := by decide +kernel
  obtain ⟨_, _, complete⟩ := decideLocally_correct Signature.constructive_builtin.toHasBuiltins
    plain_nineOrTen
  refine ⟨unsat, (complete ?_).mp unsat⟩
  rw [left]
  exact single_nineOrTen

end Constraint

end Reach
