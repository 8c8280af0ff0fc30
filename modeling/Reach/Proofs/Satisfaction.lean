import Reach.Constraint.Simplify
import Reach.Proofs.Builtins
import Reach.Proofs.Stability

/-!
What it means that an assignment satisfies a constraint, and that the operations on constraints keep
what satisfies them: adding what holds, replacing variables by what they are equal to, simplifying,
and projecting. An operation never loses an assignment; what it loses of a constraint makes it
weaker. Terms may be evaluated by more than the builtins, as long as that respects them.
-/

namespace Reach

theorem Term.truth_ne_falsity : Term.truth ≠ .falsity := by
  decide

/-- The atom is true under an assignment. -/
def Atom.Holds (sig : Signature) (s : Subst) : Atom → Prop
  | .eq a b => sig.evalBuiltins (s.apply a) = sig.evalBuiltins (s.apply b)
  | .holds condition => sig.evalBuiltins (s.apply condition) = .truth

/-- All atoms are true, and no contradiction was found. -/
def Constraint.Holds (sig : Signature) (s : Subst) (c : Constraint) : Prop :=
  c.contradiction = false ∧ ∀ atom ∈ c.atoms, atom.Holds sig s

/-- The atom is true where terms have these values. -/
def Atom.HoldsIn (algebra : Term.Algebra Term) : Atom → Prop
  | .eq a b => a.fold algebra = b.fold algebra
  | .holds condition => condition.fold algebra = .truth

/-- The constraint is true where terms have these values. -/
structure Constraint.HoldsIn (algebra : Term.Algebra Term) (c : Constraint) : Prop where
  consistent : c.contradiction = false
  holds : ∀ atom ∈ c.atoms, atom.HoldsIn algebra

/-- The builtins in the atom may be evaluated before its variables are known. -/
def Atom.Stable (sig : Signature) (loose : String → Prop) (atom : Atom) : Prop :=
  ∀ part ∈ atom.parts, part.Everywhere (sig.Stable loose)

/-- A constraint whose builtins may be evaluated and which is true where terms have these values. -/
structure Constraint.Fulfilled (sig : Signature) (loose : String → Prop)
    (algebra : Term.Algebra Term) (c : Constraint) : Prop where
  consistent : c.contradiction = false
  holds : ∀ atom ∈ c.atoms, atom.HoldsIn algebra
  stable : ∀ atom ∈ c.atoms, atom.Stable sig loose

namespace Signature

variable {sig : Signature} {loose : String → Prop} {s : Subst} {term : Term}

/-- Replacing variables by terms without loose labels makes no builtin unsafe. -/
theorem stable_apply (stable : term.Everywhere (sig.Stable loose))
    (images : ∀ v, (s.image v).Everywhere (sig.Stable loose))
    (tight : ∀ v, (s.image v).Within (.without loose)) :
    (s.apply term).Everywhere (sig.Stable loose) := by
  by_cases empty : s.isEmpty = true
  · rw [Subst.apply, if_pos empty]
    exact stable
  have nonempty : s.isEmpty = false := by simpa using empty
  induction term using Term.induct with
  | var v =>
    rw [Subst.apply_var nonempty]
    exact images v
  | token sort value =>
    rw [Subst.apply_token nonempty]
    exact stable
  | app label sort args ih =>
    obtain ⟨here, inner⟩ := Term.Everywhere.app_iff.mp stable
    rw [Subst.apply_app nonempty]
    refine Term.Everywhere.app_iff.mpr ⟨fun name hook hooked named => ?_, fun image member => ?_⟩
    · obtain ⟨unmapped, structural⟩ := here name hook hooked named
      refine ⟨unmapped, fun compares image member => ?_⟩
      obtain ⟨arg, inside, rfl⟩ := List.mem_map.mp member
      exact Term.Within.apply (structural compares arg inside) fun v _ => tight v
    · obtain ⟨arg, inside, rfl⟩ := List.mem_map.mp member
      exact ih arg inside (inner arg inside)
  | collection kind entries frame ihEntries ihFrame =>
    obtain ⟨_, inner, last⟩ := Term.Everywhere.collection_iff.mp stable
    rw [Subst.apply_collection nonempty]
    refine .normalized (fun entry member part inside => ?_) (fun rest member => ?_) fun _ _ => trivial
    · obtain ⟨source, present, piece, within, rfl⟩ := Entry.mem_parts_map member inside
      exact ihEntries source present piece within (inner source present piece within)
    · obtain ⟨source, present, rfl⟩ := Option.map_eq_some_iff.mp member
      exact ihFrame source present (last source present)

theorem ground_of_isValue (value : sig.isValue term = true) : term.ground = true :=
  (Bool.and_eq_true_iff.mp value).1

/-- Terms with no other labels than these. -/
theorem within_of_labels {allowed : String → Prop}
    (labels : ∀ label ∈ term.labelOccurrences, allowed label) :
    term.Within { label := fun label _ => allowed label } := by
  have below {whole child : Term} (inner : whole.var? = none) (member : child ∈ whole.children)
      {label : String} (occurs : label ∈ child.labelOccurrences) : label ∈ whole.labelOccurrences := by
    rw [Term.labelOccurrences, Term.fold_ofChildren _ _ inner]
    exact List.mem_append_right _ (List.mem_flatten.mpr ⟨_, List.mem_map_of_mem member, occurs⟩)
  induction term using Term.induct with
  | var v => exact Term.Everywhere.var_iff.mpr trivial
  | token sort value => exact Term.Everywhere.token_iff.mpr trivial
  | app label sort args ih =>
    refine Term.Everywhere.app_iff.mpr ⟨labels label ?_, fun arg member => ?_⟩
    · simp [Term.labelOccurrences, Term.Algebra.ofChildren]
    · exact ih arg member fun label occurs => labels label (below rfl member occurs)
  | collection kind entries frame ihEntries ihFrame =>
    refine Term.Everywhere.collection_iff.mpr ⟨trivial, fun entry member part inside => ?_,
      fun rest member => ?_⟩
    · refine ihEntries entry member part inside fun label occurs => labels label (below rfl ?_ occurs)
      exact Term.mem_children_collection.mpr (.inl ⟨entry, member, inside⟩)
    · refine ihFrame rest member fun label occurs => labels label (below rfl ?_ occurs)
      exact Term.mem_children_collection.mpr (.inr member)

/-- There are no loose labels in a value. -/
theorem within_of_isValue (function : ∀ label, loose label → sig.isFunction label = true)
    (value : sig.isValue term = true) : term.Within (.without loose) := by
  have free := List.all_eq_true.mp (Bool.and_eq_true_iff.mp value).2
  refine within_of_labels fun label occurs loose => ?_
  have constructor := free label occurs
  rw [function label loose] at constructor
  cases constructor

/-- Where no label is loose, there is none in any term. -/
theorem within_without (term : Term) : term.Within (.without fun _ => False) := by
  refine .of_forall fun node => ?_
  cases node <;> simp [Term.Fragment.allows, Term.Fragment.without]

end Signature

namespace Atom

variable {sig : Signature} {loose : String → Prop} {algebra : Term.Algebra Term} {s other : Subst}
  {atom : Atom}

theorem holds_iff : atom.Holds sig s ↔ atom.HoldsIn (sig.valuation s) := by
  cases atom <;> simp only [Holds, HoldsIn, sig.evalBuiltins_apply]

/-- Whether an atom holds depends on the variables that it mentions. -/
theorem holdsIn_congr {s' : Subst} (same : ∀ v ∈ atom.vars, s'.image v = s.image v) :
    atom.HoldsIn (sig.valuation s') ↔ atom.HoldsIn (sig.valuation s) := by
  cases atom with
  | eq a b =>
    have left : a.fold (sig.valuation s') = a.fold (sig.valuation s) :=
      Signature.fold_valuation_congr fun v occurs => same v (List.mem_append_left _ occurs)
    have right : b.fold (sig.valuation s') = b.fold (sig.valuation s) :=
      Signature.fold_valuation_congr fun v occurs => same v (List.mem_append_right _ occurs)
    rw [HoldsIn, HoldsIn, left, right]
  | holds condition => rw [HoldsIn, HoldsIn, Signature.fold_valuation_congr same]

/-- Replacing variables by what they are equal to does not change whether an atom holds. -/
theorem holdsIn_map_apply (normalizing : algebra.Normalizing) (absorbs : algebra.Absorbs other) :
    (atom.map other.apply).HoldsIn algebra ↔ atom.HoldsIn algebra := by
  cases atom <;> simp only [map, HoldsIn, absorbs.fold_apply normalizing]

theorem parts_map (f : Term → Term) (atom : Atom) : (atom.map f).parts = atom.parts.map f := by
  cases atom <;> rfl

theorem Stable.map_apply (stable : atom.Stable sig loose)
    (images : ∀ v, (other.image v).Everywhere (sig.Stable loose))
    (tight : ∀ v, (other.image v).Within (.without loose)) :
    (atom.map other.apply).Stable sig loose := by
  intro part member
  rw [parts_map] at member
  obtain ⟨source, inside, rfl⟩ := List.mem_map.mp member
  exact Signature.stable_apply (stable source inside) images tight

/-- The sides of an equation have one property, or a condition has another. -/
def Over (equated assumed : Term → Prop) : Atom → Prop
  | .eq a b => equated a ∧ equated b
  | .holds condition => assumed condition

theorem over_iff {holds : Term → Prop} : atom.Over holds holds ↔ ∀ part ∈ atom.parts, holds part := by
  cases atom <;> simp [Over, parts]

/-- What holds of variables and of a term holds of what replacing a variable by the term can bring. -/
theorem everywhere_single {holds : Term → Prop} {v : Variable} {value : Term}
    (vars : ∀ w, holds (.var w)) (everywhere : value.Everywhere holds) (w : Variable) :
    ((Subst.single v value).image w).Everywhere holds := by
  rw [Subst.image_single]
  split
  · exact everywhere
  · exact Term.Everywhere.var_iff.mpr (vars w)

end Atom

namespace Constraint

variable {sig : Signature} {loose : String → Prop} {algebra : Term.Algebra Term} {other : Subst}
  {c d : Constraint} {atom : Atom} {a b condition : Term}

@[simp]
theorem push_contradiction : (c.push atom).contradiction = c.contradiction := by
  unfold Constraint.push
  split <;> rfl

@[simp]
theorem pushAll_contradiction {atoms : List Atom} :
    (atoms.foldl push c).contradiction = c.contradiction := by
  induction atoms generalizing c with
  | nil => rfl
  | cons first rest ih => rw [List.foldl_cons, ih, push_contradiction]

private theorem mem_push_iff (consistent : c.contradiction = false) {other : Atom} :
    other ∈ (c.push atom).atoms ↔ other ∈ c.atoms ∨ other = atom := by
  unfold Constraint.push
  rw [consistent, Bool.false_or]
  split
  · next known =>
    refine (or_iff_left_of_imp fun same => ?_).symm
    exact same ▸ List.contains_iff_mem.mp known
  · rw [List.mem_append, List.mem_singleton]

theorem mem_pushAll_iff (consistent : c.contradiction = false) {atoms : List Atom} :
    atom ∈ (atoms.foldl push c).atoms ↔ atom ∈ c.atoms ∨ atom ∈ atoms := by
  induction atoms generalizing c with
  | nil => simp
  | cons first rest ih =>
    rw [List.foldl_cons, ih (push_contradiction.trans consistent), mem_push_iff consistent, or_assoc,
      List.mem_cons]

theorem mem_freeVars {v : Variable} : v ∈ c.freeVars ↔ ∃ atom ∈ c.atoms, v ∈ atom.vars := by
  rw [Constraint.freeVars, List.mem_eraseDups, List.mem_flatMap]

theorem fulfilled_top : Fulfilled sig loose algebra top :=
  ⟨rfl, nofun, nofun⟩

theorem Fulfilled.push (fulfilled : c.Fulfilled sig loose algebra) (holds : atom.HoldsIn algebra)
    (stable : atom.Stable sig loose) : (c.push atom).Fulfilled sig loose algebra := by
  unfold Constraint.push
  split
  · exact fulfilled
  · refine ⟨fulfilled.consistent, List.forall_mem_append.mpr ⟨fulfilled.holds, ?_⟩,
      List.forall_mem_append.mpr ⟨fulfilled.stable, ?_⟩⟩
    · exact List.forall_mem_singleton.mpr holds
    · exact List.forall_mem_singleton.mpr stable

theorem Fulfilled.pushAll {atoms : List Atom} (fulfilled : c.Fulfilled sig loose algebra)
    (holds : ∀ atom ∈ atoms, atom.HoldsIn algebra) (stable : ∀ atom ∈ atoms, atom.Stable sig loose) :
    (atoms.foldl Constraint.push c).Fulfilled sig loose algebra := by
  induction atoms generalizing c with
  | nil => exact fulfilled
  | cons atom rest ih =>
    obtain ⟨here, later⟩ := List.forall_mem_cons.mp holds
    obtain ⟨stableHere, stableLater⟩ := List.forall_mem_cons.mp stable
    exact ih (fulfilled.push here stableHere) later stableLater

theorem Fulfilled.conjoinEq (fulfilled : c.Fulfilled sig loose algebra)
    (holds : (Atom.eq a b).HoldsIn algebra) (stable : (Atom.eq a b).Stable sig loose) :
    (c.conjoinEq a b).Fulfilled sig loose algebra := by
  unfold Constraint.conjoinEq
  split
  · exact fulfilled
  · exact fulfilled.push holds stable

theorem Fulfilled.and (fulfilled : c.Fulfilled sig loose algebra)
    (more : d.Fulfilled sig loose algebra) : (c.and d).Fulfilled sig loose algebra := by
  unfold Constraint.and
  rw [more.consistent]
  exact fulfilled.pushAll more.holds more.stable

theorem Fulfilled.substitute (fulfilled : c.Fulfilled sig loose algebra)
    (normalizing : algebra.Normalizing) (absorbs : algebra.Absorbs other)
    (images : ∀ v, (other.image v).Everywhere (sig.Stable loose))
    (tight : ∀ v, (other.image v).Within (.without loose)) :
    (c.substitute other).Fulfilled sig loose algebra := by
  unfold Constraint.substitute
  rw [fulfilled.consistent]
  refine fulfilled_top.pushAll (fun image member => ?_) fun image member => ?_
  · obtain ⟨atom, inside, rfl⟩ := List.mem_map.mp member
    exact (Atom.holdsIn_map_apply normalizing absorbs).mpr (fulfilled.holds atom inside)
  · obtain ⟨atom, inside, rfl⟩ := List.mem_map.mp member
    exact (fulfilled.stable atom inside).map_apply images tight

theorem Fulfilled.holdsIn (fulfilled : c.Fulfilled sig loose algebra) : c.HoldsIn algebra :=
  ⟨fulfilled.consistent, fulfilled.holds⟩

theorem not_holdsIn_bottom : ¬bottom.HoldsIn algebra :=
  fun holds => nomatch holds.consistent

theorem holdsIn_push_iff : (c.push atom).HoldsIn algebra ↔ c.HoldsIn algebra ∧ atom.HoldsIn algebra := by
  unfold Constraint.push
  split
  · next idle =>
    refine ⟨fun holds => ⟨holds, ?_⟩, And.left⟩
    rw [holds.consistent, Bool.false_or] at idle
    exact holds.holds atom (List.contains_iff_mem.mp idle)
  · refine ⟨fun ⟨consistent, holds⟩ => ?_, fun ⟨⟨consistent, holds⟩, here⟩ => ⟨consistent, ?_⟩⟩
    · obtain ⟨before, last⟩ := List.forall_mem_append.mp holds
      exact ⟨⟨consistent, before⟩, last atom (List.mem_singleton_self atom)⟩
    · exact List.forall_mem_append.mpr ⟨holds, List.forall_mem_singleton.mpr here⟩

/-- Nothing is kept beside a contradiction, the sides of equations have one property, and conditions
have another. -/
structure Over (equated assumed : Term → Prop) (c : Constraint) : Prop where
  regular : c.contradiction = true → c.atoms = []
  atoms : ∀ atom ∈ c.atoms, atom.Over equated assumed

section Parts

variable {equated assumed holds : Term → Prop}

theorem over_top : top.Over equated assumed :=
  ⟨fun _ => rfl, nofun⟩

theorem over_bottom : bottom.Over equated assumed :=
  ⟨fun _ => rfl, nofun⟩

theorem HoldsIn.fulfilled (holdsIn : c.HoldsIn algebra)
    (parted : c.Over (Term.Everywhere (sig.Stable loose)) (Term.Everywhere (sig.Stable loose))) :
    c.Fulfilled sig loose algebra :=
  ⟨holdsIn.consistent, holdsIn.holds, fun atom member => Atom.over_iff.mp (parted.atoms atom member)⟩

theorem Fulfilled.over (fulfilled : c.Fulfilled sig loose algebra) :
    c.Over (Term.Everywhere (sig.Stable loose)) (Term.Everywhere (sig.Stable loose)) :=
  ⟨fun contradictory => (nomatch fulfilled.consistent.symm.trans contradictory),
    fun atom member => Atom.over_iff.mpr (fulfilled.stable atom member)⟩

theorem Over.push (parted : c.Over equated assumed) (here : atom.Over equated assumed) :
    (c.push atom).Over equated assumed := by
  unfold Constraint.push
  split
  · exact parted
  · next idle =>
    have consistent : c.contradiction = false := by simp_all
    refine ⟨fun contradictory => (nomatch consistent.symm.trans contradictory), ?_⟩
    exact List.forall_mem_append.mpr ⟨parted.atoms, List.forall_mem_singleton.mpr here⟩

theorem Over.assume (parted : c.Over equated assumed) (here : assumed condition) :
    (c.assume condition).Over equated assumed := by
  unfold Constraint.assume
  split
  · exact parted
  · split
    · exact over_bottom
    · exact parted.push here

/-- Adding equations between terms that have the property. -/
theorem Over.foldl_conjoinEq {α : Type} {items : List α} {left right : α → Term}
    (parted : c.Over equated assumed)
    (each : ∀ item ∈ items, equated (left item) ∧ equated (right item)) :
    (items.foldl (fun c item => c.conjoinEq (left item) (right item)) c).Over equated assumed := by
  induction items generalizing c with
  | nil => exact parted
  | cons item rest ih =>
    obtain ⟨here, later⟩ := List.forall_mem_cons.mp each
    have added : (c.conjoinEq (left item) (right item)).Over equated assumed := by
      unfold Constraint.conjoinEq
      split
      · exact parted
      · exact parted.push here
    exact ih added later

theorem Over.and (parted : c.Over equated assumed) (more : d.Over equated assumed) :
    (c.and d).Over equated assumed := by
  unfold Constraint.and
  split
  · exact over_bottom
  · have each := more.atoms
    generalize d.atoms = atoms at each
    induction atoms generalizing c with
    | nil => exact parted
    | cons atom rest ih =>
      obtain ⟨here, later⟩ := List.forall_mem_cons.mp each
      exact ih (parted.push here) later

theorem conjunctsOfAll_eq (args : List Term) : conjunctsOfAll args = args.flatMap conjuncts := by
  induction args with
  | nil => rfl
  | cons arg rest ih => rw [conjunctsOfAll, ih, List.flatMap_cons]

theorem everywhere_sides {label : String} {sort : TermSort}
    (whole : (Term.app label sort [a, b]).Everywhere holds) :
    a.Everywhere holds ∧ b.Everywhere holds := by
  obtain ⟨_, parts⟩ := Term.Everywhere.app_iff.mp whole
  exact ⟨parts a (by simp), parts b (by simp)⟩

theorem forall_conjuncts
    (conjunct : ∀ sort a b, holds (.app Label.boolAnd sort [a, b]) → holds a ∧ holds b)
    (here : holds condition) : ∀ part ∈ conjuncts condition, holds part := by
  induction condition using Term.induct with
  | app label sort args ih =>
    rw [conjuncts]
    split
    · next shape =>
      obtain ⟨rfl, size⟩ := shape
      obtain ⟨a, b, rfl⟩ := List.length_eq_two.mp size
      obtain ⟨left, right⟩ := conjunct sort a b here
      rw [conjunctsOfAll_eq]
      simp only [List.flatMap_cons, List.flatMap_nil, List.append_nil]
      exact List.forall_mem_append.mpr ⟨ih a (by simp) left, ih b (by simp) right⟩
    · exact List.forall_mem_singleton.mpr here
  | _ => exact List.forall_mem_singleton.mpr here

/-- A conjunct is no conjunction. -/
theorem conjuncts_of_mem {part : Term} (member : part ∈ conjuncts condition) : conjuncts part = [part] := by
  induction condition using Term.induct with
  | app label sort args ih =>
    rw [conjuncts] at member
    split at member
    · rw [conjunctsOfAll_eq] at member
      obtain ⟨arg, inside, member⟩ := List.mem_flatMap.mp member
      exact ih arg inside member
    · next whole =>
      obtain rfl := List.mem_singleton.mp member
      rw [conjuncts, if_neg whole]
  | _ =>
    obtain rfl := List.mem_singleton.mp member
    rfl

theorem Over.conjoin (parted : c.Over equated assumed)
    (conjunct : ∀ sort a b, assumed (.app Label.boolAnd sort [a, b]) → assumed a ∧ assumed b)
    (here : assumed condition) : (c.conjoin condition).Over equated assumed := by
  have parts := forall_conjuncts conjunct here
  unfold Constraint.conjoin
  generalize conjuncts condition = conditions at parts
  induction conditions generalizing c with
  | nil => exact parted
  | cons first rest ih =>
    obtain ⟨first, later⟩ := List.forall_mem_cons.mp parts
    exact ih (parted.assume first) later

end Parts

section Conjuncts

variable (builtins : sig.HasBuiltins) (respects : algebra.Respects sig loose)

include builtins respects

/-- A conjunction is true exactly when both of its sides are. -/
theorem fold_and_eq_truth {sort : TermSort} :
    (Term.app Label.boolAnd sort [a, b]).fold algebra = .truth ↔
      a.fold algebra = .truth ∧ b.fold algebra = .truth := by
  have unfolded : (Term.app Label.boolAnd sort [a, b]).fold algebra =
      (sig.callHook Label.boolAnd [a.fold algebra, b.fold algebra]).getD
        (.app Label.boolAnd sort [a.fold algebra, b.fold algebra]) :=
    respects.fold_hooked (builtins.hook?_eq rfl) sort _
  rw [unfolded, builtins.callHook_and]
  generalize a.fold algebra = x
  generalize b.fold algebra = y
  constructor
  · intro same
    cases made : Hook.conjunction x y with
    | none =>
      rw [made] at same
      cases same
    | some result =>
      rw [made, Option.getD_some] at same
      subst same
      rcases Hook.conjunction_eq_some made with ⟨_, impossible⟩ | ⟨left, right⟩ | ⟨right, left⟩
      · exact absurd impossible Term.truth_ne_falsity
      · exact ⟨left, right.symm⟩
      · exact ⟨left.symm, right⟩
  · rintro ⟨rfl, rfl⟩
    rfl

/-- A condition is true exactly when all its conjuncts are. -/
theorem conjuncts_hold_iff : (∀ part ∈ conjuncts condition, part.fold algebra = .truth) ↔
    condition.fold algebra = .truth := by
  induction condition using Term.induct with
  | app label sort args ih =>
    rw [conjuncts]
    split
    · next shape =>
      obtain ⟨rfl, size⟩ := shape
      obtain ⟨a, b, rfl⟩ := List.length_eq_two.mp size
      rw [fold_and_eq_truth builtins respects, ← ih a (by simp), ← ih b (by simp), conjunctsOfAll_eq]
      simp only [List.flatMap_cons, List.flatMap_nil, List.append_nil, List.forall_mem_append]
    · exact List.forall_mem_singleton
  | _ => exact List.forall_mem_singleton

omit builtins in
private theorem holdsIn_assume_iff : (c.assume condition).HoldsIn algebra ↔
    c.HoldsIn algebra ∧ condition.fold algebra = .truth := by
  unfold Constraint.assume
  split
  · next known =>
    rw [Term.isTrue_iff.mp known]
    exact ⟨fun holds => ⟨holds, respects.fold_token _ _⟩, And.left⟩
  · split
    · next refuted =>
      rw [Term.isFalse_iff.mp refuted]
      refine ⟨fun holds => absurd holds not_holdsIn_bottom, fun ⟨_, impossible⟩ => ?_⟩
      exact absurd (impossible.symm.trans (respects.fold_token _ _)) Term.truth_ne_falsity
    · exact holdsIn_push_iff

theorem holdsIn_conjoin_iff : (c.conjoin condition).HoldsIn algebra ↔
    c.HoldsIn algebra ∧ condition.fold algebra = .truth := by
  rw [← conjuncts_hold_iff builtins respects]
  unfold Constraint.conjoin
  generalize conjuncts condition = conditions
  induction conditions generalizing c with
  | nil => exact ⟨fun holds => ⟨holds, nofun⟩, And.left⟩
  | cons first rest ih =>
    rw [List.foldl_cons, ih, holdsIn_assume_iff respects, and_assoc, List.forall_mem_cons]

theorem Fulfilled.conjoin (fulfilled : c.Fulfilled sig loose algebra)
    (holds : condition.fold algebra = .truth) (stable : condition.Everywhere (sig.Stable loose)) :
    (c.conjoin condition).Fulfilled sig loose algebra := by
  have parted := fulfilled.over.conjoin (fun _ _ _ => everywhere_sides) stable
  exact ((holdsIn_conjoin_iff builtins respects).mpr ⟨fulfilled.holdsIn, holds⟩).fulfilled parted

end Conjuncts

/-- Properties of the sides of equations and of conditions that simplification keeps. -/
structure Retained (sig : Signature) (equated assumed : Term → Prop) : Prop where
  side : ∀ term, equated term → equated (sig.evalBuiltins term)
  condition : ∀ term, assumed term → assumed (sig.evalBuiltins term)
  moved : ∀ term, equated term → assumed term
  negated : ∀ term, assumed term → assumed term.negate
  conjunct : ∀ sort a b, assumed (.app Label.boolAnd sort [a, b]) → assumed a ∧ assumed b
  replaced : ∀ v value, sig.isValue value = true → equated value →
    (∀ term, equated term → equated ((Subst.single v value).apply term)) ∧
      ∀ term, assumed term → assumed ((Subst.single v value).apply term)

section Retention

variable {equated assumed : Term → Prop} (retained : Retained sig equated assumed)
include retained

theorem Over.assumeEvaluated (parted : c.Over equated assumed) (here : assumed condition) :
    (c.assumeEvaluated sig condition).Over equated assumed :=
  parted.conjoin retained.conjunct (retained.condition condition here)

theorem Over.equateEvaluated (parted : c.Over equated assumed) (left : equated a)
    (right : equated b) : (c.equateEvaluated sig a b).Over equated assumed := by
  have evaluatedLeft := retained.side a left
  have evaluatedRight := retained.side b right
  have movedLeft := retained.moved _ evaluatedLeft
  have movedRight := retained.moved _ evaluatedRight
  unfold Constraint.equateEvaluated
  dsimp only
  split
  · exact parted
  · split
    · exact parted.assumeEvaluated retained movedRight
    · exact parted.assumeEvaluated retained movedLeft
    · exact parted.assumeEvaluated retained (retained.negated _ movedRight)
    · exact parted.assumeEvaluated retained (retained.negated _ movedLeft)
    · split
      · exact over_bottom
      · split
        · exact parted.push ⟨evaluatedRight, evaluatedLeft⟩
        · exact parted.push ⟨evaluatedLeft, evaluatedRight⟩

theorem Over.ofAtoms {atoms : List Atom} (each : ∀ atom ∈ atoms, atom.Over equated assumed) :
    (ofAtoms sig atoms).Over equated assumed := by
  have start : top.Over equated assumed := over_top
  unfold Constraint.ofAtoms
  generalize top = c at start
  induction atoms generalizing c with
  | nil => exact start
  | cons atom rest ih =>
    obtain ⟨here, later⟩ := List.forall_mem_cons.mp each
    refine ih later _ ?_
    cases atom with
    | eq a b => exact start.equateEvaluated retained here.1 here.2
    | holds condition => exact start.assumeEvaluated retained here

omit retained in
theorem of_binding? {done : List Variable} {v : Variable} {value : Term}
    (found : c.binding? sig done = some (v, value)) :
    .eq (.var v) value ∈ c.atoms ∧ sig.isValue value = true := by
  obtain ⟨atom, member, made⟩ := List.exists_of_findSome?_eq_some found
  split at made
  · split at made
    · next chosen =>
      cases made
      exact ⟨member, chosen.1⟩
    · cases made
  · cases made

/-- An atom in which a variable is replaced by its value, unless it is the one that says so. -/
def propagated (v : Variable) (value : Term) (atom : Atom) : Atom :=
  if atom = .eq (.var v) value then atom else atom.map (Subst.single v value).apply

theorem Over.propagated {v : Variable} {value : Term} (parted : c.Over equated assumed)
    (defined : .eq (.var v) value ∈ c.atoms) (known : sig.isValue value = true) :
    ∀ atom ∈ c.atoms.map (propagated v value), atom.Over equated assumed := by
  obtain ⟨sides, conditions⟩ := retained.replaced v value known (parted.atoms _ defined).2
  refine List.forall_mem_map.mpr fun atom member => ?_
  have here := parted.atoms atom member
  unfold Constraint.propagated
  split
  · exact here
  · cases atom with
    | eq a b => exact ⟨sides a here.1, sides b here.2⟩
    | holds condition => exact conditions condition here

theorem Over.propagate {v : Variable} {value : Term} (parted : c.Over equated assumed)
    (defined : .eq (.var v) value ∈ c.atoms) (known : sig.isValue value = true) :
    (c.propagate sig v value).Over equated assumed :=
  .ofAtoms retained (parted.propagated retained defined known)

theorem Over.simplify (each : ∀ atom ∈ c.atoms, atom.Over equated assumed) :
    (c.simplify sig).Over equated assumed := by
  have every (rounds : Nat) (done : List Variable) {c : Constraint} (parted : c.Over equated assumed) :
      (c.propagateAll sig rounds done).Over equated assumed := by
    induction rounds generalizing done c with
    | zero => exact parted
    | succ rounds ih =>
      rw [Constraint.propagateAll]
      split
      · exact parted
      · next v value found =>
        obtain ⟨defined, known⟩ := of_binding? found
        exact ih _ (parted.propagate retained defined known)
  unfold Constraint.simplify
  split
  · exact over_bottom
  · exact every _ _ (.ofAtoms retained each)

end Retention

/-- A property that simplification keeps of terms whose builtins may be evaluated before their
variables have values. -/
structure Commuting (sig : Signature) (algebra : Term.Algebra Term) (safe : Term → Prop) : Prop
    extends Retained sig safe safe where
  fold_evalBuiltins : ∀ term, safe term → (sig.evalBuiltins term).fold algebra = term.fold algebra

section Commutation

variable (builtins : sig.HasBuiltins)
include builtins

theorem stable_negate (stable : condition.Everywhere (sig.Stable loose)) :
    condition.negate.Everywhere (sig.Stable loose) := by
  refine Term.Everywhere.app_iff.mpr ⟨fun name hook hooked named => ?_, by simpa using stable⟩
  have known : sig.hook? Label.boolNot = some _ := builtins.hook?_eq rfl
  rw [known] at hooked
  cases hooked
  cases named
  exact ⟨rfl, nofun⟩

theorem retained_stable (function : ∀ label, loose label → sig.isFunction label = true) :
    Retained sig (Term.Everywhere (sig.Stable loose)) (Term.Everywhere (sig.Stable loose)) where
  side _ := Signature.stable_evalBuiltins
  condition _ := Signature.stable_evalBuiltins
  moved _ := id
  negated _ := stable_negate builtins
  conjunct _ _ _ := everywhere_sides
  replaced v value known stable := by
    have replaced (term : Term) (stableTerm : term.Everywhere (sig.Stable loose)) :
        ((Subst.single v value).apply term).Everywhere (sig.Stable loose) :=
      Signature.stable_apply stableTerm (Atom.everywhere_single (fun _ => trivial) stable)
        (Atom.everywhere_single (fun _ => trivial) (Signature.within_of_isValue function known))
    exact ⟨replaced, replaced⟩

theorem stable_simplify (function : ∀ label, loose label → sig.isFunction label = true)
    (stable : ∀ atom ∈ c.atoms, atom.Stable sig loose) :
    ∀ atom ∈ (c.simplify sig).atoms, atom.Stable sig loose := by
  intro atom member
  have each := fun atom member => Atom.over_iff.mpr (stable atom member)
  exact Atom.over_iff.mp ((Over.simplify (retained_stable builtins function) each).atoms atom member)

theorem commuting_stable (respects : algebra.Respects sig loose) :
    Commuting sig algebra (Term.Everywhere (sig.Stable loose)) where
  toRetained := retained_stable builtins respects.function
  fold_evalBuiltins _ := Signature.fold_evalBuiltins respects

private theorem unmapped_negate (unmapped : condition.Within sig.unmapped) :
    condition.negate.Within sig.unmapped := by
  have known : sig.hook? Label.boolNot = some "BOOL.not" := builtins.hook?_eq rfl
  exact Signature.unmapped_app known rfl rfl (by simpa using unmapped)

/-- Where no label is loose, it is enough that there are no builtins on maps. -/
theorem commuting_unmapped (respects : algebra.Respects sig fun _ => False) :
    Commuting sig algebra (Term.Within sig.unmapped) where
  side _ := Signature.unmapped_evalBuiltins
  condition _ := Signature.unmapped_evalBuiltins
  moved _ := id
  negated _ := unmapped_negate builtins
  conjunct _ _ _ := everywhere_sides
  replaced v value _ unmapped := by
    have replaced (term : Term) (unmappedTerm : term.Within sig.unmapped) :
        ((Subst.single v value).apply term).Within sig.unmapped :=
      unmappedTerm.apply fun w _ => Atom.everywhere_single (fun _ => trivial) unmapped w
    exact ⟨replaced, replaced⟩
  fold_evalBuiltins _ unmapped := Signature.fold_evalBuiltins_of_safelyHooked respects
    (Signature.safelyHooked_of_unmapped unmapped)

end Commutation

section Simplification

variable {safe : Term → Prop} (builtins : sig.HasBuiltins) (respects : algebra.Respects sig loose)
include builtins respects

/-- A negation is true exactly when what it denies is false. -/
theorem fold_not_eq_truth {sort : TermSort} :
    (Term.app Label.boolNot sort [condition]).fold algebra = .truth ↔
      condition.fold algebra = .falsity := by
  have unfolded : (Term.app Label.boolNot sort [condition]).fold algebra =
      (sig.callHook Label.boolNot [condition.fold algebra]).getD
        (.app Label.boolNot sort [condition.fold algebra]) :=
    respects.fold_hooked (builtins.hook?_eq rfl) sort _
  rw [unfolded, builtins.callHook_not]
  generalize condition.fold algebra = value
  constructor
  · intro same
    rcases known : value.bool? with _ | _ | _
    · rw [known] at same
      cases same
    · exact Term.bool?_eq_some_iff.mp known
    · rw [known] at same
      exact absurd same.symm Term.truth_ne_falsity
  · rintro rfl
    rfl

/-- An equation as a term is decided where both of its sides are ground. -/
theorem fold_toTerm_eq : (Atom.eq a b).toTerm.fold algebra =
    (Hook.onGround (fun x y => decide (x = y)) (a.fold algebra) (b.fold algebra)).getD
      (.app Label.termEq .bool [a.fold algebra, b.fold algebra]) := by
  have hooked : sig.hook? Label.termEq = some "K.eq" := builtins.hook?_eq rfl
  rw [Atom.toTerm, respects.fold_hooked hooked, builtins.callHook_eq .termEq rfl rfl]
  rfl

theorem holdsIn_of_fold_toTerm (true : atom.toTerm.fold algebra = .truth) : atom.HoldsIn algebra := by
  cases atom with
  | holds condition => exact true
  | eq a b =>
    rw [fold_toTerm_eq builtins respects] at true
    cases made : Hook.onGround (fun x y => decide (x = y)) (a.fold algebra) (b.fold algebra) with
    | none =>
      rw [made] at true
      cases true
    | some result =>
      rw [made, Option.getD_some] at true
      subst true
      obtain ⟨_, _, same⟩ := Hook.onGround_eq_some made
      have read : some Bool.true = some (decide (a.fold algebra = b.fold algebra)) :=
        (congrArg Term.bool? same).trans (Term.bool?_ofBool _)
      have equal : a.fold algebra = b.fold algebra := by simpa using read
      exact equal

variable (commuting : Commuting sig algebra safe)
include commuting

theorem holdsIn_assumeEvaluated_iff (here : safe condition) :
    (c.assumeEvaluated sig condition).HoldsIn algebra ↔
      c.HoldsIn algebra ∧ condition.fold algebra = .truth := by
  rw [Constraint.assumeEvaluated, holdsIn_conjoin_iff builtins respects,
    commuting.fold_evalBuiltins condition here]

private theorem holdsIn_equateEvaluated_iff (left : safe a) (right : safe b) :
    (c.equateEvaluated sig a b).HoldsIn algebra ↔
      c.HoldsIn algebra ∧ (Atom.eq a b).HoldsIn algebra := by
  have same : (Atom.eq a b).HoldsIn algebra ↔
      (sig.evalBuiltins a).fold algebra = (sig.evalBuiltins b).fold algebra := by
    rw [commuting.fold_evalBuiltins a left, commuting.fold_evalBuiltins b right]
    rfl
  have canonicalLeft := sig.canonical_evalBuiltins a
  have canonicalRight := sig.canonical_evalBuiltins b
  have evaluatedLeft := sig.evaluated_evalBuiltins a
  have evaluatedRight := sig.evaluated_evalBuiltins b
  have safeLeft := commuting.side a left
  have safeRight := commuting.side b right
  have truth : (Term.ofBool true).fold algebra = .truth := respects.fold_token _ _
  have falsity : (Term.ofBool false).fold algebra = .falsity := respects.fold_token _ _
  rw [same]
  unfold Constraint.equateEvaluated
  generalize sig.evalBuiltins a = x at *
  generalize sig.evalBuiltins b = y at *
  dsimp only
  split
  · next equal =>
    subst equal
    exact ⟨fun holds => ⟨holds, rfl⟩, And.left⟩
  · next differ =>
    split
    · next known =>
      obtain rfl := Term.bool?_eq_some_iff.mp known
      rw [holdsIn_assumeEvaluated_iff builtins respects commuting safeRight, truth, eq_comm]
    · next known _ =>
      obtain rfl := Term.bool?_eq_some_iff.mp known
      rw [holdsIn_assumeEvaluated_iff builtins respects commuting safeLeft, truth]
    · next known _ =>
      obtain rfl := Term.bool?_eq_some_iff.mp known
      rw [holdsIn_assumeEvaluated_iff builtins respects commuting (commuting.negated y safeRight),
        Term.negate, fold_not_eq_truth builtins respects, falsity, eq_comm]
    · next known _ _ =>
      obtain rfl := Term.bool?_eq_some_iff.mp known
      rw [holdsIn_assumeEvaluated_iff builtins respects commuting (commuting.negated x safeLeft),
        Term.negate, fold_not_eq_truth builtins respects, falsity]
    · split
      · -- Two values that evaluate to the same are the same.
        next values =>
        obtain ⟨left, right⟩ := Bool.and_eq_true_iff.mp values
        rw [Signature.fold_of_ground respects canonicalLeft evaluatedLeft
            (Signature.within_of_isValue respects.function left) (Signature.ground_of_isValue left),
          Signature.fold_of_ground respects canonicalRight evaluatedRight
            (Signature.within_of_isValue respects.function right)
            (Signature.ground_of_isValue right)]
        exact ⟨fun holds => absurd holds not_holdsIn_bottom, fun ⟨_, equal⟩ => absurd equal differ⟩
      · split
        · rw [holdsIn_push_iff, eq_comm]
          rfl
        · exact holdsIn_push_iff

theorem holdsIn_ofAtoms_iff {atoms : List Atom} (each : ∀ atom ∈ atoms, atom.Over safe safe) :
    (ofAtoms sig atoms).HoldsIn algebra ↔ ∀ atom ∈ atoms, atom.HoldsIn algebra := by
  have every (c : Constraint) : (atoms.foldl (addEvaluated sig) c).HoldsIn algebra ↔
      c.HoldsIn algebra ∧ ∀ atom ∈ atoms, atom.HoldsIn algebra := by
    induction atoms generalizing c with
    | nil => exact ⟨fun holds => ⟨holds, nofun⟩, And.left⟩
    | cons atom rest ih =>
      obtain ⟨here, later⟩ := List.forall_mem_cons.mp each
      rw [List.foldl_cons, ih later, List.forall_mem_cons, ← and_assoc]
      refine and_congr_left fun _ => ?_
      cases atom with
      | eq a b => exact holdsIn_equateEvaluated_iff builtins respects commuting here.1 here.2
      | holds condition => exact holdsIn_assumeEvaluated_iff builtins respects commuting here
  exact (every top).trans (and_iff_right ⟨rfl, nofun⟩)

/-- Replacing a variable by its value in the other atoms changes nothing. -/
theorem holdsIn_propagate_iff {v : Variable} {value : Term} (parted : c.Over safe safe)
    (defined : .eq (.var v) value ∈ c.atoms) (known : sig.isValue value = true) :
    (c.propagate sig v value).HoldsIn algebra ↔ c.HoldsIn algebra := by
  have consistent : c.contradiction = false := by
    cases contradictory : c.contradiction with
    | false => rfl
    | true =>
      rw [parted.regular contradictory] at defined
      cases defined
  have replaced (absorbs : algebra.Absorbs (.single v value)) (atom : Atom) :
      (propagated v value atom).HoldsIn algebra ↔ atom.HoldsIn algebra := by
    unfold Constraint.propagated
    split
    · exact Iff.rfl
    · exact Atom.holdsIn_map_apply respects.normalizing absorbs
  have defines (holds : (Atom.eq (.var v) value).HoldsIn algebra) :
      algebra.Absorbs (.single v value) :=
    Subst.absorbs_single holds
  have propagated := parted.propagated commuting.toRetained defined known
  refine (holdsIn_ofAtoms_iff builtins respects commuting propagated).trans
    ⟨fun holds => ⟨consistent, ?_⟩, fun holds => ?_⟩
  · rw [List.forall_mem_map] at holds
    have here := holds _ defined
    rw [Constraint.propagated, if_pos rfl] at here
    exact fun atom member => (replaced (defines here) atom).mp (holds atom member)
  · refine List.forall_mem_map.mpr fun atom member => ?_
    exact (replaced (defines (holds.holds _ defined)) atom).mpr (holds.holds atom member)

/-- Simplification loses nothing and adds nothing. -/
theorem holdsIn_simplify_iff (each : ∀ atom ∈ c.atoms, atom.Over safe safe) :
    (c.simplify sig).HoldsIn algebra ↔ c.HoldsIn algebra := by
  have every (rounds : Nat) (done : List Variable) {c : Constraint} (parted : c.Over safe safe) :
      (c.propagateAll sig rounds done).HoldsIn algebra ↔ c.HoldsIn algebra := by
    induction rounds generalizing done c with
    | zero => exact Iff.rfl
    | succ rounds ih =>
      rw [Constraint.propagateAll]
      split
      · exact Iff.rfl
      · next v value found =>
        obtain ⟨defined, known⟩ := of_binding? found
        exact (ih _ (parted.propagate commuting.toRetained defined known)).trans
          (holdsIn_propagate_iff builtins respects commuting parted defined known)
  unfold Constraint.simplify
  split
  · next contradictory =>
    refine ⟨fun holds => absurd holds not_holdsIn_bottom, fun holds => ?_⟩
    cases holds.consistent.symm.trans contradictory
  · next consistent =>
    rw [every _ _ (.ofAtoms commuting.toRetained each),
      holdsIn_ofAtoms_iff builtins respects commuting each]
    exact ⟨fun holds => ⟨by simpa using consistent, holds⟩, HoldsIn.holds⟩

omit commuting in
theorem Fulfilled.simplify (fulfilled : c.Fulfilled sig loose algebra) :
    (c.simplify sig).Fulfilled sig loose algebra :=
  have commuting := commuting_stable builtins respects
  ((holdsIn_simplify_iff builtins respects commuting fulfilled.over.atoms).mpr
    fulfilled.holdsIn).fulfilled (.simplify commuting.toRetained fulfilled.over.atoms)

end Simplification

section Solutions

theorem holds_iff {s : Subst} : c.Holds sig s ↔ c.HoldsIn (sig.valuation s) :=
  ⟨fun ⟨consistent, holds⟩ =>
      ⟨consistent, fun atom member => Atom.holds_iff.mp (holds atom member)⟩,
    fun ⟨consistent, holds⟩ =>
      ⟨consistent, fun atom member => Atom.holds_iff.mpr (holds atom member)⟩⟩

/-- Without builtins on maps, simplification changes nothing of what the builtins alone evaluate. -/
theorem holdsIn_simplify_iff_of_unmapped (builtins : sig.HasBuiltins)
    (respects : algebra.Respects sig fun _ => False)
    (unmapped : ∀ atom ∈ c.atoms, ∀ part ∈ atom.parts, part.Within sig.unmapped) :
    (c.simplify sig).HoldsIn algebra ↔ c.HoldsIn algebra := by
  refine holdsIn_simplify_iff builtins respects (commuting_unmapped builtins respects) ?_
  intro atom member
  exact Atom.over_iff.mpr (unmapped atom member)

/-- Simplification preserves the solutions of a constraint without builtins on maps: an assignment
satisfies the constraint exactly when it satisfies what is left of it. -/
theorem holds_simplify_iff (builtins : sig.HasBuiltins)
    (unmapped : ∀ atom ∈ c.atoms, ∀ part ∈ atom.parts, part.Within sig.unmapped) (s : Subst) :
    (c.simplify sig).Holds sig s ↔ c.Holds sig s := by
  rw [holds_iff, holds_iff]
  exact holdsIn_simplify_iff_of_unmapped builtins (sig.respects_valuation s) unmapped

/-- An unknown number is 3, and its successor is less than another. -/
def threeAndMore : Constraint :=
  { atoms := [.eq (.var ⟨"X", .int⟩) (.ofInt 3), .holds (.app Label.intLt .bool
      [.app Label.intAdd .int [.var ⟨"X", .int⟩, .ofInt 1], .var ⟨"Y", .int⟩])]
    contradiction := false }

private theorem unmapped_threeAndMore : ∀ atom ∈ threeAndMore.atoms, ∀ part ∈ atom.parts,
    part.Within Signature.builtin.unmapped := by
  have less : Signature.builtin.hook? Label.intLt = some "INT.lt" := rfl
  have add : Signature.builtin.hook? Label.intAdd = some "INT.add" := rfl
  have var (v : Variable) : (Term.var v).Within Signature.builtin.unmapped :=
    Term.Everywhere.var_iff.mpr trivial
  have number (value : Int) : (Term.ofInt value).Within Signature.builtin.unmapped :=
    Term.Everywhere.token_iff.mpr trivial
  have sum : (Term.app Label.intAdd .int [.var ⟨"X", .int⟩, .ofInt 1]).Within
      Signature.builtin.unmapped := Signature.unmapped_app add rfl rfl (by simp [var, number])
  have whole : (Term.app Label.intLt .bool [.app Label.intAdd .int [.var ⟨"X", .int⟩, .ofInt 1],
      .var ⟨"Y", .int⟩]).Within Signature.builtin.unmapped :=
    Signature.unmapped_app less rfl rfl (by simp [sum, var])
  simp [threeAndMore, Atom.parts, var, number, whole]

/-- The number is put in for the variable, and 7 is among what the other may be. -/
theorem holds_simplify_iff_three : threeAndMore.Holds Signature.builtin
    ((Subst.single ⟨"X", .int⟩ (.ofInt 3)).insert ⟨"Y", .int⟩ (.ofInt 7)) := by
  have left : threeAndMore.simplify Signature.builtin =
      ⟨[.eq (.var ⟨"X", .int⟩) (.ofInt 3),
        .holds (.app Label.intLt .bool [.ofInt 4, .var ⟨"Y", .int⟩])], false⟩ := by decide +kernel
  refine (holds_simplify_iff Signature.constructive_builtin.toHasBuiltins
    unmapped_threeAndMore _).mp ?_
  rw [left]
  refine ⟨rfl, ?_⟩
  simp only [List.mem_cons, List.not_mem_nil, or_false, forall_eq_or_imp, forall_eq]
  exact ⟨rfl, rfl⟩

end Solutions

section Projection

variable {keep : List Variable} {v : Variable} {term : Term} {atoms others : List Atom}

/-- What is eliminated is a variable outside `keep`, by an equation with a term that does not have it. -/
theorem of_eliminable (found : eliminable keep atom = some (v, term)) :
    (atom = .eq (.var v) term ∨ atom = .eq term (.var v)) ∧ v ∉ keep ∧ term.mentions v = false := by
  have defines {x y : Term} {v : Variable} {term : Term} (found : (do
      let v ← x.var?
      if v ∉ keep ∧ y.mentions v = false then some (v, y) else none) = some (v, term)) :
      (x = .var v ∧ y = term) ∧ v ∉ keep ∧ term.mentions v = false := by
    obtain ⟨w, shape, made⟩ := Option.bind_eq_some_iff.mp found
    split at made
    · next chosen =>
      cases made
      cases x with
      | var w => exact ⟨⟨by cases shape; rfl, rfl⟩, chosen⟩
      | _ => cases shape
    · cases made
  cases atom with
  | holds condition => cases found
  | eq a b =>
    rcases Option.or_eq_some_iff.mp found with made | ⟨_, made⟩
    · obtain ⟨⟨rfl, rfl⟩, outside⟩ := defines made
      exact ⟨.inl rfl, outside⟩
    · obtain ⟨⟨rfl, rfl⟩, outside⟩ := defines made
      exact ⟨.inr rfl, outside⟩

/-- The atom that defines a variable is taken out, and all others are left. -/
theorem of_takeEliminable (taken : takeEliminable keep atoms = some ((v, term), others)) :
    ∃ definition ∈ atoms, eliminable keep definition = some (v, term) ∧
      (∀ atom ∈ others, atom ∈ atoms) ∧ ∀ atom ∈ atoms, atom = definition ∨ atom ∈ others := by
  induction atoms generalizing others with
  | nil => cases taken
  | cons first rest ih =>
    rw [takeEliminable] at taken
    split at taken
    · next found =>
      cases taken
      exact ⟨first, List.mem_cons_self, found, fun atom => List.mem_cons_of_mem _,
        fun atom => List.mem_cons.mp⟩
    · obtain ⟨⟨_, left⟩, deeper, same⟩ := Option.map_eq_some_iff.mp taken
      cases same
      obtain ⟨definition, member, found, inside, covered⟩ := ih deeper
      refine ⟨definition, List.mem_cons_of_mem _ member, found, ?_, ?_⟩
      · exact List.forall_mem_cons.mpr
          ⟨List.mem_cons_self, fun atom present => List.mem_cons_of_mem _ (inside atom present)⟩
      · exact List.forall_mem_cons.mpr ⟨.inr List.mem_cons_self,
          fun atom present => (covered atom present).imp_right (List.mem_cons_of_mem _)⟩

/-- What replacing a variable by its definition keeps of the atoms, elimination keeps. -/
theorem forall_eliminate {keeps : Atom → Prop} (keep : List Variable) (rounds : Nat)
    (replaced : ∀ v term, keeps (.eq (.var v) term) ∨ keeps (.eq term (.var v)) →
      ∀ atom, keeps atom → keeps (atom.map (Subst.single v term).apply))
    (each : ∀ atom ∈ atoms, keeps atom) : ∀ atom ∈ eliminate keep rounds atoms, keeps atom := by
  induction rounds generalizing atoms with
  | zero => exact each
  | succ rounds ih =>
    rw [eliminate]
    split
    · exact each
    · next v term others taken =>
      obtain ⟨definition, member, found, inside, _⟩ := of_takeEliminable taken
      have defined : keeps (.eq (.var v) term) ∨ keeps (.eq term (.var v)) := by
        rcases (of_eliminable found).1 with rfl | rfl
        · exact .inl (each _ member)
        · exact .inr (each _ member)
      refine ih (List.forall_mem_map.mpr fun atom present => ?_)
      exact replaced v term defined atom (each atom (inside atom present))

theorem holdsIn_eliminate (normalizing : algebra.Normalizing) (keep : List Variable) (rounds : Nat)
    (holds : ∀ atom ∈ atoms, atom.HoldsIn algebra) :
    ∀ atom ∈ eliminate keep rounds atoms, atom.HoldsIn algebra := by
  refine forall_eliminate keep rounds (fun v term defined atom holds => ?_) holds
  have same : algebra.var v = term.fold algebra := defined.elim id Eq.symm
  exact (Atom.holdsIn_map_apply normalizing (Subst.absorbs_single same)).mpr holds

private theorem stable_eliminate (keep : List Variable) (rounds : Nat)
    (stable : ∀ atom ∈ atoms, atom.Stable sig fun _ => False) :
    ∀ atom ∈ eliminate keep rounds atoms, atom.Stable sig fun _ => False := by
  refine forall_eliminate keep rounds (fun v term defined atom stable => ?_) stable
  have stableTerm : term.Everywhere (sig.Stable fun _ => False) := by
    rcases defined with left | right
    · exact left term (by simp [Atom.parts])
    · exact right term (by simp [Atom.parts])
  exact stable.map_apply (Atom.everywhere_single (fun _ => trivial) stableTerm)
    fun _ => Signature.within_without _

/-- The projection has the atoms that elimination leaves, if they mention no other variables. -/
theorem mem_project_iff (consistent : c.contradiction = false) :
    atom ∈ (c.project keep).atoms ↔
      atom ∈ eliminate keep c.atoms.length c.atoms ∧ ∀ v ∈ atom.vars, v ∈ keep := by
  unfold Constraint.project
  rw [consistent, if_neg Bool.false_ne_true, mem_pushAll_iff rfl, List.mem_filter, List.all_eq_true]
  simp only [top, List.not_mem_nil, false_or, List.contains_iff_mem]

@[simp]
theorem project_contradiction : (c.project keep).contradiction = c.contradiction := by
  unfold Constraint.project
  split
  · next contradictory => exact contradictory.symm
  · next consistent => rw [pushAll_contradiction, Bool.not_eq_true _ |>.mp consistent]; rfl

/-- A projected constraint has no variables but those to be kept, and no atoms but those left. -/
theorem of_mem_project (member : atom ∈ (c.project keep).atoms) :
    atom ∈ eliminate keep c.atoms.length c.atoms ∧ ∀ v ∈ atom.vars, v ∈ keep := by
  cases contradictory : c.contradiction with
  | true =>
    rw [Constraint.project, if_pos contradictory] at member
    cases member
  | false => exact (mem_project_iff contradictory).mp member

/-- Projection keeps what the assignment satisfies. -/
theorem Fulfilled.project (normalizing : algebra.Normalizing)
    (fulfilled : c.Fulfilled sig (fun _ => False) algebra) (keep : List Variable) :
    (c.project keep).Fulfilled sig (fun _ => False) algebra where
  consistent := project_contradiction.trans fulfilled.consistent
  holds atom member := holdsIn_eliminate normalizing keep _ fulfilled.holds atom (of_mem_project member).1
  stable atom member := stable_eliminate keep _ fulfilled.stable atom (of_mem_project member).1

end Projection

end Constraint

end Reach
