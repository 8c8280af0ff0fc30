import Reach.Proofs.Clearance
import Reach.Proofs.Projection

/-!
Simplification reaches a normal form in one run. What it adds for an atom is simple: its terms are evaluated,
nothing is left to split or to decide, and the sides of an equation stand in order. A simple atom is added as
it is. Propagation solves one variable after the other, and a variable that is solved stays solved, so that
no more rounds are needed than there are variables. In the end every variable that has a value is mentioned
by the atom that says so and by no other.
-/

namespace Reach

theorem Term.bool?_of_undecided {term : Term} (unknown : ¬term.isTrue = true)
    (possible : ¬term.isFalse = true) :
    term.bool? = none := by
  rcases known : term.bool? with _ | _ | _
  · rfl
  · simp [isFalse, known] at possible
  · simp [isTrue, known] at unknown

namespace Signature

variable {sig : Signature} {term : Term}

/-- A canonical term in which no hook determines a result. -/
structure Reduced (sig : Signature) (term : Term) : Prop where
  canonical : term.Canonical
  evaluated : sig.Evaluated term

theorem reduced_evalBuiltins (sig : Signature) (term : Term) : sig.Reduced (sig.evalBuiltins term) :=
  ⟨sig.canonical_evalBuiltins term, sig.evaluated_evalBuiltins term⟩

/-- What evaluation gives it leaves as it is, and nothing else. -/
theorem reduced_iff : sig.Reduced term ↔ sig.evalBuiltins term = term := by
  refine ⟨fun reduced => ?_, fun same => same ▸ sig.reduced_evalBuiltins term⟩
  refine Term.fold_eq_self reduced.canonical rfl rfl (fun _ _ => rfl)
    (reduced.evaluated.mono fun node settled => ?_)
  cases node with
  | app label sort args =>
    have stuck : sig.callHook label args = none := settled
    exact congrArg (Option.getD · (Term.app label sort args)) stuck
  | _ => trivial

theorem Reduced.of_app {label : String} {sort : TermSort} {args : List Term}
    (reduced : sig.Reduced (.app label sort args)) : ∀ arg ∈ args, sig.Reduced arg := fun arg member =>
  ⟨reduced.canonical.of_app arg member, (Term.Everywhere.app_iff.mp reduced.evaluated).2 arg member⟩

end Signature

namespace Atom

variable {sig : Signature} {atom : Atom} {v w : Variable}

/-- An atom that is added as it is. -/
inductive Simple (sig : Signature) : Atom → Prop
  | eq {a b : Term} (left : sig.Reduced a) (right : sig.Reduced b) (differ : a ≠ b)
      (undecided : a.bool? = none ∧ b.bool? = none) (unequated : (sig.isValue a && sig.isValue b) = false)
      (ordered : (b.var?.isSome && a.var?.isNone) = false) : Simple sig (.eq a b)
  | holds {condition : Term} (reduced : sig.Reduced condition) (undecided : condition.bool? = none)
      (single : Constraint.conjuncts condition = [condition]) : Simple sig (.holds condition)

theorem Simple.canonical (simple : atom.Simple sig) : ∀ part ∈ atom.parts, part.Canonical := by
  cases simple with
  | eq left right =>
    exact List.forall_mem_cons.mpr ⟨left.canonical, List.forall_mem_singleton.mpr right.canonical⟩
  | holds reduced => exact List.forall_mem_singleton.mpr reduced.canonical

theorem mem_vars_map_single {value : Term} : w ∈ (atom.map (Subst.single v value).apply).vars ↔
    (w ∈ atom.vars ∧ w ≠ v) ∨ (v ∈ atom.vars ∧ w ∈ value.vars) := by
  cases atom with
  | eq a b =>
    simp only [map, vars, List.mem_append, Subst.mem_vars_apply_single, or_and_right]
    tauto
  | holds condition => exact Subst.mem_vars_apply_single

end Atom

namespace Constraint

variable {sig : Signature} {c d : Constraint} {atom : Atom} {atoms : List Atom}
  {a b condition part value : Term}
  {v w : Variable}

section Conjunction

theorem and_bottom : c.and bottom = bottom :=
  rfl

theorem mem_of_mem_push {other : Atom} (member : other ∈ (c.push atom).atoms) :
    other ∈ c.atoms ∨ other = atom := by
  unfold push at member
  split at member
  · exact .inl member
  · simpa using member

private theorem mem_of_mem_and (member : atom ∈ (c.and d).atoms) : atom ∈ c.atoms ∨ atom ∈ d.atoms := by
  unfold Constraint.and at member
  split at member
  · cases member
  · generalize d.atoms = atoms at member ⊢
    induction atoms generalizing c with
    | nil => exact .inl member
    | cons first rest ih =>
      rcases ih member with pushed | later
      · refine (mem_of_mem_push pushed).imp_right ?_
        rintro rfl
        exact List.mem_cons_self
      · exact .inr (List.mem_cons_of_mem first later)

/-- To add to the last part of a conjunction is to add to the whole. -/
theorem and_push : c.and (d.push atom) = (c.and d).push atom := by
  by_cases contradictory : d.contradiction = true
  · have idle : d.push atom = d := by simp [push, contradictory]
    rw [idle, Constraint.and, if_pos contradictory]
    rfl
  by_cases known : atom ∈ d.atoms
  · have idle : d.push atom = d := by simp [push, known]
    have joined : c.and d = d.atoms.foldl push c := if_neg contradictory
    rw [idle, joined, push]
    cases refuted : c.contradiction with
    | true => simp [refuted]
    | false => simp [(mem_pushAll_iff refuted).mpr (.inr known)]
  · simp [push, contradictory, known, Constraint.and]

private theorem and_assume : c.and (d.assume condition) = (c.and d).assume condition := by
  unfold assume
  split
  · rfl
  · split
    · exact and_bottom
    · exact and_push

theorem and_assumeEvaluated :
    c.and (d.assumeEvaluated sig condition) = (c.and d).assumeEvaluated sig condition := by
  unfold assumeEvaluated conjoin
  generalize conjuncts _ = conditions
  induction conditions generalizing d with
  | nil => rfl
  | cons first rest ih => rw [List.foldl_cons, List.foldl_cons, ih, and_assume]

/-- What an equation adds to a constraint does not depend on the constraint. -/
theorem equateEvaluated_cases (sig : Signature) (a b : Term) :
    (∀ c : Constraint, c.equateEvaluated sig a b = c) ∨
      (∃ condition, ∀ c : Constraint, c.equateEvaluated sig a b = c.assumeEvaluated sig condition) ∨
      (∀ c : Constraint, c.equateEvaluated sig a b = bottom) ∨
      ∃ atom, atom.Simple sig ∧ ∀ c : Constraint, c.equateEvaluated sig a b = c.push atom := by
  have left := sig.reduced_evalBuiltins a
  have right := sig.reduced_evalBuiltins b
  unfold equateEvaluated
  generalize sig.evalBuiltins a = x at left ⊢
  generalize sig.evalBuiltins b = y at right ⊢
  dsimp only
  split
  · exact .inl fun _ => rfl
  · next differ =>
    split
    · exact .inr (.inl ⟨y, fun _ => rfl⟩)
    · exact .inr (.inl ⟨x, fun _ => rfl⟩)
    · exact .inr (.inl ⟨y.negate, fun _ => rfl⟩)
    · exact .inr (.inl ⟨x.negate, fun _ => rfl⟩)
    · next unknownLeft unknownRight =>
      split
      · exact .inr (.inr (.inl fun _ => rfl))
      · next unequated =>
        refine .inr (.inr (.inr ?_))
        split
        · next moved =>
          obtain ⟨_, compound⟩ := Bool.and_eq_true_iff.mp moved
          refine ⟨.eq y x, .eq right left (Ne.symm differ) ⟨unknownRight, unknownLeft⟩ ?_ ?_, fun _ => rfl⟩
          · rw [Bool.and_comm]
            simpa using unequated
          · rw [Option.isNone_iff_eq_none.mp compound]
            rfl
        · next ordered =>
          refine ⟨.eq x y, .eq left right differ ⟨unknownLeft, unknownRight⟩ ?_ ?_, fun _ => rfl⟩
          · simpa using unequated
          · exact Bool.eq_false_iff.mpr ordered

private theorem and_equateEvaluated : c.and (d.equateEvaluated sig a b) = (c.and d).equateEvaluated sig a b := by
  rcases equateEvaluated_cases sig a b with idle | ⟨condition, assumed⟩ | refuted | ⟨atom, _, added⟩
  · rw [idle, idle]
  · rw [assumed, assumed, and_assumeEvaluated]
  · rw [refuted, refuted, and_bottom]
  · rw [added, added, and_push]

private theorem and_addEvaluated : c.and (d.addEvaluated sig atom) = (c.and d).addEvaluated sig atom := by
  cases atom with
  | eq a b => exact and_equateEvaluated
  | holds condition => exact and_assumeEvaluated

/-- What comes out of several atoms comes out of one of them. -/
theorem exists_of_mem_ofAtoms (member : atom ∈ (ofAtoms sig atoms).atoms) :
    ∃ source ∈ atoms, atom ∈ (ofAtoms sig [source]).atoms := by
  have every (c : Constraint) (made : atom ∈ (atoms.foldl (addEvaluated sig) c).atoms) :
      atom ∈ c.atoms ∨ ∃ source ∈ atoms, atom ∈ (ofAtoms sig [source]).atoms := by
    clear member
    induction atoms generalizing c with
    | nil => exact .inl made
    | cons first rest ih =>
      rcases ih _ made with earlier | ⟨source, listed, inside⟩
      · have split : c.addEvaluated sig first = c.and (ofAtoms sig [first]) :=
          (@and_addEvaluated _ c top first).symm
        rw [split] at earlier
        exact (mem_of_mem_and earlier).imp_right fun inside => ⟨first, List.mem_cons_self, inside⟩
      · exact .inr ⟨source, List.mem_cons_of_mem first listed, inside⟩
  exact (every top member).resolve_left nofun

end Conjunction

/-- Each atom is simple and kept once, and there is none beside a contradiction. -/
structure Tidy (sig : Signature) (c : Constraint) : Prop where
  regular : c.contradiction = true → c.atoms = []
  distinct : c.atoms.Nodup
  simple : ∀ atom ∈ c.atoms, atom.Simple sig

section Addition

private theorem tidy_top : top.Tidy sig :=
  ⟨nofun, List.nodup_nil, nofun⟩

theorem tidy_bottom : bottom.Tidy sig :=
  ⟨fun _ => rfl, List.nodup_nil, nofun⟩

theorem nodup_push (distinct : c.atoms.Nodup) : (c.push atom).atoms.Nodup := by
  unfold Constraint.push
  split
  · exact distinct
  · next idle =>
    have fresh : atom ∉ c.atoms := by simp_all
    refine List.nodup_append.mpr ⟨distinct, List.nodup_singleton atom, fun other member last same => ?_⟩
    rintro rfl
    exact fresh (List.mem_singleton.mp same ▸ member)

theorem Tidy.push (tidy : c.Tidy sig) (simple : atom.Simple sig) : (c.push atom).Tidy sig := by
  refine ⟨fun contradictory => ?_, nodup_push tidy.distinct, fun other member => ?_⟩
  · rw [push_contradiction] at contradictory
    simp [Constraint.push, contradictory, tidy.regular contradictory]
  · rcases mem_of_mem_push member with before | rfl
    · exact tidy.simple other before
    · exact simple

theorem Tidy.assume (tidy : c.Tidy sig) (reduced : sig.Reduced part) (single : conjuncts part = [part]) :
    (c.assume part).Tidy sig := by
  unfold Constraint.assume
  split
  · exact tidy
  · next unknown =>
    split
    · exact tidy_bottom
    · next possible =>
      exact tidy.push (.holds reduced (Term.bool?_of_undecided unknown possible) single)

theorem Tidy.assumeEvaluated (tidy : c.Tidy sig) (condition : Term) :
    (c.assumeEvaluated sig condition).Tidy sig := by
  have parts : ∀ part ∈ conjuncts (sig.evalBuiltins condition), sig.Reduced part ∧ conjuncts part = [part] :=
    fun part member => ⟨forall_conjuncts (fun _ a b reduced => ⟨reduced.of_app a (by simp),
      reduced.of_app b (by simp)⟩) (sig.reduced_evalBuiltins condition) part member, conjuncts_of_mem member⟩
  unfold Constraint.assumeEvaluated conjoin
  generalize conjuncts _ = conditions at parts
  induction conditions generalizing c with
  | nil => exact tidy
  | cons first rest ih =>
    obtain ⟨⟨reduced, single⟩, later⟩ := List.forall_mem_cons.mp parts
    exact ih (tidy.assume reduced single) later

theorem Tidy.equateEvaluated (tidy : c.Tidy sig) (a b : Term) : (c.equateEvaluated sig a b).Tidy sig := by
  rcases equateEvaluated_cases sig a b with idle | ⟨condition, assumed⟩ | refuted | ⟨atom, simple, added⟩
  · rw [idle]
    exact tidy
  · rw [assumed]
    exact tidy.assumeEvaluated condition
  · rw [refuted]
    exact tidy_bottom
  · rw [added]
    exact tidy.push simple

theorem tidy_ofAtoms (sig : Signature) (atoms : List Atom) : (ofAtoms sig atoms).Tidy sig := by
  have start : top.Tidy sig := tidy_top
  unfold ofAtoms
  generalize top = c at start
  induction atoms generalizing c with
  | nil => exact start
  | cons atom rest ih =>
    refine ih _ ?_
    cases atom with
    | eq a b => exact start.equateEvaluated a b
    | holds condition => exact start.assumeEvaluated condition

private theorem addEvaluated_of_simple (simple : atom.Simple sig) : c.addEvaluated sig atom = c.push atom := by
  cases simple with
  | eq left right differ undecided unequated ordered =>
    simp [addEvaluated, Constraint.equateEvaluated, Signature.reduced_iff.mp left,
      Signature.reduced_iff.mp right, differ, undecided, unequated, ordered]
  | holds reduced undecided single =>
    simp [addEvaluated, Constraint.assumeEvaluated, conjoin, Signature.reduced_iff.mp reduced, single,
      Constraint.assume, Term.isTrue, Term.isFalse, undecided]

/-- Distinct simple atoms are added as they are. -/
theorem ofAtoms_of_simple (simple : ∀ atom ∈ atoms, atom.Simple sig) (distinct : atoms.Nodup) :
    ofAtoms sig atoms = { atoms := atoms, contradiction := false } := by
  have every (before : List Atom) (apart : (before ++ atoms).Nodup) :
      atoms.foldl (addEvaluated sig) { atoms := before, contradiction := false } =
        { atoms := before ++ atoms, contradiction := false } := by
    clear distinct
    induction atoms generalizing before with
    | nil => simp
    | cons atom rest ih =>
      obtain ⟨here, later⟩ := List.forall_mem_cons.mp simple
      have fresh : atom ∉ before := fun member =>
        (List.nodup_append.mp apart).2.2 _ member _ List.mem_cons_self rfl
      have pushed : Constraint.push ⟨before, false⟩ atom = ⟨before ++ [atom], false⟩ := by
        simp [push, fresh]
      rw [List.append_cons] at apart ⊢
      rw [List.foldl_cons, addEvaluated_of_simple here, pushed]
      exact ih later _ apart
  exact every [] distinct

end Addition

section Propagation

/-- Where the variable is mentioned, the atom says what its value is. -/
def Solved (sig : Signature) (c : Constraint) (v : Variable) : Prop :=
  ∃ value, sig.isValue value = true ∧ ∀ atom ∈ c.atoms, v ∈ atom.vars → atom = .eq (.var v) value

private theorem of_mem_vars_propagated (ground : value.ground = true)
    (occurs : w ∈ (propagated v value atom).vars) :
    w ∈ atom.vars ∧ (w = v → atom = .eq (.var v) value) := by
  unfold propagated at occurs
  split at occurs
  · next defines => exact ⟨occurs, fun _ => defines⟩
  · rcases Atom.mem_vars_map_single.mp occurs with ⟨inside, other⟩ | ⟨_, impossible⟩
    · exact ⟨inside, fun same => absurd same other⟩
    · rw [(Term.ground_iff_vars_eq_nil value).mp ground] at impossible
      cases impossible

theorem propagated_eq_self (simple : atom.Simple sig)
    (apart : v ∈ atom.vars → atom = .eq (.var v) value) : propagated v value atom = atom := by
  unfold propagated
  split
  · rfl
  · next other =>
    exact Atom.map_single_eq_self simple.canonical fun occurs => other (apart occurs)

/-- An atom that mentions a variable after propagation comes from one that did before. If that one is
left alone it is the same, and of the variable that was propagated there is only the equation. -/
theorem of_mem_propagate (tidy : c.Tidy sig) (known : sig.isValue value = true)
    (member : atom ∈ (c.propagate sig v value).atoms) (occurs : w ∈ atom.vars) :
    ∃ source ∈ c.atoms, w ∈ source.vars ∧ (w = v → source = .eq (.var v) value) ∧
      (propagated v value source = source → atom = source) := by
  obtain ⟨image, listed, inside⟩ := exists_of_mem_ofAtoms member
  obtain ⟨source, present, rfl⟩ := List.mem_map.mp listed
  have within := Over.ofAtoms (Discipline.retained_ofVars sig (· ∈ (propagated v value source).vars))
    (List.forall_mem_singleton.mpr (Discipline.over_ofVars_iff.mpr fun _ => id))
  have before := Discipline.over_ofVars_iff.mp (within.atoms atom inside) w occurs
  obtain ⟨mentioned, defines⟩ := of_mem_vars_propagated (Signature.ground_of_isValue known) before
  refine ⟨source, present, mentioned, defines, fun same => ?_⟩
  have still := ofAtoms_of_simple (List.forall_mem_singleton.mpr (tidy.simple source present))
    (List.nodup_singleton source)
  change atom ∈ (ofAtoms sig [propagated v value source]).atoms at inside
  rw [same, still] at inside
  exact List.mem_singleton.mp inside

private theorem solved_propagate (tidy : c.Tidy sig) (known : sig.isValue value = true) :
    (c.propagate sig v value).Solved sig v := by
  refine ⟨value, known, fun atom member occurs => ?_⟩
  obtain ⟨source, _, _, defines, same⟩ := of_mem_propagate tidy known member occurs
  obtain rfl := defines rfl
  exact same (if_pos rfl)

theorem Solved.propagate (tidy : c.Tidy sig) (known : sig.isValue value = true) (other : w ≠ v)
    (solved : c.Solved sig w) : (c.propagate sig v value).Solved sig w := by
  obtain ⟨bound, constant, defined⟩ := solved
  refine ⟨bound, constant, fun atom member occurs => ?_⟩
  obtain ⟨source, present, mentioned, _, same⟩ := of_mem_propagate tidy known member occurs
  obtain rfl := defined source present mentioned
  -- There is no variable in the equation but `w`.
  refine same (propagated_eq_self (tidy.simple _ present) fun occurs => ?_)
  have closed := (Term.ground_iff_vars_eq_nil bound).mp (Signature.ground_of_isValue constant)
  rw [Atom.vars, closed, List.append_nil] at occurs
  exact absurd (List.mem_singleton.mp occurs).symm other

private theorem mem_of_binding?_eq_none {done : List Variable} (none : c.binding? sig done = none)
    (defined : .eq (.var v) value ∈ c.atoms) (known : sig.isValue value = true) : v ∈ done := by
  have passed := List.findSome?_eq_none_iff.mp none _ defined
  by_contra fresh
  simp [known, fresh] at passed

private theorem not_mem_of_binding? {done : List Variable} (found : c.binding? sig done = some (v, value)) :
    v ∉ done := by
  obtain ⟨atom, _, made⟩ := List.exists_of_findSome?_eq_some found
  split at made
  · split at made
    · next chosen =>
      cases made
      exact chosen.2
    · cases made
  · cases made

/-- The variables of `done`, all of them of `start`, are solved, and there are no others than those of
`start`. -/
structure Propagating (sig : Signature) (start done : List Variable) (c : Constraint) : Prop where
  tidy : c.Tidy sig
  solved : ∀ v ∈ done, c.Solved sig v
  distinct : done.Nodup
  among : ∀ v ∈ done, v ∈ start
  mentioned : ∀ v ∈ c.freeVars, v ∈ start

theorem mem_freeVars_of_defined (defined : .eq (.var v) value ∈ c.atoms) : v ∈ c.freeVars :=
  mem_freeVars.mpr ⟨_, defined, List.mem_append_left _ (List.mem_singleton_self v)⟩

theorem Propagating.propagate {start done : List Variable} (propagating : c.Propagating sig start done)
    (found : c.binding? sig done = some (v, value)) :
    (c.propagate sig v value).Propagating sig start (v :: done) := by
  obtain ⟨defined, known⟩ := of_binding? found
  have fresh := not_mem_of_binding? found
  refine ⟨tidy_ofAtoms sig _, List.forall_mem_cons.mpr ⟨?_, fun w solved => ?_⟩,
    List.nodup_cons.mpr ⟨fresh, propagating.distinct⟩,
    List.forall_mem_cons.mpr ⟨?_, propagating.among⟩, fun w member => ?_⟩
  · exact solved_propagate propagating.tidy known
  · refine (propagating.solved w solved).propagate propagating.tidy known ?_
    rintro rfl
    exact fresh solved
  · exact propagating.mentioned v (mem_freeVars_of_defined defined)
  · obtain ⟨atom, inside, occurs⟩ := mem_freeVars.mp member
    obtain ⟨source, present, before, _⟩ := of_mem_propagate propagating.tidy known inside occurs
    exact propagating.mentioned w (mem_freeVars.mpr ⟨source, present, before⟩)

end Propagation

/-- Every variable that is equated with a value is solved. -/
structure Normal (sig : Signature) (c : Constraint) : Prop extends Tidy sig c where
  solved : ∀ v value, .eq (.var v) value ∈ c.atoms → sig.isValue value = true →
    ∀ atom ∈ c.atoms, v ∈ atom.vars → atom = .eq (.var v) value

section Normalization

theorem Tidy.normal (tidy : c.Tidy sig)
    (solved : ∀ v value, .eq (.var v) value ∈ c.atoms → sig.isValue value = true → c.Solved sig v) :
    c.Normal sig := by
  refine { tidy with solved := fun v value defined known atom member occurs => ?_ }
  obtain ⟨bound, _, each⟩ := solved v value defined known
  rw [each _ defined (List.mem_append_left _ (List.mem_singleton_self v))]
  exact each atom member occurs

/-- As many rounds as there are variables to solve are enough. -/
theorem Propagating.normal {start done : List Variable} {rounds : Nat}
    (propagating : c.Propagating sig start done) (enough : start.length ≤ rounds + done.length) :
    (c.propagateAll sig rounds done).Normal sig := by
  induction rounds generalizing done c with
  | zero =>
    -- The rounds are used up, so that `done` has come to be all of `start`.
    have all : done.Perm start := (List.subperm_of_subset propagating.distinct
      propagating.among).perm_of_length_le (by simpa using enough)
    refine propagating.tidy.normal fun v value defined known => propagating.solved v ?_
    exact all.mem_iff.mpr (propagating.mentioned v (mem_freeVars_of_defined defined))
  | succ rounds ih =>
    rw [propagateAll]
    split
    · next none =>
      refine propagating.tidy.normal fun v value defined known => propagating.solved v ?_
      exact mem_of_binding?_eq_none none defined known
    · next v value found =>
      refine ih (propagating.propagate found) ?_
      rw [List.length_cons]
      omega

theorem normal_simplify (sig : Signature) (c : Constraint) : (c.simplify sig).Normal sig := by
  unfold simplify
  split
  · exact tidy_bottom.normal nofun
  · have start : (ofAtoms sig c.atoms).Propagating sig (ofAtoms sig c.atoms).freeVars [] :=
      ⟨tidy_ofAtoms sig c.atoms, nofun, List.nodup_nil, nofun, fun _ => id⟩
    exact start.normal le_rfl

private theorem Normal.propagate_eq_self (normal : c.Normal sig) (consistent : c.contradiction = false)
    (defined : .eq (.var v) value ∈ c.atoms) (known : sig.isValue value = true) :
    c.propagate sig v value = c := by
  have same : c.atoms.map (propagated v value) = c.atoms := by
    refine (List.map_congr_left fun atom member => ?_).trans (List.map_id c.atoms)
    exact propagated_eq_self (normal.simple atom member) (normal.solved v value defined known atom member)
  have whole : c.propagate sig v value = ofAtoms sig (c.atoms.map (propagated v value)) := rfl
  rw [whole, same, ofAtoms_of_simple normal.simple normal.distinct, ← consistent]

theorem simplify_of_normal (normal : c.Normal sig) : c.simplify sig = c := by
  unfold simplify
  split
  · next contradictory =>
    obtain ⟨atoms, _⟩ := c
    obtain rfl : atoms = [] := normal.regular contradictory
    rw [bottom]
    exact congrArg (Constraint.mk []) contradictory.symm
  · next unrefuted =>
    have consistent : c.contradiction = false := by simpa using unrefuted
    have evaluated : ofAtoms sig c.atoms = c := by
      rw [ofAtoms_of_simple normal.simple normal.distinct, ← consistent]
    have still (rounds : Nat) (done : List Variable) : c.propagateAll sig rounds done = c := by
      induction rounds generalizing done with
      | zero => rfl
      | succ rounds ih =>
        rw [propagateAll]
        split
        · rfl
        · next v value found =>
          obtain ⟨defined, known⟩ := of_binding? found
          rw [normal.propagate_eq_self consistent defined known, ih]
    simp only [evaluated, still]

/-- What simplification leaves as it is. -/
theorem normal_iff : c.Normal sig ↔ c.simplify sig = c :=
  ⟨simplify_of_normal, fun same => same ▸ normal_simplify sig c⟩

/-- To simplify a second time changes nothing. -/
theorem simplify_idempotent (sig : Signature) (c : Constraint) :
    (c.simplify sig).simplify sig = c.simplify sig :=
  simplify_of_normal (normal_simplify sig c)

end Normalization

end Constraint

end Reach
