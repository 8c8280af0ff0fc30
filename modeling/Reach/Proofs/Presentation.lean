import Reach.Proofs.Matching

/-!
A pattern need not be canonical. Where its entries stand in another order, or its frame is a collection of its
kind, the matcher may miss matches. What it finds still takes the pattern, put in canonical form on the way,
to the subject.
-/

namespace Reach.Matching

variable {sig : Signature} {s : Subst} {pattern subject : Term} {goals : List Goal}

/-- The substitution takes the pattern to the subject, collections being put in canonical form on the way. -/
def Yields (s : Subst) (goal : Goal) : Prop :=
  goal.1.fold s.algebra = goal.2

section Collections

variable {d : Deferred} {pairs : List (Entry Term × Entry Term)} {rest : List (Entry Term)}

private theorem map_eq_of_yields (made : Pairing.allGoals pairs = some goals)
    (yields : ∀ goal ∈ goals, Yields s goal) :
    ∀ pair ∈ pairs, pair.1.map (Term.fold s.algebra) = pair.2 := by
  have images := (@Pairing.forall_map_eq_map_iff (Term.fold s.algebra) id pairs).mpr ⟨goals, made, yields⟩
  simpa only [Entry.map_id] using images

/-- With what its frame stands for, the pattern has just the entries that were left over. -/
theorem normalized_of_restGoals (made : d.restGoals rest = some goals)
    (yields : ∀ goal ∈ goals, Yields s goal) (entries : List (Entry Term)) :
    Term.normalized d.kind entries (d.patternFrame.map (Term.fold s.algebra)) =
      .normalized d.kind (entries ++ rest) d.subjectFrame := by
  unfold Deferred.restGoals at made
  cases shape : d.patternFrame with
  | some frame =>
    rw [shape] at made
    cases made
    have image : frame.fold s.algebra = .normalized d.kind rest d.subjectFrame :=
      yields _ (List.mem_singleton_self _)
    rw [Option.map_some, image, Term.normalized_nested]
  | none =>
    rw [shape] at made
    dsimp only at made
    split at made
    · next nothing =>
      obtain ⟨bare, closed⟩ := Bool.and_eq_true_iff.mp nothing
      rw [List.isEmpty_iff.mp bare, Option.isNone_iff_eq_none.mp closed, List.append_nil]
      rfl
    · cases made

theorem yields_of_pairGoals (canonical : d.goal.2.Canonical) (made : d.pairGoals pairs rest = some goals)
    (yields : ∀ goal ∈ goals, Yields s goal)
    (found : (∀ pair ∈ pairs, pair.1.map (Term.fold s.algebra) = pair.2) →
      d.kind.Same (d.pattern.map (Entry.map (Term.fold s.algebra)) ++ rest) d.subject) :
    Yields s d.goal := by
  obtain ⟨first, madeFirst, more⟩ := Option.bind_eq_some_iff.mp made
  obtain ⟨last, madeLast, same⟩ := Option.bind_eq_some_iff.mp more
  obtain rfl := Option.some.inj same
  obtain ⟨yieldsFirst, yieldsLast⟩ := List.forall_mem_append.mp yields
  have images := map_eq_of_yields madeFirst yieldsFirst
  calc
    d.goal.1.fold s.algebra = .normalized d.kind (d.pattern.map (Entry.map (Term.fold s.algebra)))
        (d.patternFrame.map (Term.fold s.algebra)) := Term.fold_collection _ _ _ _
    _ = .normalized d.kind (d.pattern.map (Entry.map (Term.fold s.algebra)) ++ rest) d.subjectFrame :=
      normalized_of_restGoals madeLast yieldsLast _
    _ = .normalized d.kind d.subject d.subjectFrame := Term.normalized_congr _ (found images)
    _ = d.goal.2 := Term.Canonical.normalized_eq canonical

/-- What solves one alternative takes the whole pattern to the subject. -/
theorem yields_of_alternative (canonical : d.goal.2.Canonical) (member : goals ∈ d.alternatives)
    (yields : ∀ goal ∈ goals, Yields s goal) : Yields s d.goal := by
  unfold Deferred.alternatives at member
  split at member
  · next ordered =>
    split at member
    · cases member
    · next fits =>
      refine yields_of_pairGoals canonical (Option.mem_toList.mp member) yields fun images => ?_
      rw [(Pairing.map_append_eq_iff (Nat.le_of_not_lt fits)).mpr ⟨images, rfl⟩]
      exact Kind.same_refl d.kind _
  · next unordered =>
    split at member
    · cases member
    · next c cancelled =>
      obtain ⟨positions, tried, whole⟩ := List.mem_filterMap.mp member
      obtain ⟨more, made, rfl⟩ := Option.map_eq_some_iff.mp whole
      obtain ⟨yieldsCancelled, yieldsMore⟩ := List.forall_mem_append.mp yields
      obtain ⟨pairs, spec⟩ := Pairing.exists_cancels cancelled
      have subjects : (Term.collection d.kind d.subject d.subjectFrame).Canonical := canonical
      -- A key that was paired off is a key of the subject, so that it is canonical.
      have fixed : ∀ pair ∈ pairs, pair.1.key.fold s.algebra = pair.2.key := by
        intro pair inside
        obtain ⟨same, ground⟩ := spec.keys pair inside
        have among : pair.2 ∈ d.subject :=
          spec.right.mem_iff.mpr (List.mem_append_left _ (List.mem_map_of_mem inside))
        rw [same] at ground ⊢
        refine Subst.fold_algebra_eq_self (subjects.of_entry _ among _ pair.2.key_mem_parts) fun v occurs => ?_
        rw [(Term.ground_iff_vars_eq_nil _).mp ground] at occurs
        cases occurs
      have paired := (spec.solved_iff (f := Term.fold s.algebra) (g := id) fixed).mp yieldsCancelled
      simp only [Entry.map_id] at paired
      obtain ⟨size, distinct, inside⟩ := of_mem_assignments tried
      refine yields_of_pairGoals canonical made yieldsMore fun images => ?_
      have aligned : c.left.length = (Pairing.select c.right positions).length := by
        rw [Pairing.length_select inside, size]
      have selected : c.left.map (Entry.map (Term.fold s.algebra)) = Pairing.select c.right positions := by
        rw [← List.map_id (Pairing.select c.right positions)]
        exact (Pairing.map_eq_iff_forall_zip aligned).mpr images
      refine Kind.same_of_perm (by simpa using unordered) ((spec.perm_iff paired).mpr ?_)
      exact (perm_iff_assignment _).mpr ⟨positions, tried, selected, .refl _⟩

end Collections

namespace Problem

variable {p next : Problem} {goal : Goal}

/-- A canonical substitution that starts from what is bound and takes each pattern that is left to its
subject. -/
structure Instance (p : Problem) (s : Subst) : Prop where
  extension : Extension p.subst p.occurs s
  canonical : s.Canonical
  yields : ∀ goal ∈ p.pending, Yields s goal

/-- What is to be matched is over one signature, and the subjects are canonical. -/
structure Comparing (sig : Signature) (p : Problem) : Prop where
  canonical : p.subst.Canonical
  comparable : ∀ goal ∈ p.pending, Comparable sig goal

/-- A problem that comes of another one and whose instances are instances of that one. -/
structure Refines (sig : Signature) (next p : Problem) : Prop where
  comparing : next.Comparing sig
  instances : ∀ s, next.Instance s → p.Instance s

theorem Instance.of_goals {other : Problem} (inst : other.Instance s) (base : p.subst = other.subst)
    (vars : ∀ v, (p.subst.get? v).isSome = true ∨ p.occurs v ↔
      (p.subst.get? v).isSome = true ∨ other.occurs v)
    (yields : (∀ goal ∈ other.pending, Yields s goal) → ∀ goal ∈ p.pending, Yields s goal) :
    p.Instance s := by
  refine ⟨(Extension.congr vars).mpr ?_, inst.canonical, yields inst.yields⟩
  rw [base]
  exact inst.extension

/-- A goal may be replaced by goals with its variables, if what solves these solves the goal. -/
theorem Comparing.addGoals (comparing : Comparing sig { p with goals := goal :: p.goals })
    (comparable : ∀ goal ∈ goals, Comparable sig goal)
    (vars : ∀ v, v ∈ goal.1.vars ↔ ∃ goal ∈ goals, v ∈ goal.1.vars)
    (yields : ∀ s, (∀ goal ∈ goals, Yields s goal) → Yields s goal) :
    Refines sig (p.addGoals goals) { p with goals := goal :: p.goals } := by
  have later := (List.forall_mem_cons.mp comparing.comparable).2
  refine ⟨⟨comparing.canonical, fun goal member => ?_⟩, fun s inst => ?_⟩
  · exact (mem_pending_addGoals.mp member).elim (comparable goal) (later goal)
  · refine inst.of_goals rfl (fun v => ?_) fun solved => ?_
    · rw [occurs_cons, occurs_addGoals, vars]
    · simp only [mem_pending_addGoals, or_imp, forall_and] at solved
      exact List.forall_mem_cons.mpr ⟨yields s solved.1, solved.2⟩

private theorem refines_step (comparing : Comparing sig { p with goals := (pattern, subject) :: p.goals })
    (stepped : p.step pattern subject = some next) :
    Refines sig next { p with goals := (pattern, subject) :: p.goals } := by
  obtain ⟨here, later⟩ := List.forall_mem_cons.mp comparing.comparable
  rcases step_cases stepped with ⟨⟨v, rfl, held⟩ | ⟨ground, rfl⟩, rfl⟩ | ⟨v, rfl, free, accepted, rfl⟩ |
    ⟨label, sort, args, sort', args', rfl, rfl, _, aligned, rfl⟩ | ⟨d, same, rfl⟩
  · refine ⟨⟨comparing.canonical, later⟩, fun s inst => inst.of_goals rfl (fun w => ?_) fun solved => ?_⟩
    · rw [occurs_cons, Term.vars_var, List.mem_singleton]
      have bound : (next.subst.get? v).isSome = true := by rw [held]; rfl
      constructor
      · rintro (known | rfl | occurs)
        · exact .inl known
        · exact .inl bound
        · exact .inr occurs
      · exact Or.imp_right .inr
    · have image := inst.extension.keeps v subject held
      exact List.forall_mem_cons.mpr ⟨Subst.image_of_get? image, solved⟩
  · refine ⟨⟨comparing.canonical, later⟩, fun s inst => inst.of_goals rfl (fun w => ?_) fun solved => ?_⟩
    · rw [occurs_cons, (Term.ground_iff_vars_eq_nil pattern).mp ground]
      simp
    · refine List.forall_mem_cons.mpr ⟨Subst.fold_algebra_eq_self here.subject fun v occurs => ?_, solved⟩
      rw [(Term.ground_iff_vars_eq_nil pattern).mp ground] at occurs
      cases occurs
  · refine ⟨⟨fun w term found => ?_, later⟩, fun s inst => ?_⟩
    · rw [Assoc.get?_insert] at found
      split at found
      · cases found
        exact here.subject
      · exact comparing.canonical w term found
    · have binds : occurs { p with goals := (.var v, subject) :: p.goals } v :=
        occurs_cons.mpr (.inl (by simp))
      have besides : ∀ w, occurs { p with goals := (.var v, subject) :: p.goals } w ↔
          w = v ∨ occurs { p with subst := p.subst.insert v subject } w := by
        intro w
        rw [occurs_cons, Term.vars_var, List.mem_singleton]
        rfl
      obtain ⟨extension, bound⟩ :=
        (Extension.insert_iff subject free binds besides).mpr ⟨accepted, inst.extension⟩
      exact ⟨extension, inst.canonical,
        List.forall_mem_cons.mpr ⟨Subst.image_of_get? bound, inst.yields⟩⟩
  · obtain rfl : sort = sort' :=
      Signature.sort_eq_of_declared here.declaredPattern.here here.declaredSubject.here
    refine comparing.addGoals here.of_app (fun v => ?_) fun s solved => ?_
    · rw [Term.mem_vars_app]
      conv_lhs => rw [← List.map_fst_zip (Nat.le_of_eq aligned)]
      simp
    · have images := (Pairing.map_eq_iff_forall_zip (f := Term.fold s.algebra) (g := id) aligned).mpr solved
      rw [Yields, Term.fold_app, images, List.map_id]
      rfl
  · rw [same] at comparing here ⊢
    have members : ∀ goal, goal ∈ pending { p with deferred := p.deferred ++ [d] } ↔
        goal ∈ pending { p with goals := d.goal :: p.goals } := by
      intro goal
      simp only [pending, List.map_append, List.map_cons, List.map_nil, List.mem_append, List.mem_cons,
        List.not_mem_nil, or_false]
      tauto
    refine ⟨⟨comparing.canonical, fun goal member => comparing.comparable goal ((members goal).mp member)⟩,
      fun s inst => inst.of_goals rfl (fun v => ?_) fun solved goal member => ?_⟩
    · simp only [occurs, members]
    · exact solved goal ((members goal).mpr member)

/-- Where two collections are to be matched each alternative is one way to do so. -/
theorem refines_expand {d : Deferred} {deferred : List Deferred} (comparing : p.Comparing sig)
    (done : p.goals = []) (waiting : p.deferred = d :: deferred)
    (member : next ∈ ({ p with goals := [], deferred }.expand d).toList) : Refines sig next p := by
  have same : pending { p with goals := [d.goal], deferred } = p.pending := by
    simp [pending, done, waiting]
  have opened : Comparing sig { p with goals := [d.goal], deferred } :=
    ⟨comparing.canonical, by rw [same]; exact comparing.comparable⟩
  have here : Comparable sig d.goal := opened.comparable d.goal List.mem_cons_self
  rw [expand_eq] at member
  obtain ⟨goals, among, rfl⟩ := List.mem_map.mp member
  have refined := Comparing.addGoals (p := { p with goals := [], deferred }) opened
    (comparable_alternative here among) (vars_alternative among)
    fun s => yields_of_alternative here.subject among
  refine ⟨refined.comparing, fun s inst => ?_⟩
  refine (refined.instances s inst).of_goals rfl (fun v => ?_) fun solved => ?_
  · simp only [occurs, same]
  · rwa [same] at solved

private theorem refines_advance {problems : Enumeration Problem} (comparing : p.Comparing sig)
    (progress : p.advance = .branches problems) (member : next ∈ problems.toList) : Refines sig next p := by
  cases shape : p.goals with
  | cons goal goals =>
    rw [advance, shape] at progress
    cases progress
    have whole : p = { { p with goals } with goals := goal :: goals } := by rw [← shape]
    rw [whole] at comparing ⊢
    refine refines_step comparing ?_
    cases stepped : { p with goals }.step goal.1 goal.2 with
    | none => simp [Enumeration.ofOption, stepped] at member
    | some other => simpa [Enumeration.ofOption, stepped, eq_comm] using member
  | nil =>
    cases waiting : p.deferred with
    | cons d deferred =>
      rw [advance, shape, waiting] at progress
      cases progress
      exact refines_expand comparing shape waiting member
    | nil =>
      rw [advance, shape, waiting] at progress
      cases progress

theorem Refines.trans {first second third : Problem} (refines : Refines sig first second)
    (refines' : Refines sig second third) : Refines sig first third :=
  ⟨refines.comparing, fun s inst => refines'.instances s (refines.instances s inst)⟩

/-- Whatever the search lists is an instance of the problem. -/
theorem Comparing.instance_of_mem {steps : Nat} (comparing : p.Comparing sig)
    (member : s ∈ (p.solve steps).toList) : p.Instance s := by
  have kept : ∀ other problems, Refines sig other p → other.advance = .branches problems →
      ∀ next ∈ problems.toList, Refines sig next p := by
    intro other problems refines progress next among
    exact (refines_advance refines.comparing progress among).trans refines
  obtain ⟨last, refines, progress⟩ := exists_of_mem_solve kept ⟨comparing, fun _ => id⟩ member
  have solution := (solution_solved_iff refines.comparing.canonical progress).mpr fun _ => rfl
  refine refines.instances s ⟨solution.extension, solution.canonical, ?_⟩
  rw [(of_solved progress).2]
  exact fun _ nothing => absurd nothing List.not_mem_nil

end Problem

/-- A pattern without variables is compared as it stands. -/
theorem eq_of_mem_of_ground {seed : Subst} (ground : pattern.ground = true)
    (member : s ∈ (enumerateFrom seed pattern subject).toList) : pattern = subject := by
  obtain ⟨steps, weight⟩ : ∃ steps, Problem.weight
      { subst := seed, goals := [(pattern, subject)], deferred := [] } = steps + 1 := by
    have positive := pattern.size_pos
    exact ⟨2 * pattern.size - 1, by simp [Problem.weight]; omega⟩
  rw [enumerateFrom, weight, Problem.solve_succ (p := { subst := seed, goals := [_], deferred := [] }) rfl,
    Enumeration.toList_flatMap] at member
  obtain ⟨next, among, _⟩ := List.mem_flatMap.mp member
  cases stepped : Problem.step { subst := seed, goals := [], deferred := [] } pattern subject with
  | none => simp [Enumeration.ofOption, stepped] at among
  | some next =>
    have inner : pattern.var? = none := by
      cases pattern with
      | var v => cases ground
      | _ => rfl
    rw [Problem.step_ground inner ground] at stepped
    split at stepped
    · next same => exact same
    · cases stepped

/-- What makes the subject an instance of the pattern: it binds the variables of the pattern besides those
of `seed`, to canonical terms of sorts that they accept, and takes the pattern to the subject. A pattern
without variables has to be the subject. -/
structure IsInstance (seed : Subst) (pattern subject : Term) (s : Subst) : Prop where
  extension : Extension seed (· ∈ pattern.vars) s
  canonical : s.Canonical
  yields : Yields s (pattern, subject)
  whole : pattern.ground = true → pattern = subject

variable {seed : Subst}

theorem IsCanonicalMatch.isInstance (matched : IsCanonicalMatch seed pattern subject s)
    (canonical : pattern.Canonical) : IsInstance seed pattern subject s where
  extension := matched.extension
  canonical := matched.canonical
  yields := (Subst.apply_eq_fold_algebra s canonical).symm.trans matched.image
  whole ground := (solves_ground canonical ground).1.symm.trans matched.image

/-- Whatever the matcher lists makes a canonical subject an instance of the pattern, in whatever form the
pattern is. -/
theorem isInstance_of_mem (canonical : subject.Canonical) (checkedPattern : sig.check pattern = .ok ())
    (checkedSubject : sig.check subject = .ok ()) (canonicalSeed : seed.Canonical)
    (member : s ∈ (enumerateFrom seed pattern subject).toList) : IsInstance seed pattern subject s := by
  have comparing : Problem.Comparing sig { subst := seed, goals := [(pattern, subject)], deferred := [] } :=
    ⟨canonicalSeed, List.forall_mem_singleton.mpr
      (comparable_of_check canonical checkedPattern checkedSubject)⟩
  obtain ⟨extension, images, yields⟩ := comparing.instance_of_mem member
  refine ⟨(Extension.congr fun v => ?_).mp extension, images, List.forall_mem_singleton.mp yields,
    fun ground => eq_of_mem_of_ground ground member⟩
  simp [Problem.occurs, Problem.pending]

end Reach.Matching
