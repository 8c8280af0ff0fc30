import Reach.Proofs.Agreement
import Reach.Proofs.Alternatives

/-!
The matcher enumerates the matches. A step of the search replaces a problem by problems that have
its solutions between them and none in common, so that each solution is found, and found once.
-/

namespace Reach.Matching

/-- A substitution that keeps the bindings of `base` and binds just the variables in `vars` besides,
to terms of sorts that they accept. -/
structure Extension (base : Subst) (vars : Variable → Prop) (s : Subst) : Prop where
  keeps : ∀ v term, base.get? v = some term → s.get? v = some term
  domain : ∀ v, (s.get? v).isSome = true ↔ (base.get? v).isSome = true ∨ vars v
  sorted : ∀ v term, base.get? v = none → s.get? v = some term → v.sort.accepts term.sort = true

/-- A match: it binds the variables of the pattern besides those of `seed`, takes the pattern to the
subject, and merges no entries on the way. -/
structure IsMatch (seed : Subst) (pattern subject : Term) (s : Subst) : Prop where
  extension : Extension seed (· ∈ pattern.vars) s
  image : s.apply pattern = subject
  apart : Apart s pattern

/-- A match that binds to canonical terms. A frame may as well be bound to a collection whose entries stand
in another order, since they are put in order when the match is applied. -/
structure IsCanonicalMatch (seed : Subst) (pattern subject : Term) (s : Subst) : Prop
    extends IsMatch seed pattern subject s where
  canonical : s.Canonical

namespace Extension

variable {base s : Subst} {vars vars' : Variable → Prop}

theorem congr (same : ∀ v, (base.get? v).isSome = true ∨ vars v ↔
    (base.get? v).isSome = true ∨ vars' v) : Extension base vars s ↔ Extension base vars' s :=
  ⟨fun ⟨keeps, domain, sorted⟩ => ⟨keeps, fun v => (domain v).trans (same v), sorted⟩,
    fun ⟨keeps, domain, sorted⟩ => ⟨keeps, fun v => (domain v).trans (same v).symm, sorted⟩⟩

/-- Binding a variable to a term is one way to extend. -/
theorem insert_iff {v : Variable} (term : Term) (free : base.get? v = none) (binds : vars v)
    (besides : ∀ w, vars w ↔ w = v ∨ vars' w) :
    Extension base vars s ∧ s.get? v = some term ↔
      v.sort.accepts term.sort = true ∧ Extension (base.insert v term) vars' s := by
  have step : ∀ w, ((base.insert v term).get? w).isSome = true ↔
      w = v ∨ (base.get? w).isSome = true := by
    intro w
    rw [Assoc.get?_insert]
    split <;> simp_all
  constructor
  · rintro ⟨extension, bound⟩
    refine ⟨extension.sorted v term free bound, fun w kept held => ?_, fun w => ?_, ?_⟩
    · rw [Assoc.get?_insert] at held
      split at held
      · next same =>
        cases held
        rw [same]
        exact bound
      · exact extension.keeps w kept held
    · rw [extension.domain, step, besides]
      tauto
    · intro w image fresh found
      rw [Assoc.get?_insert] at fresh
      split at fresh
      · cases fresh
      · exact extension.sorted w image fresh found
  · rintro ⟨accepted, extension⟩
    have bound : s.get? v = some term :=
      extension.keeps v term (by rw [Assoc.get?_insert, if_pos rfl])
    refine ⟨⟨fun w kept held => ?_, fun w => ?_, fun w image fresh found => ?_⟩, bound⟩
    · have differ : w ≠ v := by
        rintro rfl
        rw [free] at held
        cases held
      exact extension.keeps w kept (by rw [Assoc.get?_insert, if_neg differ, held])
    · rw [extension.domain, step, besides]
      tauto
    · by_cases same : w = v
      · subst same
        rw [bound] at found
        cases found
        exact accepted
      · exact extension.sorted w image (by rw [Assoc.get?_insert, if_neg same, fresh]) found

end Extension

namespace Problem

/-- All that is left to be matched. -/
def pending (p : Problem) : List Goal :=
  p.goals ++ p.deferred.map Deferred.goal

def occurs (p : Problem) (v : Variable) : Prop :=
  ∃ goal ∈ p.pending, v ∈ goal.1.vars

/-- A canonical substitution that solves what is left, starting from what is bound. -/
structure Solution (p : Problem) (s : Subst) : Prop where
  extension : Extension p.subst p.occurs s
  canonical : s.Canonical
  solves : ∀ goal ∈ p.pending, Solves s goal

/-- What every problem of the search is like. -/
structure Invariant (sig : Signature) (p : Problem) : Prop where
  canonical : p.subst.Canonical
  admissible : ∀ goal ∈ p.pending, Admissible sig goal

variable {sig : Signature} {p next : Problem} {s : Subst} {pattern subject : Term}
  {goals : List Goal}

theorem solution_congr {other : Problem} (base : p.subst = other.subst)
    (vars : ∀ v, (p.subst.get? v).isSome = true ∨ p.occurs v ↔
      (p.subst.get? v).isSome = true ∨ other.occurs v)
    (goals : Extension p.subst p.occurs s → s.Canonical →
      ((∀ goal ∈ p.pending, Solves s goal) ↔ ∀ goal ∈ other.pending, Solves s goal)) :
    p.Solution s ↔ other.Solution s := by
  have extension : Extension p.subst p.occurs s ↔ Extension other.subst other.occurs s := by
    rw [← base]
    exact Extension.congr vars
  constructor
  · rintro ⟨extends', canonical, solves⟩
    exact ⟨extension.mp extends', canonical, (goals extends' canonical).mp solves⟩
  · rintro ⟨extends', canonical, solves⟩
    exact ⟨extension.mpr extends', canonical, (goals (extension.mpr extends') canonical).mpr solves⟩

theorem pending_cons (p : Problem) (goal : Goal) (goals : List Goal) :
    pending { p with goals := goal :: goals } = goal :: pending { p with goals } :=
  rfl

theorem occurs_cons {goal : Goal} {v : Variable} :
    occurs { p with goals := goal :: goals } v ↔ v ∈ goal.1.vars ∨ occurs { p with goals } v := by
  simp only [occurs, pending_cons, List.mem_cons, exists_eq_or_imp]

theorem mem_pending_addGoals {goal : Goal} :
    goal ∈ (p.addGoals goals).pending ↔ goal ∈ goals ∨ goal ∈ p.pending := by
  simp only [pending, addGoals, List.mem_append]
  tauto

theorem occurs_addGoals {v : Variable} :
    (p.addGoals goals).occurs v ↔ (∃ goal ∈ goals, v ∈ goal.1.vars) ∨ p.occurs v := by
  simp only [occurs, mem_pending_addGoals, or_and_right, exists_or]

/-- A goal may be replaced by goals with the same variables that are solved together with it. -/
theorem solution_addGoals_iff {goal : Goal} (vars : ∀ v, v ∈ goal.1.vars ↔
      ∃ goal ∈ goals, v ∈ goal.1.vars)
    (solved : s.Canonical → (Solves s goal ↔ ∀ goal ∈ goals, Solves s goal)) :
    Solution { p with goals := goal :: p.goals } s ↔ (p.addGoals goals).Solution s := by
  refine solution_congr rfl (fun v => ?_) fun _ canonical => ?_
  · rw [occurs_cons, occurs_addGoals, vars]
  · simp only [pending_cons, List.forall_mem_cons, mem_pending_addGoals, or_imp, forall_and,
      solved canonical]

theorem solution_dropGoal_iff {goal : Goal}
    (vars : ∀ v ∈ goal.1.vars, (p.subst.get? v).isSome = true)
    (solved : Extension p.subst (fun v => v ∈ goal.1.vars ∨ p.occurs v) s → Solves s goal) :
    Solution { p with goals := goal :: p.goals } s ↔ p.Solution s := by
  refine solution_congr rfl (fun v => ?_) fun extension _ => ?_
  · rw [occurs_cons]
    have held := vars v
    tauto
  · have whole := solved ((Extension.congr fun v => by rw [occurs_cons]).mp extension)
    rw [pending_cons, List.forall_mem_cons]
    exact and_iff_right whole

theorem solves_var_iff {v : Variable} (binds : (s.get? v).isSome = true) :
    Solves s (.var v, subject) ↔ s.get? v = some subject := by
  obtain ⟨image, bound⟩ := Option.isSome_iff_exists.mp binds
  have apart : Apart s (.var v) := .intro trivial nofun
  rw [Solves, Subst.apply_var_eq, Subst.image, bound]
  simp [apart]

private theorem solution_var_iff {v : Variable} :
    Solution { p with goals := (.var v, subject) :: p.goals } s ↔
      ∃ next ∈ p.step (.var v) subject, next.Solution s := by
  rw [step]
  cases held : p.subst.get? v with
  | some bound =>
    dsimp only
    by_cases same : bound = subject
    · subst same
      simp only [if_pos, Option.mem_def, Option.some.injEq, exists_eq_left']
      refine solution_dropGoal_iff (fun w member => ?_) fun extension => ?_
      · obtain rfl := List.mem_singleton.mp member
        rw [held]
        rfl
      · have kept := extension.keeps v bound held
        exact (solves_var_iff (by rw [kept]; rfl)).mpr kept
    · simp only [if_neg same, Option.mem_def, reduceCtorEq, false_and, exists_false, iff_false]
      rintro ⟨extension, _, solves⟩
      have kept := extension.keeps v bound held
      have image := (solves_var_iff (by rw [kept]; rfl)).mp (solves (.var v, subject) (by simp [pending]))
      rw [kept] at image
      exact same (Option.some.inj image)
  | none =>
    dsimp only
    have binds : occurs { p with goals := (.var v, subject) :: p.goals } v :=
      occurs_cons.mpr (.inl (by simp))
    have besides : ∀ w, occurs { p with goals := (.var v, subject) :: p.goals } w ↔
        w = v ∨ occurs { p with subst := p.subst.insert v subject } w := by
      intro w
      rw [occurs_cons, Term.vars_var, List.mem_singleton]
      rfl
    have insertion := Extension.insert_iff (s := s) subject held binds besides
    have split : Solution { p with goals := (.var v, subject) :: p.goals } s ↔
        (Extension p.subst (occurs { p with goals := (.var v, subject) :: p.goals }) s ∧
          s.get? v = some subject) ∧ s.Canonical ∧ ∀ goal ∈ p.pending, Solves s goal := by
      constructor
      · rintro ⟨extension, canonical, solves⟩
        rw [pending_cons, List.forall_mem_cons] at solves
        have bound := (extension.domain v).mpr (.inr binds)
        exact ⟨⟨extension, (solves_var_iff bound).mp solves.1⟩, canonical, solves.2⟩
      · rintro ⟨⟨extension, bound⟩, canonical, solves⟩
        refine ⟨extension, canonical, ?_⟩
        rw [pending_cons, List.forall_mem_cons]
        exact ⟨(solves_var_iff (by rw [bound]; rfl)).mpr bound, solves⟩
    rw [split, insertion]
    by_cases accepted : v.sort.accepts subject.sort = true
    · rw [if_pos accepted]
      constructor
      · rintro ⟨⟨_, extension⟩, canonical, solves⟩
        exact ⟨_, rfl, extension, canonical, solves⟩
      · rintro ⟨_, ⟨⟩, extension, canonical, solves⟩
        exact ⟨⟨accepted, extension⟩, canonical, solves⟩
    · simp [accepted]

private theorem solves_app_iff {label : String} {sort : TermSort} {args args' : List Term}
    (aligned : args.length = args'.length) :
    Solves s (.app label sort args, .app label sort args') ↔
      ∀ goal ∈ args.zip args', Solves s goal := by
  have images := Pairing.map_eq_iff_forall_zip (f := s.apply) (g := id) aligned
  have apart : (∀ arg ∈ args, Apart s arg) ↔ ∀ goal ∈ args.zip args', Apart s goal.1 := by
    rw [← List.forall_mem_map (f := Prod.fst) (P := Apart s), List.map_fst_zip (Nat.le_of_eq aligned)]
  rw [List.map_id] at images
  simp only [Solves, Subst.apply_app_eq, Term.app.injEq, true_and, images, Term.Everywhere.app_iff,
    apart, apartAt, forall_and, id]

theorem solution_refuted (refuted : ¬Solves s (pattern, subject)) :
    Solution { p with goals := (pattern, subject) :: p.goals } s ↔
      ∃ next ∈ (none : Option Problem), next.Solution s := by
  simp only [Option.mem_def, reduceCtorEq, false_and, exists_false, iff_false]
  exact fun solution => refuted (solution.solves _ List.mem_cons_self)

private theorem solution_ground_iff (canonical : pattern.Canonical) (ground : pattern.ground = true) :
    Solution { p with goals := (pattern, subject) :: p.goals } s ↔
      ∃ next ∈ if pattern = subject then some p else none, next.Solution s := by
  obtain ⟨image, apart⟩ := solves_ground (s := s) canonical ground
  split
  · next same =>
    simp only [Option.mem_def, Option.some.injEq, exists_eq_left']
    refine solution_dropGoal_iff (fun v member => ?_) fun _ => ⟨image.trans same, apart⟩
    rw [(Term.ground_iff_vars_eq_nil pattern).mp ground] at member
    cases member
  · next differ => exact solution_refuted fun solves => differ (image.symm.trans solves.1)

theorem step_ground (inner : pattern.var? = none) (ground : pattern.ground = true) :
    p.step pattern subject = if pattern = subject then some p else none := by
  cases pattern with
  | var v => cases inner
  | _ => cases subject <;> simp only [step, ground, if_true]

private theorem solution_app_iff {label : String} {sort : TermSort} {args : List Term}
    (admissible : Admissible sig (.app label sort args, subject))
    (deep : (Term.app label sort args).ground ≠ true) :
    Solution { p with goals := (.app label sort args, subject) :: p.goals } s ↔
      ∃ next ∈ p.step (.app label sort args) subject, next.Solution s := by
  cases subject with
  | app label' sort' args' =>
    simp only [step, if_neg deep]
    split
    · next fit =>
      obtain ⟨rfl, aligned⟩ := fit
      obtain rfl : sort = sort' := Signature.sort_eq_of_declared
        admissible.declaredPattern.here admissible.declaredSubject.here
      simp only [Option.mem_def, Option.some.injEq, exists_eq_left']
      refine solution_addGoals_iff (fun v => ?_) fun _ => solves_app_iff aligned
      rw [Term.mem_vars_app]
      conv_lhs => rw [← List.map_fst_zip (Nat.le_of_eq aligned)]
      simp
    · next unfit =>
      refine solution_refuted fun solves => ?_
      have image := solves.1
      rw [Subst.apply_app_eq] at image
      obtain ⟨rfl, _, rfl⟩ := Term.app.inj image
      exact unfit ⟨rfl, (List.length_map _).symm⟩
  | _ =>
    simp only [step, if_neg deep]
    refine solution_refuted fun solves => ?_
    have image := solves.1
    rw [Subst.apply_app_eq] at image
    cases image

/-- Two collections wait until their turn comes. -/
theorem solution_defer_iff (p : Problem) (d : Deferred) :
    Solution { p with goals := d.goal :: p.goals } s ↔
      Solution { p with deferred := p.deferred ++ [d] } s := by
  have members : ∀ goal, goal ∈ pending { p with goals := d.goal :: p.goals } ↔
      goal ∈ pending { p with deferred := p.deferred ++ [d] } := by
    intro goal
    simp only [pending, List.map_append, List.map_cons, List.map_nil, List.mem_append, List.mem_cons,
      List.not_mem_nil, or_false]
    tauto
  refine solution_congr rfl (fun v => ?_) fun _ _ => ?_
  · simp only [occurs, members]
  · simp only [members]

private theorem solution_collection_iff {kind : Kind} {entries : List (Entry Term)} {frame : Option Term}
    (admissible : Admissible sig (.collection kind entries frame, subject))
    (deep : (Term.collection kind entries frame).ground ≠ true) :
    Solution { p with goals := (.collection kind entries frame, subject) :: p.goals } s ↔
      ∃ next ∈ p.step (.collection kind entries frame) subject, next.Solution s := by
  have shape := Subst.kind?_apply (s := s) admissible.pattern
  cases subject with
  | collection kind' entries' frame' =>
    simp only [step, if_neg deep]
    split
    · next same =>
      subst same
      simp only [Option.mem_def, Option.some.injEq, exists_eq_left']
      exact solution_defer_iff p ⟨kind, entries, frame, entries', frame'⟩
    · next differ =>
      refine solution_refuted fun solves => ?_
      rw [solves.1] at shape
      exact differ (Option.some.inj shape).symm
  | _ =>
    simp only [step, if_neg deep]
    refine solution_refuted fun solves => ?_
    rw [solves.1] at shape
    cases shape

/-- One goal is decomposed into what it takes to solve it. -/
theorem solution_step_iff (admissible : Admissible sig (pattern, subject)) :
    Solution { p with goals := (pattern, subject) :: p.goals } s ↔
      ∃ next ∈ p.step pattern subject, next.Solution s := by
  cases inner : pattern.var? with
  | some v =>
    cases pattern with
    | var w => exact solution_var_iff
    | _ => cases inner
  | none =>
    by_cases ground : pattern.ground = true
    · rw [step_ground inner ground]
      exact solution_ground_iff admissible.pattern ground
    · cases pattern with
      | var w => cases inner
      | app label sort args => exact solution_app_iff admissible ground
      | token sort value => exact absurd rfl ground
      | collection kind entries frame => exact solution_collection_iff admissible ground

/-- All that a step can do: nothing, if the variable is bound to the subject or a ground pattern is the
subject; bind a variable; add the goals of two applications; or put off two collections. -/
theorem step_cases (stepped : p.step pattern subject = some next) :
    (((∃ v, pattern = .var v ∧ p.subst.get? v = some subject) ∨
      pattern.ground = true ∧ pattern = subject) ∧ next = p) ∨
    (∃ v, pattern = .var v ∧ p.subst.get? v = none ∧ v.sort.accepts subject.sort = true ∧
      next = { p with subst := p.subst.insert v subject }) ∨
    (∃ label sort args sort' args', pattern = .app label sort args ∧ subject = .app label sort' args' ∧
      pattern.ground = false ∧ args.length = args'.length ∧ next = p.addGoals (args.zip args')) ∨
    ∃ d : Deferred, (pattern, subject) = d.goal ∧ next = { p with deferred := p.deferred ++ [d] } := by
  cases inner : pattern.var? with
  | some v =>
    cases pattern with
    | var w =>
      rw [step] at stepped
      split at stepped
      · next held =>
        split at stepped
        · next same =>
          exact .inl ⟨.inl ⟨w, rfl, same ▸ held⟩, (Option.some.inj stepped).symm⟩
        · cases stepped
      · next free =>
        split at stepped
        · next accepted => exact .inr (.inl ⟨w, rfl, free, accepted, (Option.some.inj stepped).symm⟩)
        · cases stepped
    | _ => cases inner
  | none =>
    by_cases ground : pattern.ground = true
    · rw [step_ground inner ground] at stepped
      split at stepped
      · next same => exact .inl ⟨.inr ⟨ground, same⟩, (Option.some.inj stepped).symm⟩
      · cases stepped
    · cases pattern with
      | var w => cases inner
      | token sort value => exact absurd rfl ground
      | app label sort args =>
        cases subject with
        | app label' sort' args' =>
          simp only [step, if_neg ground] at stepped
          split at stepped
          · next fit =>
            obtain ⟨rfl, aligned⟩ := fit
            exact .inr (.inr (.inl ⟨label, sort, args, sort', args', rfl, rfl, by simpa using ground,
              aligned, (Option.some.inj stepped).symm⟩))
          · cases stepped
        | _ =>
          simp only [step, if_neg ground] at stepped
          cases stepped
      | collection kind entries frame =>
        cases subject with
        | collection kind' entries' frame' =>
          simp only [step, if_neg ground] at stepped
          split at stepped
          · next same =>
            subst same
            exact .inr (.inr (.inr ⟨⟨kind, entries, frame, entries', frame'⟩, rfl,
              (Option.some.inj stepped).symm⟩))
          · cases stepped
        | _ =>
          simp only [step, if_neg ground] at stepped
          cases stepped

section Descent

private theorem total_map_two_mul {α : Type} (measure : α → Nat) (items : List α) :
    total (items.map fun item => 2 * measure item) = 2 * total (items.map measure) := by
  induction items with
  | nil => rfl
  | cons item rest ih => simp only [List.map_cons, total_cons, ih]; omega

/-- The goals and collections of a problem count separately. -/
theorem weight_addGoals (p : Problem) (goals : List Goal) :
    (p.addGoals goals).weight = p.weight + 2 * total ((goals.map Prod.fst).map Term.size) := by
  have sizes : (goals.map Prod.fst).map Term.size = goals.map fun goal => goal.1.size := List.map_map
  simp only [weight, addGoals, List.map_append, total_append, total_map_two_mul, sizes]
  omega

private theorem weight_cons (p : Problem) (goal : Goal) :
    weight { p with goals := goal :: p.goals } = 2 * goal.1.size + p.weight := by
  simp only [weight, List.map_cons, total_cons]
  omega

private theorem weight_defer (p : Problem) (d : Deferred) :
    weight { p with deferred := p.deferred ++ [d] } = p.weight + (2 * d.goal.1.size - 1) := by
  simp only [weight, List.map_append, total_append, List.map_cons, List.map_nil, total_cons,
    total_nil, Deferred.goal]
  omega

private theorem weight_step (stepped : p.step pattern subject = some next) :
    next.weight < weight { p with goals := (pattern, subject) :: p.goals } := by
  have positive := pattern.size_pos
  rw [weight_cons]
  rcases step_cases stepped with ⟨_, rfl⟩ | ⟨v, rfl, _, _, rfl⟩ |
    ⟨_, _, args, _, args', rfl, rfl, _, aligned, rfl⟩ | ⟨d, same, rfl⟩
  · dsimp only
    omega
  · have same : weight { p with subst := p.subst.insert v subject } = p.weight := rfl
    rw [same, Term.size_var]
    omega
  · rw [weight_addGoals, List.map_fst_zip (Nat.le_of_eq aligned), Term.size_app]
    omega
  · obtain ⟨rfl, rfl⟩ := Prod.mk.inj same
    rw [weight_defer]
    dsimp only [Deferred.goal] at positive ⊢
    omega

private theorem weight_alternative {d : Deferred} (member : goals ∈ d.alternatives) :
    2 * total ((goals.map Prod.fst).map Term.size) < 2 * d.goal.1.size - 1 := by
  obtain ⟨⟨keys, _, perm⟩, _⟩ := alternative_shape member
  have sizes := Term.total_perm (perm.map Term.size)
  rw [@List.map_append _ _ _ keys, total_append] at sizes
  rw [Deferred.goal, Term.size_collection, sizes]
  omega

end Descent

section Search

variable {d : Deferred} {problems : Enumeration Problem}

private theorem mem_vars_iff_children {kind : Kind} {entries : List (Entry Term)} {frame : Option Term}
    {v : Variable} :
    v ∈ (Term.collection kind entries frame).vars ↔
      ∃ part ∈ entries.flatMap Entry.parts ++ frame.toList, v ∈ part.vars := by
  rw [Term.vars_collection, ← List.flatMap_assoc, ← List.flatMap_append, List.mem_flatMap]

theorem vars_alternative (member : goals ∈ d.alternatives) (v : Variable) :
    v ∈ d.goal.1.vars ↔ ∃ goal ∈ goals, v ∈ goal.1.vars := by
  obtain ⟨⟨keys, ground, perm⟩, _⟩ := alternative_shape member
  rw [Deferred.goal, mem_vars_iff_children]
  simp only [perm.mem_iff, List.mem_append, or_and_right, exists_or, List.mem_map,
    exists_exists_and_eq_and]
  refine or_iff_right ?_
  rintro ⟨key, inside, occurs⟩
  rw [(Term.ground_iff_vars_eq_nil key).mp (ground key inside)] at occurs
  cases occurs

private theorem solution_alternatives_iff (admissible : Admissible sig d.goal) :
    Solution { p with goals := d.goal :: p.goals } s ↔
      ∃ goals ∈ d.alternatives, (p.addGoals goals).Solution s := by
  have meaning : s.Canonical →
      (Solves s d.goal ↔ ∃ goals ∈ d.alternatives, ∀ goal ∈ goals, Solves s goal) :=
    fun canonical => solves_iff canonical admissible
  constructor
  · intro solution
    obtain ⟨goals, member, solved⟩ :=
      (meaning solution.canonical).mp (solution.solves _ List.mem_cons_self)
    refine ⟨goals, member, ?_⟩
    refine (solution_addGoals_iff (vars_alternative member) fun _ => ?_).mp solution
    exact iff_of_true (solution.solves _ List.mem_cons_self) solved
  · rintro ⟨goals, member, solution⟩
    have solved : ∀ goal ∈ goals, Solves s goal := fun goal inside =>
      solution.solves goal (mem_pending_addGoals.mpr (.inl inside))
    refine (solution_addGoals_iff (vars_alternative member) fun canonical => ?_).mpr solution
    exact iff_of_true ((meaning canonical).mpr ⟨goals, member, solved⟩) solved

theorem mem_parts_of_alternative (member : goals ∈ d.alternatives) {goal : Goal}
    (inside : goal ∈ goals) : goal.1 ∈ d.pattern.flatMap Entry.parts ++ d.patternFrame.toList := by
  obtain ⟨⟨keys, _, perm⟩, _⟩ := alternative_shape member
  exact perm.mem_iff.mpr (List.mem_append_right _ (List.mem_map_of_mem inside))

theorem comparable_alternative (comparable : Comparable sig d.goal) (member : goals ∈ d.alternatives) :
    ∀ goal ∈ goals, Comparable sig goal := by
  have whole : (Term.collection d.kind d.subject d.subjectFrame).Canonical := comparable.subject
  obtain ⟨allowed, declaredParts, declaredRest⟩ :=
    Term.Everywhere.collection_iff.mp comparable.declaredSubject
  intro goal inside
  have declaredPart := comparable.declaredPattern.children goal.1 (mem_parts_of_alternative member inside)
  rcases (alternative_shape member).2 goal inside with ⟨entry, among, within⟩ | ⟨rest, included, same⟩
  · exact ⟨whole.of_entry entry among _ within, declaredPart, declaredParts entry among _ within⟩
  · rw [← Prod.mk.eta (p := goal), same]
    refine ⟨?_, declaredPart, ?_⟩
    · exact .normalized (fun entry among => whole.of_entry entry (included entry among)) whole.of_frame
    · exact .normalized allowed (fun entry among => declaredParts entry (included entry among))
        declaredRest

private theorem admissible_alternative (admissible : Admissible sig d.goal)
    (member : goals ∈ d.alternatives) : ∀ goal ∈ goals, Admissible sig goal := by
  have whole : (Term.collection d.kind d.pattern d.patternFrame).Canonical := admissible.pattern
  have whole' : (Term.collection d.kind d.subject d.subjectFrame).Canonical := admissible.subject
  obtain ⟨keyed, keyedParts, keyedRest⟩ := Term.Everywhere.collection_iff.mp admissible.keyed
  intro goal inside
  have comparable := comparable_alternative admissible.toComparable member goal inside
  have canonicalPart : goal.1.Canonical := by
    rcases List.mem_append.mp (mem_parts_of_alternative member inside) with within | within
    · obtain ⟨entry, among, within⟩ := List.mem_flatMap.mp within
      exact whole.of_entry entry among _ within
    · exact whole.of_frame _ (Option.mem_toList.mp within)
  refine { comparable with pattern := canonicalPart, keyed := ?_ }
  rcases (alternative_shape member).2 goal inside with ⟨entry, among, within⟩ | ⟨rest, included, same⟩
  · exact keyedParts entry among _ within
  · rw [same]
    refine .normalized (fun entry among => keyedParts entry (included entry among)) keyedRest ?_
    intro kept among
    rw [Term.splice_of_kind whole'.kind?_of_frame] at among
    exact keyed.subset fun entry member => included entry (among entry member)

theorem Invariant.addGoals (invariant : p.Invariant sig)
    (admissible : ∀ goal ∈ goals, Admissible sig goal) : (p.addGoals goals).Invariant sig := by
  refine ⟨invariant.canonical, fun goal member => ?_⟩
  rcases mem_pending_addGoals.mp member with among | among
  · exact admissible goal among
  · exact invariant.admissible goal among

theorem Invariant.step (invariant : p.Invariant sig) (admissible : Admissible sig (pattern, subject))
    (stepped : p.step pattern subject = some next) : next.Invariant sig := by
  rcases step_cases stepped with ⟨_, rfl⟩ | ⟨v, rfl, _, _, rfl⟩ |
    ⟨_, _, args, _, args', rfl, rfl, _, aligned, rfl⟩ | ⟨d, same, rfl⟩
  · exact invariant
  · refine ⟨fun w term found => ?_, invariant.admissible⟩
    rw [Assoc.get?_insert] at found
    split at found
    · cases found
      exact admissible.subject
    · exact invariant.canonical w term found
  · refine invariant.addGoals fun goal member => ?_
    obtain ⟨left, right⟩ := List.of_mem_zip member
    exact
      { admissible.toComparable.of_app goal member with
        pattern := admissible.pattern.of_app _ left
        keyed := (Term.Everywhere.app_iff.mp admissible.keyed).2 _ right }
  · refine ⟨invariant.canonical, fun goal member => ?_⟩
    simp only [pending, List.map_append, List.map_cons, List.map_nil, ← List.append_assoc] at member
    rcases List.mem_append.mp member with among | single
    · exact invariant.admissible goal among
    · rw [List.mem_singleton.mp single, ← same]
      exact admissible

/-- The problems that a problem is replaced by share its solutions out among them. -/
structure Splits (sig : Signature) (p : Problem) (problems : List Problem) : Prop where
  solution_iff : ∀ s, p.Solution s ↔ ∃ next ∈ problems, next.Solution s
  disjoint : problems.Pairwise fun first second => ∀ s, ¬(first.Solution s ∧ second.Solution s)
  invariant : ∀ next ∈ problems, next.Invariant sig
  lighter : ∀ next ∈ problems, next.weight < p.weight

private theorem advance_goal (invariant : p.Invariant sig) {goal : Goal} {goals : List Goal}
    (shape : p.goals = goal :: goals) :
    Splits sig p ({ p with goals }.step goal.1 goal.2).toList := by
  have whole : p = { { p with goals } with goals := goal :: goals } := by rw [← shape]
  have admissible : Admissible sig goal := invariant.admissible goal (by simp [pending, shape])
  have rest : Invariant sig { p with goals } := by
    refine ⟨invariant.canonical, fun goal member => invariant.admissible goal ?_⟩
    rw [whole]
    exact List.mem_cons_of_mem _ member
  refine ⟨fun s => ?_, ?_, fun next member => ?_, fun next member => ?_⟩
  · conv_lhs => rw [whole]
    simp only [Option.mem_toList]
    exact solution_step_iff (p := { p with goals }) admissible
  · cases { p with goals }.step goal.1 goal.2 <;> simp
  · exact rest.step admissible (Option.mem_toList.mp member)
  · rw [whole]
    exact weight_step (Option.mem_toList.mp member)

private theorem advance_deferred (invariant : p.Invariant sig) {deferred : List Deferred}
    (done : p.goals = []) (shape : p.deferred = d :: deferred) :
    Splits sig p ({ p with deferred }.expand d).toList := by
  have admissible : Admissible sig d.goal := invariant.admissible d.goal (by simp [pending, shape])
  have rest : Invariant sig { p with deferred } := by
    refine ⟨invariant.canonical, fun goal member => invariant.admissible goal ?_⟩
    simp only [pending, done, List.nil_append, shape, List.map_cons] at member ⊢
    exact List.mem_cons_of_mem _ member
  have open' : ∀ s, p.Solution s ↔ Solution { p with goals := [d.goal], deferred } s := by
    intro s
    have same : pending { p with goals := [d.goal], deferred } = p.pending := by
      simp [pending, done, shape]
    refine solution_congr rfl (fun v => ?_) fun _ _ => ?_
    · simp only [occurs, same]
    · rw [same]
  have weight : p.weight = weight { p with deferred } + (2 * d.goal.1.size - 1) := by
    simp only [Problem.weight, done, shape, List.map_cons, total_cons, Deferred.goal]
    omega
  rw [expand_eq]
  refine ⟨fun s => ?_, ?_, ?_, ?_⟩
  · rw [open' s]
    have split := solution_alternatives_iff (p := { p with deferred }) (s := s) admissible
    simp only [done] at split ⊢
    simp only [split, List.mem_map, exists_exists_and_eq_and]
  · rw [List.pairwise_map]
    refine (alternatives_pairwise d).imp fun {first second} differ s both => differ s ⟨?_, ?_⟩
    · exact fun goal member => both.1.solves goal (mem_pending_addGoals.mpr (.inl member))
    · exact fun goal member => both.2.solves goal (mem_pending_addGoals.mpr (.inl member))
  · refine List.forall_mem_map.mpr fun goals member => ?_
    exact rest.addGoals (admissible_alternative admissible member)
  · refine List.forall_mem_map.mpr fun goals member => ?_
    have lighter := weight_alternative member
    rw [weight_addGoals, weight]
    omega

/-- Every step splits the solutions. -/
theorem advance_splits (invariant : p.Invariant sig) (progress : p.advance = .branches problems) :
    Splits sig p problems.toList := by
  cases shape : p.goals with
  | cons goal goals =>
    have taken : p.advance =
        .branches (.ofOption ({ p with goals }.step goal.1 goal.2)) := by
      rw [advance, shape]
    rw [taken] at progress
    cases progress
    have split := advance_goal invariant shape
    cases stepped : { p with goals }.step goal.1 goal.2 <;> simpa [Enumeration.ofOption, stepped] using split
  | nil =>
    cases waiting : p.deferred with
    | cons d deferred =>
      have taken : p.advance = .branches ({ p with deferred }.expand d) := by
        rw [advance, shape, waiting]
      rw [taken] at progress
      cases progress
      exact advance_deferred invariant shape waiting
    | nil =>
      rw [advance, shape, waiting] at progress
      cases progress

/-- A problem is solved when nothing is left to be matched. -/
theorem of_solved {found : Subst} (progress : p.advance = .solved found) :
    p.subst = found ∧ p.pending = [] := by
  cases shape : p.goals with
  | cons goal goals =>
    rw [advance, shape] at progress
    cases progress
  | nil =>
    cases waiting : p.deferred with
    | cons d deferred =>
      rw [advance, shape, waiting] at progress
      cases progress
    | nil =>
      rw [advance, shape, waiting] at progress
      cases progress
      exact ⟨rfl, by simp [pending, shape, waiting]⟩

/-- A problem with nothing left is solved by what it binds. -/
theorem solution_solved_iff (canonical : p.subst.Canonical) {found : Subst}
    (progress : p.advance = .solved found) :
    p.Solution s ↔ ∀ v, found.get? v = s.get? v := by
  obtain ⟨rfl, nothing⟩ := of_solved progress
  have closed : ∀ v, ¬p.occurs v := by simp [occurs, nothing]
  constructor
  · rintro ⟨extension, _, _⟩ v
    cases held : p.subst.get? v with
    | some term => exact (extension.keeps v term held).symm
    | none =>
      have free : ¬(s.get? v).isSome = true := by
        rw [extension.domain, held]
        simp [closed]
      exact (Option.not_isSome_iff_eq_none.mp free).symm
  · intro same
    refine ⟨⟨fun v term held => by rw [← same, held], fun v => ?_, fun v term free held => ?_⟩,
      fun v term held => canonical v term ((same v).trans held), ?_⟩
    · rw [same]
      simp [closed]
    · rw [← same, free] at held
      cases held
    · simp [nothing]

theorem Solution.congr {other : Subst} (same : ∀ v, s.get? v = other.get? v)
    (solution : p.Solution s) : p.Solution other := by
  obtain ⟨⟨keeps, domain, sorted⟩, canonical, solves⟩ := solution
  have apply := Subst.apply_eq_of_get?_eq same
  refine ⟨⟨?_, ?_, ?_⟩, fun v term held => canonical v term ((same v).trans held),
    fun goal member => ?_⟩
  · exact fun v term held => (same v).symm.trans (keeps v term held)
  · exact fun v => by rw [← same, domain]
  · exact fun v term free held => sorted v term free ((same v).trans held)
  · have apart : apartAt s = apartAt other := by
      funext term
      cases term <;> simp only [apartAt, apply]
    have solved := solves goal member
    rw [Solves, Apart, apply, apart] at solved
    exact solved

private theorem weight_pos (shape : p.pending ≠ []) : 0 < p.weight := by
  cases goals : p.goals with
  | cons goal rest =>
    have positive := goal.1.size_pos
    simp only [weight, goals, List.map_cons, total_cons]
    omega
  | nil =>
    cases waiting : p.deferred with
    | nil => exact absurd (by simp [pending, goals, waiting]) shape
    | cons d rest =>
      have positive := (Term.collection d.kind d.pattern d.patternFrame).size_pos
      simp only [weight, waiting, List.map_cons, total_cons]
      omega

private theorem pending_of_branches (progress : p.advance = .branches problems) : p.pending ≠ [] := by
  intro nothing
  obtain ⟨goals, deferred⟩ := List.append_eq_nil_iff.mp nothing
  rw [List.map_eq_nil_iff] at deferred
  rw [advance, goals, deferred] at progress
  cases progress

theorem solve_succ {goal : Goal} {goals : List Goal} (shape : p.goals = goal :: goals) (steps : Nat) :
    p.solve (steps + 1) =
      (Enumeration.ofOption ({ p with goals }.step goal.1 goal.2)).flatMap (solve steps) := by
  rw [solve, advance, shape]

/-- What holds of the problems of a search holds of the problem that a match solves. -/
theorem exists_of_mem_solve {holds : Problem → Prop}
    (kept : ∀ p problems, holds p → p.advance = .branches problems → ∀ next ∈ problems.toList, holds next)
    (here : holds p) {steps : Nat} (member : s ∈ (p.solve steps).toList) :
    ∃ last, holds last ∧ last.advance = .solved s := by
  induction steps generalizing p with
  | zero =>
    rw [solve] at member
    split at member
    · next progress =>
      obtain rfl := List.mem_singleton.mp member
      exact ⟨p, here, progress⟩
    · cases member
  | succ steps ih =>
    rw [solve] at member
    split at member
    · next progress =>
      obtain rfl := List.mem_singleton.mp member
      exact ⟨p, here, progress⟩
    · next problems progress =>
      rw [Enumeration.toList_flatMap] at member
      obtain ⟨next, among, member⟩ := List.mem_flatMap.mp member
      exact ih (kept p problems here progress next among) member

/-- What the search lists: solutions, all of them, and none twice. -/
structure Lists (p : Problem) (found : List Subst) : Prop where
  sound : ∀ answer ∈ found, p.Solution answer
  complete : ∀ s, p.Solution s → ∃ answer ∈ found, ∀ v, answer.get? v = s.get? v
  distinct : found.Pairwise fun first second => ¬∀ v, first.get? v = second.get? v

theorem lists_single (canonical : p.subst.Canonical) {found : Subst}
    (progress : p.advance = .solved found) : Lists p [found] := by
  have solved (s : Subst) := solution_solved_iff (s := s) canonical progress
  refine ⟨List.forall_mem_singleton.mpr ?_, fun s solution => ?_, List.pairwise_singleton _ _⟩
  · exact (solved found).mpr fun _ => rfl
  · exact ⟨found, List.mem_singleton_self found, (solved s).mp solution⟩

theorem Splits.lists {problems : List Problem} (split : Splits sig p problems)
    {search : Problem → List Subst} (each : ∀ next ∈ problems, Lists next (search next)) :
    Lists p (problems.flatMap search) := by
  refine ⟨fun answer member => ?_, fun s solution => ?_, ?_⟩
  · obtain ⟨next, among, found⟩ := List.mem_flatMap.mp member
    exact (split.solution_iff answer).mpr ⟨next, among, (each next among).sound answer found⟩
  · obtain ⟨next, among, solved⟩ := (split.solution_iff s).mp solution
    obtain ⟨answer, found, same⟩ := (each next among).complete s solved
    exact ⟨answer, List.mem_flatMap.mpr ⟨next, among, found⟩, same⟩
  · refine List.pairwise_flatMap.mpr ⟨fun next among => (each next among).distinct, ?_⟩
    refine split.disjoint.imp_of_mem fun {first second} memberFirst memberSecond differ => ?_
    intro answer found answer' found' same
    have solution := ((each second memberSecond).sound answer' found').congr fun v => (same v).symm
    exact differ answer ⟨(each first memberFirst).sound answer found, solution⟩

/-- The search lists the solutions, provided that it may take as many steps as the problem weighs. -/
theorem solve_lists (steps : Nat) (invariant : p.Invariant sig) (enough : p.weight ≤ steps) :
    Lists p (p.solve steps).toList := by
  induction steps generalizing p with
  | zero =>
    cases progress : p.advance with
    | solved found =>
      simp only [solve, progress, Enumeration.toList_single]
      exact lists_single invariant.canonical progress
    | branches problems =>
      have positive := weight_pos (pending_of_branches progress)
      omega
  | succ steps ih =>
    cases progress : p.advance with
    | solved found =>
      simp only [solve, progress, Enumeration.toList_single]
      exact lists_single invariant.canonical progress
    | branches problems =>
      have split := advance_splits invariant progress
      simp only [solve, progress, Enumeration.toList_flatMap]
      refine split.lists fun next member => ih (split.invariant next member) ?_
      have lighter := split.lighter next member
      omega

end Search

end Problem

section Enumeration

variable {sig : Signature} {seed s : Subst} {pattern subject : Term}

theorem isCanonicalMatch_iff : IsCanonicalMatch seed pattern subject s ↔
    Problem.Solution { subst := seed, goals := [(pattern, subject)], deferred := [] } s := by
  have vars : ∀ v, Problem.occurs { subst := seed, goals := [(pattern, subject)], deferred := [] } v ↔
      v ∈ pattern.vars := by
    simp [Problem.occurs, Problem.pending]
  have extension : Extension seed (· ∈ pattern.vars) s ↔ Extension seed
      (Problem.occurs { subst := seed, goals := [(pattern, subject)], deferred := [] }) s :=
    Extension.congr fun v => by rw [vars v]
  constructor
  · rintro ⟨⟨extends', image, apart⟩, canonical⟩
    exact ⟨extension.mp extends', canonical, List.forall_mem_singleton.mpr ⟨image, apart⟩⟩
  · rintro ⟨extends', canonical, solves⟩
    obtain ⟨image, apart⟩ := List.forall_mem_singleton.mp solves
    exact ⟨⟨extension.mpr extends', image, apart⟩, canonical⟩

theorem comparable_of_check (canonical : subject.Canonical) (checkedPattern : sig.check pattern = .ok ())
    (checkedSubject : sig.check subject = .ok ()) : Comparable sig (pattern, subject) :=
  ⟨canonical, Signature.within_declared checkedPattern, Signature.within_declared checkedSubject⟩

theorem invariant_of_check (canonicalPattern : pattern.Canonical)
    (canonicalSubject : subject.Canonical) (checkedPattern : sig.check pattern = .ok ())
    (checkedSubject : sig.check subject = .ok ()) (canonicalSeed : seed.Canonical) :
    Problem.Invariant sig { subst := seed, goals := [(pattern, subject)], deferred := [] } := by
  refine ⟨canonicalSeed, List.forall_mem_singleton.mpr ?_⟩
  exact ⟨comparable_of_check canonicalSubject checkedPattern checkedSubject, canonicalPattern,
    Signature.everywhere_keyed canonicalSubject checkedSubject⟩

/-- Whatever the matcher lists is a match, to canonical terms. -/
theorem isCanonicalMatch_of_mem (canonicalPattern : pattern.Canonical)
    (canonicalSubject : subject.Canonical) (checkedPattern : sig.check pattern = .ok ())
    (checkedSubject : sig.check subject = .ok ()) (canonicalSeed : seed.Canonical)
    {answer : Subst} (member : answer ∈ (enumerateFrom seed pattern subject).toList) :
    IsCanonicalMatch seed pattern subject answer := by
  have invariant := invariant_of_check canonicalPattern canonicalSubject checkedPattern
    checkedSubject canonicalSeed
  exact isCanonicalMatch_iff.mpr ((Problem.solve_lists _ invariant (Nat.le_refl _)).1 answer member)

/-- For a canonical pattern and a canonical subject that pass the check of one signature, the
matcher lists the matches to canonical terms that extend a canonical seed: each of them, up to the order
in which the variables were bound, and none twice. -/
theorem enumerateFrom_lists_matches (canonicalPattern : pattern.Canonical)
    (canonicalSubject : subject.Canonical) (checkedPattern : sig.check pattern = .ok ())
    (checkedSubject : sig.check subject = .ok ()) (canonicalSeed : seed.Canonical) :
    (∀ answer ∈ (enumerateFrom seed pattern subject).toList,
      IsCanonicalMatch seed pattern subject answer) ∧
      (∀ s, IsCanonicalMatch seed pattern subject s →
        ∃ answer ∈ (enumerateFrom seed pattern subject).toList, answer.agrees s = true) ∧
      (enumerateFrom seed pattern subject).toList.Pairwise fun first second =>
        first.agrees second = false := by
  have invariant := invariant_of_check canonicalPattern canonicalSubject checkedPattern
    checkedSubject canonicalSeed
  obtain ⟨sound, complete, distinct⟩ := Problem.solve_lists _ invariant (Nat.le_refl _)
  refine ⟨fun answer member => isCanonicalMatch_iff.mpr (sound answer member), fun s found => ?_, ?_⟩
  · obtain ⟨answer, member, same⟩ := complete s (isCanonicalMatch_iff.mp found)
    exact ⟨answer, member, Assoc.agrees_iff.mpr same⟩
  · refine distinct.imp fun {first second} differ => ?_
    rw [Bool.eq_false_iff]
    exact fun same => differ (Assoc.agrees_iff.mp same)

/-- A set with the integer 1, another integer and perhaps more. -/
def oneAndAnother : Term :=
  .collection .set [.element (.var ⟨"X", .int⟩), .element (.token .int "1")]
    (some (.var ⟨"R", .set⟩))

def oneTwoThree : Term :=
  .collection .set
    [.element (.token .int "1"), .element (.token .int "2"), .element (.token .int "3")] none

private theorem canonical_oneTwoThree : oneTwoThree.Canonical := by
  refine .collection ?_ (by simp) rfl
  simp [Entry.parts, Term.Canonical.token]

private theorem canonical_unseeded : Subst.Canonical .empty :=
  fun _ _ found => absurd found (by simp)

theorem enumerateFrom_lists_oneAndAnother :
    (oneAndAnother.Canonical ∧ oneTwoThree.Canonical ∧
      Signature.builtin.check oneAndAnother = .ok () ∧
      Signature.builtin.check oneTwoThree = .ok () ∧ Subst.Canonical .empty) ∧
    (enumerateFrom .empty oneAndAnother oneTwoThree).toList.length = 2 ∧
    (∀ answer ∈ (enumerateFrom .empty oneAndAnother oneTwoThree).toList,
      IsCanonicalMatch .empty oneAndAnother oneTwoThree answer) ∧
    (∀ s, IsCanonicalMatch .empty oneAndAnother oneTwoThree s →
      ∃ answer ∈ (enumerateFrom .empty oneAndAnother oneTwoThree).toList,
        answer.agrees s = true) ∧
    (enumerateFrom .empty oneAndAnother oneTwoThree).toList.Pairwise fun first second =>
      first.agrees second = false := by
  have canonicalPattern : oneAndAnother.Canonical := by
    refine .collection ?_ ?_ rfl
    · simp [Entry.parts, Term.Canonical.var, Term.Canonical.token]
    · simp [Term.Canonical.var]
  have checkedPattern : Signature.builtin.check oneAndAnother = .ok () := rfl
  have checkedSubject : Signature.builtin.check oneTwoThree = .ok () := rfl
  exact ⟨⟨canonicalPattern, canonical_oneTwoThree, checkedPattern, checkedSubject, canonical_unseeded⟩,
    rfl, enumerateFrom_lists_matches canonicalPattern canonical_oneTwoThree checkedPattern checkedSubject
      canonical_unseeded⟩

/-- A set with the integer 1 and perhaps more. -/
def oneAndMore : Term :=
  .collection .set [.element (.token .int "1")] (some (.var ⟨"F", .set⟩))

/-- The integers 3 and 2, which are not in order. -/
def threeTwo : Term :=
  .collection .set [.element (.token .int "3"), .element (.token .int "2")] none

/-- A frame that is bound to entries that are not in order makes a match as well, and the matcher lists no
such match. -/
theorem enumerateFrom_lists_disordered :
    (oneAndMore.Canonical ∧ oneTwoThree.Canonical ∧ Signature.builtin.check oneAndMore = .ok () ∧
      Signature.builtin.check oneTwoThree = .ok () ∧ Subst.Canonical .empty) ∧
    IsMatch .empty oneAndMore oneTwoThree (Subst.single ⟨"F", .set⟩ threeTwo) ∧
    ∀ answer ∈ (enumerateFrom .empty oneAndMore oneTwoThree).toList,
      answer.agrees (Subst.single ⟨"F", .set⟩ threeTwo) = false := by
  have canonicalPattern : oneAndMore.Canonical := by
    refine .collection ?_ ?_ rfl
    · simp [Entry.parts, Term.Canonical.token]
    · simp [Term.Canonical.var]
  have extension : Extension .empty (· ∈ oneAndMore.vars) (Subst.single ⟨"F", .set⟩ threeTwo) := by
    refine ⟨fun _ _ found => absurd found (by simp), fun v => ?_, fun v term _ found => ?_⟩
    · rw [Subst.get?_single]
      by_cases same : v = ⟨"F", .set⟩ <;> simp [same, oneAndMore, Entry.parts]
    · obtain ⟨rfl, rfl⟩ := Subst.eq_of_get?_single found
      rfl
  have apart : Apart (Subst.single ⟨"F", .set⟩ threeTwo) oneAndMore := by
    refine Term.Everywhere.collection_iff.mpr ⟨fun _ => ⟨?_, ?_⟩, ?_, ?_⟩
    · decide
    · decide
    · simp [Entry.parts, Term.Everywhere.token_iff, apartAt]
    · simp [Term.Everywhere.var_iff, apartAt]
  exact ⟨⟨canonicalPattern, canonical_oneTwoThree, rfl, rfl, canonical_unseeded⟩,
    ⟨extension, rfl, apart⟩, by decide⟩

end Enumeration

end Reach.Matching
