import Reach.Proofs.Matching

/-!
Patterns of constructors, tokens and variables. Such a pattern matches a subject in one way at most,
each variable is bound to a part of the subject, and a map of terms that keeps constructors takes a
match to a match.
-/

namespace Reach

/-- Constructors, tokens and variables. -/
def Signature.patterns (sig : Signature) : Term.Fragment where
  label label _ := sig.isFunction label = false
  kind _ := False

private theorem Assoc.mapValues_insert {κ α β : Type} [DecidableEq κ] (f : α → β) (map : Assoc κ α) (key : κ)
    (value : α) : (map.insert key value).mapValues f = (map.mapValues f).insert key (f value) := by
  refine Assoc.ext ?_
  simp only [Assoc.insert, Assoc.mapValues]
  induction map.entries with
  | nil => rfl
  | cons entry rest ih =>
    obtain ⟨present, old⟩ := entry
    by_cases same : present = key
    · simp [put, same]
    · simp [put, same, ih]

namespace Enumeration

variable {α β : Type}

theorem append_nil (items : Enumeration α) : (items.append fun _ => nil) = items := by
  induction items with
  | nil => rfl
  | cons head tail ih => exact congrArg (cons head) (funext ih)

theorem flatMap_single (f : α → Enumeration β) (item : α) : (single item).flatMap f = f item :=
  append_nil (f item)

end Enumeration

/-- A map of terms that keeps tokens and constructors. -/
structure Signature.Keeps (sig : Signature) (f : Term → Term) : Prop where
  token : ∀ sort value, f (.token sort value) = .token sort value
  app : ∀ label sort args, sig.isFunction label = false →
    f (.app label sort args) = .app label sort (args.map f)

variable {sig : Signature} {f : Term → Term} {holds : Term → Prop} {pattern subject : Term}

theorem Signature.Keeps.apply_ground (keeps : sig.Keeps f) (within : pattern.Within sig.patterns)
    (ground : pattern.ground = true) : f pattern = pattern := by
  induction pattern using Term.induct with
  | var v => cases ground
  | token sort value => exact keeps.token sort value
  | app label sort args ih =>
    obtain ⟨constructor, inner⟩ := Term.Everywhere.app_iff.mp within
    rw [Term.ground_app, List.all_eq_true] at ground
    have same : args.map f = args :=
      (List.map_congr_left fun arg member => ih arg member (inner arg member)
        (ground arg member)).trans (List.map_id args)
    rw [keeps.app label sort args constructor, same]
  | collection kind entries frame => exact within.here.elim

namespace Matching

namespace Problem

variable {p next : Problem}

/-- Patterns of constructors against subjects with a property that what is bound has too. -/
structure Simple (sig : Signature) (holds : Term → Prop) (p : Problem) : Prop where
  waiting : p.deferred = []
  patterns : ∀ goal ∈ p.goals, goal.1.Within sig.patterns
  subjects : ∀ goal ∈ p.goals, holds goal.2
  bindings : ∀ v term, p.subst.get? v = some term → holds term ∧ v.sort.accepts term.sort = true

/-- The variable is bound, or a goal will bind it. -/
def Reserves (p : Problem) (v : Variable) : Prop :=
  (p.subst.get? v).isSome = true ∨ ∃ goal ∈ p.goals, v ∈ goal.1.vars

/-- The same patterns against other subjects. -/
def map (f : Term → Term) (p : Problem) : Problem :=
  { p with subst := p.subst.mapValues f, goals := p.goals.map fun goal => (goal.1, f goal.2) }

/-- No pattern of constructors is a collection. -/
theorem not_goal_of_patterns (within : pattern.Within sig.patterns) {d : Deferred}
    (same : (pattern, subject) = d.goal) : False := by
  obtain ⟨rfl, rfl⟩ := Prod.mk.inj same
  exact within.here

/-- A property that passes from an application to its arguments is kept by each step. -/
theorem Simple.step (simple : p.Simple sig holds)
    (inherited : ∀ label sort args, holds (.app label sort args) → ∀ arg ∈ args, holds arg)
    (within : pattern.Within sig.patterns) (given : holds subject)
    (stepped : p.step pattern subject = some next) : next.Simple sig holds := by
  rcases step_cases stepped with ⟨_, rfl⟩ | ⟨v, _, _, accepted, rfl⟩ |
    ⟨label, sort, args, sort', args', rfl, rfl, _, _, rfl⟩ | ⟨d, same, _⟩
  · exact simple
  · refine { simple with bindings := fun w term bound => ?_ }
    rw [Assoc.get?_insert] at bound
    split at bound
    · next same =>
      cases bound
      exact ⟨given, same ▸ accepted⟩
    · exact simple.bindings w term bound
  · have inner := (Term.Everywhere.app_iff.mp within).2
    refine ⟨simple.waiting, fun goal member => ?_, fun goal member => ?_, simple.bindings⟩
    · rcases List.mem_append.mp member with old | new
      · exact simple.patterns goal old
      · exact inner goal.1 (List.of_mem_zip new).1
    · rcases List.mem_append.mp member with old | new
      · exact simple.subjects goal old
      · exact inherited label sort' args' given goal.2 (List.of_mem_zip new).2
  · exact (not_goal_of_patterns within same).elim

theorem reserves_addGoals {label : String} {sort : TermSort} {args args' : List Term} {v : Variable}
    (aligned : args.length = args'.length) (occurs : v ∈ (Term.app label sort args).vars) :
    (p.addGoals (args.zip args')).Reserves v := by
  obtain ⟨arg, member, occurs⟩ := Term.mem_vars_app.mp occurs
  rw [← List.map_fst_zip (Nat.le_of_eq aligned)] at member
  obtain ⟨goal, paired, rfl⟩ := List.mem_map.mp member
  exact .inr ⟨goal, List.mem_append_right _ paired, occurs⟩

private theorem reserves_step (within : pattern.Within sig.patterns)
    (stepped : p.step pattern subject = some next) {v : Variable}
    (reserved : p.Reserves v ∨ v ∈ pattern.vars) : next.Reserves v := by
  rcases step_cases stepped with ⟨⟨w, rfl, bound⟩ | ⟨ground, _⟩, rfl⟩ | ⟨w, rfl, free, _, rfl⟩ |
    ⟨label, sort, args, sort', args', rfl, rfl, _, aligned, rfl⟩ | ⟨d, same, _⟩
  · rcases reserved with old | new
    · exact old
    · obtain rfl := List.mem_singleton.mp new
      exact .inl (by rw [bound]; rfl)
  · rcases reserved with old | new
    · exact old
    · rw [(Term.ground_iff_vars_eq_nil pattern).mp ground] at new
      cases new
  · have inserted : ((p.subst.insert w subject).get? v).isSome = true ↔
        v = w ∨ (p.subst.get? v).isSome = true := by
      rw [Assoc.get?_insert]
      split <;> simp_all
    rcases reserved with (bound | later) | new
    · exact .inl (inserted.mpr (.inr bound))
    · exact .inr later
    · exact .inl (inserted.mpr (.inl (List.mem_singleton.mp new)))
  · rcases reserved with (bound | ⟨goal, member, occurs⟩) | new
    · exact .inl bound
    · exact .inr ⟨goal, List.mem_append_left _ member, occurs⟩
    · exact reserves_addGoals aligned new
  · exact (not_goal_of_patterns within same).elim

theorem map_addGoals (args args' : List Term) :
    (p.addGoals (args.zip args')).map f = (p.map f).addGoals (args.zip (args'.map f)) := by
  simp only [map, addGoals, List.map_append, List.zip_map_right]
  rfl

private theorem step_map (keeps : sig.Keeps f) (within : pattern.Within sig.patterns)
    (sorts : subject.sort.accepts (f subject).sort = true)
    (stepped : p.step pattern subject = some next) :
    (p.map f).step pattern (f subject) = some (next.map f) := by
  rcases step_cases stepped with ⟨⟨v, rfl, bound⟩ | ⟨ground, rfl⟩, rfl⟩ |
    ⟨v, rfl, free, accepted, rfl⟩ |
    ⟨label, sort, args, sort', args', rfl, rfl, deep, aligned, rfl⟩ | ⟨d, same, _⟩
  · have image : (next.map f).subst.get? v = some (f subject) := by
      rw [map, Assoc.get?_mapValues, bound]
      rfl
    simp only [step, image, if_true]
  · rw [keeps.apply_ground within ground]
    cases pattern with
    | var v => cases ground
    | _ => simp only [step, ground, if_true]
  · have image : (p.map f).subst.get? v = none := by
      rw [map, Assoc.get?_mapValues, free]
      rfl
    simp only [step, image, TermSort.accepts_trans accepted sorts, if_true]
    simp only [map, Assoc.mapValues_insert]
  · obtain ⟨constructor, _⟩ := Term.Everywhere.app_iff.mp within
    rw [keeps.app label sort' args' constructor]
    simp only [step, deep, aligned, List.length_map, true_and, if_true, Bool.false_eq_true, if_false,
      map_addGoals]
  · exact (not_goal_of_patterns within same).elim

/-- There is one match at most. It binds these variables, each to a term with the property, and the
match of the second problem is what the map makes of it. -/
def Carried (holds : Term → Prop) (f : Term → Term) (binds : Variable → Prop)
    (first second : Enumeration Subst) : Prop :=
  first = .nil ∨ ∃ s : Subst, first = .single s ∧ second = .single (s.mapValues f) ∧
    (∀ v term, s.get? v = some term → holds term ∧ v.sort.accepts term.sort = true) ∧
    ∀ v, binds v → (s.get? v).isSome = true

theorem Carried.mono {binds binds' : Variable → Prop} {first second : Enumeration Subst}
    (fewer : ∀ v, binds' v → binds v) (carried : Carried holds f binds first second) :
    Carried holds f binds' first second :=
  carried.imp_right fun ⟨s, one, other, bindings, bound⟩ =>
    ⟨s, one, other, bindings, fun v occurs => bound v (fewer v occurs)⟩

theorem Simple.carried_done (simple : p.Simple sig holds) (done : p.goals = []) (steps : Nat) :
    Carried holds f p.Reserves (p.solve steps) ((p.map f).solve steps) := by
  have solved : p.advance = .solved p.subst := by
    simp [advance, done, simple.waiting]
  have solvedMap : (p.map f).advance = .solved (p.subst.mapValues f) := by
    simp [advance, map, done, simple.waiting]
  refine .inr ⟨p.subst, ?_, ?_, simple.bindings, fun v reserved => ?_⟩
  · cases steps <;> rw [solve, solved]
  · cases steps <;> rw [solve, solvedMap]
  · refine reserved.resolve_right fun pending => ?_
    obtain ⟨goal, member, _⟩ := pending
    rw [done] at member
    cases member

/-- A match of patterns of constructors becomes a match of other subjects, if these keep the
constructors. -/
theorem Simple.carried (simple : p.Simple sig holds)
    (inherited : ∀ label sort args, holds (.app label sort args) → ∀ arg ∈ args, holds arg)
    (keeps : sig.Keeps f) (sorts : ∀ term, holds term → term.sort.accepts (f term).sort = true)
    (steps : Nat) : Carried holds f p.Reserves (p.solve steps) ((p.map f).solve steps) := by
  induction steps generalizing p with
  | zero =>
    cases shape : p.goals with
    | nil => exact simple.carried_done shape 0
    | cons goal goals => exact .inl (by rw [solve, advance, shape])
  | succ steps ih =>
    cases shape : p.goals with
    | nil => exact simple.carried_done shape (steps + 1)
    | cons goal goals =>
      obtain ⟨within, others⟩ := List.forall_mem_cons.mp (shape ▸ simple.patterns)
      obtain ⟨given, subjects⟩ := List.forall_mem_cons.mp (shape ▸ simple.subjects)
      have rest : Simple sig holds { p with goals } :=
        ⟨simple.waiting, others, subjects, simple.bindings⟩
      have shapeMap : (p.map f).goals = (goal.1, f goal.2) :: (map f { p with goals }).goals := by
        rw [map, shape]
        rfl
      cases stepped : { p with goals }.step goal.1 goal.2 with
      | none => exact .inl (by rw [solve_succ shape, stepped]; rfl)
      | some next =>
        have first : p.solve (steps + 1) = next.solve steps := by
          rw [solve_succ shape, stepped]
          exact Enumeration.flatMap_single _ next
        have second : (p.map f).solve (steps + 1) = (next.map f).solve steps := by
          have after := step_map keeps within (sorts goal.2 given) stepped
          rw [solve_succ shapeMap]
          refine Eq.trans ?_ (Enumeration.flatMap_single _ (next.map f))
          exact congrArg (fun outcome => (Enumeration.ofOption outcome).flatMap _) after
        rw [first, second]
        rcases ih (rest.step inherited within given stepped) with none | ⟨s, one, other, bindings, binds⟩
        · exact .inl none
        · refine .inr ⟨s, one, other, bindings, fun v reserved => ?_⟩
          refine binds v (reserves_step within stepped ?_)
          rcases reserved with bound | ⟨source, member, occurs⟩
          · exact .inl (.inl bound)
          · rw [shape] at member
            rcases List.mem_cons.mp member with rfl | later
            · exact .inr occurs
            · exact .inl (.inr ⟨source, later, occurs⟩)

end Problem

/-- The match of a call by a pattern with constructors below its head is carried to the calls with
other arguments, if these keep the constructors. -/
theorem carried_call {label : String} {sort sort' : TermSort} {args args' : List Term}
    (within : ∀ arg ∈ args, arg.Within sig.patterns) (given : ∀ arg ∈ args', holds arg)
    (inherited : ∀ label sort args, holds (.app label sort args) → ∀ arg ∈ args, holds arg)
    (keeps : sig.Keeps f) (sorts : ∀ term, holds term → term.sort.accepts (f term).sort = true) :
    Problem.Carried holds f (· ∈ (Term.app label sort args).vars)
      (enumerate (.app label sort args) (.app label sort' args'))
      (enumerate (.app label sort args) (.app label sort' (args'.map f))) := by
  have unbound (v : Variable) (term : Term) (bound : Assoc.get? (.empty : Subst) v = some term) :
      holds term ∧ v.sort.accepts term.sort = true := by
    cases bound
  have simple : Problem.Simple sig holds
      (Problem.addGoals { subst := .empty, goals := [], deferred := [] } (args.zip args')) :=
    ⟨rfl, fun goal member => within goal.1 (List.of_mem_zip member).1,
      fun goal member => given goal.2 (List.of_mem_zip member).2, unbound⟩
  obtain ⟨steps, weight⟩ : ∃ steps, ∀ subject, Problem.weight
      { subst := .empty, goals := [(.app label sort args, subject)], deferred := [] } = steps + 1 := by
    have positive := (Term.app label sort args).size_pos
    exact ⟨2 * (Term.app label sort args).size - 1, fun subject => by simp [Problem.weight]; omega⟩
  have unfolded (subject : Term) : enumerate (.app label sort args) subject =
      (Enumeration.ofOption (Problem.step { subst := .empty, goals := [], deferred := [] }
        (.app label sort args) subject)).flatMap (Problem.solve steps) := by
    rw [enumerate, enumerateFrom, weight]
    exact Problem.solve_succ (p := { subst := .empty, goals := [_], deferred := [] }) rfl steps
  rw [unfolded, unfolded]
  by_cases ground : (Term.app label sort args).ground = true
  · by_cases same : Term.app label sort args = .app label sort' args'
    · obtain ⟨_, rfl, rfl⟩ := Term.app.inj same
      have done : Problem.Simple sig holds { subst := .empty, goals := [], deferred := [] } :=
        ⟨rfl, List.forall_mem_nil _, List.forall_mem_nil _, unbound⟩
      have fixed : args.map f = args := by
        rw [Term.ground_app, List.all_eq_true] at ground
        refine (List.map_congr_left fun arg member => ?_).trans (List.map_id args)
        exact keeps.apply_ground (within arg member) (ground arg member)
      rw [fixed]
      simp only [Problem.step, ground, if_true, Enumeration.ofOption, Enumeration.flatMap_single]
      refine (done.carried_done rfl steps).mono fun v occurs => ?_
      rw [(Term.ground_iff_vars_eq_nil _).mp ground] at occurs
      cases occurs
    · refine .inl ?_
      simp only [Problem.step, ground, if_true, if_neg same]
      rfl
  · simp only [Problem.step, if_neg ground, List.length_map, true_and]
    by_cases aligned : args.length = args'.length
    · rw [if_pos aligned, if_pos aligned, Enumeration.ofOption, Enumeration.ofOption,
        Enumeration.flatMap_single, Enumeration.flatMap_single]
      have carried := simple.carried inherited keeps sorts steps
      rw [Problem.map_addGoals] at carried
      exact carried.mono fun v occurs => Problem.reserves_addGoals aligned occurs
    · exact .inl (by rw [if_neg aligned]; rfl)

end Matching

end Reach
