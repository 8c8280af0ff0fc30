import Reach.Proofs.Exposure
import Reach.Proofs.Mirroring
import Reach.Proofs.Termination

/-!
Function applications do not make unification fail, as long as they keep out of its way: no variable
stands both inside and outside of them unless its sort has no constructors, and none of them has a value
that an exposed variable accepts while it does not accept the application. Then whatever makes the values
of two terms without collections the same is compatible with the unifier that is found: with its bindings,
and with the equations that it leaves open. Otherwise the occurs check refuses a variable that stands
below an application only, and the check of sorts an application that is declared with a wider sort than
its value has.
-/

namespace Reach

/-- The part is exposed in one of two terms. -/
def Term.ExposedIn (sig : Signature) (a b part : Term) : Prop :=
  part.Exposed sig a ∨ part.Exposed sig b

/-- Under the assignment, function applications do not get in the way of unifying the two terms. -/
structure Definition.Unobstructed (d : Definition) (limit : Nat) (s : Subst) (a b : Term) : Prop where
  apart : ∀ v call, Term.ExposedIn d.signature a b (.var v) → Term.ExposedIn d.signature a b call →
    d.signature.isCall call = true → v ∈ call.vars → d.signature.Flat v.sort
  accepted : ∀ v call value, Term.ExposedIn d.signature a b (.var v) →
    Term.ExposedIn d.signature a b call → d.signature.isCall call = true →
    d.evaluate limit (s.apply call) = .ok value → v.sort.accepts value.sort = true →
    v.sort.accepts call.sort = true

/-- The assignment evaluates the two terms to the same. -/
def Definition.Equalizes (d : Definition) (limit : Nat) (s : Subst) (a b : Term) : Prop :=
  ∃ value, d.evaluate limit (s.apply a) = .ok value ∧ d.evaluate limit (s.apply b) = .ok value

/-- The bindings of the unifier and the equations that it leaves open hold under the assignment. -/
structure Unifier.Compatible (d : Definition) (limit : Nat) (s : Subst) (unifier : Unifier) : Prop where
  bindings : ∀ v term, unifier.subst.get? v = some term → d.Equalizes limit s (.var v) term
  residual : ∀ pair ∈ unifier.residual, d.Equalizes limit s pair.1 pair.2

namespace Unification

open Term

/-- Which variables may stand outside of function applications and which inside. -/
structure Layering (sig : Signature) where
  outside : Variable → Prop
  inside : Variable → Prop
  flat : ∀ v, outside v → inside v → sig.Flat v.sort
  closed : ∀ v, sig.Flat v.sort → inside v

variable {d : Definition} {limit : Nat} {s other : Subst} {layering : Layering d.signature}
  {fragment : Fragment} {p next : Problem} {goal : Goal} {goals : List Goal} {v w : Variable}
  {term image part : Term} {vars : List Variable}

/-- The term can be evaluated, has its variables where they may stand, and has no function application
in the way. -/
structure Clear (d : Definition) (limit : Nat) (s : Subst) (layering : Layering d.signature)
    (term : Term) : Prop where
  reads : term.Everywhere (d.Reads limit s)
  vars : ∀ v, Exposed d.signature (.var v) term → layering.outside v
  calls : ∀ call, Exposed d.signature call term → d.signature.isCall call = true →
    ∀ v ∈ call.vars, layering.inside v
  sorts : ∀ call, Exposed d.signature call term → d.signature.isCall call = true →
    ∀ v, layering.outside v → v.sort.accepts (call.fold (d.reading limit s)).sort = true →
      v.sort.accepts call.sort = true

/-- A goal between such terms whose sides have the same value. -/
structure Agreed (d : Definition) (limit : Nat) (s : Subst) (layering : Layering d.signature)
    (goal : Goal) : Prop where
  equates : (d.reading limit s).Equates goal
  left : Clear d limit s layering goal.1
  right : Clear d limit s layering goal.2

/-- What holds of a problem on the way: its bindings and equations agree, and nothing is deferred. -/
structure Tracked (d : Definition) (limit : Nat) (s : Subst) (layering : Layering d.signature)
    (p : Problem) : Prop where
  absorbs : (d.reading limit s).Absorbs p.subst
  images : ∀ v term, p.subst.get? v = some term → Clear d limit s layering term
  inside : ∀ v, layering.inside v → ∀ w ∈ (p.subst.image v).vars, layering.inside w
  equations : ∀ goal ∈ p.equations, Agreed d limit s layering goal
  settled : p.deferred = []

/-- Terms of these variables without collections. -/
def scope (sig : Signature) (vars : List Variable) : Fragment :=
  (sig.declared.and .bare).and { var := fun v => v ∈ vars }

theorem bare_of_proper {sig : Signature} (proper : term.Proper (scope sig vars)) : term.Within .bare :=
  proper.within.mono fun node allowed => by cases node <;> exact allowed.1.2

private theorem declared_of_proper {sig : Signature} (proper : term.Proper (scope sig vars)) :
    term.Within sig.declared :=
  proper.within.mono fun node allowed => by cases node <;> exact allowed.1.1

/-- What a flat sort accepts is a variable of that sort, a token or a function application. -/
theorem shape_of_flat {sig : Signature} {sort : TermSort} (flat : sig.Flat sort)
    (accepted : sort.accepts term.sort = true) (proper : term.Proper (scope sig vars)) :
    (∃ w, term = .var w ∧ sig.Flat w.sort) ∨ term.vars = [] ∨ sig.isCall term = true := by
  have same : sort = term.sort := by simpa [TermSort.accepts, flat.1] using accepted
  rw [same] at flat
  cases term with
  | var w => exact .inl ⟨w, rfl, flat⟩
  | token sort value => exact .inr (.inl rfl)
  | app label sort args =>
    exact .inr (.inr (flat.2 label (declared_of_proper proper).here))
  | collection kind entries frame => exact absurd (bare_of_proper proper).here id

namespace Clear

theorem arg {label : String} {sort : TermSort} {args : List Term}
    (constructor : d.signature.isFunction label = false)
    (clear : Clear d limit s layering (.app label sort args)) (member : part ∈ args) :
    Clear d limit s layering part where
  reads := (Everywhere.app_iff.mp clear.reads).2 part member
  vars v exposed := clear.vars v (.arg constructor member exposed)
  calls call exposed := clear.calls call (.arg constructor member exposed)
  sorts call exposed := clear.sorts call (.arg constructor member exposed)

/-- An instance is clear if the images of exposed variables are, and if what stands below function
applications may stand there once it is replaced. -/
theorem apply (normalizing : (d.reading limit s).Normalizing)
    (absorbs : (d.reading limit s).Absorbs other)
    (reads : ∀ v ∈ term.vars, (other.image v).Everywhere (d.Reads limit s))
    (outside : ∀ v, layering.outside v → Clear d limit s layering (other.image v))
    (inside : ∀ v, layering.inside v → ∀ w ∈ (other.image v).vars, layering.inside w)
    (proper : term.Proper (scope d.signature vars)) (clear : Clear d limit s layering term) :
    Clear d limit s layering (other.apply term) := by
  have bare := bare_of_proper proper
  -- A function application in the instance is one in an image, or an instance of one.
  have lift (holds : Term → Prop)
      (beyond : ∀ v, layering.outside v → ∀ call, Exposed d.signature call (other.image v) →
        d.signature.isCall call = true → holds call)
      (below : ∀ call, Exposed d.signature call term → d.signature.isCall call = true →
        call.var? = none → holds (other.apply call)) (call : Term)
      (exposed : Exposed d.signature call (other.apply term))
      (applied : d.signature.isCall call = true) : holds call := by
    rcases exposed.of_apply bare with ⟨inner, known, shape, rfl⟩ | ⟨v, known, rest⟩
    · exact below inner known ((isCall_apply shape (known.everywhere bare)).symm.trans applied) shape
    · exact beyond v (clear.vars v known) call rest applied
  refine ⟨Definition.reads_apply absorbs clear.reads reads, fun v exposed => ?_,
    lift (fun call => ∀ v ∈ call.vars, layering.inside v) ?_ ?_,
    lift (fun call => ∀ v, layering.outside v →
      v.sort.accepts (call.fold (d.reading limit s)).sort = true → v.sort.accepts call.sort = true) ?_ ?_⟩
  · rcases exposed.of_apply bare with ⟨inner, known, shape, same⟩ | ⟨w, known, rest⟩
    · have kept := @var?_apply inner other shape (known.everywhere bare)
      rw [← same] at kept
      cases kept
    · exact (outside w (clear.vars w known)).vars v rest
  · exact fun v out call exposed applied => (outside v out).calls call exposed applied
  · intro call exposed applied _ w occurs
    obtain ⟨v, known, occurs⟩ := (Subst.mem_vars_apply other call).mp occurs
    exact inside v (clear.calls call exposed applied v known) w occurs
  · exact fun v out call exposed applied => (outside v out).sorts call exposed applied
  · intro call exposed applied shape v out accepted
    rw [absorbs.fold_apply normalizing] at accepted
    rw [Subst.sort_apply (exposed.canonical proper.canonical) shape]
    exact clear.sorts call exposed applied v out accepted

end Clear

/-- An exposed variable is clear where its value can be evaluated. -/
theorem clear_var (reads : (var v).Everywhere (d.Reads limit s)) (out : layering.outside v) :
    Clear d limit s layering (.var v) where
  reads := reads
  vars w exposed := by
    cases Exposed.var_iff.mp exposed
    exact out
  calls call exposed applied := by
    cases Exposed.var_iff.mp exposed
    cases applied
  sorts call exposed applied := by
    cases Exposed.var_iff.mp exposed
    cases applied

/-- What takes the place of a variable that stands inside of function applications may stand there. -/
theorem inside_of_accepts (out : layering.outside v) (inner : layering.inside v)
    (accepted : v.sort.accepts image.sort = true) (proper : image.Proper (scope d.signature vars))
    (clear : Clear d limit s layering image) : ∀ w ∈ image.vars, layering.inside w := by
  rcases shape_of_flat (layering.flat v out inner) accepted proper with ⟨w, rfl, flat⟩ | none | applied
  · intro x occurs
    obtain rfl := List.mem_singleton.mp occurs
    exact layering.closed x flat
  · simp [none]
  · exact clear.calls image .root applied

/-- A variable and a term around it differ in their values, unless the term is a function application. -/
theorem isCall_of_occurs (constructive : (d.reading limit s).Constructive d.signature)
    (out : layering.outside v) (accepted : v.sort.accepts image.sort = true)
    (proper : image.Proper (scope d.signature vars)) (clear : Clear d limit s layering image)
    (differ : image ≠ .var v) (same : (d.reading limit s).var v = image.fold (d.reading limit s))
    (occurs : v ∈ image.vars) : d.signature.isCall image = true := by
  rcases exposed_or_below (bare_of_proper proper) occurs with exposed | ⟨call, exposed, applied, below⟩
  · rcases exposed.eq_or_size_lt constructive with equal | smaller
    · exact absurd equal.symm differ
    · rw [← same] at smaller
      exact absurd smaller (Nat.lt_irrefl _)
  · have inner := clear.calls call exposed applied v below
    rcases shape_of_flat (layering.flat v out inner) accepted proper with ⟨w, rfl, _⟩ | none | applied
    · obtain rfl := List.mem_singleton.mp occurs
      exact absurd rfl differ
    · rw [none] at occurs
      cases occurs
    · exact applied

/-- An equation on whose value the sides agree may be left open. -/
theorem Tracked.addResidual (tracked : Tracked d limit s layering p)
    (agreed : Agreed d limit s layering goal) : Tracked d limit s layering (p.addResidual goal) :=
  { tracked with
    equations := fun other member => by
      rcases Problem.mem_equations_addResidual.mp member with member | rfl
      · exact tracked.equations other member
      · exact agreed }

section Binding

variable (hooks : d.signature.HooksFunctions) (grounding : s.Grounding d.signature)
include hooks grounding

theorem reads_var (v : Variable) : (var v).Everywhere (d.Reads limit s) :=
  (Definition.evaluate_apply_eq_ok_iff.mp (Definition.evaluate_image hooks limit grounding v)).1

theorem accepts_var (v : Variable) : v.sort.accepts ((d.reading limit s).var v).sort = true := by
  have value := (Definition.evaluate_apply_eq_ok_iff.mp
    (Definition.evaluate_image hooks limit grounding v)).2
  rw [show (d.reading limit s).var v = s.image v from value]
  exact grounding.sorted.image v

/-- What has the value of a variable has a sort that goes with that of the variable. -/
theorem exists_orient_of_clear (out : layering.outside v) (proper : term.Proper (scope d.signature vars))
    (clear : Clear d limit s layering term)
    (same : (d.reading limit s).var v = term.fold (d.reading limit s)) :
    ∃ w image, Problem.orient v term = some (w, image) := by
  have accepted : v.sort.accepts ((d.reading limit s).var v).sort = true := accepts_var hooks grounding v
  have straight (accepted : v.sort.accepts term.sort = true) :
      ∃ w image, Problem.orient v term = some (w, image) := ⟨v, term, if_pos accepted⟩
  rw [same] at accepted
  cases term with
  | var w =>
    rcases accepts_or_accepts accepted (accepts_var hooks grounding w) with wide | narrow
    · exact straight wide
    · by_cases wide : v.sort.accepts (var w).sort = true
      · exact straight wide
      · exact ⟨w, .var v, (if_neg wide).trans (if_pos narrow)⟩
  | token sort value => exact straight accepted
  | app label sort args =>
    cases function : d.signature.isFunction label with
    | true => exact straight (clear.sorts _ .root function v out accepted)
    | false =>
      rw [fold_app, (Definition.constructive_reading hooks limit s).app label sort _ function] at accepted
      exact straight accepted
  | collection kind entries frame => exact absurd (bare_of_proper proper).here id

/-- A variable that is not bound may be bound to what has its value. -/
theorem Tracked.eliminate (tracked : Tracked d limit s layering p)
    (wellFormed : p.WellFormed (scope d.signature vars)) (free : p.subst.get? v = none)
    (accepted : v.sort.accepts image.sort = true) (proper : image.Proper (scope d.signature vars))
    (agreed : Agreed d limit s layering (.var v, image)) :
    Tracked d limit s layering { p with subst := p.subst.compose (.single v image) } := by
  have normalizing := (Definition.constructive_reading hooks limit s).normalizing
  have same : (d.reading limit s).var v = image.fold (d.reading limit s) := agreed.equates
  have absorbed : (d.reading limit s).Absorbs (.single v image) := Subst.absorbs_single same
  have reads (w : Variable) : ((Subst.single v image).image w).Everywhere (d.Reads limit s) := by
    rw [Subst.image_single]
    split
    · exact agreed.right.reads
    · exact reads_var hooks grounding w
  have outside (w : Variable) (out : layering.outside w) :
      Clear d limit s layering ((Subst.single v image).image w) := by
    rw [Subst.image_single]
    split
    · exact agreed.right
    · exact clear_var (reads_var hooks grounding w) out
  have inside (w : Variable) (inner : layering.inside w) :
      ∀ x ∈ ((Subst.single v image).image w).vars, layering.inside x := by
    rw [Subst.image_single]
    split
    · next same =>
      subst same
      exact inside_of_accepts (agreed.left.vars w .root) inner accepted proper agreed.right
    · intro x occurs
      obtain rfl := List.mem_singleton.mp occurs
      exact inner
  refine ⟨(Subst.absorbs_compose_single_iff normalizing free).mpr ⟨tracked.absorbs, same⟩,
    fun w term bound => ?_, fun w inner x occurs => ?_, tracked.equations, tracked.settled⟩
  · rw [Subst.get?_compose] at bound
    cases before : p.subst.get? w with
    | some old =>
      rw [before] at bound
      cases bound
      exact (tracked.images w old before).apply normalizing absorbed (fun w _ => reads w) outside inside
        (wellFormed.bound w old before).2
    | none =>
      rw [before, Option.map_none, Option.none_or, Subst.get?_single] at bound
      split at bound
      · cases bound
        exact agreed.right
      · cases bound
  · rw [Subst.image_compose] at occurs
    obtain ⟨y, mentioned, occurs⟩ := (Subst.mem_vars_apply _ _).mp occurs
    exact inside y (tracked.inside w inner y mentioned) x occurs

/-- A variable that is not bound is bound to what has its value, or the equation is left open. -/
theorem bind_tracked (wellFormed : p.WellFormed (scope d.signature vars))
    (free : p.subst.get? v = none) (unbound : ∀ w ∈ term.vars, p.subst.get? w = none)
    (known : v ∈ vars) (proper : term.Proper (scope d.signature vars)) (differ : term ≠ .var v)
    (tracked : Tracked d limit s layering p) (agreed : Agreed d limit s layering (.var v, term)) :
    ∃ next, p.bind d.signature v term = some next ∧ Tracked d limit s layering next ∧
      (next.goals = p.goals ∧ next.subst = p.subst ∨ ∃ w ∈ vars, ∃ image, p.subst.get? w = none ∧
        next.subst = p.subst.compose (.single w image)) := by
  obtain ⟨w, image, oriented⟩ :=
    exists_orient_of_clear hooks grounding (agreed.left.vars v .root) proper agreed.right agreed.equates
  obtain ⟨accepted, shape⟩ := Problem.orient_eq_some oriented
  have facts : p.subst.get? w = none ∧ w ∈ vars ∧ image.Proper (scope d.signature vars) ∧
      image ≠ .var w ∧ Agreed d limit s layering (.var w, image) := by
    rcases shape with ⟨rfl, rfl⟩ | ⟨rfl, rfl⟩
    · exact ⟨free, known, proper, differ, agreed⟩
    · exact ⟨unbound w (by simp), proper.within.here.2, .var ⟨⟨trivial, trivial⟩, known⟩,
        fun equal => differ equal.symm, agreed.equates.symm, agreed.right, agreed.left⟩
  clear shape free unbound known proper differ agreed
  obtain ⟨free, known, proper, differ, agreed⟩ := facts
  cases occurs : image.mentions w with
  | true =>
    have applied := isCall_of_occurs (Definition.constructive_reading hooks limit s)
      (agreed.left.vars w .root) accepted proper agreed.right differ agreed.equates
      ((mem_vars_iff_mentions w image).mpr occurs)
    exact ⟨p.addResidual (.var w, image), by simp [Problem.bind, oriented, occurs, applied],
      tracked.addResidual agreed, .inl ⟨rfl, rfl⟩⟩
  | false =>
    exact ⟨{ p with subst := p.subst.compose (.single w image) }, by simp [Problem.bind, oriented, occurs],
      tracked.eliminate hooks grounding wellFormed free accepted proper agreed,
      .inr ⟨w, known, image, free, rfl⟩⟩

end Binding

section Progress

/-- The arguments of two applications are smaller than the applications. -/
theorem total_zip_le (s : Subst) (args args' : List Term) :
    load s (args.zip args') ≤ total ((args.map s.apply).map size) + total ((args'.map s.apply).map size) := by
  induction args generalizing args' with
  | nil => exact Nat.zero_le _
  | cons arg rest ih =>
    cases args' with
    | nil => exact Nat.zero_le _
    | cons arg' rest' =>
      have later := ih rest'
      simp only [load, List.zip_cons_cons, List.map_cons, total_cons] at later ⊢
      omega

/-- Compared with a problem and a goal beside it: more variables are bound, or the goal is replaced by
smaller ones. -/
def Shrinks (vars : List Variable) (p : Problem) (goal : Goal) (next : Problem) : Prop :=
  unboundCount vars next < unboundCount vars p ∨
    next.subst = p.subst ∧ ∃ goals, next.goals = p.goals ++ goals ∧
      load p.subst goals < load p.subst [goal]

theorem shrinks_of_goals (subst : next.subst = p.subst) (goals : next.goals = p.goals) :
    Shrinks vars p goal next :=
  .inr ⟨subst, [], by rw [goals, List.append_nil], load_pos _ _⟩

end Progress

section Steps

variable (hooks : d.signature.HooksFunctions) (grounding : s.Grounding d.signature)
include hooks grounding

/-- The sides of a goal, as they stand under the bindings, agree as well. -/
theorem Agreed.apply (tracked : Tracked d limit s layering p)
    (admitted : (scope d.signature vars).Admits goal) (agreed : Agreed d limit s layering goal) :
    Agreed d limit s layering (p.subst.apply goal.1, p.subst.apply goal.2) := by
  have normalizing := (Definition.constructive_reading hooks limit s).normalizing
  have absorbs := tracked.absorbs
  have reads (v : Variable) : (p.subst.image v).Everywhere (d.Reads limit s) := by
    cases bound : p.subst.get? v with
    | none =>
      rw [Subst.image_of_get?_none bound]
      exact reads_var hooks grounding v
    | some term =>
      rw [Subst.image_of_get? bound]
      exact (tracked.images v term bound).reads
  have outside (v : Variable) (out : layering.outside v) :
      Clear d limit s layering (p.subst.image v) := by
    cases bound : p.subst.get? v with
    | none =>
      rw [Subst.image_of_get?_none bound]
      exact clear_var (reads_var hooks grounding v) out
    | some term =>
      rw [Subst.image_of_get? bound]
      exact tracked.images v term bound
  have clear {term : Term} (proper : term.Proper (scope d.signature vars))
      (clear : Clear d limit s layering term) : Clear d limit s layering (p.subst.apply term) :=
    clear.apply normalizing absorbs (fun v _ => reads v) outside tracked.inside proper
  refine ⟨?_, clear admitted.1 agreed.left, clear admitted.2 agreed.right⟩
  rw [Algebra.Equates, absorbs.fold_apply normalizing, absorbs.fold_apply normalizing]
  exact agreed.equates

omit grounding in
/-- Two sides of one value that are no variables can be taken apart, or the equation is kept. -/
theorem part_tracked {a b : Term} (idempotentLeft : p.subst.apply a = a)
    (idempotentRight : p.subst.apply b = b) (properLeft : a.Proper (scope d.signature vars))
    (properRight : b.Proper (scope d.signature vars)) (left : a.var? = none) (right : b.var? = none)
    (differ : a ≠ b) (tracked : Tracked d limit s layering p)
    (agreed : Agreed d limit s layering (a, b)) :
    ∃ next, p.part d.signature a b = some next ∧ Tracked d limit s layering next ∧
      Shrinks vars p (a, b) next := by
  have constructive := Definition.constructive_reading hooks limit s
  have equates : a.fold (d.reading limit s) = b.fold (d.reading limit s) := agreed.equates
  have bareLeft := bare_of_proper properLeft
  have bareRight := bare_of_proper properRight
  by_cases called : (d.signature.isCall a || d.signature.isCall b) = true
  · exact ⟨p.addResidual (a, b), if_pos called, tracked.addResidual agreed, shrinks_of_goals rfl rfl⟩
  unfold Problem.part
  rw [if_neg called]
  rw [Bool.not_eq_true, Bool.or_eq_false_iff] at called
  have token (sort : TermSort) (value : String) : (token sort value).fold (d.reading limit s) =
      .token sort value := rfl
  have app {label : String} {sort : TermSort} {args : List Term}
      (constructor : d.signature.isCall (.app label sort args) = false) :
      (Term.app label sort args).fold (d.reading limit s) =
        .app label sort (args.map (fold (d.reading limit s))) :=
    (fold_app _ _ _ _).trans (constructive.app label sort _ constructor)
  cases a with
  | var v => cases left
  | collection kind entries frame => exact absurd bareLeft.here id
  | token sort value =>
    -- A token is its own value, and no value of another token or of a constructor.
    cases b with
    | var v => cases right
    | collection kind entries frame => exact absurd bareRight.here id
    | token sort' value' => exact absurd equates differ
    | app label' sort' args' =>
      rw [token, app called.2] at equates
      cases equates
  | app label sort args =>
    cases b with
    | var v => cases right
    | collection kind entries frame => exact absurd bareRight.here id
    | token sort' value =>
      rw [token, app called.1] at equates
      cases equates
    | app label' sort' args' =>
      rw [app called.1, app called.2] at equates
      obtain ⟨rfl, rfl, parts⟩ := Term.app.inj equates
      have aligned : args.length = args'.length := by simpa using congrArg List.length parts
      refine ⟨p.addGoals (args.zip args'), if_pos ⟨rfl, aligned⟩,
        { tracked with equations := fun goal member => ?_ }, .inr ⟨rfl, args.zip args', rfl, ?_⟩⟩
      · rcases Problem.mem_equations_addGoals.mp member with member | member
        · exact tracked.equations goal member
        · obtain ⟨memberLeft, memberRight⟩ := List.of_mem_zip member
          exact ⟨(Pairing.map_eq_iff_forall_zip aligned).mp parts goal member,
            agreed.left.arg called.1 memberLeft, agreed.right.arg called.1 memberRight⟩
      · have smaller := total_zip_le p.subst args args'
        rw [Subst.apply_app_eq] at idempotentLeft idempotentRight
        obtain ⟨_, _, sameLeft⟩ := Term.app.inj idempotentLeft
        obtain ⟨_, _, sameRight⟩ := Term.app.inj idempotentRight
        simp only [load, List.map_cons, List.map_nil, total_cons, total_nil, Subst.apply_app_eq, size_app]
        exact Nat.lt_of_le_of_lt smaller (by omega)

/-- A goal on whose value the sides agree can be decomposed, and that makes progress. -/
theorem step_tracked (wellFormed : p.WellFormed (scope d.signature vars))
    (admitted : (scope d.signature vars).Admits goal) (tracked : Tracked d limit s layering p)
    (agreed : Agreed d limit s layering goal) :
    ∃ next, p.step d.signature goal = some next ∧ Tracked d limit s layering next ∧
      Shrinks vars p goal next := by
  have applied := agreed.apply hooks grounding tracked admitted
  have properLeft := wellFormed.apply admitted.1
  have properRight := wellFormed.apply admitted.2
  have again {term : Term} (proper : term.Proper (scope d.signature vars)) :
      p.subst.apply (p.subst.apply term) = p.subst.apply term :=
    wellFormed.idempotent.apply_apply wellFormed.canonical proper.canonical
  have againLeft := again admitted.1
  have againRight := again admitted.2
  have unboundLeft := fun v (occurs : v ∈ (p.subst.apply goal.1).vars) =>
    wellFormed.idempotent.get?_of_mem_apply occurs
  have unboundRight := fun v (occurs : v ∈ (p.subst.apply goal.2).vars) =>
    wellFormed.idempotent.get?_of_mem_apply occurs
  have weight : load p.subst [(p.subst.apply goal.1, p.subst.apply goal.2)] = load p.subst [goal] := by
    simp only [load, List.map_cons, List.map_nil, againLeft, againRight]
  rw [Problem.step_eq]
  generalize p.subst.apply goal.1 = a at *
  generalize p.subst.apply goal.2 = b at *
  by_cases same : a = b
  · exact ⟨p, if_pos same, tracked, shrinks_of_goals rfl rfl⟩
  rw [if_neg same]
  -- A bound variable is one fewer, and a kept equation is no goal.
  have shrinks {next : Problem} (made : next.goals = p.goals ∧ next.subst = p.subst ∨ ∃ w ∈ vars, ∃ image,
      p.subst.get? w = none ∧ next.subst = p.subst.compose (.single w image)) :
      Shrinks vars p goal next := by
    rcases made with ⟨goals, subst⟩ | ⟨w, known, image, free, bound⟩
    · exact shrinks_of_goals subst goals
    · exact .inl (unboundCount_lt known free bound)
  cases shape : a.var? with
  | some v =>
    obtain rfl := Problem.eq_var_of_var? shape
    obtain ⟨next, made, after, outcome⟩ := bind_tracked hooks grounding wellFormed
      (unboundLeft v (by simp)) unboundRight properLeft.within.here.2 properRight (Ne.symm same) tracked applied
    exact ⟨next, made, after, shrinks outcome⟩
  | none =>
    cases shape' : b.var? with
    | some v =>
      obtain rfl := Problem.eq_var_of_var? shape'
      obtain ⟨next, made, after, outcome⟩ := bind_tracked hooks grounding wellFormed
        (unboundRight v (by simp)) unboundLeft properRight.within.here.2 properLeft same tracked
        ⟨applied.equates.symm, applied.right, applied.left⟩
      exact ⟨next, (Problem.meet_var shape v).trans made, after, shrinks outcome⟩
    | none =>
      obtain ⟨next, made, after, outcome⟩ := part_tracked hooks againLeft againRight properLeft properRight
        shape shape' same tracked applied
      refine ⟨next, (Problem.meet_part shape shape').trans made, after, ?_⟩
      rw [Shrinks, weight] at outcome
      exact outcome

/-- Where no goal is left, the unifier is compatible. -/
theorem compatible_finish (wellFormed : p.WellFormed (scope d.signature vars))
    (tracked : Tracked d limit s layering p) : p.finish.Compatible d limit s where
  bindings v term bound := by
    have clear := tracked.images v term bound
    have value : term.fold (d.reading limit s) = (d.reading limit s).var v :=
      Subst.image_of_get? bound ▸ tracked.absorbs v
    exact ⟨_, Definition.evaluate_apply_eq_ok_iff.mpr ⟨reads_var hooks grounding v, rfl⟩,
      Definition.evaluate_apply_eq_ok_iff.mpr ⟨clear.reads, value⟩⟩
  residual goal member := by
    obtain ⟨pair, kept, rfl, _⟩ := mem_residual_finish.mp member
    have among : pair ∈ p.equations := List.mem_append_right _ kept
    have agreed := (tracked.equations pair among).apply hooks grounding tracked
      (wellFormed.equations pair among)
    exact ⟨_, Definition.evaluate_apply_eq_ok_iff.mpr ⟨agreed.left.reads, agreed.equates⟩,
      Definition.evaluate_apply_eq_ok_iff.mpr ⟨agreed.right.reads, rfl⟩⟩

/-- Exploring such a problem comes to a compatible unifier after some steps, each of which binds a variable
or makes the goals smaller, and draws no name on the way. -/
theorem exists_found (p : Problem) (wellFormed : p.WellFormed (scope d.signature vars))
    (tracked : Tracked d limit s layering p) :
    ∃ unifier steps, unifier.Compatible d limit s ∧ ∀ budget fresh later,
      p.explore d.signature budget fresh later =
        if steps ≤ budget then .found unifier fresh later else .cut fresh := by
  cases pending : p.goals with
  | nil =>
    have done : p.advance d.signature = .solved p.finish := by
      rw [Problem.advance, pending, tracked.settled]
    refine ⟨p.finish, 1, compatible_finish hooks grounding wellFormed tracked,
      fun budget fresh later => ?_⟩
    cases budget with
    | zero => rfl
    | succ budget =>
      rw [Problem.explore, done]
      exact (if_pos (Nat.le_add_left 1 budget)).symm
  | cons goal rest =>
    have taken : Problem.Takes p goal { p with goals := rest } := ⟨rfl, fun _ => by
      simp only [Problem.equations, pending, List.mem_append, List.mem_cons]
      tauto⟩
    have among : goal ∈ p.equations := (taken.equations goal).mpr (.inr rfl)
    obtain ⟨next, made, after, shrinks⟩ := step_tracked hooks grounding (taken.wellFormed wellFormed)
      (wellFormed.equations goal among)
      { tracked with
        equations := fun other member => tracked.equations other ((taken.equations other).mpr (.inl member)) }
      (tracked.equations goal among)
    have moved : p.advance d.signature = .next next := by
      rw [Problem.advance, pending]
      exact congrArg Progress.ofOption made
    have preserved : next.WellFormed (scope d.signature vars) :=
      (@Problem.advance_sound d.signature (scope d.signature vars) p next
        (fun first second => Signature.sort_eq_of_declared first.1.1 second.1.1) .start
        (by rw [moved]; exact fun _ draws => draws.elim) wellFormed (by rw [moved]; rfl)).1
    have smaller : unboundCount vars next < unboundCount vars p ∨
        unboundCount vars next = unboundCount vars p ∧
          load next.subst next.goals < load p.subst p.goals := by
      refine shrinks.imp_right fun kept => ?_
      obtain ⟨subst, goals, shape, lighter⟩ := kept
      have whole : load p.subst p.goals = load p.subst [goal] + load p.subst rest := by
        rw [pending, ← load_append, List.singleton_append]
      refine ⟨by rw [unboundCount, subst]; rfl, ?_⟩
      rw [subst, shape, load_append, whole, Nat.add_comm]
      exact Nat.add_lt_add_right lighter _
    obtain ⟨unifier, steps, compatible, onward⟩ := exists_found next preserved after
    refine ⟨unifier, steps + 1, compatible, fun budget fresh later => ?_⟩
    cases budget with
    | zero => rfl
    | succ budget =>
      rw [Problem.explore, moved]
      simp only [onward, Nat.add_le_add_iff_right]
termination_by (unboundCount vars p, load p.subst p.goals)
decreasing_by
  rcases smaller with fewer | ⟨same, lighter⟩
  · exact .left _ _ fewer
  · rw [same]
    exact .right _ lighter

end Steps

/-- Some ground values of the variables make the values of two terms the same, and no function application
is in the way. Then unification comes after some steps to a unifier whose bindings and open equations hold
for these values. -/
theorem exists_found_start {a b value : Term}
    (hooks : d.signature.HooksFunctions) (grounding : s.Grounding d.signature)
    (canonicalLeft : a.Canonical) (canonicalRight : b.Canonical)
    (checkedLeft : d.signature.check a = .ok ()) (checkedRight : d.signature.check b = .ok ())
    (bareLeft : a.Within .bare) (bareRight : b.Within .bare)
    (unobstructed : d.Unobstructed limit s a b) (left : d.evaluate limit (s.apply a) = .ok value)
    (right : d.evaluate limit (s.apply b) = .ok value) :
    ∃ unifier steps, unifier.Compatible d limit s ∧ ∀ budget fresh later,
      (start a b).explore d.signature budget fresh later =
        if steps ≤ budget then .found unifier fresh later else .cut fresh := by
  let layering : Layering d.signature :=
    { outside := fun v => ExposedIn d.signature a b (.var v)
      inside := fun v => d.signature.Flat v.sort ∨ ∃ call, ExposedIn d.signature a b call ∧
        d.signature.isCall call = true ∧ v ∈ call.vars
      flat := fun v out inner => inner.elim id fun ⟨call, exposed, applied, below⟩ =>
        unobstructed.apart v call out exposed applied below
      closed := fun _ => .inl }
  obtain ⟨readsLeft, valueLeft⟩ := Definition.evaluate_apply_eq_ok_iff.mp left
  obtain ⟨readsRight, valueRight⟩ := Definition.evaluate_apply_eq_ok_iff.mp right
  have clear {term : Term} (reads : term.Everywhere (d.Reads limit s))
      (among : ∀ part, part.Exposed d.signature term → ExposedIn d.signature a b part) :
      Clear d limit s layering term :=
    ⟨reads, fun v exposed => among _ exposed,
      fun call exposed applied v below => .inr ⟨call, among call exposed, applied, below⟩,
      fun call exposed applied v out => unobstructed.accepted v call _ out (among call exposed) applied
        (Definition.evaluate_apply_eq_ok_iff.mpr ⟨exposed.everywhere reads, rfl⟩)⟩
  have tracked : Tracked d limit s layering (start a b) :=
    { absorbs := fun _ => rfl
      images := nofun
      inside := fun v inner w occurs => List.mem_singleton.mp occurs ▸ inner
      equations := fun goal member => by
        obtain rfl := List.mem_singleton.mp member
        exact ⟨valueLeft.trans valueRight.symm, clear readsLeft fun _ => .inl, clear readsRight fun _ => .inr⟩
      settled := rfl }
  have proper {term : Term} (canonical : term.Canonical) (checked : d.signature.check term = .ok ())
      (bare : term.Within .bare) (among : ∀ v ∈ term.vars, v ∈ a.vars ++ b.vars) :
      term.Proper (scope d.signature (a.vars ++ b.vars)) :=
    ((Signature.proper_of_check canonical checked).and bare).and (.of_vars among)
  exact exists_found hooks grounding _
    (wellFormed_start
      (proper canonicalLeft checkedLeft bareLeft fun _ => List.mem_append_left _)
      (proper canonicalRight checkedRight bareRight fun _ => List.mem_append_right _)) tracked

end Unification

/-- For terms without collections whose function applications are not in the way: if some ground values of
the variables make the values of both terms the same, unification comes after some steps to a unifier all
of whose bindings and open equations hold for these values. -/
theorem unify_compatible {d : Definition} {limit : Nat} {s : Subst} {a b value : Term}
    (hooks : d.signature.HooksFunctions) (grounding : s.Grounding d.signature)
    (canonicalLeft : a.Canonical) (canonicalRight : b.Canonical)
    (checkedLeft : d.signature.check a = .ok ()) (checkedRight : d.signature.check b = .ok ())
    (bareLeft : a.Within .bare) (bareRight : b.Within .bare)
    (unobstructed : d.Unobstructed limit s a b) (left : d.evaluate limit (s.apply a) = .ok value)
    (right : d.evaluate limit (s.apply b) = .ok value) :
    ∃ steps, ∀ budget, steps ≤ budget → ∀ explore, unify d.signature budget a b = .ok explore →
      ∀ fresh, ∃ unifier, (explore fresh).Delivers unifier ∧ unifier.Compatible d limit s := by
  obtain ⟨unifier, steps, compatible, found⟩ := Unification.exists_found_start hooks grounding
    canonicalLeft canonicalRight checkedLeft checkedRight bareLeft bareRight unobstructed left right
  refine ⟨steps, fun budget enough explore started fresh => ⟨unifier, ?_, compatible⟩⟩
  rw [Unification.explore_eq_of_unify started]
  dsimp only
  rw [found, if_pos enough]
  exact .here _ _

section Boxes

/-- Boxes of a number, pairs of numbers, and the number that is in a box. -/
def boxes : Signature :=
  ⟨((Signature.builtin.labels.insert "box" (.constructor "box" [.int] (.named "Box"))).insert "pair"
    (.constructor "pair" [.int, .int] (.named "Pair"))).insert "content"
      (.functional "content" [.named "Box"] .int)⟩

def boxOf (number : Term) : Term :=
  .app "box" (.named "Box") [number]

def contentOf (box : Term) : Term :=
  .app "content" .int [box]

def numberPair (first second : Term) : Term :=
  .app "pair" (.named "Pair") [first, second]

/-- The content of a box is the number that it was made of. -/
def opening : Definition :=
  (Definition.empty boxes).add
    { label := "content", lhs := contentOf (boxOf (.var ⟨"N", .int⟩)), rhs := .var ⟨"N", .int⟩ }

/-- The box of a variable holds the number that another variable stands for. -/
def boxedFive : Subst :=
  (Subst.single ⟨"B", .named "Box"⟩ (boxOf (.token .int "5"))).insert ⟨"X", .int⟩ (.token .int "5")

private theorem boxes_declared : Signature.builtin.declareAll [.constructor "box" [.int] (.named "Box"),
    .constructor "pair" [.int, .int] (.named "Pair"), .functional "content" [.named "Box"] .int] =
      .ok boxes :=
  rfl

private theorem hooksFunctions_boxes : boxes.HooksFunctions :=
  Signature.hooksFunctions_builtin.declareAll (by decide) boxes_declared

private theorem boxes_int_function : ∀ entry ∈ boxes.labels.entries,
    entry.2.sort = .int → entry.2.function = true := by
  decide

/-- Only functions make numbers. -/
theorem flat_int : boxes.Flat .int := by
  refine ⟨by decide, fun label declared => ?_⟩
  obtain ⟨decl, found, sort⟩ := declared
  have function := boxes_int_function (label, decl) (Assoc.get?_eq_some_iff.mp found) sort
  rw [Signature.isFunction, found, Option.any_some]
  exact function

section Terms

variable {first second inner : Term}

theorem canonical_numberPair (left : first.Canonical) (right : second.Canonical) :
    (numberPair first second).Canonical :=
  .app _ _ (by simp [left, right])

theorem bare_numberPair (left : first.Within .bare) (right : second.Within .bare) :
    (numberPair first second).Within .bare :=
  Term.Everywhere.app_iff.mpr ⟨trivial, by simp [left, right]⟩

theorem canonical_contentOf (whole : inner.Canonical) : (contentOf inner).Canonical :=
  .app _ _ (by simp [whole])

theorem bare_contentOf (bare : inner.Within .bare) : (contentOf inner).Within .bare :=
  Term.Everywhere.app_iff.mpr ⟨trivial, by simp [bare]⟩

theorem bare_var (v : Variable) : Term.Within .bare (.var v) :=
  Term.Everywhere.var_iff.mpr trivial

end Terms

theorem grounding_boxedFive : boxedFive.Grounding boxes := by
  have each (image : Variable → Term → Prop)
      (box : image ⟨"B", .named "Box"⟩ (boxOf (.token .int "5")))
      (number : image ⟨"X", .int⟩ (.token .int "5")) (v : Variable) (term : Term)
      (bound : boxedFive.get? v = some term) : image v term := by
    rw [boxedFive, Assoc.get?_insert, Subst.get?_single] at bound
    split at bound
    · next same =>
      cases bound
      exact same ▸ number
    · split at bound
      · next same =>
        cases bound
        exact same ▸ box
      · cases bound
  exact ⟨each _ rfl rfl, each (fun _ term => term.Canonical) (.app _ _ (by simp [Term.Canonical.token]))
    (.token _ _), each (fun _ term => boxes.isValue term = true) (by decide +kernel) (by decide +kernel)⟩

end Boxes

/-- The content of a box is compared with a number, and left open, and with a variable, which is bound to
it. Both are right about the number 5. -/
theorem unify_compatible_boxedFive :
    let a := numberPair (contentOf (.var ⟨"B", .named "Box"⟩)) (.var ⟨"X", .int⟩)
    let b := numberPair (.token .int "5") (contentOf (.var ⟨"B", .named "Box"⟩))
    (a.Canonical ∧ b.Canonical ∧ boxes.check a = .ok () ∧ boxes.check b = .ok () ∧ a.Within .bare ∧
        b.Within .bare) ∧ boxedFive.Grounding boxes ∧ opening.Unobstructed 10 boxedFive a b ∧
      opening.Equalizes 10 boxedFive a b ∧
      ∃ steps, ∀ budget, steps ≤ budget → ∀ explore, unify boxes budget a b = .ok explore →
        ∀ fresh, ∃ unifier, (explore fresh).Delivers unifier ∧
          unifier.Compatible opening 10 boxedFive := by
  intro a b
  have canonicalLeft : a.Canonical := canonical_numberPair (canonical_contentOf (.var _)) (.var _)
  have canonicalRight : b.Canonical := canonical_numberPair (.token _ _) (canonical_contentOf (.var _))
  have bareLeft : a.Within .bare := bare_numberPair (bare_contentOf (bare_var _)) (bare_var _)
  have bareRight : b.Within .bare :=
    bare_numberPair (Term.Everywhere.token_iff.mpr trivial) (bare_contentOf (bare_var _))
  have function : boxes.isFunction "content" = true := by decide +kernel
  have exposed (part : Term) : Term.ExposedIn boxes a b part → part = a ∨ part = b ∨
      part = .var ⟨"X", .int⟩ ∨ part = .token .int "5" ∨
        part = contentOf (.var ⟨"B", .named "Box"⟩) := by
    simp only [Term.ExposedIn, a, b, numberPair, contentOf, Term.Exposed.app_iff, Term.Exposed.var_iff,
      Term.Exposed.token_iff, function, List.mem_cons, List.not_mem_nil, or_false, exists_eq_or_imp,
      exists_eq_left, Bool.true_eq_false, false_and]
    tauto
  have sole (v : Variable) (out : Term.ExposedIn boxes a b (.var v)) : v = ⟨"X", .int⟩ := by
    simpa [a, b, numberPair, contentOf] using exposed _ out
  have unobstructed : opening.Unobstructed 10 boxedFive a b := by
    refine ⟨fun v call out _ _ _ => ?_, fun v call value out inner applied _ _ => ?_⟩
    · rw [sole v out]
      exact flat_int
    · rw [sole v out]
      rcases exposed _ inner with rfl | rfl | rfl | rfl | rfl
      · exact absurd applied (by decide +kernel)
      · exact absurd applied (by decide +kernel)
      · exact absurd applied (by decide +kernel)
      · exact absurd applied (by decide +kernel)
      · rfl
  have left : opening.evaluate 10 (boxedFive.apply a) =
      .ok (numberPair (.token .int "5") (.token .int "5")) := by decide +kernel
  have right : opening.evaluate 10 (boxedFive.apply b) =
      .ok (numberPair (.token .int "5") (.token .int "5")) := by decide +kernel
  have checkedLeft : boxes.check a = .ok () := by decide +kernel
  have checkedRight : boxes.check b = .ok () := by decide +kernel
  exact ⟨⟨canonicalLeft, canonicalRight, checkedLeft, checkedRight, bareLeft, bareRight⟩, grounding_boxedFive,
    unobstructed, ⟨_, left, right⟩, @unify_compatible opening 10 boxedFive a b _ hooksFunctions_boxes
      grounding_boxedFive canonicalLeft canonicalRight checkedLeft checkedRight bareLeft bareRight unobstructed
      left right⟩

/-- A box may be the box of its own content. The occurs check refuses the equation, since the function is
not at the head of the term. -/
theorem unify_compatible_ownContent :
    let a := Term.var ⟨"B", .named "Box"⟩
    let b := boxOf (contentOf (.var ⟨"B", .named "Box"⟩))
    (a.Canonical ∧ b.Canonical ∧ boxes.check a = .ok () ∧ boxes.check b = .ok () ∧ a.Within .bare ∧
        b.Within .bare) ∧ boxedFive.Grounding boxes ∧ opening.Equalizes 10 boxedFive a b ∧
      ∀ budget, ∃ explore, unify boxes budget a b = .ok explore ∧
        ∀ fresh, ¬∃ unifier, (explore fresh).Yields unifier := by
  intro a b
  have canonical : b.Canonical := .app _ _ (List.forall_mem_singleton.mpr (canonical_contentOf (.var _)))
  have bare : b.Within .bare :=
    Term.Everywhere.app_iff.mpr ⟨trivial, List.forall_mem_singleton.mpr (bare_contentOf (bare_var _))⟩
  have failed : (Unification.start a b).advance boxes = .failed := rfl
  refine ⟨⟨.var _, canonical, rfl, by decide +kernel, Term.Everywhere.var_iff.mpr trivial, bare⟩,
    grounding_boxedFive, ⟨boxOf (.token .int "5"), by decide +kernel, by decide +kernel⟩,
    fun budget => ⟨_, rfl, fun fresh => ?_⟩⟩
  rintro ⟨unifier, yields⟩
  cases budget with
  | zero => cases yields
  | succ budget =>
    rw [Unification.Problem.explore, failed] at yields
    cases yields

end Reach
