import Reach.Proofs.Reconciliation
import Reach.Proofs.Unification

/-!
Unification is complete on terms without function applications, as far as no entries of sets and maps
merge. An assignment that solves a problem solves what a step makes of it; where pairings are to be
chosen from, it solves what one of them makes of it, once the frame that two frames share has a value.
So every assignment that makes two terms equal and merges no entries of theirs is an instance of a
unifier that is found.
-/

namespace Reach

namespace Unifiers

/-- The unifiers come to their end with this counter, where each counter is handed back as it was
received, and no branch runs out of budget. -/
inductive Ends (last : Fresh) : Unifiers → Prop
  | finished : Ends last (.finished last)
  | found (unifier : Unifier) (fresh : Fresh) {more : Fresh → Unifiers}
      (later : Ends last (more fresh)) : Ends last (.found unifier fresh more)

/-- A unifier that comes up, where each counter is handed back as it was received. -/
inductive Delivers (unifier : Unifier) : Unifiers → Prop
  | here (fresh : Fresh) (more : Fresh → Unifiers) : Delivers unifier (.found unifier fresh more)
  | later (other : Unifier) (fresh : Fresh) {more : Fresh → Unifiers}
      (later : Delivers unifier (more fresh)) : Delivers unifier (.found other fresh more)

theorem Delivers.yields {unifier : Unifier} {unifiers : Unifiers} (delivers : unifiers.Delivers unifier) :
    unifiers.Yields unifier := by
  induction delivers with
  | here fresh more => exact .here fresh more
  | later other fresh _ ih => exact .later other fresh fresh ih

end Unifiers

namespace Term

theorem Proper.mono {fragment fragment' : Fragment} {term : Term} (proper : Proper fragment term)
    (wider : ∀ node, fragment.allows node → fragment'.allows node) : Proper fragment' term :=
  ⟨proper.canonical, proper.within.mono wider, proper.shaped⟩

/-- Terms made of constructors and collections, with all their symbols but variables from a target. -/
structure Fragment.Decomposable (sig : Signature) (fragment target : Fragment) : Prop where
  free : ∀ label sort, fragment.label label sort → sig.isFunction label = false
  labelled : ∀ {label sort sort'}, fragment.label label sort → fragment.label label sort' →
    sort = sort'
  var : ∀ v, target.var v
  label : ∀ label sort, fragment.label label sort → target.label label sort
  token : ∀ sort value, fragment.token sort value → target.token sort value
  kind : ∀ kind, fragment.kind kind → target.kind kind

/-- Such terms whose collections are lists and bags. -/
structure Fragment.Constructed (sig : Signature) (fragment target : Fragment) : Prop
    extends fragment.Decomposable sig target where
  countable : ∀ kind, fragment.kind kind → kind.idempotent = false

theorem Fragment.Decomposable.proper {sig : Signature} {target fragment : Fragment} {term : Term}
    (decomposable : fragment.Decomposable sig target) (proper : Proper fragment term) :
    Proper target term := by
  refine proper.mono fun node allowed => ?_
  cases node with
  | var v => exact decomposable.var v
  | app label sort args => exact decomposable.label label sort allowed
  | token sort value => exact decomposable.token sort value allowed
  | collection kind entries frame => exact decomposable.kind kind allowed

theorem Fragment.Decomposable.isCall {sig : Signature} {target fragment : Fragment} {term : Term}
    (decomposable : fragment.Decomposable sig target) (proper : Proper fragment term) :
    sig.isCall term = false := by
  cases term with
  | app label sort args => exact decomposable.free label sort proper.within.here
  | _ => rfl

end Term

namespace Subst

variable {target : Term.Fragment} {s s' : Subst} {v : Variable} {term : Term}

/-- Every variable is bound to a term of its sort from the target. -/
structure Fitting (target : Term.Fragment) (s : Subst) : Prop where
  sorted : s.Sorted
  proper : ∀ v term, s.get? v = some term → term.Proper target

theorem Fitting.canonical (fitting : s.Fitting target) : s.Canonical :=
  fun v term found => (fitting.proper v term found).canonical

theorem Fitting.image (fitting : s.Fitting target) (allowed : target.var v) :
    (s.image v).Proper target := by
  cases found : s.get? v with
  | none =>
    rw [image_of_get?_none found]
    exact .var allowed
  | some term => simpa [Subst.image, found] using fitting.proper v term found

theorem Fitting.apply (fitting : s.Fitting target) (proper : term.Proper target) :
    (s.apply term).Proper target :=
  proper.apply fitting.canonical fitting.sorted fun _ occurs =>
    fitting.image (proper.within.var_of_mem occurs)

theorem Fitting.insert (fitting : s.Fitting target) (proper : term.Proper target)
    (accepted : v.sort.accepts term.sort = true) : Fitting target (Assoc.insert s v term) where
  sorted w bound found := by
    rw [Assoc.get?_insert] at found
    split at found
    · next same =>
      cases found
      exact same ▸ accepted
    · exact fitting.sorted w bound found
  proper w bound found := by
    rw [Assoc.get?_insert] at found
    split at found
    · cases found
      exact proper
    · exact fitting.proper w bound found

theorem image_congr (same : s'.get? v = s.get? v) : s'.image v = s.image v := by
  rw [Subst.image, Subst.image, same]

end Subst

namespace Unification

open Term

variable {sig : Signature} {target fragment : Fragment} {s s' : Subst} {p next : Problem}
  {goal : Goal} {goals : List Goal} {v w : Variable} {term : Term}

theorem equates_iff_apply (canonical : goal.1.Canonical) (canonical' : goal.2.Canonical) :
    s.algebra.Equates goal ↔ s.apply goal.1 = s.apply goal.2 := by
  rw [Algebra.Equates, Subst.apply_eq_fold_algebra s canonical,
    Subst.apply_eq_fold_algebra s canonical']

theorem fold_eq_of_agree (agree : ∀ v, fragment.var v → s'.get? v = s.get? v)
    (proper : term.Proper fragment) : term.fold s'.algebra = term.fold s.algebra :=
  Subst.fold_algebra_congr fun v occurs =>
    Subst.image_congr (agree v (proper.within.var_of_mem occurs))

/-- Sorts that accept one sort accept one another. -/
theorem accepts_or_accepts {first second common : TermSort} (accepted : first.accepts common = true)
    (accepted' : second.accepts common = true) :
    first.accepts second = true ∨ second.accepts first = true := by
  simp only [TermSort.accepts, Bool.or_eq_true, beq_iff_eq] at *
  rcases accepted with rfl | rfl
  · rcases accepted' with rfl | rfl
    · exact .inl (.inl rfl)
    · exact .inr (.inr rfl)
  · exact .inl (.inr rfl)

namespace Problem

/-- An assignment solves a problem in which nothing is left open, and merges no entries in it. -/
structure Solved (s : Subst) (p : Problem) : Prop where
  absorbs : s.algebra.Absorbs p.subst
  separates : ∀ v, s.algebra.Separates (p.subst.image v)
  settles : ∀ goal ∈ p.equations, Settles s.algebra goal
  closed : p.residual = []

theorem Solved.addGoals (solved : p.Solved s) (settles : ∀ goal ∈ goals, Settles s.algebra goal) :
    (p.addGoals goals).Solved s :=
  { solved with
    settles := fun goal member => by
      rcases mem_equations_addGoals.mp member with member | member
      · exact solved.settles goal member
      · exact settles goal member }

/-- What an assignment settles is settled as well once the bindings are applied. -/
theorem Solved.settles_apply (solved : p.Solved s) (fitting : s.Fitting target)
    (wellFormed : p.WellFormed fragment) (admitted : fragment.Admits goal)
    (settles : Settles s.algebra goal) :
    Settles s.algebra (p.subst.apply goal.1, p.subst.apply goal.2) := by
  have normalizing := fitting.canonical.normalizing
  have absorbed (term : Term) := solved.absorbs.fold_apply normalizing term
  have apart {term : Term} (proper : term.Proper fragment) (separates : s.algebra.Separates term) :=
    separates.apply_absorbed normalizing solved.absorbs wellFormed.canonical solved.separates
      proper.canonical
  refine ⟨?_, apart admitted.1 settles.left, apart admitted.2 settles.right⟩
  rw [Algebra.Equates, absorbed, absorbed]
  exact settles.equates

/-- Assignments that agree on the variables of a goal settle it alike. -/
theorem settles_congr (agree : ∀ v, fragment.var v → s'.get? v = s.get? v)
    (admitted : fragment.Admits goal) (settles : Settles s.algebra goal) : Settles s'.algebra goal := by
  have same {term : Term} (proper : term.Proper fragment) : ∀ v ∈ term.vars, s.image v = s'.image v :=
    fun v occurs => (Subst.image_congr (agree v (proper.within.var_of_mem occurs))).symm
  refine ⟨?_, settles.left.congr (same admitted.1), settles.right.congr (same admitted.2)⟩
  rw [Algebra.Equates, fold_eq_of_agree agree admitted.1, fold_eq_of_agree agree admitted.2]
  exact settles.equates

/-- Assignments that agree on the variables of a problem solve it alike. -/
theorem Solved.congr (wellFormed : p.WellFormed fragment)
    (agree : ∀ v, fragment.var v → s'.get? v = s.get? v) (solved : p.Solved s) : p.Solved s' where
  absorbs v := by
    cases found : p.subst.get? v with
    | none =>
      rw [Subst.image_of_get?_none found]
      rfl
    | some term =>
      obtain ⟨allowed, _⟩ := wellFormed.bound v term found
      rw [fold_eq_of_agree agree (wellFormed.image allowed), solved.absorbs v]
      exact (Subst.image_congr (agree v allowed)).symm
  separates v := by
    cases found : p.subst.get? v with
    | none =>
      rw [Subst.image_of_get?_none found]
      exact Everywhere.var_iff.mpr trivial
    | some term =>
      obtain ⟨allowed, _⟩ := wellFormed.bound v term found
      exact (solved.separates v).congr fun w occurs =>
        (Subst.image_congr (agree w ((wellFormed.image allowed).within.var_of_mem occurs))).symm
  settles goal member := settles_congr agree (wellFormed.equations goal member) (solved.settles goal member)
  closed := solved.closed

private theorem exists_orient (fitting : s.Fitting target) (canonical : term.Canonical)
    (same : s.image v = s.apply term) : ∃ w image, orient v term = some (w, image) := by
  have accepted := fitting.sorted.image v
  rw [same] at accepted
  unfold orient
  cases inner : term.var? with
  | none =>
    rw [Subst.sort_apply canonical inner] at accepted
    exact ⟨v, term, if_pos accepted⟩
  | some w =>
    cases term with
    | var x =>
      rw [Subst.apply_var_eq] at accepted
      split
      · exact ⟨v, .var x, rfl⟩
      · next refused =>
        have narrower : x.sort.accepts v.sort = true :=
          (accepts_or_accepts accepted (fitting.sorted.image x)).resolve_left refused
        exact ⟨x, .var v, if_pos narrower⟩
    | _ => cases inner

theorem bind_complete (fitting : s.Fitting target)
    (free : p.subst.get? v = none) (unbound : ∀ w ∈ term.vars, p.subst.get? w = none)
    (proper : term.Proper fragment) (separates : s.algebra.Separates term) (differ : term ≠ .var v)
    (canonical : p.subst.Canonical) (solved : p.Solved s) (same : s.image v = s.apply term) :
    ∃ next, p.bind sig v term = some next ∧ next.Solved s := by
  obtain ⟨w, image, oriented⟩ := exists_orient fitting proper.canonical same
  obtain ⟨_, shape⟩ := orient_eq_some oriented
  have facts : p.subst.get? w = none ∧ image.Canonical ∧ image ≠ .var w ∧
      s.image w = s.apply image ∧ s.algebra.Separates image := by
    rcases shape with ⟨rfl, rfl⟩ | ⟨rfl, rfl⟩
    · exact ⟨free, proper.canonical, differ, same, separates⟩
    · rw [Subst.apply_var_eq] at same ⊢
      exact ⟨unbound w (by simp), .var v, fun equal => differ equal.symm, same.symm,
        Everywhere.var_iff.mpr trivial⟩
  obtain ⟨freeVar, whole, proper', image', apart⟩ := facts
  have solution : s.algebra.var w = image.fold s.algebra := by
    rw [← Subst.apply_eq_fold_algebra s whole]
    exact image'
  have absent : image.mentions w = false := by
    rw [Bool.eq_false_iff, Ne, ← mem_vars_iff_mentions]
    intro occurs
    rcases eq_var_or_size_lt whole fitting.canonical apart occurs with equal | smaller
    · exact proper' equal
    · rw [← solution] at smaller
      exact Nat.lt_irrefl _ smaller
  have normalizing := fitting.canonical.normalizing
  have eliminated : ∀ v, s.algebra.Separates ((Subst.single w image).image v) := by
    intro v
    rw [Subst.image_single]
    split
    · exact apart
    · exact Everywhere.var_iff.mpr trivial
  refine ⟨{ p with subst := p.subst.compose (.single w image) }, ?_, ?_, fun v => ?_, solved.settles,
    solved.closed⟩
  · simp [Problem.bind, oriented, absent]
  · exact (Subst.absorbs_compose_single_iff normalizing freeVar).mpr ⟨solved.absorbs, solution⟩
  · rw [Subst.image_compose]
    exact (solved.separates v).apply_absorbed normalizing (Subst.absorbs_single solution)
      (.single whole) eliminated (canonical.image v)

/-- Two terms with the same outermost symbol. -/
inductive SameHead : Term → Term → Prop
  | token (sort : TermSort) (value : String) : SameHead (.token sort value) (.token sort value)
  | app (label : String) (sort : TermSort) (args args' : List Term) :
      SameHead (.app label sort args) (.app label sort args')
  | collection (kind : Kind) (entries entries' : List (Entry Term)) (frame frame' : Option Term) :
      SameHead (.collection kind entries frame) (.collection kind entries' frame')

/-- Different heads clash: two terms that an assignment makes the same have the same outermost symbol,
unless one of them is a variable. -/
theorem sameHead_of_apply_eq {a b : Term} (canonical : a.Canonical) (canonical' : b.Canonical)
    (notVar : ∀ v, a ≠ .var v) (notVar' : ∀ v, b ≠ .var v) (same : s.apply a = s.apply b) :
    SameHead a b := by
  have kinds : a.kind? = b.kind? := by
    rw [← Subst.kind?_apply_of_ne_var canonical notVar, same, Subst.kind?_apply_of_ne_var canonical' notVar']
  cases a with
  | var v => exact absurd rfl (notVar v)
  | token sort value =>
    rw [Subst.apply_token_eq] at same
    cases b with
    | var v => exact absurd rfl (notVar' v)
    | token sort' value' =>
      rw [Subst.apply_token_eq] at same
      cases same
      exact .token sort value
    | app label sort' args =>
      rw [Subst.apply_app_eq] at same
      cases same
    | collection kind entries frame => cases kinds
  | app label sort args =>
    rw [Subst.apply_app_eq] at same
    cases b with
    | var v => exact absurd rfl (notVar' v)
    | token sort' value =>
      rw [Subst.apply_token_eq] at same
      cases same
    | app label' sort' args' =>
      rw [Subst.apply_app_eq] at same
      obtain ⟨rfl, rfl, _⟩ := Term.app.inj same
      exact .app label sort args args'
    | collection kind entries frame => cases kinds
  | collection kind entries frame =>
    cases b with
    | collection kind' entries' frame' =>
      obtain rfl := Option.some.inj kinds
      exact .collection kind entries entries' frame frame'
    | var v => exact absurd rfl (notVar' v)
    | _ => cases kinds

/-- The arguments of two applications that an assignment settles. -/
theorem settles_args {label : String} {sort : TermSort} {args args' : List Term}
    (proper : (Term.app label sort args).Proper fragment)
    (proper' : (Term.app label sort args').Proper fragment)
    (same : s.apply (.app label sort args) = s.apply (.app label sort args'))
    (apart : s.algebra.Separates (.app label sort args))
    (apart' : s.algebra.Separates (.app label sort args')) :
    args.length = args'.length ∧ ∀ pair ∈ args.zip args', Settles s.algebra pair := by
  rw [Subst.apply_app_eq, Subst.apply_app_eq] at same
  obtain ⟨_, _, parts⟩ := Term.app.inj same
  have aligned : args.length = args'.length := by simpa using congrArg List.length parts
  refine ⟨aligned, fun pair member => ?_⟩
  have inside := List.of_mem_zip member
  refine ⟨(equates_iff_apply (proper.of_app _ inside.1).canonical
    (proper'.of_app _ inside.2).canonical).mpr ?_, ?_, ?_⟩
  · exact (Pairing.map_eq_iff_forall_zip aligned).mp parts pair member
  · exact (Everywhere.app_iff.mp apart).2 _ inside.1
  · exact (Everywhere.app_iff.mp apart').2 _ inside.2

/-- A goal that is settled may wait. -/
theorem Solved.defer (solved : p.Solved s) (settles : Settles s.algebra goal) :
    Solved s { p with deferred := p.deferred ++ [goal] } :=
  { solved with
    settles := fun other member => by
      have cases : other ∈ p.equations ∨ other = goal := by
        simp only [equations, List.mem_append, List.mem_singleton] at member ⊢
        tauto
      rcases cases with member | rfl
      · exact solved.settles other member
      · exact settles }

/-- A goal that an assignment solves can be decomposed. -/
theorem step_complete (decomposable : fragment.Decomposable sig target) (fitting : s.Fitting target)
    (wellFormed : p.WellFormed fragment) (admitted : fragment.Admits goal) (solved : p.Solved s)
    (settles : Settles s.algebra goal) : ∃ next, p.step sig goal = some next ∧ next.Solved s := by
  have properLeft := wellFormed.apply admitted.1
  have properRight := wellFormed.apply admitted.2
  have unboundLeft := fun v (occurs : v ∈ (p.subst.apply goal.1).vars) =>
    wellFormed.idempotent.get?_of_mem_apply occurs
  have unboundRight := fun v (occurs : v ∈ (p.subst.apply goal.2).vars) =>
    wellFormed.idempotent.get?_of_mem_apply occurs
  obtain ⟨equates, apartLeft, apartRight⟩ := solved.settles_apply fitting wellFormed admitted settles
  have same := (equates_iff_apply properLeft.canonical properRight.canonical).mp equates
  unfold Problem.step
  dsimp only
  generalize p.subst.apply goal.1 = a at *
  generalize p.subst.apply goal.2 = b at *
  split
  · exact ⟨p, rfl, solved⟩
  next differ =>
  split
  · next v =>
    rw [Subst.apply_var_eq] at same
    exact bind_complete fitting (unboundLeft v (by simp)) unboundRight properRight apartRight
      (fun equal => differ equal.symm) wellFormed.canonical solved same
  · next v _ =>
    rw [Subst.apply_var_eq] at same
    exact bind_complete fitting (unboundRight v (by simp)) unboundLeft properLeft apartLeft differ
      wellFormed.canonical solved same.symm
  · next noVarLeft noVarRight =>
    rw [decomposable.isCall properLeft, decomposable.isCall properRight]
    simp only [Bool.or_self, Bool.false_eq_true, ↓reduceIte]
    have head := sameHead_of_apply_eq properLeft.canonical properRight.canonical noVarLeft noVarRight same
    cases head with
    | token sort value => exact absurd rfl differ
    | app label sort args args' =>
      obtain ⟨aligned, settled⟩ := settles_args properLeft properRight same apartLeft apartRight
      exact ⟨p.addGoals (args.zip args'), if_pos ⟨rfl, aligned⟩, solved.addGoals settled⟩
    | collection kind entries entries' frame frame' =>
      exact ⟨_, if_pos rfl, solved.defer ⟨equates, apartLeft, apartRight⟩⟩

end Problem

section Branches

variable {c : Choice} {pairing : List Nat × List Nat} {common : List (Entry Term)} {fresh : Fresh}

/-- Some way on leads to a problem that is solved by an assignment which agrees with the given one on
the variables of the fragment. -/
def Progress.Keeps (target fragment : Fragment) (s : Subst) : Progress → Prop
  | .solved unifier => unifier.residual = [] ∧ s.algebra.Absorbs unifier.subst
  | .failed => False
  | .next problem => problem.Solved s
  | .choose c => ∃ pairing ∈ c.pairings.toList, ∀ fresh,
      ∃ next, (c.branch pairing fresh).1 = some next ∧
        ((∀ v, c.Draws fresh v → ¬fragment.var v) → ∃ s' : Subst, s'.Fitting target ∧
          (∀ v, fragment.var v → s'.get? v = s.get? v) ∧ next.Solved s')

theorem map_fold_eq_of_agree {kind : Kind} {entries : List (Entry Term)}
    (agree : ∀ v, fragment.var v → s'.get? v = s.get? v)
    (proper : ProperEntries fragment kind entries) :
    entries.map (Entry.map (fold s'.algebra)) = entries.map (Entry.map (fold s.algebra)) :=
  List.map_congr_left fun entry member => Entry.map_congr fun part inside =>
    fold_eq_of_agree agree (proper.parts entry member part inside)

section Sharing

/-- The assignment that gives this value to the frame that two frames share. -/
def Choice.sharing (c : Choice) (fresh : Fresh) (s : Subst) (value : Term) : Subst :=
  Assoc.insert s (c.shared fresh) value

variable {frame frame' value : Term} {entries : List (Entry Term)} {last : Option Term}

theorem fold_shared : (Term.var (c.shared fresh)).fold (c.sharing fresh s value).algebra = value := by
  simp [Choice.sharing, Subst.algebra, Subst.image, Assoc.get?_insert]

/-- The assignment is not changed on variables that are not drawn here. -/
theorem agree_sharing (shapeLeft : c.leftFrame = some frame) (shapeRight : c.rightFrame = some frame')
    (unknown : ∀ v, c.Draws fresh v → ¬fragment.var v) (value : Term) :
    ∀ v, fragment.var v → (c.sharing fresh s value).get? v = s.get? v := by
  intro v allowed
  rw [Choice.sharing, Assoc.get?_insert, if_neg]
  rintro rfl
  exact unknown _ ⟨by rw [shapeLeft]; rfl, by rw [shapeRight]; rfl, rfl⟩ allowed

/-- What two frames have in common, as a value for the frame that they share. -/
theorem proper_common (decomposable : fragment.Decomposable sig target) (fitting : s.Fitting target)
    (wellFormed : c.WellFormed fragment) (shape : c.leftFrame = some frame)
    (inside : ∀ entry ∈ common, entry ∈ (contents c.kind (frame.fold s.algebra)).1) :
    (normalized c.kind common (contents c.kind (frame.fold s.algebra)).2).Proper target ∧
      (normalized c.kind common (contents c.kind (frame.fold s.algebra)).2).sort = c.kind.sort := by
  have proper := wellFormed.leftFrame.proper frame shape
  have sorted : (s.apply frame).sort = c.kind.sort :=
    sort_eq_of_accepts (wellFormed.leftFrame.sorts frame shape ▸ fitting.sorted.apply proper.canonical)
  rw [← Subst.apply_eq_fold_algebra s proper.canonical] at inside ⊢
  obtain ⟨entries, last⟩ := (fitting.apply (decomposable.proper proper)).contents sorted
  refine ⟨.normalized (decomposable.kind _ wellFormed.kind) (entries.subset inside) last,
    sort_normalized last.sorts fun rest member => ?_⟩
  exact (last.proper rest member).canonical

variable (fitting : Subst.Fitting target (c.sharing fresh s (normalized c.kind common last)))
  (agree : ∀ v, fragment.var v →
    (c.sharing fresh s (normalized c.kind common last)).get? v = s.get? v)
  (inner : ProperEntries fragment c.kind entries)
include fitting agree inner

/-- Entries before the shared frame have what is shared behind them. -/
theorem fold_before_shared :
    (normalized c.kind entries (some (.var (c.shared fresh)))).fold
        (c.sharing fresh s (normalized c.kind common last)).algebra =
      normalized c.kind (entries.map (Entry.map (fold s.algebra)) ++ common) last := by
  rw [fitting.canonical.normalizing.fold_normalized, map_fold_eq_of_agree agree inner, Option.map_some,
    fold_shared, normalized_nested]

/-- What is taken out of the other side, and what is shared, come from one frame, in which no entries
merge. -/
theorem separates_before_shared (closed : ∀ rest ∈ last, rest.kind? ≠ some c.kind)
    (parts : ∀ entry ∈ entries, ∀ part ∈ entry.parts, s.algebra.Separates part)
    (distinct : c.kind.Distinct (entries.map (Entry.map (fold s.algebra)) ++ common)) :
    (c.sharing fresh s (normalized c.kind common last)).algebra.Separates
      (normalized c.kind entries (some (.var (c.shared fresh)))) := by
  refine .normalized fitting.canonical.normalizing (fun entry member part inside => ?_) ?_ ?_ ?_
  · exact (parts entry member part inside).congr fun v occurs => (Subst.image_congr
      (agree v ((inner.parts entry member part inside).within.var_of_mem occurs))).symm
  · exact fun _ same => by cases same; exact .var _
  · exact fun _ same => by cases same; exact Everywhere.var_iff.mpr trivial
  · refine Algebra.distinct_spread_var fold_shared closed ?_
    rw [map_fold_eq_of_agree agree inner]
    exact distinct

/-- A frame takes what is left of the other side, and what is shared behind it. -/
theorem settles_shared (normalizing : s.algebra.Normalizing) (unordered : c.kind.ordered = false)
    (proper : frame.Proper fragment) (separates : s.algebra.Separates frame)
    (alone : c.kind.Distinct (s.algebra.spread c.kind [] (some frame)))
    (parts : ∀ entry ∈ entries, ∀ part ∈ entry.parts, s.algebra.Separates part)
    (takes : (splice c.kind [] (some (frame.fold s.algebra))).1.Perm
      (entries.map (Entry.map (fold s.algebra)) ++ common))
    (opened : (splice c.kind [] (some (frame.fold s.algebra))).2 = last) :
    Settles (c.sharing fresh s (normalized c.kind common last)).algebra
      (frame, normalized c.kind entries (some (.var (c.shared fresh)))) := by
  have closed : ∀ rest ∈ last, rest.kind? ≠ some c.kind := by
    rw [← opened, splice_some]
    exact fun _ => kind?_of_mem_contents
  refine ⟨?_, ?_, separates_before_shared fitting agree inner closed parts (alone.perm takes)⟩
  · rw [Algebra.Equates, fold_before_shared fitting agree inner, fold_eq_of_agree agree proper, ← opened]
    exact eq_normalized_of_perm (normalizing.canonical frame) unordered takes
  · exact separates.congr fun v occurs =>
      (Subst.image_congr (agree v (proper.within.var_of_mem occurs))).symm

end Sharing

section Frames

variable (decomposable : fragment.Decomposable sig target) (fitting : s.Fitting target)
  (wellFormed : c.WellFormed fragment) (settles : Settles s.algebra c.goal)
  (fits : Fits s.algebra c.kind c.left c.right c.leftFrame c.rightFrame pairing common)
include fitting wellFormed settles fits

/-- A frame alone takes what is left of the other side, and no name is drawn. -/
theorem frameGoals_complete_one (missing : c.leftFrame = none ∨ c.rightFrame = none) :
    ∀ goal ∈ (c.frameGoals (Pairing.remaining c.left pairing.1)
      (Pairing.remaining c.right pairing.2) fresh).1, Settles s.algebra goal := by
  have normalizing := fitting.canonical.normalizing
  have apartLeft : s.algebra.Separates (.collection c.kind c.left c.leftFrame) := settles.left
  have apartRight : s.algebra.Separates (.collection c.kind c.right c.rightFrame) := settles.right
  have remainsLeft := apartLeft.subperm (Pairing.remaining_sublist c.left pairing.1).subperm
  have remainsRight := apartRight.subperm (Pairing.remaining_sublist c.right pairing.2).subperm
  have takes {frame : Term} {entries : List (Entry Term)}
      (perm : (splice c.kind [] (some (frame.fold s.algebra))).1.Perm entries) :
      frame.fold s.algebra =
        normalized c.kind entries (splice c.kind [] (some (frame.fold s.algebra))).2 :=
    eq_normalized_of_perm (normalizing.canonical frame) wellFormed.unordered perm
  obtain ⟨rfl, opened⟩ := fits.common_eq_nil missing
  cases shapeLeft : c.leftFrame with
  | none =>
    cases shapeRight : c.rightFrame with
    | none => simp [Choice.frameGoals, shapeLeft, shapeRight]
    | some frame =>
      have takesLeft := fits.takesLeft
      rw [fits.opened, shapeRight] at opened
      rw [shapeRight, List.append_nil] at takesLeft
      rw [shapeLeft] at remainsLeft
      simp only [Choice.frameGoals, shapeLeft, shapeRight, List.forall_mem_singleton]
      refine ⟨?_, apartRight.last frame shapeRight, remainsLeft.of_collection normalizing
        fun _ member => by cases member⟩
      rw [Algebra.Equates, normalizing.fold_normalized]
      exact (takes takesLeft).trans (congrArg _ opened)
  | some frame =>
    have shapeRight : c.rightFrame = none := missing.resolve_left (by simp [shapeLeft])
    have takesRight := fits.takesRight
    rw [shapeLeft] at opened
    rw [shapeLeft, List.append_nil] at takesRight
    rw [shapeRight] at remainsRight
    simp only [Choice.frameGoals, shapeLeft, shapeRight, List.forall_mem_singleton]
    refine ⟨?_, apartLeft.last frame shapeLeft, remainsRight.of_collection normalizing
      fun _ member => by cases member⟩
    rw [Algebra.Equates, normalizing.fold_normalized]
    exact (takes takesRight).trans (congrArg _ opened)

include decomposable

/-- Two frames have what is left of the other sides, and the frame that they share has what they have in
common. -/
theorem frameGoals_complete_both {frame frame' : Term} (shapeLeft : c.leftFrame = some frame)
    (shapeRight : c.rightFrame = some frame') (unknown : ∀ v, c.Draws fresh v → ¬fragment.var v) :
    ∃ s' : Subst, s'.Fitting target ∧ (∀ v, fragment.var v → s'.get? v = s.get? v) ∧
      ∀ goal ∈ (c.frameGoals (Pairing.remaining c.left pairing.1)
        (Pairing.remaining c.right pairing.2) fresh).1, Settles s'.algebra goal := by
  have normalizing := fitting.canonical.normalizing
  have apartLeft : s.algebra.Separates (.collection c.kind c.left c.leftFrame) := settles.left
  have apartRight : s.algebra.Separates (.collection c.kind c.right c.rightFrame) := settles.right
  have partsLeft := (apartLeft.subperm (Pairing.remaining_sublist c.left pairing.1).subperm).parts
  have partsRight := (apartRight.subperm (Pairing.remaining_sublist c.right pairing.2).subperm).parts
  have alone {entries : List (Entry Term)} {frame : Option Term}
      (separates : s.algebra.Separates (.collection c.kind entries frame)) :
      c.kind.Distinct (s.algebra.spread c.kind [] frame) :=
    (separates.subperm List.nil_subperm).here
  have aloneLeft := alone apartLeft
  have aloneRight := alone apartRight
  obtain ⟨_, takesRight, takesLeft, opened⟩ := fits
  rw [shapeLeft] at takesRight opened aloneLeft
  rw [shapeRight] at takesLeft opened aloneRight
  have among : ∀ entry ∈ common, entry ∈ (contents c.kind (frame.fold s.algebra)).1 := by
    intro entry member
    have brought := takesRight.mem_iff.mpr (List.mem_append_right _ member)
    rwa [Option.map_some, splice_some] at brought
  obtain ⟨proper, sorted⟩ := proper_common decomposable fitting wellFormed shapeLeft among
  have agree := agree_sharing (s := s) shapeLeft shapeRight unknown
    (normalized c.kind common (contents c.kind (frame.fold s.algebra)).2)
  have fitting' := fitting.insert (v := c.shared fresh) proper (by
    rw [sorted]
    exact TermSort.accepts_self _)
  refine ⟨_, fitting', agree, ?_⟩
  rw [frameGoals_both shapeLeft shapeRight, List.forall_mem_cons, List.forall_mem_singleton]
  constructor
  · have inner : ProperEntries fragment c.kind (Pairing.remaining c.right pairing.2) :=
      wellFormed.right.subset fun _ => Pairing.mem_remaining
    exact settles_shared fitting' agree inner normalizing wellFormed.unordered
      (wellFormed.leftFrame.proper frame shapeLeft) (apartLeft.last frame shapeLeft) aloneLeft partsRight
      takesRight rfl
  · have inner : ProperEntries fragment c.kind (Pairing.remaining c.left pairing.1) :=
      wellFormed.left.subset fun _ => Pairing.mem_remaining
    exact settles_shared fitting' agree inner normalizing wellFormed.unordered
      (wellFormed.rightFrame.proper frame' shapeRight) (apartRight.last frame' shapeRight) aloneRight
      partsLeft takesLeft opened.symm

/-- The goals for the frames are solved, once a frame that is shared has what the frames have in common. -/
theorem frameGoals_complete (unknown : ∀ v, c.Draws fresh v → ¬fragment.var v) :
    ∃ s' : Subst, s'.Fitting target ∧ (∀ v, fragment.var v → s'.get? v = s.get? v) ∧
      ∀ goal ∈ (c.frameGoals (Pairing.remaining c.left pairing.1)
        (Pairing.remaining c.right pairing.2) fresh).1, Settles s'.algebra goal := by
  cases shapeLeft : c.leftFrame with
  | none =>
    exact ⟨s, fitting, fun _ _ => rfl,
      frameGoals_complete_one fitting wellFormed settles fits (.inl shapeLeft)⟩
  | some frame =>
    cases shapeRight : c.rightFrame with
    | none =>
      exact ⟨s, fitting, fun _ _ => rfl,
        frameGoals_complete_one fitting wellFormed settles fits (.inr shapeRight)⟩
    | some frame' =>
      exact frameGoals_complete_both decomposable fitting wellFormed settles fits shapeLeft shapeRight
        unknown

end Frames

private theorem branch_complete (decomposable : fragment.Decomposable sig target)
    (fitting : s.Fitting target) (wellFormed : c.WellFormed fragment)
    (base : c.base.WellFormed fragment) (solved : c.base.Solved s) (settles : Settles s.algebra c.goal)
    (fits : Fits s.algebra c.kind c.left c.right c.leftFrame c.rightFrame pairing common)
    (fresh : Fresh) :
    ∃ next, (c.branch pairing fresh).1 = some next ∧
      ((∀ v, c.Draws fresh v → ¬fragment.var v) → ∃ s' : Subst, s'.Fitting target ∧
        (∀ v, fragment.var v → s'.get? v = s.get? v) ∧ next.Solved s') := by
  obtain ⟨goals, paired, equates⟩ := Pairing.forall_map_eq_map_iff.mp fits.paired
  have inLeft : ∀ pair ∈ Pairing.paired c.left c.right pairing, pair.1 ∈ c.left :=
    fun pair member => Pairing.mem_of_mem_select (List.of_mem_zip member).1
  have inRight : ∀ pair ∈ Pairing.paired c.left c.right pairing, pair.2 ∈ c.right :=
    fun pair member => Pairing.mem_of_mem_select (List.of_mem_zip member).2
  have admitted : ∀ goal ∈ goals, fragment.Admits goal :=
    forall_of_allGoals (·.Proper fragment) paired
      (fun pair member => wellFormed.left.parts _ (inLeft pair member))
      fun pair member => wellFormed.right.parts _ (inRight pair member)
  have apart := forall_of_allGoals s.algebra.Separates paired
    (fun pair member => settles.left.parts _ (inLeft pair member))
    fun pair member => settles.right.parts _ (inRight pair member)
  have made : (c.branch pairing fresh).1 = some (c.base.addGoals (goals ++ (c.frameGoals
      (Pairing.remaining c.left pairing.1) (Pairing.remaining c.right pairing.2) fresh).1)) := by
    rw [Pairing.paired] at paired
    simp only [Choice.branch, paired]
  refine ⟨_, made, fun unknown => ?_⟩
  obtain ⟨s', fitting', agree, frames⟩ :=
    frameGoals_complete decomposable fitting wellFormed settles fits unknown
  have front : ∀ goal ∈ goals, Settles s'.algebra goal := by
    intro goal member
    obtain ⟨left, right⟩ := apart goal member
    exact Problem.settles_congr agree (admitted goal member) ⟨equates goal member, left, right⟩
  exact ⟨s', fitting', agree,
    (solved.congr base agree).addGoals (List.forall_mem_append.mpr ⟨front, frames⟩)⟩

end Branches

namespace Problem

theorem WellFormed.addGoals (wellFormed : p.WellFormed fragment)
    (admitted : ∀ goal ∈ goals, fragment.Admits goal) : (p.addGoals goals).WellFormed fragment :=
  { wellFormed with
    equations := fun goal member => by
      rcases mem_equations_addGoals.mp member with member | member
      · exact wellFormed.equations goal member
      · exact admitted goal member }

private theorem expandUnordered_complete {kind : Kind} {left right : List (Entry Term)}
    {leftFrame rightFrame : Option Term} (decomposable : fragment.Decomposable sig target)
    (fitting : s.Fitting target) (wellFormed : p.WellFormed fragment) (unordered : kind.ordered = false)
    (admitted : fragment.Admits (.collection kind left leftFrame, .collection kind right rightFrame))
    (solved : p.Solved s)
    (settles : Settles s.algebra (.collection kind left leftFrame, .collection kind right rightFrame)) :
    (p.expandUnordered kind left right leftFrame rightFrame).Keeps target fragment s := by
  have normalizing := fitting.canonical.normalizing
  obtain ⟨properLeft, properRight⟩ := admitted
  obtain ⟨c, cancelled⟩ := exists_cancel properLeft.of_entries.shapes properRight.of_entries.shapes
  obtain ⟨values, between⟩ := settles.cancel normalizing unordered properLeft.of_entries.shapes
    properRight.of_entries.shapes cancelled
  obtain ⟨pairs, spec⟩ := Pairing.exists_cancels cancelled
  obtain ⟨goals, left', right'⟩ := c
  have base : (p.addGoals goals).WellFormed fragment := by
    refine wellFormed.addGoals fun goal member => ?_
    obtain ⟨pair, present, inLeft, inRight⟩ := spec.mem_goals member
    have here : pair.1 ∈ left :=
      spec.left.mem_iff.mpr (List.mem_append_left _ (List.mem_map_of_mem present))
    have there : pair.2 ∈ right :=
      spec.right.mem_iff.mpr (List.mem_append_left _ (List.mem_map_of_mem present))
    exact ⟨properLeft.of_entries.parts _ here _ inLeft, properRight.of_entries.parts _ there _ inRight⟩
  unfold Problem.expandUnordered
  simp only [cancelled]
  cases made : pairings left'.length right'.length leftFrame.isSome rightFrame.isSome with
  | some candidates =>
    obtain ⟨pairing, listed, common, fits⟩ := between.exists_pairing normalizing made
    refine ⟨pairing, listed,
      branch_complete decomposable fitting ?_ base (solved.addGoals values) between fits⟩
    refine ⟨unordered, properLeft.within.here, properLeft.of_entries.subset fun entry member => ?_,
      properRight.of_entries.subset fun entry member => ?_, properLeft.of_frame, properRight.of_frame,
      fun pairing member => ?_⟩
    · exact spec.left.mem_iff.mpr (List.mem_append_right _ member)
    · exact spec.right.mem_iff.mpr (List.mem_append_right _ member)
    · exact injection_of_mem_pairings made
        ((Pairing.representatives_sublist left' right' candidates).subset member)
  | none =>
    obtain ⟨rfl, rfl, _⟩ := pairings_eq_none made
    dsimp only
    split
    · refine (solved.addGoals values).addGoals (List.forall_mem_singleton.mpr ⟨?_, ?_, ?_⟩)
      · exact (between.reconciles normalizing).equates_getD normalizing
      · exact between.left.last _ rfl
      · exact between.right.last _ rfl
    · exact solved.addGoals values

private theorem expand_complete (decomposable : fragment.Decomposable sig target) (fitting : s.Fitting target)
    (wellFormed : p.WellFormed fragment) (admitted : fragment.Admits goal) (solved : p.Solved s)
    (settles : Settles s.algebra goal) : (p.expand goal).Keeps target fragment s := by
  have properLeft := wellFormed.apply admitted.1
  have properRight := wellFormed.apply admitted.2
  have applied := solved.settles_apply fitting wellFormed admitted settles
  unfold Problem.expand
  generalize p.subst.apply goal.1 = a at *
  generalize p.subst.apply goal.2 = b at *
  split
  · split
    · next equal =>
      subst equal
      split
      · next ordered =>
        obtain ⟨goals, made, settled⟩ := expandOrdered_complete fitting.canonical.normalizing ordered
          properLeft.canonical.of_frame properRight.canonical.of_frame applied p
        rw [made]
        exact solved.addGoals settled
      · next unordered =>
        exact expandUnordered_complete decomposable fitting wellFormed (by simpa using unordered)
          ⟨properLeft, properRight⟩ solved applied
    · exact solved.addGoals (List.forall_mem_singleton.mpr applied)
  · exact solved.addGoals (List.forall_mem_singleton.mpr applied)

/-- One step of a run keeps an assignment that solves the problem. -/
theorem advance_complete (decomposable : fragment.Decomposable sig target) (fitting : s.Fitting target)
    (wellFormed : p.WellFormed fragment) (solved : p.Solved s) :
    (p.advance sig).Keeps target fragment s := by
  have without {goal : Goal} {rest : Problem} (taken : Takes p goal rest)
      (closed : rest.residual = p.residual) :
      rest.WellFormed fragment ∧ fragment.Admits goal ∧ rest.Solved s ∧ Settles s.algebra goal := by
    have here := (taken.equations goal).mpr (.inr rfl)
    refine ⟨taken.wellFormed wellFormed, wellFormed.equations goal here, ⟨?_, ?_, ?_, ?_⟩,
      solved.settles goal here⟩
    · rw [taken.subst]
      exact solved.absorbs
    · rw [taken.subst]
      exact solved.separates
    · exact fun other member => solved.settles other ((taken.equations other).mpr (.inl member))
    · rw [closed, solved.closed]
  unfold advance
  split
  · next _ goal goals pending =>
    have taken : Takes p goal { p with goals } := ⟨rfl, fun other => by
      simp only [equations, pending, List.mem_append, List.mem_cons]
      tauto⟩
    obtain ⟨rest, admitted, remains, settles⟩ := without taken rfl
    obtain ⟨next, made, kept⟩ := step_complete decomposable fitting rest admitted remains settles
    rw [made]
    exact kept
  · next goal deferred _ pending =>
    have taken : Takes p goal { p with deferred } := ⟨rfl, fun other => by
      simp only [equations, pending, List.mem_append, List.mem_cons]
      tauto⟩
    obtain ⟨rest, admitted, remains, settles⟩ := without taken rfl
    exact expand_complete decomposable fitting rest admitted remains settles
  · refine ⟨?_, solved.absorbs⟩
    simp [finish, solved.closed]

end Problem

section Exploration

/-- The terms of a fragment whose variables a counter will not draw. -/
def upTo (fragment : Fragment) (fresh : Fresh) : Fragment :=
  { fragment with var := fresh.Avoids }

variable {c : Choice} {run : Problem → Explore} {pairings : Enumeration (List Nat × List Nat)}
  {pairing : List Nat × List Nat} {first fresh last : Fresh} {later : Fresh → Unifiers}
  {unifiers : Unifiers} {budget : Nat}

theorem decomposable_upTo (decomposable : fragment.Decomposable sig target) (fresh : Fresh) :
    (upTo fragment fresh).Decomposable sig target :=
  { decomposable with }

theorem proper_upTo (proper : term.Proper (upTo fragment first))
    (forward : first.position ≤ fresh.position) : term.Proper (upTo fragment fresh) := by
  refine proper.mono fun node allowed => ?_
  cases node with
  | var v => exact Fresh.Avoids.mono allowed forward
  | _ => exact allowed

private theorem wellFormed_upTo (wellFormed : p.WellFormed (upTo fragment first))
    (forward : first.position ≤ fresh.position) : p.WellFormed (upTo fragment fresh) where
  idempotent := wellFormed.idempotent
  sorted := wellFormed.sorted
  bound v term found :=
    ⟨(wellFormed.bound v term found).1.mono forward,
      proper_upTo (wellFormed.bound v term found).2 forward⟩
  equations goal member :=
    ⟨proper_upTo (wellFormed.equations goal member).1 forward,
      proper_upTo (wellFormed.equations goal member).2 forward⟩

theorem position_le_branch (c : Choice) (pairing : List Nat × List Nat) (fresh : Fresh) :
    fresh.position ≤ (c.branch pairing fresh).2.position := by
  unfold Choice.branch
  dsimp only
  split
  · exact Nat.le_refl _
  · unfold Choice.frameGoals
    split
    · exact Nat.le_refl _
    · exact Nat.le_refl _
    · exact Nat.le_refl _
    · exact Nat.le_succ _

/-- A variable that comes in takes the counter one further. -/
theorem position_of_draws {v : Variable} {next : Problem} (draws : c.Draws fresh v)
    (made : (c.branch pairing fresh).1 = some next) :
    (c.branch pairing fresh).2.position = fresh.position + 1 := by
  obtain ⟨left, right, _⟩ := draws
  obtain ⟨frame, shapeLeft⟩ := Option.isSome_iff_exists.mp left
  obtain ⟨frame', shapeRight⟩ := Option.isSome_iff_exists.mp right
  unfold Choice.branch at made ⊢
  dsimp only at made ⊢
  split at made
  · cases made
  · next goals paired => simp [Choice.frameGoals, shapeLeft, shapeRight]

/-- An exploration comes back to what is later, and delivers what that delivers. -/
def Passes (unifiers : Unifiers) (later : Fresh → Unifiers) (fresh last : Fresh) : Prop :=
  ∃ middle : Fresh, fresh.position ≤ middle.position ∧ (later middle).Ends last ∧
    ∀ unifier, (later middle).Delivers unifier → unifiers.Delivers unifier

theorem Choice.passes_explore
    (passes : ∀ problem fresh later, (run problem fresh later).Ends last →
      Passes (run problem fresh later) later fresh last)
    (ends : (c.explore run pairings fresh later).Ends last) :
    Passes (c.explore run pairings fresh later) later fresh last := by
  induction pairings generalizing fresh with
  | nil => exact ⟨fresh, Nat.le_refl _, ends, fun _ => id⟩
  | cons pairing tail ih =>
    have forward := position_le_branch c pairing fresh
    rw [Choice.explore] at ends ⊢
    split at ends
    · next next made =>
      rw [made] at forward
      obtain ⟨middle, further, rest, delivers⟩ := ih () ends
      exact ⟨middle, Nat.le_trans forward further, rest, delivers⟩
    · next problem next made =>
      rw [made] at forward
      obtain ⟨between, further, ends, lift⟩ := passes problem next _ ends
      obtain ⟨middle, onward, rest, delivers⟩ := ih () ends
      exact ⟨middle, Nat.le_trans forward (Nat.le_trans further onward), rest,
        fun unifier delivered => lift unifier (delivers unifier delivered)⟩

theorem passes_explore (ends : (p.explore sig budget fresh later).Ends last) :
    Passes (p.explore sig budget fresh later) later fresh last := by
  induction budget generalizing p fresh later with
  | zero => cases ends
  | succ budget ih =>
    rw [Problem.explore] at ends ⊢
    split at ends
    · cases ends with
      | found _ _ ends => exact ⟨fresh, Nat.le_refl _, ends, fun _ => .later _ _⟩
    · exact ⟨fresh, Nat.le_refl _, ends, fun _ => id⟩
    · exact ih ends
    · exact Choice.passes_explore (fun _ _ _ => ih) ends

/-- An assignment that is an instance of a unifier without open equations and agrees with the given
one on the variables that a counter avoids. -/
structure Instance (target : Fragment) (s : Subst) (fresh : Fresh) (unifier : Unifier)
    (s' : Subst) : Prop where
  closed : unifier.residual = []
  bound : ∀ v term, unifier.subst.get? v = some term → term.Proper target
  fitting : s'.Fitting target
  agree : ∀ v, fresh.Avoids v → s'.get? v = s.get? v
  absorbs : s'.algebra.Absorbs unifier.subst

/-- Some unifier that is delivered has such an instance. -/
def Covers (target : Fragment) (s : Subst) (fresh : Fresh) (unifiers : Unifiers) : Prop :=
  ∃ unifier s', unifiers.Delivers unifier ∧ Instance target s fresh unifier s'

theorem Covers.lift {unifiers' : Unifiers} (covers : Covers target s fresh unifiers)
    (delivers : ∀ unifier, unifiers.Delivers unifier → unifiers'.Delivers unifier) :
    Covers target s fresh unifiers' := by
  obtain ⟨unifier, s', delivered, inst⟩ := covers
  exact ⟨unifier, s', delivers unifier delivered, inst⟩

theorem Covers.earlier (covers : Covers target s' fresh unifiers)
    (forward : first.position ≤ fresh.position)
    (agree : ∀ v, first.Avoids v → s'.get? v = s.get? v) : Covers target s first unifiers := by
  obtain ⟨unifier, final, delivered, inst⟩ := covers
  refine ⟨unifier, final, delivered, { inst with agree := fun v avoids => ?_ }⟩
  rw [inst.agree v (avoids.mono forward), agree v avoids]

/-- If one pairing covers an assignment wherever the counter stands, so do all of them together. -/
theorem Choice.covers_explore
    (passes : ∀ problem fresh later, (run problem fresh later).Ends last →
      Passes (run problem fresh later) later fresh last)
    (listed : pairing ∈ pairings.toList)
    (covers : ∀ fresh tail, first.position ≤ fresh.position →
      (c.explore run (.cons pairing tail) fresh later).Ends last →
      Covers target s first (c.explore run (.cons pairing tail) fresh later))
    (forward : first.position ≤ fresh.position)
    (ends : (c.explore run pairings fresh later).Ends last) :
    Covers target s first (c.explore run pairings fresh later) := by
  induction pairings generalizing fresh with
  | nil => cases listed
  | cons head tail ih =>
    rcases List.mem_cons.mp listed with rfl | listed
    · exact covers fresh tail forward ends
    have ahead := position_le_branch c head fresh
    rw [Choice.explore] at ends ⊢
    split at ends
    · next next made =>
      rw [made] at ahead
      exact ih () listed (Nat.le_trans forward ahead) ends
    · next problem next made =>
      rw [made] at ahead
      obtain ⟨middle, further, ends, lift⟩ := passes problem next _ ends
      exact (ih () listed (Nat.le_trans forward (Nat.le_trans ahead further)) ends).lift lift

/-- An assignment that solves a problem is an instance of a unifier that exploring the problem
delivers. -/
theorem covers_explore (decomposable : fragment.Decomposable sig target) (unwrapped : last.position ≤ 2 ^ 64)
    (bounded : ∀ fresh, (later fresh).Ends last → fresh.position ≤ last.position)
    (wellFormed : p.WellFormed (upTo fragment fresh)) (fitting : s.Fitting target) (solved : p.Solved s)
    (ends : (p.explore sig budget fresh later).Ends last) :
    Covers target s fresh (p.explore sig budget fresh later) := by
  induction budget generalizing p fresh later s with
  | zero => cases ends
  | succ budget ih =>
    have keeps := Problem.advance_complete (decomposable_upTo decomposable fresh) fitting wellFormed solved
    rw [Problem.explore] at ends ⊢
    cases progress : p.advance sig with
    | solved unifier =>
      rw [progress] at keeps
      obtain ⟨rfl, _⟩ := eq_finish_of_solved progress
      refine ⟨p.finish, s, .here _ _, keeps.1, fun v term found => ?_, fitting, fun _ _ => rfl, keeps.2⟩
      exact (decomposable_upTo decomposable fresh).proper (wellFormed.bound v term found).2
    | failed =>
      rw [progress] at keeps
      cases keeps
    | next problem =>
      rw [progress] at keeps ends
      obtain ⟨after, _⟩ := @Problem.advance_sound sig (upTo fragment fresh) p problem
        decomposable.labelled fresh (by rw [progress]; exact fun _ draws => draws.elim) wellFormed
        (by rw [progress]; rfl)
      exact ih bounded after fitting keeps ends
    | choose c =>
      rw [progress] at keeps ends
      obtain ⟨pairing, listed, branches⟩ := keeps
      refine Choice.covers_explore (fun _ _ _ => passes_explore) listed ?_ (Nat.le_refl _) ends
      intro current tail forward ends
      obtain ⟨next, made, solvable⟩ := branches current
      have ahead := position_le_branch c pairing current
      have pair : c.branch pairing current = (some next, (c.branch pairing current).2) :=
        Prod.ext made rfl
      rw [Choice.explore, pair] at ends ⊢
      dsimp only at ends ⊢
      have bounded' : ∀ fresh, (c.explore (Problem.explore sig budget) (tail ()) fresh later).Ends last →
          fresh.position ≤ last.position := by
        intro fresh ends
        obtain ⟨middle, further, rest, _⟩ := Choice.passes_explore (fun _ _ _ => passes_explore) ends
        exact Nat.le_trans further (bounded middle rest)
      have reached : (c.branch pairing current).2.position ≤ last.position := by
        obtain ⟨middle, further, rest, _⟩ := passes_explore ends
        exact Nat.le_trans further (bounded' middle rest)
      -- The frame that comes in is drawn now, so that it was not known and will not be drawn again.
      have drawn : ∀ v, c.Draws current v → Fresh.Between current (c.branch pairing current).2 v := by
        intro v draws
        have step := position_of_draws draws made
        obtain ⟨_, _, rfl⟩ := draws
        exact Fresh.between_variableLike _ (by omega) (by omega)
      obtain ⟨s', fitting', agree, kept⟩ := solvable fun v draws avoids =>
        avoids.ne_of_between ((drawn v draws).mono forward) rfl
      obtain ⟨after, _⟩ := @Problem.advance_sound sig (upTo fragment (c.branch pairing current).2) p next
        decomposable.labelled current (by rw [progress]; exact fun v draws => (drawn v draws).avoids)
        (wellFormed_upTo wellFormed (Nat.le_trans forward ahead))
        (by rw [progress]; exact ⟨pairing, listed, made⟩)
      exact (ih bounded' after fitting' kept ends).earlier (Nat.le_trans forward ahead) agree

/-- Terms of which an assignment makes the same have compatible sorts. -/
theorem compatible_of_apply_eq {a b : Term} (fitting : s.Fitting target) (canonicalLeft : a.Canonical)
    (canonicalRight : b.Canonical) (same : s.apply a = s.apply b) : a.sort.compatible b.sort = true := by
  have left := fitting.sorted.apply canonicalLeft
  rw [same] at left
  simpa [TermSort.compatible] using accepts_or_accepts left (fitting.sorted.apply canonicalRight)

end Exploration

end Unification

/-- Whatever makes two terms equal and merges no entries of theirs is an instance of a unifier of them,
provided that there are no function applications in them and that the search comes to its end. -/
theorem unify_covers {sig : Signature} {target fragment : Term.Fragment} {s : Subst} {a b : Term}
    {budget : Nat} {explore : Fresh → Unifiers} {fresh last : Fresh}
    (decomposable : fragment.Decomposable sig target)
    (properLeft : a.Proper (Unification.upTo fragment fresh))
    (properRight : b.Proper (Unification.upTo fragment fresh)) (fitting : s.Fitting target)
    (apartLeft : s.algebra.Separates a) (apartRight : s.algebra.Separates b)
    (same : s.apply a = s.apply b) (started : unify sig budget a b = .ok explore)
    (ends : (explore fresh).Ends last) (unwrapped : last.position ≤ 2 ^ 64) :
    Unification.Covers target s fresh (explore fresh) := by
  unfold unify at started
  split at started
  · cases started
    refine Unification.covers_explore decomposable unwrapped ?_
      (Unification.wellFormed_start properLeft properRight) fitting ?_ ends
    · intro middle ends
      cases ends
      exact Nat.le_refl _
    · refine ⟨fun v => rfl, fun v => Term.Everywhere.var_iff.mpr trivial, fun goal member => ?_, rfl⟩
      obtain rfl := List.mem_singleton.mp member
      exact ⟨(Unification.equates_iff_apply properLeft.canonical properRight.canonical).mpr same,
        apartLeft, apartRight⟩
  · cases started

/-- Without sets and maps nothing merges, so that whatever makes two terms equal is an instance of a
unifier of them. -/
theorem unify_complete {sig : Signature} {target fragment : Term.Fragment} {s : Subst} {a b : Term}
    {budget : Nat} {explore : Fresh → Unifiers} {fresh last : Fresh}
    (constructed : fragment.Constructed sig target)
    (properLeft : a.Proper (Unification.upTo fragment fresh))
    (properRight : b.Proper (Unification.upTo fragment fresh)) (fitting : s.Fitting target)
    (same : s.apply a = s.apply b) (started : unify sig budget a b = .ok explore)
    (ends : (explore fresh).Ends last) (unwrapped : last.position ≤ 2 ^ 64) :
    Unification.Covers target s fresh (explore fresh) :=
  unify_covers constructed.toDecomposable properLeft properRight fitting
    (Term.Algebra.separates_of_countable properLeft.within constructed.countable)
    (Term.Algebra.separates_of_countable properRight.within constructed.countable) same started ends
    unwrapped

end Reach
