import Reach.Proofs.Decomposition
import Reach.Proofs.Evaluation
import Reach.Proofs.WellSorted

/-!
Unification is sound. A run takes a problem from step to step; each step keeps the substitution
idempotent and sorted, and every solution of the problem after a step is one of the problem before
it. So the unifier at the end, together with the equations that it leaves open, solves the problem
that the run began with.
-/

namespace Reach

/-- A unifier that comes up, whichever counters are handed over. -/
inductive Unifiers.Yields (unifier : Unifier) : Unifiers → Prop
  | here (fresh : Fresh) (more : Fresh → Unifiers) : Yields unifier (.found unifier fresh more)
  | later (other : Unifier) (fresh next : Fresh) {more : Fresh → Unifiers}
      (later : Yields unifier (more next)) : Yields unifier (.found other fresh more)

/-- The unifiers that are taken from an exploration come up in it. -/
theorem Unifiers.yields_of_mem_take {count : Nat} {explore : Fresh → Unifiers} {fresh : Fresh}
    {found : Unifier × Fresh} (member : found ∈ (take count explore fresh).1) :
    (explore fresh).Yields found.1 := by
  induction count generalizing explore fresh with
  | zero => cases member
  | succ count ih =>
    rw [take] at member
    split at member
    · cases member
    · cases member
    · next unifier next more shape =>
      rw [shape]
      rcases List.mem_cons.mp member with rfl | member
      · exact .here next more
      · exact .later unifier next next (ih member)

namespace Unification

open Term

variable {sig : Signature} {fragment : Fragment} {algebra : Algebra Term} {p next : Problem}
  {goal : Goal} {goals : List Goal} {v w : Variable} {term : Term}

namespace Problem

/-- The equations of a problem, whatever their state. -/
def equations (p : Problem) : List Goal :=
  p.goals ++ p.deferred ++ p.residual

/-- A fold solves a problem: it absorbs the bindings and equates the two sides of each equation. -/
structure Solves (algebra : Algebra Term) (p : Problem) : Prop where
  absorbs : algebra.Absorbs p.subst
  equates : ∀ goal ∈ p.equations, algebra.Equates goal

/-- The invariant of a run, relative to the fragment that its terms are from. -/
structure WellFormed (fragment : Fragment) (p : Problem) : Prop where
  idempotent : p.subst.Idempotent
  sorted : p.subst.Sorted
  bound : ∀ v term, p.subst.get? v = some term → fragment.var v ∧ term.Proper fragment
  equations : ∀ goal ∈ p.equations, fragment.Admits goal

namespace WellFormed

theorem canonical (wellFormed : p.WellFormed fragment) : p.subst.Canonical :=
  fun v term found => (wellFormed.bound v term found).2.canonical

theorem image (wellFormed : p.WellFormed fragment) (allowed : fragment.var v) :
    (p.subst.image v).Proper fragment := by
  cases found : p.subst.get? v with
  | none =>
    rw [Subst.image_of_get?_none found]
    exact .var allowed
  | some term => simpa [Subst.image, found] using (wellFormed.bound v term found).2

theorem apply (wellFormed : p.WellFormed fragment) (proper : term.Proper fragment) :
    (p.subst.apply term).Proper fragment :=
  proper.apply wellFormed.canonical wellFormed.sorted fun _ occurs =>
    wellFormed.image (proper.within.var_of_mem occurs)

end WellFormed

theorem mem_equations_addGoals :
    goal ∈ (p.addGoals goals).equations ↔ goal ∈ p.equations ∨ goal ∈ goals := by
  simp only [equations, addGoals, List.mem_append]
  tauto

theorem mem_equations_addResidual {other : Goal} :
    goal ∈ (p.addResidual other).equations ↔ goal ∈ p.equations ∨ goal = other := by
  simp only [equations, addResidual, List.mem_append, List.mem_singleton]
  tauto

/-- What is proved of a problem with one equation taken out, and of that equation. -/
structure Reduces (fragment : Fragment) (p : Problem) (goal : Goal) (next : Problem) : Prop where
  wellFormed : next.WellFormed fragment
  solves : ∀ algebra : Algebra Term, algebra.Normalizing → next.Solves algebra →
    p.Solves algebra ∧ algebra.Equates goal

theorem Reduces.of_equations (wellFormed : p.WellFormed fragment) (same : next.subst = p.subst)
    (suffice : Suffice fragment goals goal)
    (equations : ∀ goal, goal ∈ next.equations ↔ goal ∈ p.equations ∨ goal ∈ goals) :
    Reduces fragment p goal next where
  wellFormed :=
    { idempotent := same ▸ wellFormed.idempotent
      sorted := same ▸ wellFormed.sorted
      bound := same ▸ wellFormed.bound
      equations := fun other member => by
        rcases (equations other).mp member with member | member
        · exact wellFormed.equations other member
        · exact suffice.admitted other member }
  solves algebra normalizing solved := by
    refine ⟨⟨same ▸ solved.absorbs, fun other member => ?_⟩, ?_⟩
    · exact solved.equates other ((equations other).mpr (.inl member))
    · exact suffice.equates algebra normalizing fun part member =>
        solved.equates part ((equations part).mpr (.inr member))

theorem Reduces.addGoals (wellFormed : p.WellFormed fragment)
    (suffice : Suffice fragment goals goal) : Reduces fragment p goal (p.addGoals goals) :=
  .of_equations wellFormed rfl suffice fun _ => mem_equations_addGoals

theorem Reduces.addResidual (wellFormed : p.WellFormed fragment) (admitted : fragment.Admits goal) :
    Reduces fragment p goal (p.addResidual goal) :=
  .of_equations wellFormed rfl (suffice_self admitted) fun other => by
    rw [mem_equations_addResidual, List.mem_singleton]

/-- The goal as it stands under the substitution may take the place of the goal. -/
theorem Reduces.of_apply
    (reduces : Reduces fragment p (p.subst.apply goal.1, p.subst.apply goal.2) next) :
    Reduces fragment p goal next where
  wellFormed := reduces.wellFormed
  solves algebra normalizing solved := by
    obtain ⟨before, same⟩ := reduces.solves algebra normalizing solved
    rw [Algebra.Equates, before.absorbs.fold_apply normalizing,
      before.absorbs.fold_apply normalizing] at same
    exact ⟨before, same⟩

/-- One equation is taken out of a problem. -/
structure Takes (p : Problem) (goal : Goal) (rest : Problem) : Prop where
  subst : rest.subst = p.subst
  equations : ∀ other, other ∈ p.equations ↔ other ∈ rest.equations ∨ other = goal

theorem Takes.wellFormed {rest : Problem} (takes : Takes p goal rest)
    (wellFormed : p.WellFormed fragment) : rest.WellFormed fragment where
  idempotent := takes.subst ▸ wellFormed.idempotent
  sorted := takes.subst ▸ wellFormed.sorted
  bound := takes.subst ▸ wellFormed.bound
  equations other member :=
    wellFormed.equations other ((takes.equations other).mpr (.inl member))

theorem Takes.resume {rest : Problem} (takes : Takes p goal rest) (wellFormed : p.WellFormed fragment)
    (reduces : rest.WellFormed fragment → fragment.Admits goal → Reduces fragment rest goal next) :
    next.WellFormed fragment ∧ ∀ algebra : Algebra Term, algebra.Normalizing →
      next.Solves algebra → p.Solves algebra := by
  have reduced := reduces (takes.wellFormed wellFormed)
    (wellFormed.equations goal ((takes.equations goal).mpr (.inr rfl)))
  refine ⟨reduced.wellFormed, fun algebra normalizing solved => ?_⟩
  obtain ⟨before, same⟩ := reduced.solves algebra normalizing solved
  refine ⟨takes.subst ▸ before.absorbs, fun other member => ?_⟩
  rcases (takes.equations other).mp member with member | rfl
  · exact before.equates other member
  · exact same

section Steps

theorem orient_eq_some (made : orient v term = some (w, image)) :
    w.sort.accepts image.sort = true ∧
      (w = v ∧ image = term ∨ term = .var w ∧ image = .var v) := by
  unfold orient at made
  split at made
  · next accepted =>
    cases made
    exact ⟨accepted, .inl ⟨rfl, rfl⟩⟩
  · split at made
    · split at made
      · next accepted =>
        cases made
        exact ⟨accepted, .inr ⟨rfl, rfl⟩⟩
      · cases made
    · cases made

/-- A variable that is not bound takes a term in which neither it nor a bound variable occurs. -/
theorem Reduces.eliminate (wellFormed : p.WellFormed fragment) (free : p.subst.get? v = none)
    (unbound : ∀ w ∈ term.vars, p.subst.get? w = none) (absent : v ∉ term.vars)
    (allowed : fragment.var v) (proper : term.Proper fragment)
    (accepted : v.sort.accepts term.sort = true) :
    Reduces fragment p (.var v, term) { p with subst := p.subst.compose (.single v term) } where
  wellFormed :=
    { idempotent := wellFormed.idempotent.compose_single unbound absent
      sorted := wellFormed.sorted.compose (.single accepted) wellFormed.canonical
      bound := fun w image found => by
        rw [Subst.get?_compose, Subst.get?_single] at found
        cases earlier : p.subst.get? w with
        | some inner =>
          rw [earlier] at found
          cases found
          obtain ⟨known, inside⟩ := wellFormed.bound w inner earlier
          refine ⟨known, inside.apply (.single proper.canonical) (.single accepted) fun x occurs => ?_⟩
          rw [Subst.image_single]
          split
          · exact proper
          · exact .var (inside.within.var_of_mem occurs)
        | none =>
          rw [earlier] at found
          split at found
          · next same =>
            cases found
            exact ⟨same ▸ allowed, proper⟩
          · cases found
      equations := wellFormed.equations }
  solves algebra normalizing solved := by
    obtain ⟨absorbs, same⟩ := (Subst.absorbs_compose_single_iff normalizing free).mp solved.absorbs
    exact ⟨⟨absorbs, solved.equates⟩, same⟩

theorem Reduces.bind (wellFormed : p.WellFormed fragment) (free : p.subst.get? v = none)
    (unbound : ∀ w ∈ term.vars, p.subst.get? w = none) (allowed : fragment.var v)
    (proper : term.Proper fragment) (made : p.bind sig v term = some next) :
    Reduces fragment p (.var v, term) next := by
  obtain ⟨⟨w, image⟩, oriented, made⟩ := Option.bind_eq_some_iff.mp made
  obtain ⟨accepted, shape⟩ := orient_eq_some oriented
  -- Turned around or not, the equation has the same solutions.
  have turned : Reduces fragment p (.var w, image) next → Reduces fragment p (.var v, term) next := by
    rcases shape with ⟨rfl, rfl⟩ | ⟨rfl, rfl⟩
    · exact id
    · exact fun reduces => ⟨reduces.wellFormed, fun algebra normalizing solved =>
        (reduces.solves algebra normalizing solved).imp_right Eq.symm⟩
  have facts : p.subst.get? w = none ∧ (∀ x ∈ image.vars, p.subst.get? x = none) ∧
      fragment.var w ∧ image.Proper fragment := by
    rcases shape with ⟨rfl, rfl⟩ | ⟨rfl, rfl⟩
    · exact ⟨free, unbound, allowed, proper⟩
    · exact ⟨unbound w (by simp), by simpa using free, proper.within.here, .var allowed⟩
  obtain ⟨freeVar, unboundImage, allowedVar, properImage⟩ := facts
  apply turned
  dsimp only at made
  split at made
  · split at made
    · cases made
      exact .addResidual wellFormed ⟨.var allowedVar, properImage⟩
    · cases made
  · next absent =>
    cases made
    refine .eliminate wellFormed freeVar unboundImage ?_ allowedVar properImage accepted
    rwa [mem_vars_iff_mentions]

theorem Reduces.expand {fresh : Fresh} (known : ∀ v, (p.expand goal).Draws fresh v → fragment.var v)
    (wellFormed : p.WellFormed fragment) (admitted : fragment.Admits goal)
    (leads : (p.expand goal).LeadsTo fresh next) : Reduces fragment p goal next := by
  have properLeft := wellFormed.apply admitted.1
  have properRight := wellFormed.apply admitted.2
  apply Reduces.of_apply
  unfold Problem.expand at leads known
  generalize p.subst.apply goal.1 = a at *
  generalize p.subst.apply goal.2 = b at *
  split at leads
  · split at leads
    · next same =>
      subst same
      split at leads
      · cases made : p.expandOrdered _ _ _ _ _ with
        | none =>
          rw [made] at leads
          cases leads
        | some problem =>
          rw [made] at leads
          cases leads
          obtain ⟨goals, rfl, suffice⟩ := suffice_expandOrdered ⟨properLeft, properRight⟩ made
          exact .addGoals wellFormed suffice
      · next unordered =>
        simp only [unordered, Bool.false_eq_true, ↓reduceIte] at known
        obtain ⟨goals, rfl, suffice⟩ := suffice_expandUnordered (by simpa using unordered) known
          ⟨properLeft, properRight⟩ leads
        exact .addGoals wellFormed suffice
    · cases leads
      exact .addGoals wellFormed (suffice_self ⟨properLeft, properRight⟩)
  · cases leads
    exact .addGoals wellFormed (suffice_self ⟨properLeft, properRight⟩)

variable (labelled : ∀ {label sort sort'}, fragment.label label sort → fragment.label label sort' →
  sort = sort')
include labelled

/-- The decomposition of one goal. -/
theorem Reduces.step (wellFormed : p.WellFormed fragment) (admitted : fragment.Admits goal)
    (made : p.step sig goal = some next) : Reduces fragment p goal next := by
  have properLeft := wellFormed.apply admitted.1
  have properRight := wellFormed.apply admitted.2
  have unboundLeft := fun v (occurs : v ∈ (p.subst.apply goal.1).vars) =>
    wellFormed.idempotent.get?_of_mem_apply occurs
  have unboundRight := fun v (occurs : v ∈ (p.subst.apply goal.2).vars) =>
    wellFormed.idempotent.get?_of_mem_apply occurs
  apply Reduces.of_apply
  unfold Problem.step at made
  dsimp only at made
  generalize p.subst.apply goal.1 = a at *
  generalize p.subst.apply goal.2 = b at *
  split at made
  · next same =>
    cases made
    exact ⟨wellFormed, fun algebra _ solved => ⟨solved, congrArg (fold algebra) same⟩⟩
  split at made
  · next v _ =>
    exact .bind wellFormed (unboundLeft v (by simp)) unboundRight properLeft.within.here properRight made
  · next v _ _ =>
    have swapped := Reduces.bind wellFormed (unboundRight v (by simp)) unboundLeft
      properRight.within.here properLeft made
    exact ⟨swapped.wellFormed, fun algebra normalizing solved =>
      (swapped.solves algebra normalizing solved).imp_right Eq.symm⟩
  · split at made
    · cases made
      exact .addResidual wellFormed ⟨properLeft, properRight⟩
    split at made
    · split at made
      · next sort _ _ sort' _ _ _ shape =>
        cases made
        obtain ⟨rfl, aligned⟩ := shape
        obtain rfl := labelled properLeft.within.here properRight.within.here
        exact .addGoals wellFormed (suffice_args aligned ⟨properLeft, properRight⟩)
      · cases made
    · split at made
      · next same =>
        cases made
        refine .of_equations wellFormed rfl (suffice_self ⟨properLeft, properRight⟩) fun other => ?_
        simp only [equations, List.mem_append, List.mem_singleton]
        tauto
      · cases made
    · cases made

/-- One step of a run. -/
theorem advance_sound {fresh : Fresh}
    (known : ∀ v, (p.advance sig).Draws fresh v → fragment.var v) (wellFormed : p.WellFormed fragment)
    (leads : (p.advance sig).LeadsTo fresh next) :
    next.WellFormed fragment ∧ ∀ algebra : Algebra Term, algebra.Normalizing →
      next.Solves algebra → p.Solves algebra := by
  unfold advance at leads
  split at leads
  · next _ goal goals pending =>
    have taken : Takes p goal { p with goals } := ⟨rfl, fun other => by
      simp only [equations, pending, List.mem_append, List.mem_cons]
      tauto⟩
    refine taken.resume wellFormed fun rest admitted => ?_
    cases made : Problem.step sig { p with goals } goal with
    | none =>
      rw [made] at leads
      cases leads
    | some problem =>
      rw [made] at leads
      cases leads
      exact .step labelled rest admitted made
  · next goal deferred done pending =>
    have taken : Takes p goal { p with deferred } := ⟨rfl, fun other => by
      simp only [equations, pending, List.mem_append, List.mem_cons]
      tauto⟩
    have unfolded : p.advance sig = Problem.expand { p with deferred } goal := by
      simp only [advance, done, pending]
    rw [unfolded] at known
    exact taken.resume wellFormed fun rest admitted => .expand known rest admitted leads
  · cases leads

end Steps

end Problem

section Run

/-- A unifier at the end of some run of a problem. -/
inductive Run (sig : Signature) : Problem → Unifier → Prop
  | solved {p : Problem} {unifier : Unifier} (done : p.advance sig = .solved unifier) :
      Run sig p unifier
  | step {p next : Problem} {unifier : Unifier} {fresh : Fresh}
      (leads : (p.advance sig).LeadsTo fresh next) (later : Run sig next unifier) : Run sig p unifier

variable {unifier : Unifier}

theorem Choice.run_of_explore {c : Choice} {run : Problem → Explore}
    (sound : ∀ problem fresh later, (run problem fresh later).Yields unifier →
      Run sig problem unifier ∨ ∃ fresh, (later fresh).Yields unifier)
    {pairings : Enumeration (List Nat × List Nat)}
    (inside : ∀ pairing ∈ pairings.toList, pairing ∈ c.pairings.toList) {fresh : Fresh}
    {later : Fresh → Unifiers} (yields : (c.explore run pairings fresh later).Yields unifier) :
    (∃ fresh next, (Progress.choose c).LeadsTo fresh next ∧ Run sig next unifier) ∨
      ∃ fresh, (later fresh).Yields unifier := by
  induction pairings generalizing fresh with
  | nil => exact .inr ⟨fresh, yields⟩
  | cons pairing tail ih =>
    obtain ⟨here, beyond⟩ := List.forall_mem_cons.mp inside
    rw [Choice.explore] at yields
    split at yields
    · exact ih () beyond yields
    · next problem next made =>
      rcases sound problem _ _ yields with run | ⟨next, yields⟩
      · exact .inl ⟨fresh, problem, ⟨pairing, here, congrArg Prod.fst made⟩, run⟩
      · exact ih () beyond yields

/-- What exploring a problem yields is the unifier of a run, or comes later anyway. -/
theorem run_of_explore {budget : Nat} {fresh : Fresh} {later : Fresh → Unifiers}
    (yields : (p.explore sig budget fresh later).Yields unifier) :
    Run sig p unifier ∨ ∃ fresh, (later fresh).Yields unifier := by
  induction budget generalizing p fresh later with
  | zero => cases yields
  | succ budget ih =>
    rw [Problem.explore] at yields
    split at yields
    · next found done =>
      cases yields with
      | here => exact .inl (.solved done)
      | later _ _ next yields => exact .inr ⟨next, yields⟩
    · exact .inr ⟨fresh, yields⟩
    · next problem moved =>
      refine (ih yields).imp_left fun run => @Run.step sig p problem unifier fresh ?_ run
      rw [moved]
      rfl
    · next c chosen =>
      have explored := Choice.run_of_explore (fun problem fresh later => ih) (fun _ => id) yields
      refine explored.imp_left fun ⟨fresh, next, leads, run⟩ => @Run.step sig p next unifier fresh ?_ run
      rwa [chosen]

/-- What holds of every unifier of a problem. -/
structure Sound (fragment : Fragment) (p : Problem) (unifier : Unifier) : Prop where
  idempotent : unifier.subst.Idempotent
  sorted : unifier.subst.Sorted
  canonical : unifier.subst.Canonical
  bound : ∀ v term, unifier.subst.get? v = some term → fragment.var v ∧ term.Proper fragment
  residual : ∀ goal ∈ unifier.residual,
    fragment.Admits goal ∧ unifier.subst.apply goal.1 = goal.1 ∧ unifier.subst.apply goal.2 = goal.2
  solves : ∀ algebra : Algebra Term, algebra.Normalizing → algebra.Absorbs unifier.subst →
    (∀ goal ∈ unifier.residual, algebra.Equates goal) → p.Solves algebra

theorem ofOption_ne_solved (made : Option Problem) : Progress.ofOption made ≠ .solved unifier := by
  cases made <;> nofun

private theorem expand_ne_solved (p : Problem) (goal : Goal) : p.expand goal ≠ .solved unifier := by
  unfold Problem.expand
  split
  · split
    · split
      · exact ofOption_ne_solved _
      · unfold Problem.expandUnordered
        split
        · nofun
        · dsimp only
          split
          · nofun
          · split <;> nofun
    · nofun
  · nofun

theorem eq_finish_of_solved (done : p.advance sig = .solved unifier) :
    unifier = p.finish ∧ p.goals = [] ∧ p.deferred = [] := by
  unfold Problem.advance at done
  split at done
  · exact absurd done (ofOption_ne_solved _)
  · exact absurd done (expand_ne_solved _ _)
  · next goals deferred =>
    cases done
    exact ⟨rfl, goals, deferred⟩

theorem mem_residual_finish :
    goal ∈ p.finish.residual ↔
      ∃ pair ∈ p.residual, goal = (p.subst.apply pair.1, p.subst.apply pair.2) ∧
        p.subst.apply pair.1 ≠ p.subst.apply pair.2 := by
  simp only [Problem.finish, List.mem_filter, List.mem_map, decide_eq_true_eq]
  constructor
  · rintro ⟨⟨pair, member, rfl⟩, differ⟩
    exact ⟨pair, member, rfl, differ⟩
  · rintro ⟨pair, member, rfl, differ⟩
    exact ⟨⟨pair, member, rfl⟩, differ⟩

private theorem sound_of_solved (wellFormed : p.WellFormed fragment)
    (done : p.advance sig = .solved unifier) : Sound fragment p unifier := by
  obtain ⟨rfl, goals, deferred⟩ := eq_finish_of_solved done
  have equations : p.equations = p.residual := by simp [Problem.equations, goals, deferred]
  refine ⟨wellFormed.idempotent, wellFormed.sorted, wellFormed.canonical, wellFormed.bound,
    fun goal member => ?_, ?_⟩
  · obtain ⟨pair, present, rfl, _⟩ := mem_residual_finish.mp member
    obtain ⟨first, second⟩ := wellFormed.equations pair (equations ▸ present)
    have fixed {term : Term} (proper : term.Proper fragment) :
        p.subst.apply (p.subst.apply term) = p.subst.apply term :=
      wellFormed.idempotent.apply_apply wellFormed.canonical proper.canonical
    exact ⟨⟨wellFormed.apply first, wellFormed.apply second⟩, fixed first, fixed second⟩
  · intro algebra normalizing absorbs residual
    refine ⟨absorbs, fun goal member => ?_⟩
    rw [Algebra.Equates, ← absorbs.fold_apply normalizing, ← absorbs.fold_apply normalizing goal.2]
    by_cases same : p.subst.apply goal.1 = p.subst.apply goal.2
    · exact congrArg (fold algebra) same
    · exact residual _ (mem_residual_finish.mpr ⟨goal, equations ▸ member, rfl, same⟩)

/-- Every run ends in a sound unifier, if the names that it draws may be used. -/
theorem sound_of_run_of_draws
    (known : ∀ p : Problem, p.WellFormed fragment → ∀ fresh v, (p.advance sig).Draws fresh v →
      fragment.var v)
    (labelled : ∀ {label sort sort'}, fragment.label label sort → fragment.label label sort' →
      sort = sort') (wellFormed : p.WellFormed fragment) (run : Run sig p unifier) :
    Sound fragment p unifier := by
  induction run with
  | solved done => exact sound_of_solved wellFormed done
  | step leads _ ih =>
    obtain ⟨after, back⟩ :=
      Problem.advance_sound labelled (known _ wellFormed _) wellFormed leads
    have sound := ih after
    exact { sound with
      solves := fun algebra normalizing absorbs residual =>
        back algebra normalizing (sound.solves algebra normalizing absorbs residual) }

theorem sound_of_run (everyVar : ∀ v, fragment.var v)
    (labelled : ∀ {label sort sort'}, fragment.label label sort → fragment.label label sort' →
      sort = sort') (wellFormed : p.WellFormed fragment) (run : Run sig p unifier) :
    Sound fragment p unifier :=
  sound_of_run_of_draws (fun _ _ _ v _ => everyVar v) labelled wellFormed run

theorem wellFormed_start {a b : Term} (properLeft : a.Proper fragment)
    (properRight : b.Proper fragment) : (start a b).WellFormed fragment where
  idempotent := Subst.idempotent_empty
  sorted _ _ found := nomatch found
  bound _ _ found := nomatch found
  equations goal member := by
    obtain rfl := List.mem_singleton.mp member
    exact ⟨properLeft, properRight⟩

theorem explore_eq_of_unify {a b : Term} {budget : Nat} {explore : Fresh → Unifiers}
    (started : unify sig budget a b = .ok explore) :
    explore = fun fresh => (start a b).explore sig budget fresh .finished := by
  unfold unify at started
  split at started
  · cases started
    rfl
  · cases started

theorem run_of_unify {a b : Term} {budget : Nat} {explore : Fresh → Unifiers} {fresh : Fresh}
    (started : unify sig budget a b = .ok explore) (yields : (explore fresh).Yields unifier) :
    Run sig (start a b) unifier := by
  rw [explore_eq_of_unify started] at yields
  rcases run_of_explore yields with run | ⟨_, none⟩
  · exact run
  · cases none

/-- A unifier that leaves nothing open makes the sides of each equation equal. -/
theorem Sound.apply_eq (sound : Sound fragment p unifier) (closed : unifier.residual = [])
    (member : goal ∈ p.equations) (canonicalLeft : goal.1.Canonical) (canonicalRight : goal.2.Canonical) :
    unifier.subst.apply goal.1 = unifier.subst.apply goal.2 := by
  have absorbs : unifier.subst.algebra.Absorbs unifier.subst := fun v => by
    rw [← Subst.apply_eq_fold_algebra _ (sound.canonical.image v)]
    exact sound.idempotent.apply_image sound.canonical v
  rw [Subst.apply_eq_fold_algebra _ canonicalLeft, Subst.apply_eq_fold_algebra _ canonicalRight]
  exact (sound.solves _ sound.canonical.normalizing absorbs (by simp [closed])).equates goal member

/-- Nothing is bound to make a term equal to itself. -/
theorem subst_of_run_self {term : Term} (run : Run sig (start term term) unifier) :
    unifier.subst = .empty := by
  have first : (start term term).advance sig =
      .next { subst := .empty, goals := [], deferred := [], residual := [] } := by
    simp [start, Problem.advance, Problem.step, Progress.ofOption]
  cases run with
  | solved done =>
    rw [first] at done
    cases done
  | step leads later =>
    rw [first] at leads
    cases leads
    cases later with
    | solved done =>
      cases done
      rfl
    | step leads _ => cases leads

end Run

end Unification

/-- Whatever unifier comes up, its substitution is idempotent and respects sorts; it makes the two
terms equal if it leaves no equation open, and otherwise every assignment that solves the open
equations evaluates the two instances to the same. -/
theorem unify_sound {sig : Signature} {budget : Nat} {a b : Term} {explore : Fresh → Unifiers}
    {fresh : Fresh} {unifier : Unifier} (canonicalLeft : a.Canonical) (canonicalRight : b.Canonical)
    (checkedLeft : sig.check a = .ok ()) (checkedRight : sig.check b = .ok ())
    (started : unify sig budget a b = .ok explore) (yields : (explore fresh).Yields unifier) :
    (∀ term : Term, term.Canonical →
        unifier.subst.apply (unifier.subst.apply term) = unifier.subst.apply term) ∧
      (∀ v term, unifier.subst.get? v = some term → v.sort.accepts term.sort = true) ∧
      (unifier.residual = [] → unifier.subst.apply a = unifier.subst.apply b) ∧
      ∀ s : Subst, (∀ pair ∈ unifier.residual,
          sig.evalBuiltins (s.apply pair.1) = sig.evalBuiltins (s.apply pair.2)) →
        sig.evalBuiltins (s.apply (unifier.subst.apply a)) =
          sig.evalBuiltins (s.apply (unifier.subst.apply b)) := by
  have run : Unification.Run sig (Unification.start a b) unifier := by
    unfold unify at started
    split at started
    · cases started
      rcases Unification.run_of_explore yields with run | ⟨_, yields⟩
      · exact run
      · cases yields
    · cases started
  have sound := @Unification.sound_of_run sig sig.declared _ _ (fun _ => trivial)
    Signature.sort_eq_of_declared
    (Unification.wellFormed_start (Signature.proper_of_check canonicalLeft checkedLeft)
      (Signature.proper_of_check canonicalRight checkedRight)) run
  have canonical := sound.canonical
  have solves (algebra : Term.Algebra Term) (normalizing : algebra.Normalizing)
      (absorbs : algebra.Absorbs unifier.subst)
      (residual : ∀ goal ∈ unifier.residual, algebra.Equates goal) : algebra.Equates (a, b) :=
    (sound.solves algebra normalizing absorbs residual).equates (a, b) (by simp [Unification.start,
      Unification.Problem.equations])
  refine ⟨fun term => sound.idempotent.apply_apply canonical, sound.sorted, fun none => ?_,
    fun s residual => ?_⟩
  · have absorbs : unifier.subst.algebra.Absorbs unifier.subst := fun v => by
      rw [← Subst.apply_eq_fold_algebra _ (canonical.image v)]
      exact sound.idempotent.apply_image canonical v
    rw [Subst.apply_eq_fold_algebra _ canonicalLeft, Subst.apply_eq_fold_algebra _ canonicalRight]
    exact solves _ canonical.normalizing absorbs (by simp [none])
  · have normalizing := sig.normalizing_valuation s
    have absorbs : ((sig.valuation s).after unifier.subst).Absorbs unifier.subst := fun v => by
      rw [← normalizing.fold_apply, sound.idempotent.apply_image canonical]
      rfl
    rw [sig.evalBuiltins_apply, sig.evalBuiltins_apply, normalizing.fold_apply, normalizing.fold_apply]
    refine solves _ (normalizing.after _) absorbs fun pair member => ?_
    obtain ⟨_, first, second⟩ := sound.residual pair member
    rw [Term.Algebra.Equates, ← normalizing.fold_apply, ← normalizing.fold_apply, first, second,
      ← sig.evalBuiltins_apply, ← sig.evalBuiltins_apply]
    exact residual pair member

/-- A bag with a sum, the integer 2 and perhaps more. -/
def sumAndTwo : Term :=
  .collection .bag
    [.element (.app Label.intAdd .int [.var ⟨"X", .int⟩, .token .int "1"]),
      .element (.token .int "2")]
    (some (.var ⟨"R", .bag⟩))

def twoAndThree : Term :=
  .collection .bag [.element (.token .int "2"), .element (.token .int "3")] none

/-- The sum is left open; the value 2 for its variable solves it. -/
theorem unify_sound_sumAndTwo :
    ∃ explore unifier, (sumAndTwo.Canonical ∧ twoAndThree.Canonical ∧
        Signature.builtin.check sumAndTwo = .ok () ∧ Signature.builtin.check twoAndThree = .ok () ∧
        unify .builtin 10 sumAndTwo twoAndThree = .ok explore ∧
        (explore .start).Yields unifier ∧ unifier.residual.length = 1) ∧
      (∀ v term, unifier.subst.get? v = some term → v.sort.accepts term.sort = true) ∧
      Signature.builtin.evalBuiltins ((Subst.single ⟨"X", .int⟩ (.token .int "2")).apply
          (unifier.subst.apply sumAndTwo)) =
        Signature.builtin.evalBuiltins ((Subst.single ⟨"X", .int⟩ (.token .int "2")).apply
          (unifier.subst.apply twoAndThree)) := by
  let unifier : Unifier :=
    { subst := .single ⟨"R", .bag⟩ (.empty .bag)
      residual := [(.app Label.intAdd .int [.var ⟨"X", .int⟩, .token .int "1"], .token .int "3")] }
  have canonicalLeft : sumAndTwo.Canonical := by
    refine .collection ?_ ?_ rfl
    · simp [Entry.parts, Term.Canonical.var, Term.Canonical.token, Term.Canonical.app]
    · simp [Term.Canonical.var]
  have canonicalRight : twoAndThree.Canonical := by
    refine .collection ?_ (by simp) rfl
    simp [Entry.parts, Term.Canonical.token]
  have checkedLeft : Signature.builtin.check sumAndTwo = .ok () := rfl
  have checkedRight : Signature.builtin.check twoAndThree = .ok () := rfl
  have started : unify .builtin 10 sumAndTwo twoAndThree = .ok fun fresh =>
      (Unification.start sumAndTwo twoAndThree).explore .builtin 10 fresh .finished := rfl
  have taken : (Unifiers.take 1 (fun fresh => (Unification.start sumAndTwo twoAndThree).explore
      .builtin 10 fresh .finished) .start).1 = [(unifier, .start)] := by decide +kernel
  have yields := Unifiers.yields_of_mem_take (taken ▸ List.mem_singleton_self _)
  obtain ⟨_, sorted, _, solves⟩ := unify_sound canonicalLeft canonicalRight checkedLeft checkedRight
    started yields
  exact ⟨_, unifier, ⟨canonicalLeft, canonicalRight, checkedLeft, checkedRight, started, yields, rfl⟩,
    sorted, solves _ (List.forall_mem_singleton.mpr rfl)⟩

end Reach
