import Mathlib.Data.Finset.Card
import Reach.Proofs.Descent

/-!
Unification comes to an end where no two frames can meet: neither term has a frame, or one of the two has
neither a frame nor a variable. Then no step brings in a variable. Each step binds one of the variables of
the two terms, or puts smaller goals in the place of one, or sends a pair of collections to wait; so no
branch goes on forever, and what is found on all of them together is finite.
-/

namespace Reach

/-- At most so many unifiers come up, and then the end, whichever counters are handed over. -/
inductive Unifiers.EndsWithin : Nat → Unifiers → Prop
  | finished (count : Nat) (fresh : Fresh) : EndsWithin count (.finished fresh)
  | found {count : Nat} (unifier : Unifier) (fresh : Fresh) {more : Fresh → Unifiers}
      (later : ∀ next, EndsWithin count (more next)) : EndsWithin (count + 1) (.found unifier fresh more)

namespace Unification

open Term

variable {sig : Signature} {p next : Problem} {goal part : Goal} {goals : List Goal} {v : Variable}
  {term image : Term} {vars : List Variable} {kind : Kind} {s : Subst}

section Measure

/-- How many of the variables are not bound yet. -/
def unboundCount (vars : List Variable) (p : Problem) : Nat :=
  (vars.toFinset.filter fun v => p.subst.get? v = none).card

/-- The size of the goals as they stand under the bindings. -/
def load (s : Subst) (goals : List Goal) : Nat :=
  total (goals.map fun goal => (s.apply goal.1).size + (s.apply goal.2).size)

theorem load_append (s : Subst) (first second : List Goal) :
    load s (first ++ second) = load s first + load s second := by
  rw [load, List.map_append, total_append]
  rfl

theorem load_pos (s : Subst) (goal : Goal) : 0 < load s [goal] := by
  have positive := (s.apply goal.1).size_pos
  simp only [load, List.map_cons, List.map_nil, total_cons, total_nil]
  omega

theorem load_cons (s : Subst) (goal : Goal) (goals : List Goal) :
    load s (goal :: goals) = load s [goal] + load s goals :=
  load_append s [goal] goals

private theorem load_eq_extent (fixed : ∀ goal ∈ goals, s.apply goal.1 = goal.1 ∧ s.apply goal.2 = goal.2) :
    load s goals = extent goals := by
  refine congrArg total (List.map_congr_left fun goal member => ?_)
  rw [(fixed goal member).1, (fixed goal member).2]

/-- Binding one of the variables leaves fewer. -/
theorem unboundCount_lt (known : v ∈ vars) (free : p.subst.get? v = none)
    (bound : next.subst = p.subst.compose (.single v image)) :
    unboundCount vars next < unboundCount vars p := by
  refine Finset.card_lt_card (Finset.ssubset_iff_of_subset ?_ |>.mpr ⟨v, ?_, ?_⟩)
  · intro w member
    obtain ⟨among, unbound⟩ := Finset.mem_filter.mp member
    rw [bound, Subst.get?_compose, Option.or_eq_none_iff, Option.map_eq_none_iff] at unbound
    exact Finset.mem_filter.mpr ⟨among, unbound.1⟩
  · exact Finset.mem_filter.mpr ⟨List.mem_toFinset.mpr known, free⟩
  · intro member
    have unbound := (Finset.mem_filter.mp member).2
    rw [bound, Subst.get?_compose, Subst.get?_single, if_pos rfl] at unbound
    simp at unbound

/-- The goals and the collections that wait. -/
def Problem.pending (p : Problem) : List Goal :=
  p.goals ++ p.deferred

/-- Fewer variables are not bound, or what is pending is smaller, or less of it has not been looked at. -/
def Descends (vars : List Variable) (next p : Problem) : Prop :=
  Prod.Lex (· < ·) (Prod.Lex (· < ·) (· < ·))
    (unboundCount vars next, load next.subst next.pending, next.goals.length)
    (unboundCount vars p, load p.subst p.pending, p.goals.length)

theorem descends_of_load (subst : next.subst = p.subst)
    (smaller : load p.subst next.pending < load p.subst p.pending) : Descends vars next p := by
  rw [Descends, unboundCount, subst]
  exact .right _ (.left _ _ smaller)

end Measure

/-- What is asked of a goal: its variables are among these, and no frames can meet in it. -/
structure Suits (vars : List Variable) (goal : Goal) : Prop where
  canonicalLeft : goal.1.Canonical
  canonicalRight : goal.2.Canonical
  varsLeft : goal.1.vars ⊆ vars
  varsRight : goal.2.vars ⊆ vars
  apart : Apart goal

theorem Suits.of_stems (suits : Suits vars goal) (stems : Stems goal part) : Suits vars part := by
  have apart := suits.apart.of_stems stems
  rcases stems with ⟨first, second⟩ | ⟨first, second⟩
  · exact ⟨first.canonical, second.canonical, List.Subset.trans first.vars suits.varsLeft,
      List.Subset.trans second.vars suits.varsRight, apart⟩
  · exact ⟨second.canonical, first.canonical, List.Subset.trans second.vars suits.varsRight,
      List.Subset.trans first.vars suits.varsLeft, apart⟩

/-- The invariant of a run: no frame comes in by a binding, and no frames can meet. -/
structure Tame (vars : List Variable) (p : Problem) : Prop where
  idempotent : p.subst.Idempotent
  canonical : p.subst.Canonical
  frameless : ∀ v, (p.subst.image v).Frameless
  known : ∀ v ∈ vars, (p.subst.image v).vars ⊆ vars
  pending : ∀ goal ∈ p.pending, Suits vars goal
  deferred : ∀ goal ∈ p.deferred, ∃ kind, goal.1.kind? = some kind ∧ goal.2.kind? = some kind

theorem Suits.swap (suits : Suits vars goal) : Suits vars goal.swap :=
  ⟨suits.canonicalRight, suits.canonicalLeft, suits.varsRight, suits.varsLeft, suits.apart.swap⟩

namespace Tame

theorem applied (tame : Tame vars p) (suits : Suits vars goal) :
    Suits vars (p.subst.apply goal.1, p.subst.apply goal.2) where
  canonicalLeft := tame.canonical.apply suits.canonicalLeft
  canonicalRight := tame.canonical.apply suits.canonicalRight
  varsLeft v occurs := by
    obtain ⟨w, inside, occurs⟩ := (Subst.mem_vars_apply p.subst goal.1).mp occurs
    exact tame.known w (suits.varsLeft inside) occurs
  varsRight v occurs := by
    obtain ⟨w, inside, occurs⟩ := (Subst.mem_vars_apply p.subst goal.2).mp occurs
    exact tame.known w (suits.varsRight inside) occurs
  apart := by
    rcases suits.apart with ⟨left, right⟩ | closed | closed
    · exact .inl ⟨left.apply suits.canonicalLeft fun v _ => tame.frameless v,
        right.apply suits.canonicalRight fun v _ => tame.frameless v⟩
    · rw [closed.apply_eq suits.canonicalLeft]
      exact .inr (.inl closed)
    · rw [closed.apply_eq suits.canonicalRight]
      exact .inr (.inr closed)

/-- What is made from an instance is left alone by the bindings. -/
theorem apply_eq (tame : Tame vars p) {part : Term} (inherits : Inherits (p.subst.apply term) part) :
    p.subst.apply part = part :=
  Subst.apply_eq_self inherits.canonical fun _ occurs =>
    Subst.image_of_get?_none (tame.idempotent.get?_of_mem_apply (inherits.vars occurs))

theorem of_pending (tame : Tame vars p) (subst : next.subst = p.subst)
    (pending : ∀ goal ∈ next.pending, Suits vars goal)
    (deferred : ∀ goal ∈ next.deferred, ∃ kind, goal.1.kind? = some kind ∧ goal.2.kind? = some kind) :
    Tame vars next where
  idempotent := subst ▸ tame.idempotent
  canonical := subst ▸ tame.canonical
  frameless := subst ▸ tame.frameless
  known := subst ▸ tame.known
  pending := pending
  deferred := deferred

/-- Smaller goals take the place of a goal. -/
theorem divided (tame : Tame vars p) (suits : Suits vars goal)
    (divided : Divided p (p.subst.apply goal.1, p.subst.apply goal.2) next) :
    Tame vars next ∧ next.subst = p.subst ∧ load p.subst next.pending < load p.subst (goal :: p.pending) := by
  obtain ⟨goals, rfl, stems, smaller⟩ := divided
  refine ⟨tame.of_pending rfl ?_ tame.deferred, rfl, ?_⟩
  · have each : ∀ part ∈ goals, Suits vars part := fun part member =>
      (tame.applied suits).of_stems (stems part member)
    intro part member
    simp only [Problem.pending, Problem.addGoals, List.mem_append] at member
    rcases member with (member | member) | member
    · exact tame.pending part (List.mem_append_left _ member)
    · exact each part member
    · exact tame.pending part (List.mem_append_right _ member)
  · have fixed : ∀ part ∈ goals, p.subst.apply part.1 = part.1 ∧ p.subst.apply part.2 = part.2 := by
      intro part member
      rcases stems part member with ⟨first, second⟩ | ⟨first, second⟩
      · exact ⟨tame.apply_eq first, tame.apply_eq second⟩
      · exact ⟨tame.apply_eq second, tame.apply_eq first⟩
    have whole : load p.subst (goal :: p.pending) =
        (p.subst.apply goal.1).size + (p.subst.apply goal.2).size + load p.subst p.pending := rfl
    rw [whole]
    simp only [Problem.pending, Problem.addGoals, load_append, load_eq_extent fixed]
    dsimp only at smaller
    omega

/-- A variable that is not bound takes a term without frames. -/
theorem eliminate (tame : Tame vars p) (unbound : ∀ w ∈ image.vars, p.subst.get? w = none)
    (absent : v ∉ image.vars) (canonical : image.Canonical) (frameless : image.Frameless)
    (known : image.vars ⊆ vars) : Tame vars { p with subst := p.subst.compose (.single v image) } where
  idempotent := tame.idempotent.compose_single unbound absent
  canonical := tame.canonical.compose (.single canonical)
  frameless w := by
    rw [Subst.image_compose]
    refine (tame.frameless w).apply (tame.canonical.image w) fun u _ => ?_
    rw [Subst.image_single]
    split
    · exact frameless
    · exact Everywhere.var_iff.mpr trivial
  known w among u occurs := by
    rw [Subst.image_compose] at occurs
    rcases Subst.mem_vars_apply_single.mp occurs with ⟨inside, _⟩ | ⟨_, inside⟩
    · exact tame.known w among inside
    · exact known inside
  pending := tame.pending
  deferred := tame.deferred

theorem bind (tame : Tame vars p) (suits : Suits vars (.var v, term)) (free : p.subst.get? v = none)
    (unbound : ∀ w ∈ term.vars, p.subst.get? w = none) (made : p.bind sig v term = some next) :
    Tame vars next ∧ next.goals = p.goals ∧ (unboundCount vars next < unboundCount vars p ∨
      next.subst = p.subst ∧ next.pending = p.pending) := by
  obtain ⟨⟨w, image⟩, oriented, made⟩ := Option.bind_eq_some_iff.mp made
  have frameless := suits.apart.frameless_of_var
  have among : v ∈ vars := suits.varsLeft (List.mem_singleton_self v)
  have facts : p.subst.get? w = none ∧ w ∈ vars ∧ (∀ x ∈ image.vars, p.subst.get? x = none) ∧
      image.Canonical ∧ image.Frameless ∧ image.vars ⊆ vars := by
    obtain ⟨_, ⟨rfl, rfl⟩ | ⟨rfl, rfl⟩⟩ := Problem.orient_eq_some oriented
    · exact ⟨free, among, unbound, suits.canonicalRight, frameless, suits.varsRight⟩
    · exact ⟨unbound w (List.mem_singleton_self w), suits.varsRight (List.mem_singleton_self w),
        by simpa using free, .var v, Everywhere.var_iff.mpr trivial, by simpa using among⟩
  obtain ⟨freeVar, amongVars, unboundImage, canonical, framelessImage, known⟩ := facts
  dsimp only at made
  split at made
  · split at made
    · cases made
      exact ⟨tame.of_pending rfl tame.pending tame.deferred, rfl, .inr ⟨rfl, rfl⟩⟩
    · cases made
  · next absent =>
    cases made
    rw [← mem_vars_iff_mentions] at absent
    exact ⟨tame.eliminate unboundImage absent canonical framelessImage known, rfl,
      .inl (unboundCount_lt amongVars freeVar rfl)⟩

end Tame

/-- The problem without a goal goes on to this one, and comes closer to the end. -/
structure Follows (vars : List Variable) (p : Problem) (goal : Goal) (next : Problem) : Prop where
  tame : Tame vars next
  closer : unboundCount vars next < unboundCount vars p ∨ next.subst = p.subst ∧
    (load p.subst next.pending < load p.subst (goal :: p.pending) ∨
      load p.subst next.pending ≤ load p.subst (goal :: p.pending) ∧ next.goals = p.goals)

/-- The goal is dropped, or kept for the end. -/
theorem follows_dropped (after : Tame vars next) (subst : next.subst = p.subst)
    (pending : next.pending = p.pending) : Follows vars p goal next where
  tame := after
  closer := by
    refine .inr ⟨subst, .inl ?_⟩
    have positive := load_pos p.subst goal
    rw [pending, load_cons]
    omega

private theorem follows_divided (tame : Tame vars p) (suits : Suits vars goal)
    (divided : Divided p (p.subst.apply goal.1, p.subst.apply goal.2) next) : Follows vars p goal next := by
  obtain ⟨after, subst, smaller⟩ := tame.divided suits divided
  exact ⟨after, .inr ⟨subst, .inl smaller⟩⟩

theorem follows_bind (tame : Tame vars p) (suits : Suits vars (.var v, term))
    (free : p.subst.get? v = none) (unbound : ∀ w ∈ term.vars, p.subst.get? w = none)
    (made : p.bind sig v term = some next) : Follows vars p goal next := by
  obtain ⟨after, _, fewer | ⟨subst, pending⟩⟩ := tame.bind suits free unbound made
  · exact ⟨after, .inl fewer⟩
  · exact follows_dropped after subst pending

/-- Two collections of one kind have to wait. -/
theorem follows_deferred (tame : Tame vars p) (suits : Suits vars goal)
    (kinds : ∃ kind, (p.subst.apply goal.1).kind? = some kind ∧ (p.subst.apply goal.2).kind? = some kind) :
    Follows vars p goal
      { p with deferred := p.deferred ++ [(p.subst.apply goal.1, p.subst.apply goal.2)] } where
  tame := by
    refine tame.of_pending rfl (fun part member => ?_) ?_
    · rw [Problem.pending, ← List.append_assoc] at member
      rcases List.mem_append.mp member with member | member
      · exact tame.pending part member
      · exact List.mem_singleton.mp member ▸ tame.applied suits
    · exact List.forall_mem_append.mpr ⟨tame.deferred, List.forall_mem_singleton.mpr kinds⟩
  closer := by
    refine .inr ⟨rfl, .inr ⟨Nat.le_of_eq ?_, rfl⟩⟩
    have twice : load p.subst [(p.subst.apply goal.1, p.subst.apply goal.2)] = load p.subst [goal] := by
      simp only [load, List.map_cons, List.map_nil]
      rw [tame.idempotent.apply_apply tame.canonical suits.canonicalLeft,
        tame.idempotent.apply_apply tame.canonical suits.canonicalRight]
    rw [Problem.pending, ← List.append_assoc, load_append, twice, load_cons, Nat.add_comm]
    rfl

private theorem follows_step (tame : Tame vars p) (suits : Suits vars goal)
    (made : p.step sig goal = some next) : Follows vars p goal next := by
  have unboundLeft := fun v (occurs : v ∈ (p.subst.apply goal.1).vars) =>
    tame.idempotent.get?_of_mem_apply occurs
  have unboundRight := fun v (occurs : v ∈ (p.subst.apply goal.2).vars) =>
    tame.idempotent.get?_of_mem_apply occurs
  have applied := tame.applied suits
  have divided := @follows_divided p next goal vars tame suits
  have deferred := follows_deferred tame suits
  unfold Problem.step at made
  dsimp only at made
  generalize p.subst.apply goal.1 = a at *
  generalize p.subst.apply goal.2 = b at *
  split at made
  · cases made
    exact follows_dropped tame rfl rfl
  split at made
  · next v _ => exact follows_bind tame applied (unboundLeft v (by simp)) unboundRight made
  · next v _ _ => exact follows_bind tame applied.swap (unboundRight v (by simp)) unboundLeft made
  · split at made
    · cases made
      exact follows_dropped (tame.of_pending rfl tame.pending tame.deferred) rfl rfl
    split at made
    · split at made
      · next shape =>
        cases made
        exact divided ⟨_, rfl, divides_args shape.2 applied.canonicalLeft applied.canonicalRight⟩
      · cases made
    · split at made
      · next same =>
        cases made
        exact deferred ⟨_, rfl, congrArg some same.symm⟩
      · cases made
    · cases made

/-- A goal that was looked at is gone from the goals. -/
theorem Follows.descends {rest : Problem} (follows : Follows vars rest goal next)
    (subst : rest.subst = p.subst) (pending : p.pending = goal :: rest.pending)
    (goals : p.goals.length = rest.goals.length + 1) : Descends vars next p := by
  obtain fewer | ⟨same, smaller⟩ := follows.closer
  · rw [unboundCount, unboundCount, subst] at fewer
    exact .left _ _ fewer
  rw [subst, ← pending] at smaller
  rw [subst] at same
  obtain smaller | ⟨level, kept⟩ := smaller
  · exact descends_of_load same smaller
  · rcases Nat.lt_or_eq_of_le level with smaller | level
    · exact descends_of_load same smaller
    · rw [Descends, unboundCount, same, level, kept, goals]
      exact .right _ (.right _ (Nat.lt_succ_self _))

theorem kind?_apply_of {term : Term} (canonical : term.Canonical) (shape : term.kind? = some kind) :
    (s.apply term).kind? = some kind := by
  cases term with
  | collection kind' entries frame =>
    cases shape
    exact Subst.kind?_apply canonical
  | _ => cases shape

/-- One step leads to problems that are tame again and closer to the end. -/
theorem Tame.advance (tame : Tame vars p) :
    (p.advance sig).Onward fun next => Tame vars next ∧ Descends vars next p := by
  unfold Problem.advance
  split
  · next goal goals shape =>
    have whole : p.pending = goal :: ({ p with goals } : Problem).pending := by
      rw [Problem.pending, shape]
      rfl
    obtain ⟨suits, others⟩ := List.forall_mem_cons.mp (whole ▸ tame.pending)
    have without : Tame vars { p with goals } := tame.of_pending rfl others tame.deferred
    refine onward_ofOption fun next made => ?_
    have follows := follows_step without suits made
    exact ⟨follows.tame, follows.descends rfl whole (congrArg List.length shape)⟩
  · next goal deferred done shape =>
    have whole : p.pending = goal :: ({ p with deferred } : Problem).pending := by
      rw [Problem.pending, done, shape]
      rfl
    obtain ⟨suits, others⟩ := List.forall_mem_cons.mp (whole ▸ tame.pending)
    obtain ⟨⟨kind, kindLeft, kindRight⟩, waiting⟩ := List.forall_mem_cons.mp (shape ▸ tame.deferred)
    have without : Tame vars { p with deferred } := tame.of_pending rfl others waiting
    have applied := without.applied suits
    refine (onward_expand rfl rfl (kind?_apply_of suits.canonicalLeft kindLeft)
      (kind?_apply_of suits.canonicalRight kindRight) applied.canonicalLeft applied.canonicalRight
      applied.apart).mono fun next divided => ?_
    obtain ⟨after, subst, smaller⟩ := without.divided suits divided
    exact ⟨after, descends_of_load subst (whole ▸ smaller)⟩
  · trivial

section Exploration

variable {run run' : Nat → Explore}

/-- From some budget on nothing changes, and whatever comes later, there are at most so many unifiers
before it. -/
def Concludes (run : Nat → Explore) : Prop :=
  ∃ bound count, ∀ fresh later,
    (∀ budget, bound ≤ budget → run budget fresh later = run bound fresh later) ∧
      ∀ extra, (∀ next, (later next).EndsWithin extra) → (run bound fresh later).EndsWithin (count + extra)

theorem concludes_later : Concludes fun _ fresh later => later fresh :=
  ⟨0, 0, fun fresh _ => ⟨fun _ _ => rfl, fun extra ends => (Nat.zero_add extra).symm ▸ ends fresh⟩⟩

private theorem concludes_found (unifier : Unifier) : Concludes fun _ fresh later => .found unifier fresh later :=
  ⟨0, 1, fun fresh _ => ⟨fun _ _ => rfl, fun extra ends =>
    (Nat.add_comm 1 extra).symm ▸ .found unifier fresh ends⟩⟩

/-- One exploration and then another. -/
theorem Concludes.andThen (first : Concludes run) (second : Concludes run') :
    Concludes fun budget fresh later => run budget fresh fun next => run' budget next later := by
  obtain ⟨bound, count, first⟩ := first
  obtain ⟨bound', count', second⟩ := second
  have settled (budget : Nat) (enough : max bound bound' ≤ budget) (fresh : Fresh)
      (later : Fresh → Unifiers) : (run budget fresh fun next => run' budget next later) =
        run bound fresh fun next => run' bound' next later := by
    have inner : (fun next => run' budget next later) = fun next => run' bound' next later :=
      funext fun next => (second next later).1 budget (Nat.le_trans (Nat.le_max_right _ _) enough)
    rw [inner]
    exact (first fresh _).1 budget (Nat.le_trans (Nat.le_max_left _ _) enough)
  refine ⟨max bound bound', count + count', fun fresh later => ⟨fun budget enough => ?_, fun extra ends => ?_⟩⟩
  · exact (settled budget enough fresh later).trans (settled _ (Nat.le_refl _) fresh later).symm
  · dsimp only
    rw [settled _ (Nat.le_refl _), Nat.add_assoc]
    exact (first fresh _).2 _ fun next => (second next later).2 extra ends

/-- The step that leads to an exploration takes one more of the budget. -/
theorem Concludes.succ (concludes : Concludes run)
    (step : ∀ budget fresh later, run' (budget + 1) fresh later = run budget fresh later) : Concludes run' := by
  obtain ⟨bound, count, concludes⟩ := concludes
  refine ⟨bound + 1, count, fun fresh later => ⟨fun budget enough => ?_, fun extra ends => ?_⟩⟩
  · obtain ⟨budget, rfl⟩ := Nat.exists_eq_add_of_le' (Nat.le_trans (Nat.le_add_left 1 bound) enough)
    rw [step, step]
    exact (concludes fresh later).1 budget (Nat.le_of_succ_le_succ enough)
  · rw [step]
    exact (concludes fresh later).2 extra ends

/-- The pairings of a choice one after the other. -/
theorem concludes_choice {c : Choice} {pairings : Enumeration (List Nat × List Nat)}
    (each : ∀ pairing ∈ pairings.toList, ∃ made : Option Problem,
      (∀ fresh, c.branch pairing fresh = (made, fresh)) ∧
        ∀ problem ∈ made, Concludes fun budget => problem.explore sig budget) :
    Concludes fun budget => c.explore (Problem.explore sig budget) pairings := by
  induction pairings with
  | nil => exact concludes_later
  | cons pairing tail ih =>
    obtain ⟨⟨made, same, concludes⟩, others⟩ := List.forall_mem_cons.mp each
    have rest := ih () others
    cases made with
    | none =>
      simpa only [Choice.explore, same] using rest
    | some problem =>
      simpa only [Choice.explore, same] using (concludes problem rfl).andThen rest

private theorem concludes_of_onward (onward : (p.advance sig).Onward fun next =>
    Concludes fun budget => next.explore sig budget) : Concludes fun budget => p.explore sig budget := by
  cases progress : p.advance sig with
  | solved unifier =>
    exact (concludes_found unifier).succ fun budget fresh later => by rw [Problem.explore, progress]
  | failed => exact concludes_later.succ fun budget fresh later => by rw [Problem.explore, progress]
  | next problem =>
    rw [progress] at onward
    exact Concludes.succ onward fun budget fresh later => by rw [Problem.explore, progress]
  | choose c =>
    rw [progress] at onward
    exact (concludes_choice onward).succ fun budget fresh later => by rw [Problem.explore, progress]

/-- By the order in which problems come closer to the end. -/
theorem concludes_explore (p : Problem) (tame : Tame vars p) :
    Concludes fun budget => p.explore sig budget := by
  refine concludes_of_onward (tame.advance.mono fun next reached => ?_)
  obtain ⟨after, closer⟩ := reached
  exact concludes_explore next after
termination_by (unboundCount vars p, load p.subst p.pending, p.goals.length)
decreasing_by exact closer

end Exploration

private theorem tame_start {a b : Term} (canonicalLeft : a.Canonical) (canonicalRight : b.Canonical)
    (apart : Apart (a, b)) : Tame (a.vars ++ b.vars) (start a b) where
  idempotent := Subst.idempotent_empty
  canonical := nofun
  frameless _ := Everywhere.var_iff.mpr trivial
  known v among w occurs := by
    obtain rfl := List.mem_singleton.mp occurs
    exact among
  pending goal member := by
    obtain rfl := List.mem_singleton.mp member
    exact ⟨canonicalLeft, canonicalRight, List.subset_append_left _ _, List.subset_append_right _ _, apart⟩
  deferred := nofun

end Unification

/-- Where no frames can meet, the unifiers of two terms come to an end: from some budget of steps on they
are the same, and no branch runs out of it; there are at most so many, whichever counters are handed
over. -/
theorem unify_terminates {sig : Signature} {a b : Term} (canonicalLeft : a.Canonical)
    (canonicalRight : b.Canonical) (apart : (a.Frameless ∧ b.Frameless) ∨
      (a.ground = true ∧ a.Frameless) ∨ (b.ground = true ∧ b.Frameless)) :
    ∃ bound count, ∀ budget, bound ≤ budget →
      unify sig budget a b = unify sig bound a b ∧
        ∀ explore, unify sig budget a b = .ok explore → ∀ fresh, (explore fresh).EndsWithin count := by
  have tame := Unification.tame_start canonicalLeft canonicalRight
    (apart.imp_right (Or.imp (fun sides => ⟨sides.1, sides.2⟩) fun sides => ⟨sides.1, sides.2⟩))
  obtain ⟨bound, count, concludes⟩ := @Unification.concludes_explore sig _ _ tame
  have same (budget : Nat) (enough : bound ≤ budget) : unify sig budget a b = unify sig bound a b := by
    unfold unify
    split
    · exact congrArg Except.ok (funext fun fresh => (concludes fresh .finished).1 budget enough)
    · rfl
  refine ⟨bound, count, fun budget enough => ⟨same budget enough, fun explore started fresh => ?_⟩⟩
  rw [same budget enough] at started
  rw [Unification.explore_eq_of_unify started]
  exact (concludes fresh .finished).2 0 fun next => .finished 0 next

/-- The bag with a frame against one that has neither a frame nor a variable. -/
theorem unify_terminates_sumAndTwo :
    (sumAndTwo.Canonical ∧ twoAndThree.Canonical ∧ twoAndThree.ground = true ∧ twoAndThree.Frameless ∧
        ¬sumAndTwo.Frameless) ∧
      ∃ bound count, ∀ budget, bound ≤ budget → ∃ explore,
        unify .builtin budget sumAndTwo twoAndThree = .ok explore ∧
          ∀ fresh, (explore fresh).EndsWithin count := by
  have canonicalLeft : sumAndTwo.Canonical := by
    refine .collection ?_ ?_ rfl
    · simp [Entry.parts, Term.Canonical.var, Term.Canonical.token, Term.Canonical.app]
    · simp [Term.Canonical.var]
  have canonicalRight : twoAndThree.Canonical := by
    refine .collection ?_ (by simp) rfl
    simp [Entry.parts, Term.Canonical.token]
  have ground : twoAndThree.ground = true := rfl
  have frameless : twoAndThree.Frameless :=
    Term.Everywhere.collection_iff.mpr
      ⟨rfl, by simp [Entry.parts, Term.Everywhere.token_iff, Term.Unframed], by simp⟩
  obtain ⟨bound, count, terminates⟩ :=
    @unify_terminates .builtin _ _ canonicalLeft canonicalRight (.inr (.inr ⟨ground, frameless⟩))
  refine ⟨⟨canonicalLeft, canonicalRight, ground, frameless, fun whole => Option.some_ne_none _ whole.here⟩,
    bound, count, fun budget enough => ⟨_, rfl, ?_⟩⟩
  exact (terminates budget enough).2 _ rfl

end Reach
