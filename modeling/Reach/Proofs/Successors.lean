import Reach.Proofs.Closure
import Reach.Proofs.Execution
import Reach.Proofs.Freshness

/-!
What applying a rule makes of terms of a class: the copy of the rule, the substitution under which it
applies, and the term of each successor are of the class, if the variables drawn on the way are allowed.
-/

namespace Reach

namespace Fresh

variable {first middle last : Fresh} {v : Variable}

/-- The variable was drawn at a position from `first` on and before `last`. -/
def Drawn (first last : Fresh) (v : Variable) : Prop :=
  ∃ base position, first.position ≤ position ∧ position < last.position ∧
    v = (variableLike base ⟨position⟩).1

theorem drawn_variableLike (base : Variable) (later : first.position < last.position) :
    Drawn first last (first.variableLike base).1 :=
  ⟨base, first.position, Nat.le_refl _, later, rfl⟩

theorem Drawn.mono {first' last' : Fresh} (drawn : Drawn first last v)
    (before : first'.position ≤ first.position) (after : last.position ≤ last'.position) :
    Drawn first' last' v := by
  obtain ⟨base, position, reached, below, rfl⟩ := drawn
  exact ⟨base, position, Nat.le_trans before reached, Nat.lt_of_lt_of_le below after, rfl⟩

/-- Where numbers wrap around they get smaller, so that they are avoided all the same. -/
theorem Drawn.avoids (drawn : Drawn first last v) : last.Avoids v := by
  obtain ⟨base, position, _, below, rfl⟩ := drawn
  intro stem' number reached same
  have wrapped : (UInt64.ofNat position).toNat ≤ position := by
    rw [UInt64.toNat_ofNat']
    exact Nat.mod_le _ _
  have named : (variableLike base ⟨position⟩).1.name =
      numbered (stem base.name) (UInt64.ofNat position).toNat := rfl
  have equal := number_eq_of_numbered (named.symm.trans same)
  omega

theorem constantOf_eq (sort : TermSort) (fresh : Fresh) :
    ∃ value, (constantOf sort fresh).1 = .token sort value := by
  unfold constantOf
  dsimp only
  split
  · exact ⟨_, rfl⟩
  · exact ⟨_, rfl⟩

theorem constantOf_position (sort : TermSort) (fresh : Fresh) :
    (constantOf sort fresh).2.position = fresh.position + 1 := by
  unfold constantOf
  dsimp only
  split <;> rfl

end Fresh

namespace Discipline

variable {k : Discipline} {rule : Rule} {s : Subst} {fresh : Fresh}

section Renaming

private theorem position_le_renameOnto (vars : List Variable) (s : Subst) (fresh : Fresh) :
    fresh.position ≤ (Rule.renameOnto vars (s, fresh)).2.position := by
  rw [Rule.position_renameOnto]
  exact Nat.le_add_right _ _

theorem Binds.renameOnto {vars : List Variable} (binds : k.Binds s) (known : ∀ v ∈ vars, k.var v)
    (allowed : ∀ v, Fresh.Drawn fresh (Rule.renameOnto vars (s, fresh)).2 v → k.var v) :
    k.Binds (Rule.renameOnto vars (s, fresh)).1 := by
  induction vars generalizing s fresh with
  | nil => exact binds
  | cons v rest ih =>
    obtain ⟨here, later⟩ := List.forall_mem_cons.mp known
    rw [Rule.renameOnto_cons] at allowed ⊢
    have onward := position_le_renameOnto rest (s.insert v (.var (fresh.variableLike v).1))
      (fresh.variableLike v).2
    rw [Fresh.variableLike_position] at onward
    have drawn : k.Has v.sort (.var (fresh.variableLike v).1) :=
      has_var (allowed _ (Fresh.drawn_variableLike v onward))
    refine ih (binds.insert here drawn) later fun w later => allowed w (later.mono ?_ (Nat.le_refl _))
    rw [Fresh.variableLike_position]
    exact Nat.le_succ _

theorem Binds.renameFresh {v : Variable} (binds : k.Binds s) (allowed : k.var v) :
    k.var (Rule.renameFresh s v) := by
  unfold Rule.renameFresh
  split
  · next w bound => exact (binds v _ bound).2.contains.here
  · exact allowed

/-- A substitution that takes one class to another takes rules of the one to rules of the other. -/
theorem Admissible.carry {target : Discipline} (admissible : k.Admissible rule)
    (terms : ∀ term, k.Contains term → target.Contains (s.apply term))
    (names : ∀ v, k.var v → target.var (Rule.renameFresh s v)) :
    target.Admissible (rule.substitute s) where
  lhs := terms _ admissible.lhs
  rhs := terms _ admissible.rhs
  requires := terms _ admissible.requires
  ensures := terms _ admissible.ensures
  lookups lookup member := by
    obtain ⟨source, listed, rfl⟩ := List.mem_map.mp member
    obtain ⟨pattern, expr⟩ := admissible.lookups source listed
    exact ⟨terms _ pattern, terms _ expr⟩
  freshConstants := List.forall_mem_map.mpr fun v member => names v (admissible.freshConstants v member)
  freshVariables := List.forall_mem_map.mpr fun v member => names v (admissible.freshVariables v member)

theorem Admissible.substitute (admissible : k.Admissible rule) (binds : k.Binds s) :
    k.Admissible (rule.substitute s) :=
  admissible.carry (fun _ inside => (binds.apply inside).contains) fun _ => binds.renameFresh

/-- The variables of a rule of the class are allowed. -/
theorem Admissible.allowed (admissible : k.Admissible rule) : ∀ v ∈ rule.allVars, k.var v := by
  intro v member
  simp only [Rule.allVars, List.mem_eraseDups, List.mem_append, List.mem_flatMap, or_assoc] at member
  rcases member with here | ⟨lookup, listed, expr | pattern⟩ | here | here | here | here | here
  · exact allowed_of_mem admissible.lhs here
  · exact allowed_of_mem (admissible.lookups lookup listed).2 expr
  · exact allowed_of_mem (admissible.lookups lookup listed).1 pattern
  · exact allowed_of_mem admissible.requires here
  · exact allowed_of_mem admissible.rhs here
  · exact allowed_of_mem admissible.ensures here
  · exact admissible.freshConstants v here
  · exact admissible.freshVariables v here

/-- The copy of a rule with fresh variables. -/
theorem Admissible.renameApart (admissible : k.Admissible rule)
    (allowed : ∀ v, Fresh.Drawn fresh (rule.renameApart fresh).2 v → k.var v) :
    k.Admissible (rule.renameApart fresh).1 :=
  admissible.substitute (binds_empty.renameOnto admissible.allowed allowed)

end Renaming

section Successors

open Engine

variable {α β : Type} {context : Context} {world after : World} {state : State} {fit : Fit}

/-- What one round of a loop keeps, the loop keeps; the world goes from one state to the next. -/
theorem of_gives_foldlM {action : β → α → Engine β} {holds : World → β → Prop} {items : List α}
    {start result : β}
    (each : ∀ item ∈ items, ∀ value first next second, holds first value →
      Gives (action value item) context first next second → holds second next)
    (begins : holds world start) (gives : Gives (items.foldlM action start) context world result after) :
    holds after result := by
  induction items generalizing world start with
  | nil =>
    rw [List.foldlM_nil] at gives
    obtain ⟨rfl, rfl⟩ := gives_pure.mp gives
    exact begins
  | cons item rest ih =>
    obtain ⟨here, later⟩ := List.forall_mem_cons.mp each
    rw [List.foldlM_cons] at gives
    obtain ⟨value, middle, made, gives⟩ := gives_bind.mp gives
    exact ih later (here start world value middle begins made) gives

/-- The substitution with the fresh values of a rule, which come from the counter. -/
theorem Binds.bindFresh {result : Subst} (binds : k.Binds s) (admissible : k.Admissible rule)
    (gives : Gives (bindFresh rule s) context world result after)
    (allowed : ∀ v, Fresh.Drawn world.fresh after.fresh v → k.var v) : k.Binds result := by
  -- The substitution is of the class once the variables drawn so far are allowed.
  let kept (now : World) (s : Subst) : Prop := world.fresh.position ≤ now.fresh.position ∧
    ((∀ v, Fresh.Drawn world.fresh now.fresh v → k.var v) → k.Binds s)
  unfold Engine.bindFresh at gives
  obtain ⟨withConstants, middle, constants, others⟩ := gives_bind.mp gives
  have begun : kept middle withConstants := by
    refine of_gives_foldlM (fun v member s first next second before gives => ?_)
      ⟨Nat.le_refl _, fun _ => binds⟩ constants
    simp only [gives_bind, gives_draw] at gives
    obtain ⟨_, _, ⟨rfl, rfl⟩, gives⟩ := gives
    obtain ⟨rfl, rfl⟩ := gives_pure.mp gives
    obtain ⟨onward, binds⟩ := before
    obtain ⟨value, token⟩ := Fresh.constantOf_eq v.sort first.fresh
    have position := Fresh.constantOf_position v.sort first.fresh
    refine ⟨by dsimp only; omega, fun allowed => ?_⟩
    rw [token]
    refine (binds fun w drawn => allowed w ?_).insert (admissible.freshConstants v member)
      (k.has_token v.sort value)
    exact drawn.mono (Nat.le_refl _) (by dsimp only; omega)
  have finished : kept after result := by
    refine of_gives_foldlM (fun v member s first next second before gives => ?_)
      begun others
    simp only [gives_bind, gives_draw] at gives
    obtain ⟨_, _, ⟨rfl, rfl⟩, gives⟩ := gives
    obtain ⟨rfl, rfl⟩ := gives_pure.mp gives
    obtain ⟨onward, binds⟩ := before
    have position := Fresh.variableLike_position v first.fresh
    refine ⟨by dsimp only; omega, fun allowed => ?_⟩
    have drawn : Fresh.Drawn world.fresh (first.fresh.variableLike v).2
        (first.fresh.variableLike v).1 :=
      (Fresh.drawn_variableLike v (by omega)).mono onward (Nat.le_refl _)
    have has : k.Has v.sort (.var (first.fresh.variableLike v).1) :=
      @has_var k (first.fresh.variableLike v).1 (allowed _ drawn)
    refine (binds fun w drawn => allowed w ?_).insert (admissible.freshVariables v member) has
    exact drawn.mono (Nat.le_refl _) (by dsimp only; omega)
  exact finished.2 allowed

/-- How a successor comes about, whatever the rule declares. -/
theorem of_gives_successor? {outcome : Option Successor}
    (gives : Gives (successor? rule state fit s) context world outcome after) :
    ∃ requires answer middle, context.definition.evaluate context.config.maxFunctionDepth
        (s.apply rule.requires) = .ok requires ∧
      Gives (feasible (narrowed state fit s requires)) context world answer middle ∧
      if answer then
        ∃ bound term ensures, Gives (bindFresh rule s) context middle bound after ∧
          context.definition.evaluate context.config.maxFunctionDepth (bound.apply rule.rhs) =
            .ok term ∧
          context.definition.evaluate context.config.maxFunctionDepth (bound.apply rule.ensures) =
            .ok ensures ∧
          outcome = produced context rule state fit s requires term ensures
      else outcome = none ∧ after = middle := by
  unfold successor? at gives
  simp only [monadLift_self, bindFresh_eq, gives_bind, gives_signature, gives_evaluate] at gives
  obtain ⟨_, _, ⟨rfl, rfl⟩, requires, _, ⟨evaluated, rfl⟩, answer, middle, asked, gives⟩ := gives
  refine ⟨requires, answer, middle, evaluated, asked, ?_⟩
  cases answer with
  | false => exact gives_pure.mp gives
  | true =>
    simp only [Bool.not_true, Bool.false_eq_true, ↓reduceIte, gives_bind, gives_evaluate] at gives
    obtain ⟨bound, _, drawn, term, _, ⟨target, rfl⟩, ensures, _, ⟨promised, rfl⟩, gives⟩ := gives
    refine ⟨bound, term, ensures, ?_⟩
    split at gives
    · next contradictory =>
      obtain ⟨rfl, rfl⟩ := gives_pure.mp gives
      exact ⟨drawn, target, promised, (if_pos contradictory).symm⟩
    · next consistent =>
      simp only [gives_bind, gives_read] at gives
      obtain ⟨_, _, ⟨rfl, rfl⟩, gives⟩ := gives
      obtain ⟨rfl, rfl⟩ := gives_pure.mp gives
      exact ⟨drawn, target, promised, (if_neg consistent).symm⟩

/-- The term of a successor is of the class. -/
theorem Governs.successor? {next : Successor} (governs : k.Governs context.definition)
    (admissible : k.Admissible rule) (binds : k.Binds s)
    (gives : Gives (successor? rule state fit s) context world (some next) after)
    (allowed : ∀ v, Fresh.Drawn world.fresh after.fresh v → k.var v) : k.Contains next.state.term := by
  obtain ⟨requires, answer, middle, _, asked, rest⟩ := of_gives_successor? gives
  obtain ⟨_, unmoved⟩ := leads_of_gives_feasible asked
  cases answer with
  | false => cases rest.1
  | true =>
    obtain ⟨bound, term, ensures, drawn, target, _, made⟩ := rest
    have held := binds.bindFresh admissible drawn (unmoved ▸ allowed)
    unfold produced at made
    dsimp only at made
    split at made
    · cases made
    · cases made
      exact (governs.has_evaluate (held.apply admissible.rhs).contains target).contains

end Successors

end Discipline

namespace Engine

variable {context : Context} {world after : World} {rule : Rule} {state : State} {fit : Fit}
  {limit : Option Nat} {found result : List Successor} {next : Successor}

/-- The successor comes of the fit, under one of the bindings to which the lookups extend it. -/
def ComesOf (context : Context) (rule : Rule) (state : State) (fit : Fit) (next : Successor) : Prop :=
  ∃ bindings, context.definition.lookups context.config.maxFunctionDepth rule fit.subst = .ok bindings ∧
    ∃ s ∈ bindings, ∃ first second, Gives (successor? rule state fit s) context first (some next) second

private theorem origin_of_addSuccessors {bindings : List Subst}
    (gives : Gives (addSuccessors rule state fit limit bindings found) context world result after) :
    ∀ next ∈ result, next ∈ found ∨ ∃ s ∈ bindings, ∃ first second,
      Gives (successor? rule state fit s) context first (some next) second := by
  induction bindings generalizing world found with
  | nil =>
    obtain ⟨rfl, rfl⟩ := gives_pure.mp gives
    exact fun next member => .inl member
  | cons s rest ih =>
    rw [addSuccessors] at gives
    obtain ⟨outcome, middle, made, gives⟩ := gives_bind.mp gives
    cases outcome with
    | none =>
      intro next member
      refine (ih gives next member).imp_right fun ⟨other, among, given⟩ => ?_
      exact ⟨other, List.mem_cons_of_mem _ among, given⟩
    | some new =>
      have appended : ∀ next ∈ found ++ [new], next ∈ found ∨ ∃ t ∈ s :: rest, ∃ first second,
          Gives (successor? rule state fit t) context first (some next) second := by
        intro next member
        refine (List.mem_append.mp member).imp_right fun last => ?_
        obtain rfl := List.mem_singleton.mp last
        exact ⟨s, List.mem_cons_self, world, middle, made⟩
      dsimp only at gives
      split at gives
      · obtain ⟨rfl, rfl⟩ := gives_pure.mp gives
        exact appended
      · intro next member
        rcases ih gives next member with old | ⟨other, among, given⟩
        · exact appended next old
        · exact .inr ⟨other, List.mem_cons_of_mem _ among, given⟩

theorem origin_of_addFit (gives : Gives (addFit rule state fit limit found) context world result after) :
    ∀ next ∈ result, next ∈ found ∨ ComesOf context rule state fit next := by
  unfold addFit at gives
  simp only [monadLift_self, gives_bind, gives_lookups] at gives
  obtain ⟨bindings, _, ⟨looked, rfl⟩, gives⟩ := gives
  intro next member
  refine (origin_of_addSuccessors gives next member).imp_right fun given => ?_
  exact ⟨bindings, looked, given⟩

private theorem origin_of_addMatches {choices : Enumeration Subst}
    (gives : Gives (addMatches rule state limit choices found) context world result after) :
    ∀ next ∈ result, next ∈ found ∨
      ∃ s ∈ choices.toList, ComesOf context rule state { subst := s } next := by
  induction choices generalizing world found with
  | nil =>
    obtain ⟨rfl, rfl⟩ := gives_pure.mp gives
    exact fun next member => .inl member
  | cons s more ih =>
    rw [addMatches] at gives
    obtain ⟨added, middle, fitted, gives⟩ := gives_bind.mp gives
    have begun : ∀ next ∈ added, next ∈ found ∨
        ∃ t ∈ (Enumeration.cons s more).toList, ComesOf context rule state { subst := t } next :=
      fun next member => (origin_of_addFit fitted next member).imp_right fun comes =>
        ⟨s, List.mem_cons_self, comes⟩
    split at gives
    · obtain ⟨rfl, rfl⟩ := gives_pure.mp gives
      exact begun
    · intro next member
      rcases ih () gives next member with old | ⟨t, among, comes⟩
      · exact begun next old
      · exact .inr ⟨t, List.mem_cons_of_mem _ among, comes⟩

private theorem origin_of_addUnifiers {unifiers : Unifiers}
    (gives : Gives (addUnifiers rule state limit unifiers found) context world result after) :
    ∀ next ∈ result, next ∈ found ∨ ∃ unifier, unifiers.Yields unifier ∧
      ComesOf context rule state (fitOf state unifier) next := by
  induction unifiers generalizing world found with
  | finished fresh =>
    simp only [addUnifiers, visit, gives_bind, gives_pure, gives_setFresh] at gives
    obtain ⟨_, _, rfl, rfl, rfl⟩ := gives
    exact fun next member => .inl member
  | cut fresh =>
    simp only [addUnifiers, visit, gives_bind] at gives
    obtain ⟨_, _, _, gives⟩ := gives
    exact absurd gives gives_throw
  | found unifier fresh more ih =>
    simp only [addUnifiers_found, gives_bind, gives_setFresh] at gives
    obtain ⟨_, _, rfl, added, middle, fitted, gives⟩ := gives
    have begun : ∀ next ∈ added, next ∈ found ∨ ∃ other, (Unifiers.found unifier fresh more).Yields other ∧
        ComesOf context rule state (fitOf state other) next :=
      fun next member => (origin_of_addFit fitted next member).imp_right fun comes =>
        ⟨unifier, .here fresh more, comes⟩
    split at gives
    · obtain ⟨rfl, rfl⟩ := gives_pure.mp gives
      exact begun
    · obtain ⟨now, _, got, gives⟩ := gives_bind.mp gives
      intro next member
      rcases ih _ gives next member with old | ⟨other, yields, comes⟩
      · exact begun next old
      · exact .inr ⟨other, .later unifier fresh _ yields, comes⟩

/-- A successor comes of a match of the rule, or of a unifier of its copy and the state. -/
theorem origin_of_applyRule {mode : Mode}
    (gives : Gives (applyRule rule state mode limit) context world result after) :
    ∀ next ∈ result,
      (mode = .matching ∧ ∃ s ∈ (Matching.enumerate rule.lhs state.term).toList,
        ComesOf context rule state { subst := s } next) ∨
      (mode = .unifying ∧ ∃ explore, unify context.definition.signature context.config.budget
          (rule.renameApart world.fresh).1.lhs state.term = .ok explore ∧
        ∃ unifier, (explore (rule.renameApart world.fresh).2).Yields unifier ∧
          ComesOf context (rule.renameApart world.fresh).1 state (fitOf state unifier) next) := by
  intro next member
  cases mode with
  | matching =>
    rcases origin_of_addMatches gives next member with absent | given
    · cases absent
    · exact .inl ⟨rfl, given⟩
  | unifying =>
    unfold applyRule at gives
    dsimp only at gives
    split at gives
    · simp only [copy_eq, forUnifiers_eq, gives_bind, gives_renameApart] at gives
      obtain ⟨_, _, ⟨rfl, rfl⟩, _, _, unified, gives⟩ := gives
      obtain ⟨explore, started, rfl, rfl⟩ := of_gives_unifiers unified
      rcases origin_of_addUnifiers gives next member with absent | given
      · cases absent
      · exact .inr ⟨rfl, explore, started, given⟩
    · obtain ⟨rfl, rfl⟩ := gives_pure.mp gives
      cases member

end Engine

end Reach
