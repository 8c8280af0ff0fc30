import Reach.Proofs.Clearance
import Reach.Proofs.Depth
import Reach.Proofs.Execution

/-!
Rewriting without variables. A pattern that matches a ground term has all of its variables bound to ground
terms, so that rules whose variables all occur on their left-hand sides lead from ground terms to ground
terms. A condition without variables about which no hook has anything to say is never refuted.
-/

namespace Reach

open Term

theorem Term.ground_iff_contains {term : Term} :
    (Discipline.ofVars fun _ => False).Contains term ↔ term.ground = true := by
  rw [Discipline.contains_ofVars_iff, Term.ground_iff_vars_eq_nil, List.eq_nil_iff_forall_not_mem]

namespace Matching.Problem

variable {p next : Problem} {d : Deferred} {goals : List Goal} {pattern subject : Term} {v : Variable}
  {s : Subst} {whole : Term}

/-- Every variable of a goal is bound by the step that takes it, or comes up again. -/
theorem covers_of_step (stepped : p.step pattern subject = some next) (occurs : v ∈ pattern.vars) :
    (next.subst.get? v).isSome = true ∨ next.occurs v := by
  rcases step_cases stepped with ⟨⟨w, rfl, held⟩ | ⟨ground, _⟩, rfl⟩ | ⟨w, rfl, _, _, rfl⟩ |
    ⟨_, _, args, _, args', rfl, rfl, _, aligned, rfl⟩ | ⟨d, same, rfl⟩
  · obtain rfl := List.mem_singleton.mp occurs
    exact .inl (by rw [held]; rfl)
  · rw [(ground_iff_vars_eq_nil pattern).mp ground] at occurs
    cases occurs
  · obtain rfl := List.mem_singleton.mp occurs
    exact .inl (by rw [Assoc.get?_insert, if_pos rfl]; rfl)
  · obtain ⟨arg, member, inside⟩ := mem_vars_app.mp occurs
    rw [← List.map_fst_zip (Nat.le_of_eq aligned)] at member
    obtain ⟨goal, among, rfl⟩ := List.mem_map.mp member
    exact .inr (occurs_addGoals.mpr (.inl ⟨goal, among, inside⟩))
  · have last : d ∈ p.deferred ++ [d] := by simp
    exact .inr ⟨(pattern, subject), List.mem_append_right _ (same ▸ List.mem_map_of_mem last), occurs⟩

/-- What is bound is ground and so is what is left to be matched against, and every variable of the
pattern that the search began with is bound or still comes up. -/
structure Grounds (whole : Term) (p : Problem) : Prop where
  images : ∀ v term, p.subst.get? v = some term → term.ground = true
  subjects : ∀ goal ∈ p.pending, goal.2.ground = true
  covers : ∀ v ∈ whole.vars, (p.subst.get? v).isSome = true ∨ p.occurs v

variable {rest : Problem} {goal : Goal}

/-- A goal may be taken away, if its variables are bound or come up in what is ground on the other side. -/
theorem Grounds.onward (grounds : Grounds whole p) (split : p.pending = goal :: rest.pending)
    (base : rest.subst = p.subst)
    (images : ∀ v term, next.subst.get? v = some term → rest.subst.get? v = some term ∨
      term.ground = true)
    (subjects : ∀ other ∈ next.pending, other ∈ rest.pending ∨ other.2.ground = true)
    (kept : ∀ v, (rest.subst.get? v).isSome = true ∨ rest.occurs v →
      (next.subst.get? v).isSome = true ∨ next.occurs v)
    (taken : ∀ v ∈ goal.1.vars, (next.subst.get? v).isSome = true ∨ next.occurs v) :
    Grounds whole next where
  images v term bound := (images v term bound).elim (fun old => grounds.images v term (base ▸ old)) id
  subjects other member := (subjects other member).elim
    (fun old => grounds.subjects other (split ▸ List.mem_cons_of_mem _ old)) id
  covers v inside := by
    rcases grounds.covers v inside with known | ⟨other, member, occurs⟩
    · exact kept v (.inl (base ▸ known))
    · rw [split] at member
      rcases List.mem_cons.mp member with rfl | later
      · exact taken v occurs
      · exact kept v (.inr ⟨other, later, occurs⟩)

theorem Grounds.step (grounds : Grounds whole p) (split : p.pending = (pattern, subject) :: rest.pending)
    (base : rest.subst = p.subst) (stepped : rest.step pattern subject = some next) :
    Grounds whole next := by
  have ground : subject.ground = true :=
    grounds.subjects (pattern, subject) (split ▸ List.mem_cons_self)
  refine grounds.onward split base (fun v term bound => ?_) (fun other member => ?_) (fun v known => ?_)
    fun v => covers_of_step stepped
  all_goals rcases step_cases stepped with ⟨_, rfl⟩ | ⟨w, rfl, _, _, rfl⟩ |
    ⟨_, _, args, _, args', rfl, rfl, _, _, rfl⟩ | ⟨d, same, rfl⟩
  · exact .inl bound
  · rw [Assoc.get?_insert] at bound
    split at bound
    · cases bound
      exact .inr ground
    · exact .inl bound
  · exact .inl bound
  · exact .inl bound
  · exact .inl member
  · exact .inl member
  · refine (mem_pending_addGoals.mp member).symm.imp_right fun new => ?_
    rw [← ground_iff_contains] at ground ⊢
    exact (Everywhere.app_iff.mp ground).2 _ (List.of_mem_zip new).2
  · simp only [pending, List.map_append, List.mem_append, List.map_cons, List.map_nil,
      List.mem_singleton, ← or_assoc] at member
    refine member.imp List.mem_append.mpr ?_
    rintro rfl
    rw [← same]
    exact ground
  · exact known
  · refine known.imp_left fun bound => ?_
    rw [Assoc.get?_insert]
    split
    · rfl
    · exact bound
  · exact known.imp_right fun occurs => occurs_addGoals.mpr (.inr occurs)
  · refine known.imp_right ?_
    rintro ⟨other, member, occurs⟩
    refine ⟨other, ?_, occurs⟩
    simp only [pending, List.map_append, List.mem_append] at member ⊢
    tauto

theorem Grounds.expand (grounds : Grounds whole p) (split : p.pending = d.goal :: rest.pending)
    (base : rest.subst = p.subst) (member : next ∈ (rest.expand d).toList) : Grounds whole next := by
  have ground : d.goal.2.ground = true := grounds.subjects d.goal (split ▸ List.mem_cons_self)
  rw [expand_eq] at member
  obtain ⟨goals, among, rfl⟩ := List.mem_map.mp member
  refine grounds.onward split base (fun v term => .inl) (fun other member => ?_) (fun v known => ?_)
    fun v occurs => ?_
  · refine (mem_pending_addGoals.mp member).symm.imp_right fun new => ?_
    rw [← ground_iff_contains] at ground ⊢
    exact Discipline.contains_of_alternative (Discipline.contains_collection_iff.mp ground) among other new
  · exact known.imp_right fun occurs => occurs_addGoals.mpr (.inr occurs)
  · exact .inr (occurs_addGoals.mpr (.inl ((vars_alternative among v).mp occurs)))

theorem Grounds.advance {problems : Enumeration Problem} (grounds : Grounds whole p)
    (progress : p.advance = .branches problems) : ∀ next ∈ problems.toList, Grounds whole next := by
  unfold Problem.advance at progress
  split at progress
  · next pattern subject goals shape =>
    cases progress
    have split : p.pending = (pattern, subject) :: pending { p with goals } := by
      rw [pending, shape]
      rfl
    intro next member
    cases stepped : Problem.step { p with goals } pattern subject with
    | none =>
      rw [stepped] at member
      cases member
    | some problem =>
      rw [stepped] at member
      obtain rfl := List.mem_singleton.mp member
      exact grounds.step split rfl stepped
  · next d deferred none shape =>
    cases progress
    have split : p.pending = d.goal :: pending { p with deferred } := by
      rw [pending, none, shape]
      rfl
    exact fun next => grounds.expand split rfl
  · cases progress

end Matching.Problem

section Matching

variable {pattern subject term : Term} {s : Subst} {v : Variable}

/-- A match with a ground term binds every variable of the pattern to a ground term. -/
theorem Matching.ground_of_mem_enumerate (ground : subject.ground = true)
    (matched : s ∈ (enumerate pattern subject).toList) (occurs : v ∈ pattern.vars) :
    ∃ value, s.get? v = some value ∧ value.ground = true := by
  have begun : Problem.Grounds pattern ⟨.empty, [(pattern, subject)], []⟩ :=
    { images := nofun
      subjects := List.forall_mem_singleton.mpr ground
      covers := fun v inside => .inr ⟨_, List.mem_singleton_self _, inside⟩ }
  obtain ⟨last, grounds, solved⟩ := Problem.exists_of_mem_solve
    (fun p problems grounds progress => grounds.advance progress) begun matched
  unfold Problem.advance at solved
  split at solved
  · cases solved
  · cases solved
  · next done none =>
    cases solved
    rcases grounds.covers v occurs with bound | ⟨goal, pending, _⟩
    · obtain ⟨value, bound⟩ := Option.isSome_iff_exists.mp bound
      exact ⟨value, bound, grounds.images v value bound⟩
    · rw [Problem.pending, done, none] at pending
      cases pending

/-- What has no other variables than the pattern is ground under a match with a ground term. -/
theorem Matching.ground_apply_of_mem (ground : subject.ground = true)
    (matched : s ∈ (enumerate pattern subject).toList) (within : ∀ v ∈ term.vars, v ∈ pattern.vars) :
    (s.apply term).ground = true := by
  rw [Term.ground_iff_vars_eq_nil, List.eq_nil_iff_forall_not_mem]
  intro v occurs
  obtain ⟨w, inside, occurs⟩ := (Subst.mem_vars_apply s term).mp occurs
  obtain ⟨value, bound, closed⟩ := ground_of_mem_enumerate ground matched (within w inside)
  rw [Subst.image, bound, Option.getD_some, (Term.ground_iff_vars_eq_nil value).mp closed] at occurs
  cases occurs

end Matching

/-- A rule that is nothing but its sides and conditions, and in which only matching binds variables. -/
structure Rule.Closed (rule : Rule) : Prop extends rule.Bare where
  covers : ∀ v ∈ rule.allVars, v ∈ rule.lhs.vars

namespace Rule.Closed

variable {rule : Rule} {v : Variable} (closed : rule.Closed)
include closed

theorem rhs (occurs : v ∈ rule.rhs.vars) : v ∈ rule.lhs.vars :=
  closed.covers v (by simp [Rule.allVars, occurs])

theorem requires (occurs : v ∈ rule.requires.vars) : v ∈ rule.lhs.vars :=
  closed.covers v (by simp [Rule.allVars, occurs])

theorem ensures (occurs : v ∈ rule.ensures.vars) : v ∈ rule.lhs.vars :=
  closed.covers v (by simp [Rule.allVars, occurs])

end Rule.Closed

section Evaluating

open Discipline

variable {d : Definition} {limit depth : Nat} {term value : Term}

/-- The value of a ground term is ground, if the rules of functions are closed. -/
theorem Definition.ground_of_evaluateWithin
    (closed : ∀ label, ∀ rule ∈ d.functionRules label, rule.Closed) (ground : term.ground = true)
    (made : d.evaluateWithin limit depth term = .ok value) : value.ground = true := by
  -- A fold stays in the class if the hooks and the calls do, whose rules evaluate one level deeper.
  have folded {depth : Nat} {term value : Term} (ground : term.ground = true)
      (calls : ∀ label call value, call.ground = true → d.call limit depth label call = .ok value →
        value.ground = true)
      (made : d.evaluateWithin limit depth term = .ok value) : value.ground = true := by
    rw [← Term.ground_iff_contains] at ground ⊢
    rw [← Definition.fold_of_evaluateWithin made]
    refine (has_fold rfl rfl (fun v => has_var) (fun label sort args here inner => ?_) ground).contains
    have whole : (ofVars fun _ => False).Contains (.app label sort args) :=
      Everywhere.app_iff.mpr ⟨here, inner⟩
    refine has_node (fun value called => ⟨contains_ofVars_of_callHook inner called, trivial⟩)
      (fun value made => ⟨?_, trivial⟩) whole
    exact Term.ground_iff_contains.mpr (calls label _ value (Term.ground_iff_contains.mp whole) made)
  induction depth generalizing term value with
  | zero =>
    refine folded ground (fun label call value ground made => ?_) made
    rw [Definition.call] at made
    split at made
    · cases made
      exact ground
    · cases made
  | succ depth ih =>
    refine folded ground (fun label call value ground made => ?_) made
    rcases Evaluation.of_tryRules made with rfl | ⟨rule, member, s, matched, bindings, looked, s', among,
      evaluated⟩
    · exact ground
    · rw [(closed label rule member).lookups, Evaluation.lookups] at looked
      cases looked
      obtain rfl := List.mem_singleton.mp among
      exact ih (Matching.ground_apply_of_mem ground matched fun v => (closed label rule member).rhs)
        evaluated

/-- No hook has anything to say about a part of a value. -/
theorem Definition.evalBuiltins_of_final (canonical : term.Canonical)
    (final : term.Everywhere (d.Final limit depth)) : d.signature.evalBuiltins term = term := by
  refine Term.fold_eq_self canonical rfl rfl (fun _ _ => rfl) (final.mono fun node final => ?_)
  cases node with
  | app label sort args =>
    rw [Definition.Final, Evaluation.node] at final
    rw [Term.Algebra.Leaves, Signature.builtinAlgebra]
    dsimp only
    cases called : d.signature.callHook label args with
    | none => rfl
    | some value =>
      rw [called] at final
      exact Except.ok.inj final
  | _ => trivial

end Evaluating

/-- A condition about which simplification and bounds have nothing to say: it has no variables, no hook
determines a result in it, and it is neither a truth value nor a conjunction. -/
structure Term.Idle (sig : Signature) (condition : Term) : Prop where
  ground : condition.ground = true
  evaluated : sig.evalBuiltins condition = condition
  single : Constraint.conjuncts condition = [condition]
  unproved : condition.isTrue = false
  unrefuted : condition.isFalse = false

namespace Constraint

variable {sig : Signature} {c other : Constraint} {condition : Term} {atoms : List Atom}

/-- A constraint of idle conditions. -/
structure Idle (sig : Signature) (c : Constraint) : Prop where
  consistent : c.contradiction = false
  atoms : ∀ atom ∈ c.atoms, ∃ condition, atom = .holds condition ∧ condition.Idle sig

theorem idle_top : top.Idle sig :=
  ⟨rfl, nofun⟩

theorem Idle.push {atom : Atom} (idle : c.Idle sig)
    (here : ∃ condition, atom = .holds condition ∧ condition.Idle sig) : (c.push atom).Idle sig := by
  unfold Constraint.push
  split
  · exact idle
  · exact ⟨idle.consistent,
      List.forall_mem_append.mpr ⟨idle.atoms, List.forall_mem_singleton.mpr here⟩⟩

theorem Idle.pushAll (idle : c.Idle sig)
    (each : ∀ atom ∈ atoms, ∃ condition, atom = .holds condition ∧ condition.Idle sig) :
    (atoms.foldl Constraint.push c).Idle sig := by
  induction atoms generalizing c with
  | nil => exact idle
  | cons atom rest ih =>
    obtain ⟨here, later⟩ := List.forall_mem_cons.mp each
    exact ih (idle.push here) later

theorem Idle.and (idle : c.Idle sig) (more : other.Idle sig) : (c.and other).Idle sig := by
  rw [Constraint.and, more.consistent]
  exact idle.pushAll more.atoms

/-- Nothing is replaced in an idle constraint. -/
theorem Idle.substitute {s : Subst} (idle : c.Idle sig) (empty : s.isEmpty = true) :
    (c.substitute s).Idle sig := by
  have same : c.atoms.map (Atom.map s.apply) = c.atoms := by
    rw [Subst.apply_eq_id_of_isEmpty empty]
    exact (List.map_congr_left fun atom _ => by cases atom <;> rfl).trans (List.map_id _)
  rw [Constraint.substitute, idle.consistent, same]
  exact idle_top.pushAll idle.atoms

/-- Nothing is eliminated from an idle constraint, and nothing is dropped. -/
theorem Idle.project (idle : c.Idle sig) (keep : List Variable) : (c.project keep).Idle sig := by
  have fixed (rounds : Nat) : eliminate keep rounds c.atoms = c.atoms := by
    cases rounds with
    | zero => rfl
    | succ rounds =>
      rw [eliminate]
      split
      · rfl
      · next taken =>
        obtain ⟨definition, member, found, _⟩ := of_takeEliminable taken
        obtain ⟨condition, rfl, _⟩ := idle.atoms definition member
        cases found
  refine ⟨project_contradiction.trans idle.consistent, fun atom member => ?_⟩
  have left := (of_mem_project member).1
  rw [fixed] at left
  exact idle.atoms atom left

theorem Idle.assumeEvaluated (idle : c.Idle sig) (here : condition.Idle sig) :
    (c.assumeEvaluated sig condition).Idle sig := by
  rw [Constraint.assumeEvaluated, here.evaluated, Constraint.conjoin, here.single, List.foldl_cons,
    List.foldl_nil, assume, here.unproved, here.unrefuted]
  exact idle.push ⟨condition, rfl, here⟩

/-- Simplification leaves an idle constraint idle. -/
theorem Idle.simplify (idle : c.Idle sig) : (c.simplify sig).Idle sig := by
  have evaluated {atoms : List Atom} {before : Constraint} (begun : before.Idle sig)
      (each : ∀ atom ∈ atoms, ∃ condition, atom = .holds condition ∧ condition.Idle sig) :
      (atoms.foldl (addEvaluated sig) before).Idle sig := by
    induction atoms generalizing before with
    | nil => exact begun
    | cons atom rest ih =>
      obtain ⟨⟨condition, rfl, here⟩, later⟩ := List.forall_mem_cons.mp each
      exact ih (begun.assumeEvaluated here) later
  have whole : (ofAtoms sig c.atoms).Idle sig := evaluated idle_top idle.atoms
  rw [Constraint.simplify, idle.consistent]
  -- There is no equation from which a value could be propagated.
  have unbound (rounds : Nat) : (ofAtoms sig c.atoms).propagateAll sig rounds [] = ofAtoms sig c.atoms := by
    cases rounds with
    | zero => rfl
    | succ rounds =>
      rw [propagateAll]
      split
      · rfl
      · next found =>
        obtain ⟨member, _⟩ := of_binding? found
        obtain ⟨_, shape, _⟩ := whole.atoms _ member
        cases shape
  dsimp only
  rw [unbound]
  exact whole

private theorem contains_of_comparisonOf? {k : Discipline} {comparison : Comparison} {a b : Term}
    (contains : k.Contains condition)
    (known : Bounds.comparisonOf? (.holds condition) = some (comparison, a, b)) :
    k.Contains a ∧ k.Contains b := by
  unfold Bounds.comparisonOf? at known
  split at known
  · next shape => cases shape
  · next label sort args shape =>
    cases shape
    obtain ⟨_, inner⟩ := Everywhere.app_iff.mp contains
    split at known
    · split at known
      · obtain ⟨_, _, same⟩ := Option.map_eq_some_iff.mp known
        cases same
        obtain ⟨_, deeper⟩ := Everywhere.app_iff.mp (inner _ (List.mem_singleton_self _))
        exact ⟨deeper _ (by simp), deeper _ (by simp)⟩
      · cases known
    · split at known
      · obtain ⟨_, _, same⟩ := Option.map_eq_some_iff.mp known
        cases same
        exact ⟨inner _ (by simp), inner _ (by simp)⟩
      · cases known
  · cases known

/-- No bound is read off an idle constraint. -/
theorem Idle.not_refute (idle : c.Idle sig) : (Bounds.ofAtoms c.atoms).refute = false := by
  have closed {term : Term} {v : Variable} {offset : Int} (linear : Bounds.Linear term v offset) :
      ¬(Discipline.ofVars fun _ => False).Contains term := by
    rw [Discipline.contains_ofVars_iff]
    have occurs : v ∈ term.vars := by cases linear <;> simp [vars_app]
    exact fun none => none v occurs
  refine Bounds.refute_eq_false_iff.mpr fun v => ⟨0, fun atom member comparison bound found => ?_⟩
  obtain ⟨condition, rfl, here⟩ := idle.atoms atom member
  obtain ⟨⟨compared, a, b⟩, known, normal⟩ := Option.bind_eq_some_iff.mp found
  obtain ⟨left, right⟩ := contains_of_comparisonOf? (Term.ground_iff_contains.mpr here.ground) known
  obtain ⟨_, _, _, ⟨linear, _⟩ | ⟨linear, _⟩⟩ := Bounds.of_normalForm? normal
  · exact absurd left (closed linear)
  · exact absurd right (closed linear)

/-- An idle constraint is feasible. -/
theorem Idle.feasible {store : Store} (idle : c.Idle sig) (standard : store.Standard sig) :
    (Store.feasible sig c store).1 = .ok true := by
  have simplified := idle.simplify
  rw [Store.feasible_eq]
  simp only [isFalse, simplified.consistent, Bool.false_eq_true, ↓reduceIte]
  split
  · rfl
  · obtain ⟨answer, after⟩ := standard.query (c.simplify sig)
    have consistent : (c.simplify sig).decideLocally sig ≠ .unsat := by
      rw [ne_eq, decideLocally_eq_unsat_iff, simplified.simplify.consistent, simplified.simplify.not_refute]
      decide
    rw [answer, after.config]
    cases verdict : (c.simplify sig).decideLocally sig with
    | sat => rfl
    | unsat => exact absurd verdict consistent
    | unknown reason => rfl

/-- Whether a conjunct is falsity. -/
def refuted (condition : Term) : Bool :=
  (conjuncts condition).any Term.isFalse

/-- Every conjunct is a truth value or idle. -/
def Decided (sig : Signature) (condition : Term) : Prop :=
  ∀ part ∈ conjuncts condition, part.isTrue = true ∨ part.isFalse = true ∨ part.Idle sig

private theorem foldl_assume_bottom (conditions : List Term) : conditions.foldl assume bottom = bottom := by
  induction conditions with
  | nil => rfl
  | cons first rest ih =>
    have still : bottom.assume first = bottom := by
      unfold assume
      split
      · rfl
      · split <;> rfl
    rw [List.foldl_cons, still, ih]

/-- A condition that is refuted leaves a contradiction, whatever it is added to. -/
theorem conjoin_of_refuted (c : Constraint) (failed : refuted condition = true) :
    c.conjoin condition = bottom := by
  unfold refuted at failed
  unfold conjoin
  generalize conjuncts condition = conditions at failed
  induction conditions generalizing c with
  | nil => cases failed
  | cons first rest ih =>
    rw [List.foldl_cons]
    by_cases false_ : first.isFalse = true
    · have contradictory : c.assume first = bottom := by
        obtain rfl := Term.isFalse_iff.mp false_
        rfl
      rw [contradictory, foldl_assume_bottom]
    · exact ih _ (by simpa [false_] using failed)

/-- A condition that is not refuted adds nothing but idle conditions. -/
theorem Idle.conjoin (idle : c.Idle sig) (decided : Decided sig condition)
    (passed : refuted condition = false) : (c.conjoin condition).Idle sig := by
  unfold refuted at passed
  unfold Decided at decided
  unfold Constraint.conjoin
  generalize conjuncts condition = conditions at decided passed
  induction conditions generalizing c with
  | nil => exact idle
  | cons first rest ih =>
    obtain ⟨here, later⟩ := List.forall_mem_cons.mp decided
    rw [List.any_cons, Bool.or_eq_false_iff] at passed
    refine ih ?_ later passed.2
    unfold assume
    split
    · exact idle
    · next open_ =>
      rw [if_neg (by simp [passed.1])]
      refine idle.push ⟨first, rfl, ?_⟩
      simpa [open_, passed.1] using here

end Constraint

/-- Whether a ground value holds is decided, or nothing more is to be said about it. -/
theorem Definition.decided_of_evaluateWithin {d : Definition} {limit depth : Nat} {term value : Term}
    (closed : ∀ label, ∀ rule ∈ d.functionRules label, rule.Closed) (ground : term.ground = true)
    (made : d.evaluateWithin limit depth term = .ok value) : Constraint.Decided d.signature value := by
  have contains := Term.ground_iff_contains.mpr (ground_of_evaluateWithin closed ground made)
  have canonical : value.Canonical := by
    rw [← fold_of_evaluateWithin made]
    exact (d.normalizing_evaluation limit depth).canonical term
  intro part member
  have inner : part.Canonical := Constraint.forall_conjuncts
    (fun sort a b whole => ⟨whole.of_app a (by simp), whole.of_app b (by simp)⟩) canonical part member
  have final : part.Everywhere (d.Final limit depth) := Constraint.forall_conjuncts
    (fun _ _ _ => Constraint.everywhere_sides) (final_of_evaluateWithin made) part member
  have closed : (Discipline.ofVars fun _ => False).Contains part := Constraint.forall_conjuncts
    (fun _ _ _ => Constraint.everywhere_sides) contains part member
  by_cases proved : part.isTrue = true
  · exact .inl proved
  · by_cases failed : part.isFalse = true
    · exact .inr (.inl failed)
    · exact .inr (.inr {
        ground := Term.ground_iff_contains.mp closed
        evaluated := evalBuiltins_of_final inner final
        single := Constraint.conjuncts_of_mem member
        unproved := by simpa using proved
        unrefuted := by simpa using failed })

end Reach
