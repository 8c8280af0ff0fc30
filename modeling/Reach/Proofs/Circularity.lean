import Reach.Proofs.Quiet
import Reach.Proofs.Targets

/-!
Claims as hypotheses of their own proof. A claim that covers a state takes each ground term that the state
stands for to a later term of its trace, which the next state stands for. The claim need not be known of more
than the traces that are shorter than some limit, so that it may be used in its own proof behind a step.
-/

namespace Reach

section Traces

variable {sig : Signature} {rules : List Rule} {a b : Term} {path : List Term}

theorem Trace.head_mem (trace : Trace sig rules a path) : a ∈ path := by
  cases trace <;> exact List.mem_cons_self

/-- From each of its terms on, a trace is a trace. -/
theorem Trace.exists_suffix (trace : Trace sig rules a path) (member : b ∈ path) :
    ∃ later, later <:+ path ∧ Trace sig rules b later := by
  induction trace with
  | stuck stuck =>
    obtain rfl := List.mem_singleton.mp member
    exact ⟨_, List.suffix_refl _, .stuck stuck⟩
  | step rewrites later ih =>
    rcases List.mem_cons.mp member with rfl | member
    · exact ⟨_, List.suffix_refl _, .step rewrites later⟩
    · obtain ⟨rest, suffix, trace⟩ := ih member
      exact ⟨rest, suffix.trans (List.suffix_cons _ _), trace⟩

end Traces

/-- Shorter traces that start in the claim, with a true precondition, pass through its target. -/
def Rule.HoldsBelow (sig : Signature) (rules : List Rule) (limit : Nat) (claim : Rule) : Prop :=
  ∀ assign path, sig.Supplies assign → claim.requires.fold (sig.assigned assign) = .truth →
    Trace sig rules (claim.lhs.fold (sig.assigned assign)) path → path.length < limit →
      ∃ b ∈ path, claim.Attains sig assign b

namespace Engine

variable {sig : Signature} {rules : List Rule} {context : Context} {world after : World}
  {state next : State} {claim : Rule} {a : Term} {assign : Variable → Term} {path : List Term}
  {limit : Nat}

/-- What a claim leads to from a state under a match: the store finds its precondition to follow. -/
structure Concludes (sig : Signature) (context : Context) (claim : Rule) (state : State) (s : Subst)
    (next : State) : Prop where
  asked : ∃ now last, now.store.Standard sig ∧
    Gives (implies state.constraint (.ofTerm (sig.evalBuiltins (s.apply claim.requires)))) context now true
      last
  term : next.term = sig.evalBuiltins (s.apply claim.rhs)
  constraint : next.constraint = ((state.constraint.conjoin
    (sig.evalBuiltins (s.apply claim.ensures))).simplify sig).project next.term.freeVars

section Answers

variable (collects : context.definition.Collects sig rules) (standard : world.store.Standard sig)
include collects standard

/-- A hypothesis is applied under one of the matches. -/
theorem exists_concludes_of_applyHypothesis {choices : Enumeration Subst}
    (gives : Gives (applyHypothesis claim state choices) context world (some next) after) :
    ∃ s ∈ choices.toList, Concludes sig context claim state s next := by
  induction choices generalizing world with
  | nil => cases (gives_pure.mp gives).1
  | cons s more ih =>
    simp only [applyHypothesis, gives_bind, gives_evaluate_iff collects] at gives
    obtain ⟨_, now, ⟨rfl, rfl⟩, answer, middle, asked, rest⟩ := gives
    have later (given : Gives (applyHypothesis claim state (more ())) context middle (some next) after) :
        ∃ s' ∈ (Enumeration.cons s more).toList, Concludes sig context claim state s' next := by
      have onward := (upholds_implies _ _).standard collects standard asked
      exact (ih () onward given).imp fun _ => And.imp_left (List.mem_cons_of_mem _)
    cases answer with
    | false => exact later rest
    | true =>
      simp only [Bool.not_true, Bool.false_eq_true, ↓reduceIte, gives_bind, gives_evaluate_iff collects,
        gives_signature, existsAndEq, true_and] at rest
      split at rest
      · exact later rest
      · cases (gives_pure.mp rest).1
        exact ⟨s, List.mem_cons_self, ⟨now, middle, standard, asked⟩, rfl, collects.signature ▸ rfl⟩

end Answers

section Hypotheses

variable {s : Subst} {fresh : Fresh} {other merged : Variable → Term}

/-- What a match and values of the renamed variables give to the variables of a claim. -/
def hypothetical (sig : Signature) (claim : Rule) (fresh : Fresh) (s : Subst) (assign : Variable → Term) :
    Variable → Term :=
  (Rule.freshRenaming claim.allVars fresh).1.through sig (s.through sig assign)

variable (unwrapped : (claim.renameApart fresh).2.position ≤ 2 ^ 64)
  (avoids : ∀ v ∈ state.freeVars, fresh.Avoids v)
  (matched : Matching.IsCanonicalMatch .empty (claim.renameApart fresh).1.lhs state.term s)
  (kept : ∀ v ∈ claim.lhs.vars, other v = hypothetical sig claim fresh s assign v)
  (agree : ∀ v, fresh.Avoids v → merged v = assign v)
  (values : ∀ v ∈ claim.allVars,
    (Rule.freshRenaming claim.allVars fresh).1.through sig merged v = other v)
include unwrapped avoids matched kept agree values

/-- The variables that the match binds keep their values, and the others take on those that they are given. -/
theorem hypothetical_eq {v : Variable} (member : v ∈ claim.allVars) :
    hypothetical sig claim fresh s merged v = other v := by
  have renames := claim.renames_renameApart fresh unwrapped
  obtain ⟨w, renamed, _⟩ := renames.bound v member
  have named (assign : Variable → Term) :
      (Rule.freshRenaming claim.allVars fresh).1.through sig assign v = assign w := by
    rw [Subst.through, Subst.image_of_get? renamed, Term.fold_var]
    rfl
  have value := values v member
  rw [named] at value
  rw [hypothetical, named]
  cases bound : s.get? w with
  | none =>
    rw [Subst.through, Subst.image_of_get?_none bound]
    exact value
  | some term =>
    have inside : w ∈ ((Rule.freshRenaming claim.allVars fresh).1.apply claim.lhs).vars :=
      ((matched.extension.domain w).mp (Option.isSome_of_mem bound)).resolve_left (by simp)
    have occurs : v ∈ claim.lhs.vars := by
      obtain ⟨v', occurs, inner⟩ := (Subst.mem_vars_apply _ _).mp inside
      obtain ⟨w', renamed', _⟩ := renames.bound v' (Rule.mem_allVars_of_lhs occurs)
      rw [Subst.image_of_get? renamed'] at inner
      obtain rfl := List.mem_singleton.mp inner
      exact renames.injective v' (Rule.mem_allVars_of_lhs occurs) v member (renamed'.trans renamed.symm) ▸
        occurs
    rw [kept v occurs, hypothetical, named]
    refine Signature.fold_assigned_congr fun u mentioned => agree u (avoids u ?_)
    rw [State.mem_freeVars, ← matched.image]
    exact .inl ((Subst.mem_vars_apply _ _).mpr ⟨w, inside, mentioned⟩)

end Hypotheses

section Conclusions

variable {s : Subst} {fresh : Fresh} (elementary : sig.Elementary)
  (collects : context.definition.Collects sig rules) (denotes : state.Denotes sig assign a)
  (trace : Trace sig rules a path) (short : path.length < limit)
include elementary collects denotes trace short

/-- The claim takes what the state stands for to what the next state stands for. -/
theorem exists_denotes_of_concludes (claimed : claim.Elementary sig)
    (holds : claim.HoldsBelow sig rules limit) (unwrapped : (claim.renameApart fresh).2.position ≤ 2 ^ 64)
    (avoids : ∀ v ∈ state.freeVars, fresh.Avoids v)
    (listed : s ∈ (Matching.enumerate (claim.renameApart fresh).1.lhs state.term).toList)
    (concludes : Concludes sig context (claim.renameApart fresh).1 state s next) :
    ∃ b ∈ path, ∃ merged, (∀ v, fresh.Avoids v → merged v = assign v) ∧ next.Denotes sig merged b := by
  have total : ∀ hook, Hook.isScalar hook = true → hook.isTotal = true := fun _ => Hook.isTotal_of_isScalar
  have supplies := denotes.supplies
  have renames := claim.renames_renameApart fresh unwrapped
  have lhs : (claim.renameApart fresh).1.lhs.Computed sig fun _ => false :=
    computed_copy unwrapped claimed.computedLhs
  have none : Subst.Canonical Assoc.empty := nofun
  have matched : Matching.IsCanonicalMatch .empty (claim.renameApart fresh).1.lhs state.term s :=
    Matching.isCanonicalMatch_of_mem lhs.canonical denotes.computed.canonical lhs.checked
      denotes.computed.checked none listed
  have bindings := matched.computed lhs.bare denotes.computed (.empty _ _)
  have fold {assign : Variable → Term} (supplies : sig.Supplies assign) (part : Term) :
      (s.apply ((Rule.freshRenaming claim.allVars fresh).1.apply part)).fold
          (sig.assigned assign) =
        part.fold (sig.assigned
          (hypothetical sig claim fresh s assign)) := by
    rw [supplies.fold_apply, (supplies.through elementary total bindings).fold_apply]
    rfl
  -- The values of the match are among those of which the claim is known.
  have start : claim.lhs.fold (sig.assigned
      (hypothetical sig claim fresh s assign)) = a := by
    rw [← fold supplies, ← denotes.value, ← matched.image]
    rfl
  have requires : claim.requires.fold (sig.assigned
      (hypothetical sig claim fresh s assign)) = .truth := by
    obtain ⟨now, last, standard, asked⟩ := concludes.asked
    rw [← fold supplies, supplies.fold_apply]
    exact fold_of_gives_implies_ofTerm elementary collects standard denotes bindings
      (computed_copy unwrapped claimed.computedRequires) asked
  obtain ⟨b, among, other, supplies', kept, rhs, ensures⟩ := holds _ path
    ((supplies.through elementary total bindings).through elementary total (renames.computed _ _)) requires
    (start.symm ▸ trace) short
  obtain ⟨merged, mergedSupplies, agree, values⟩ := renames.exists_supplies supplies supplies'
  have value {part : Term} (inside : ∀ v ∈ part.vars, v ∈ claim.allVars) :
      (s.apply ((Rule.freshRenaming claim.allVars fresh).1.apply part)).fold
          (sig.assigned merged) =
        part.fold (sig.assigned other) := by
    rw [fold mergedSupplies]
    exact Signature.fold_assigned_congr fun v occurs =>
      hypothetical_eq unwrapped avoids matched kept agree values (inside v occurs)
  have denotes := denotes.congr mergedSupplies fun v free => agree v (avoids v free)
  have image := bindings.apply (computed_copy unwrapped claimed.computedRhs)
  have promise := (bindings.mono total).apply (computed_copy unwrapped claimed.computedEnsures)
  refine ⟨b, among, merged, agree, concludes.term ▸ (image.evalBuiltins elementary).1, mergedSupplies, ?_, ?_⟩
  · rw [concludes.constraint]
    refine (Constraint.Fulfilled.simplify elementary.toHasBuiltins mergedSupplies.respects
      (denotes.fulfilled.conjoin elementary.toHasBuiltins mergedSupplies.respects ?_ ?_)).project
        mergedSupplies.respects.normalizing _
    · exact (mergedSupplies.fold_evalBuiltins elementary (fun _ => id) promise).trans
        ((value fun v => Rule.mem_allVars_of_part (by simp)).trans ensures)
    · exact (promise.evalBuiltins elementary).1.stable elementary fun _ => id
  · rw [concludes.term]
    exact (mergedSupplies.fold_evalBuiltins elementary total image).trans
      ((value fun v => Rule.mem_allVars_of_part (by simp)).trans rhs)

/-- The state that the claims lead to stands for a later term. -/
theorem exists_denotes_of_applyClaims {claims : List Rule}
    (known : ∀ claim ∈ claims, claim.Elementary sig ∧ claim.HoldsBelow sig rules limit)
    (standard : world.store.Standard sig) (avoids : ∀ v ∈ state.freeVars, world.fresh.Avoids v)
    (unwrapped : after.fresh.position ≤ 2 ^ 64)
    (gives : Gives (applyClaims state claims) context world (some next) after) :
    ∃ b ∈ path, ∃ merged, (∀ v, world.fresh.Avoids v → merged v = assign v) ∧
      next.Denotes sig merged b := by
  induction claims generalizing world with
  | nil => cases (gives_pure.mp gives).1
  | cons claim rest ih =>
    obtain ⟨⟨claimed, holds⟩, later⟩ := List.forall_mem_cons.mp known
    rw [applyClaims] at gives
    obtain ⟨hypothesis, drawn, renamed, gives⟩ := gives_bind.mp gives
    obtain ⟨rfl, rfl⟩ := gives_renameApart.mp renamed
    have drawn : Store.Standard sig { world with fresh := (claim.renameApart world.fresh).2 }.store :=
      standard
    obtain ⟨outcome, middle, applied, gives⟩ := gives_bind.mp gives
    have same : middle.fresh = (claim.renameApart world.fresh).2 :=
      (quiet_applyHypothesis _ _ _).of_gives applied
    cases outcome with
    | some found =>
      obtain ⟨found', rfl⟩ := gives_pure.mp gives
      cases found'
      obtain ⟨s, listed, concludes⟩ := exists_concludes_of_applyHypothesis collects drawn applied
      exact exists_denotes_of_concludes elementary collects denotes trace short claimed holds
        (same ▸ unwrapped) avoids listed concludes
    | none =>
      have forward : world.fresh.position ≤ middle.fresh.position :=
        same ▸ position_renameApart claim world.fresh
      have onward := Upholds.standard (indifferent_applyHypothesis upholds_implies state _ _) collects drawn
        applied
      obtain ⟨b, among, merged, agree, denotes⟩ := ih later onward
        (fun v free => (avoids v free).mono forward) gives
      exact ⟨b, among, merged, fun v avoided => agree v (avoided.mono forward), denotes⟩

end Conclusions

end Engine

end Reach
