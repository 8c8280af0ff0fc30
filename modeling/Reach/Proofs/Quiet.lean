import Reach.Proofs.Dispatch
import Reach.Session

/-!
Actions that leave the counter of fresh names where it is, whether they succeed or fail: evaluation, the
questions to the store, matching, and all that is built of these.
-/

namespace Reach.Engine

variable {α β : Type} {action : Engine α} {context : Context} {world after : World} {value : α}

/-- The action leaves the counter where it is. -/
def Quiet (action : Engine α) : Prop :=
  ∀ context world, (action.run context world).2.fresh = world.fresh

theorem Quiet.of_gives (quiet : Quiet action) (gives : Gives action context world value after) :
    after.fresh = world.fresh := by
  rw [← quiet context world, gives]

theorem quiet_pure (value : α) : Quiet (pure value) :=
  fun _ _ => rfl

theorem quiet_throw (failure : Failure) : Quiet (throw failure : Engine α) :=
  fun _ _ => rfl

theorem quiet_bind {next : α → Engine β} (quiet : Quiet action) (later : ∀ value, Quiet (next value)) :
    Quiet (action >>= next) := by
  intro context world
  have unmoved := quiet context world
  rw [run_bind]
  split
  · next value middle ran =>
    rw [ran] at unmoved
    exact (later value context middle).trans unmoved
  · next ran =>
    rw [ran] at unmoved
    exact unmoved

theorem quiet_ite {condition : Prop} [Decidable condition] {first second : Engine α} (left : Quiet first)
    (right : Quiet second) : Quiet (if condition then first else second) := by
  split
  · exact left
  · exact right

theorem quiet_read : Quiet (read : Engine Context) :=
  fun _ _ => rfl

theorem quiet_get : Quiet (get : Engine World) :=
  fun _ _ => rfl

theorem quiet_signature : Quiet signature :=
  fun _ _ => rfl

theorem quiet_budget : Quiet budget :=
  fun _ _ => rfl

theorem quiet_ofExcept (outcome : Except Failure α) : Quiet (ofExcept outcome) := by
  cases outcome with
  | error failure => exact quiet_throw failure
  | ok value => exact quiet_pure value

theorem quiet_evaluate (term : Term) : Quiet (evaluate term) :=
  quiet_bind quiet_read fun _ => quiet_ofExcept _

theorem quiet_lookups (rule : Rule) (s : Subst) : Quiet (lookups rule s) :=
  quiet_bind quiet_read fun _ => quiet_ofExcept _

theorem quiet_ask (question : Signature → StateM Store (Except QueryError Bool)) : Quiet (ask question) :=
  fun context world => quiet_ofExcept _ context { world with store := _ }

theorem quiet_feasible (c : Constraint) : Quiet (feasible c) :=
  quiet_ask _

theorem quiet_implies (assumption conclusion : Constraint) : Quiet (implies assumption conclusion) :=
  quiet_ask _

theorem quiet_candidates (term : Term) (mode : Mode) : Quiet (candidates term mode) := by
  rw [candidates_eq]
  exact quiet_bind quiet_read fun _ => quiet_pure _

theorem quiet_remainder (state : State) (successors : List Successor) :
    Quiet (remainder state successors) := by
  unfold remainder
  split
  · exact quiet_pure none
  · exact quiet_bind (quiet_feasible _) fun _ => quiet_ite (quiet_pure none)
      (quiet_bind quiet_signature fun _ => quiet_pure _)

section Searching

variable (pattern : Pattern) (state : State)

private theorem quiet_firstMatch : Quiet (firstMatch pattern state) := by
  unfold firstMatch
  induction Matching.enumerate pattern.term state.term with
  | nil => exact quiet_pure none
  | cons s more ih =>
    exact quiet_bind (quiet_evaluate _) fun _ => quiet_bind (quiet_feasible _) fun _ =>
      quiet_ite (quiet_pure (some s)) (ih ())

theorem quiet_finalsOf (successors : List Successor) : Quiet (finalsOf state successors) :=
  quiet_ite (quiet_pure _) (quiet_bind (quiet_remainder state successors) fun _ => quiet_pure _)

theorem quiet_filterMapM {items : List α} {f : α → Engine (Option β)} (each : ∀ item, Quiet (f item)) :
    Quiet (items.filterMapM f) := by
  induction items with
  | nil => exact quiet_pure []
  | cons item rest ih =>
    rw [List.filterMapM_cons]
    refine quiet_bind (each item) fun outcome => ?_
    cases outcome with
    | none => exact ih
    | some value => exact quiet_bind ih fun _ => quiet_pure _

theorem quiet_searchResult? (config : SearchConfig) : Quiet (searchResult? config pattern state) :=
  quiet_bind (quiet_firstMatch pattern state) fun _ => quiet_pure _

end Searching

section Proving

variable (rule : Rule) (state : State) (choices : Enumeration Subst)

theorem quiet_matchesTarget : Quiet (matchesTarget rule state choices) := by
  induction choices with
  | nil => exact quiet_pure false
  | cons s more ih =>
    exact quiet_bind (quiet_evaluate _) fun _ => quiet_bind (quiet_implies _ _) fun _ =>
      quiet_ite (quiet_pure true) (ih ())

theorem quiet_applyHypothesis : Quiet (applyHypothesis rule state choices) := by
  induction choices with
  | nil => exact quiet_pure none
  | cons s more ih =>
    exact quiet_bind (quiet_evaluate _) fun _ => quiet_bind (quiet_implies _ _) fun _ =>
      quiet_ite (ih ()) (quiet_bind (quiet_evaluate _) fun _ => quiet_bind (quiet_evaluate _) fun _ =>
        quiet_bind quiet_signature fun _ => quiet_ite (ih ()) (quiet_pure _))

end Proving

section Checking

theorem quiet_check (term : Term) : Quiet (Session.check term) := by
  refine quiet_bind quiet_signature fun sig => ?_
  cases sig.check term with
  | error error => exact quiet_throw _
  | ok _ => exact quiet_pure ()

theorem quiet_initial (term : Term) : Quiet (Session.initial term) :=
  quiet_bind (quiet_check term) fun _ => quiet_bind (quiet_evaluate term) fun _ => quiet_pure _

theorem quiet_forIn {items : List α} {step : α → β → Engine (ForInStep β)} (start : β)
    (each : ∀ item value, Quiet (step item value)) : Quiet (forIn items start step) := by
  induction items generalizing start with
  | nil => exact quiet_pure start
  | cons item rest ih =>
    rw [List.forIn_cons]
    refine quiet_bind (each item start) fun outcome => ?_
    cases outcome with
    | done value => exact quiet_pure value
    | yield value => exact ih value

end Checking

end Reach.Engine
