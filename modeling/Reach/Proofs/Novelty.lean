import Reach.Proofs.Accounting
import Reach.Proofs.Quiet

/-!
Fresh names never collide. Each operation keeps the variables of the states it works on behind the counter:
none of them can be drawn any more. So what is drawn is new, and is not at hand.
-/

namespace Reach

/-- No variable of a state of the frontier can be drawn any more. -/
structure Frontier.Cleared (fresh : Fresh) (f : Frontier) : Prop where
  layer : fresh.Clears (f.layer.toList.flatMap State.freeVars)
  next : fresh.Clears (f.next.toList.flatMap State.freeVars)
  finals : fresh.Clears (f.finals.toList.flatMap State.freeVars)

/-- The variables of the state that a result shows. -/
def SearchResult.vars : SearchResult → List Variable
  | .state found => found.freeVars
  | .subst _ => []

def Branch.vars (branch : Branch) : List Variable :=
  branch.state.freeVars ++ branch.narrowing.vars

namespace Recording

open Engine Fresh

variable {α β : Type} {context : Context} {world : World} {holds : α → Fresh → Prop}
  {holds' : β → Fresh → Prop} {first : Recording α} {next : α → Recording β}

/-- The report accounts for the action, and the result holds where the counter ends. -/
structure Safe (recording : Recording α) (context : Context) (world : World) (holds : α → Fresh → Prop) :
    Prop where
  accounted : Accounted world.fresh (recording.journal context world)
    (recording.action.run context world).2.fresh
  result : ∀ value after, Gives recording.action context world value after → holds value after.fresh

section Combinators

theorem Safe.onward (safe : Safe first context world holds) {value : α} {after : World}
    (gives : Gives first.action context world value after) :
    world.fresh.position ≤ after.fresh.position := by
  have onward := safe.accounted.onward
  rw [gives] at onward
  exact onward

theorem safe_pure {value : α} (held : holds value world.fresh) : Safe (pure value) context world holds where
  accounted := .done _
  result result after gives := by
    obtain ⟨rfl, rfl⟩ := gives_pure.mp gives
    exact held

theorem Safe.bind (safe : Safe first context world holds)
    (later : ∀ value after, Gives first.action context world value after →
      world.fresh.position ≤ after.fresh.position → holds value after.fresh →
      Safe (next value) context after holds') : Safe (first >>= next) context world holds' where
  accounted := by
    have accounted := safe.accounted
    rw [journal_bind, action_bind, run_bind]
    cases ran : first.action.run context world with
    | mk outcome after =>
      rw [ran] at accounted
      cases outcome with
      | ok value =>
        exact accounted.append
          (later value after ran (safe.onward ran) (safe.result value after ran)).accounted
      | error failure =>
        dsimp only
        rw [List.append_nil]
        exact accounted
  result result last gives := by
    obtain ⟨value, after, made, gives⟩ := gives_bind.mp gives
    exact (later value after made (safe.onward made) (safe.result value after made)).result result last gives

theorem safe_lift {action : Engine α} (quiet : Quiet action)
    (held : ∀ value after, Gives action context world value after → holds value world.fresh) :
    Safe (liftM action) context world holds where
  accounted := by
    have unmoved := quiet context world
    change Accounted world.fresh [] (action.run context world).2.fresh
    rw [unmoved]
    exact .done _
  result value after gives := quiet.of_gives gives ▸ held value after gives

/-- After an action that draws nothing the counter is where it was. -/
theorem safe_lift_bind {action : Engine α} {next : α → Recording β} (quiet : Quiet action)
    (later : ∀ value after, Gives action context world value after → after.fresh = world.fresh →
      Safe (next value) context after holds') : Safe (liftM action >>= next) context world holds' := by
  have still : Safe (liftM action) context world fun _ fresh => fresh = world.fresh :=
    safe_lift quiet fun _ _ _ => rfl
  exact still.bind fun value after gives _ same => later value after gives same

theorem safe_foldlM {items : List α} {step : β → α → Recording β} {start : β}
    (each : ∀ item ∈ items, ∀ value now, world.fresh.position ≤ now.fresh.position →
      holds' value now.fresh → Safe (step value item) context now holds')
    (begins : holds' start world.fresh) : Safe (items.foldlM step start) context world holds' := by
  induction items generalizing start world with
  | nil => exact safe_pure begins
  | cons item rest ih =>
    obtain ⟨here, later⟩ := List.forall_mem_cons.mp each
    rw [List.foldlM_cons]
    refine (here start world (Nat.le_refl _) begins).bind fun value after _ onward held => ?_
    exact ih (fun other member value now behind => later other member value now (onward.trans behind)) held

/-- What each action of a list gives stays as the counter goes on. -/
theorem safe_mapM {items : List α} {f : α → Recording β}
    (each : ∀ item ∈ items, ∀ now, world.fresh.position ≤ now.fresh.position →
      Safe (f item) context now holds')
    (stays : ∀ value first last, first.position ≤ last.position → holds' value first → holds' value last) :
    Safe (items.mapM f) context world fun values last => ∀ value ∈ values, holds' value last := by
  induction items generalizing world with
  | nil => exact safe_pure (List.forall_mem_nil _)
  | cons item rest ih =>
    obtain ⟨here, later⟩ := List.forall_mem_cons.mp each
    rw [List.mapM_cons]
    refine (here world (Nat.le_refl _)).bind fun value after _ onward held => ?_
    have others := ih fun other member now behind => later other member now (onward.trans behind)
    refine others.bind fun values last _ behind all => safe_pure ?_
    exact List.forall_mem_cons.mpr ⟨stays value _ _ behind held, all⟩

end Combinators

section Draws

variable {atHand : List Variable} {rule : Rule} {state : State} {events : List Event} {fresh : Fresh}

theorem safe_drawVariable (base : Variable) (clears : world.fresh.Clears atHand) :
    Safe (drawVariable base atHand) context world fun v last => last.Avoids v where
  accounted := .drawn clears (.done _)
  result v after gives := by
    have drawn : Gives (draw (variableLike base)) context world v after := gives
    obtain ⟨rfl, rfl⟩ := gives_draw.mp drawn
    exact (drawn_variableLike base (Nat.lt_succ_self _)).avoids

private theorem safe_drawConstant (sort : TermSort) :
    Safe (drawConstant sort) context world fun value last => last.Clears value.vars where
  accounted := by
    refine .constant ?_
    have position := constantOf_position sort world.fresh
    change Accounted _ [] (constantOf sort world.fresh).2
    generalize (constantOf sort world.fresh).2 = last at position
    obtain rfl : last = ⟨world.fresh.position + 1⟩ := congrArg Fresh.mk position
    exact .done _
  result value after gives := by
    have drawn : Gives (draw (constantOf sort)) context world value after := gives
    obtain ⟨rfl, rfl⟩ := gives_draw.mp drawn
    obtain ⟨text, token⟩ := constantOf_eq sort world.fresh
    rw [token]
    exact nofun

theorem safe_resume (accounted : Accounted world.fresh events fresh) :
    Safe (resume events fresh) context world fun _ last => last = fresh where
  accounted := accounted
  result _ after gives := by
    obtain rfl := gives_setFresh.mp gives
    rfl

private theorem safe_renameAll {vars : List Variable} (known : world.fresh.Clears vars)
    (clears : world.fresh.Clears atHand) :
    Safe (renameAll vars atHand) context world fun s last => last.Clears s.vars := by
  refine safe_foldlM (fun v member s now onward held => ?_) nofun
  have beside := clears_append_iff.mpr ⟨clears.mono onward, held⟩
  refine (safe_drawVariable v beside).bind fun w after _ behind avoids => safe_pure ?_
  refine (held.mono behind).insert ((known v member).mono (onward.trans behind)) ?_
  exact List.forall_mem_singleton.mpr avoids

/-- The copy of a rule can be drawn from no more. -/
theorem safe_renameApart (known : world.fresh.Clears rule.allVars) (clears : world.fresh.Clears atHand) :
    Safe (renameApart rule atHand) context world fun renamed last => last.Clears renamed.allVars := by
  refine (safe_renameAll known (clears_append_iff.mpr ⟨known, clears⟩)).bind
    fun s after _ onward held => safe_pure ?_
  exact held.substitute (known.mono onward)

theorem safe_renameFor (known : world.fresh.Clears rule.allVars)
    (clears : world.fresh.Clears state.freeVars) :
    Safe (renameFor rule state) context world fun renamed last => last.Clears renamed.allVars := by
  refine safe_lift_bind quiet_get fun seen middle got same => ?_
  obtain ⟨rfl, rfl⟩ := gives_get.mp got
  refine (safe_renameApart known clears).bind fun renamed after gives onward held => ?_
  rw [action_renameApart] at gives
  obtain ⟨rfl, rfl⟩ := gives_renameApart.mp gives
  have reported : Safe (report (.renamed middle.fresh rule state)) context
      { middle with fresh := (rule.renameApart middle.fresh).2 }
      fun _ last => last = (rule.renameApart middle.fresh).2 :=
    ⟨.renamed clears (.done _), fun _ after gives => by
      obtain ⟨_, rfl⟩ := gives_pure.mp gives
      rfl⟩
  exact reported.bind fun _ last _ _ same => safe_pure (same ▸ held)

private theorem safe_survey {around : List Variable} {a b : Term} (beside : world.fresh.Clears around)
    (left : world.fresh.Clears a.vars) (right : world.fresh.Clears b.vars) :
    Safe (survey around a b) context world fun survey last => survey.Sound last := by
  refine safe_lift_bind quiet_signature fun sig w₁ _ same₁ => ?_
  refine safe_lift_bind quiet_budget fun budget w₂ _ same₂ => ?_
  split
  · refine safe_lift_bind quiet_get fun now w₃ got _ => ?_
    obtain ⟨rfl, rfl⟩ := gives_get.mp got
    rw [← same₂.trans same₁] at beside left right
    have start : w₃.fresh.Clears (Unification.start a b).vars :=
      Discipline.keeps_ofVars_iff.mp (Discipline.keeps_start (Discipline.contains_ofVars_iff.mpr left)
        (Discipline.contains_ofVars_iff.mpr right))
    exact safe_pure (Unification.Problem.sound_survey budget beside start fun now _ => .finished (.done now))
  · exact safe_lift (quiet_throw _) fun _ _ gives => absurd gives gives_throw

section Visits

variable {enough : β → Bool} {turn : Unifier → β → Recording β} {value : β}
  (stays : ∀ value first last, first.position ≤ last.position → holds' value first → holds' value last)
  (each : ∀ unifier value now, world.fresh.position ≤ now.fresh.position → now.fresh.Clears unifier.vars →
    holds' value now.fresh → Safe (turn unifier value) context now holds')
  (before : holds' value world.fresh)

include stays each before

/-- What holds at the start of a visit holds at its end if each unifier keeps it. -/
theorem safe_visit {survey : Survey} (sound : survey.Sound world.fresh) :
    Safe (visit enough turn survey value) context world holds' := by
  induction survey generalizing world value with
  | finished events fresh =>
    cases sound with
    | finished accounted =>
      exact (safe_resume accounted).bind fun _ _ _ onward _ => safe_pure (stays _ _ _ onward before)
  | cut events fresh =>
    cases sound with
    | cut accounted =>
      exact (safe_resume accounted).bind fun _ _ _ _ _ =>
        safe_lift (quiet_throw _) fun _ _ gives => absurd gives gives_throw
  | found events unifier fresh more ih =>
    cases sound with
    | found accounted clears later =>
      rw [visit]
      refine (safe_resume accounted).bind fun _ resumed _ onward same => ?_
      subst same
      refine (each unifier value resumed onward clears (stays _ _ _ onward before)).bind
        fun value after _ behind held => ?_
      split
      · exact safe_pure held
      · refine safe_lift_bind quiet_get fun now _ got _ => ?_
        obtain ⟨rfl, rfl⟩ := gives_get.mp got
        exact ih _ (fun unifier value last beyond => each unifier value last
          ((onward.trans behind).trans beyond)) held (later _ behind)

theorem safe_forUnifiers {narrowing : Subst} {term : Term} (known : world.fresh.Clears rule.allVars)
    (given : world.fresh.Clears state.freeVars) (clears : world.fresh.Clears narrowing.vars)
    (target : world.fresh.Clears term.vars) :
    Safe (MonadFresh.forUnifiers rule narrowing term state enough turn value) context world holds' := by
  have beside := clears_append_iff.mpr ⟨clears_append_iff.mpr ⟨known, given⟩, clears⟩
  refine (safe_survey beside target (clears_state_iff.mp given).1).bind fun found after _ onward sound => ?_
  exact safe_visit stays (fun unifier value now behind => each unifier value now (onward.trans behind))
    (stays _ _ _ onward before) sound

end Visits

end Draws

section Successors

variable {rule : Rule} {state : State} {fit : Fit} {s : Subst} {limit : Option Nat}
  {found : List Successor}

private theorem safe_bindFresh (known : world.fresh.Clears rule.allVars)
    (given : world.fresh.Clears state.freeVars) (clears : world.fresh.Clears s.vars) :
    Safe (bindFresh rule state s) context world fun s last => last.Clears s.vars := by
  have listed := Discipline.admissible_ofVars_iff.mpr known
  have constants : Safe (rule.freshConstants.foldlM (fun (s : Subst) v => do
      return Assoc.insert s v (← drawConstant v.sort)) s) context world
      fun (s : Subst) last => last.Clears s.vars := by
    refine safe_foldlM (fun v member s now onward held => ?_) clears
    refine (safe_drawConstant v.sort).bind fun value after _ behind ground => safe_pure ?_
    exact (held.mono behind).insert ((listed.freshConstants v member).mono (onward.trans behind)) ground
  refine constants.bind fun s middle _ begun held => ?_
  refine safe_foldlM (fun v member s now onward held => ?_) held
  have forward := begun.trans onward
  have beside := clears_append_iff.mpr
    ⟨clears_append_iff.mpr ⟨known.mono forward, given.mono forward⟩, held⟩
  refine (safe_drawVariable v beside).bind fun w after _ behind avoids => safe_pure ?_
  refine (held.mono behind).insert ((listed.freshVariables v member).mono (forward.trans behind)) ?_
  exact List.forall_mem_singleton.mpr avoids

variable (unmarked : context.definition.Unmarked)
include unmarked

private theorem safe_successor? (known : world.fresh.Clears rule.allVars)
    (given : world.fresh.Clears state.freeVars) (fitted : world.fresh.Clears fit.vars)
    (clears : world.fresh.Clears s.vars) :
    Safe (successor? rule state fit s) context world fun outcome last =>
      last.Clears (outcome.toList.flatMap Successor.vars) := by
  unfold successor?
  refine safe_lift_bind quiet_signature fun sig w₁ _ same₁ => ?_
  refine safe_lift_bind (quiet_evaluate _) fun requires w₂ required same₂ => ?_
  refine safe_lift_bind (quiet_feasible _) fun answer w₃ _ same₃ => ?_
  have same : w₃.fresh = world.fresh := same₃.trans (same₂.trans same₁)
  rw [← same] at known given fitted clears
  obtain ⟨_, others⟩ := clears_append_iff.mp fitted
  obtain ⟨unsolved, narrowed⟩ := clears_append_iff.mp others
  obtain ⟨guard, _⟩ := gives_evaluate.mp required
  have condition := Discipline.allowed_condition narrowed clears unsolved
    ((clears.apply known.requires).evaluate unmarked guard)
  split
  · exact safe_pure nofun
  · refine (safe_bindFresh known given clears).bind fun bound w₄ _ onward held => ?_
    refine safe_lift_bind (quiet_evaluate _) fun term w₅ evaluated same₅ => ?_
    refine safe_lift_bind (quiet_evaluate _) fun ensures w₆ _ same₆ => ?_
    obtain ⟨made, rfl⟩ := gives_evaluate.mp evaluated
    rw [← same₆] at onward held
    dsimp only
    split
    · exact safe_pure nofun
    · refine safe_lift_bind quiet_read fun _ w₇ _ same₇ => safe_pure ?_
      rw [same₇]
      have target : w₆.fresh.Clears term.vars :=
        (held.apply (known.mono onward).rhs).evaluate unmarked made
      refine Clears.singleton (clears_append_iff.mpr ?_)
      refine ⟨clears_projected target _, clears_append_iff.mpr ⟨narrowed.mono onward, ?_⟩⟩
      exact fun v occurs => (condition v occurs).mono onward

private theorem safe_addSuccessors {bindings : List Subst} (known : world.fresh.Clears rule.allVars)
    (given : world.fresh.Clears state.freeVars) (fitted : world.fresh.Clears fit.vars)
    (clears : world.fresh.Clears (bindings.flatMap Subst.vars))
    (before : world.fresh.Clears (found.flatMap Successor.vars)) :
    Safe (addSuccessors rule state fit limit bindings found) context world fun found last =>
      last.Clears (found.flatMap Successor.vars) := by
  induction bindings generalizing world found with
  | nil => exact safe_pure before
  | cons s rest ih =>
    obtain ⟨here, later⟩ := clears_append_iff.mp clears
    rw [addSuccessors]
    refine (safe_successor? unmarked known given fitted here).bind fun outcome after _ onward held => ?_
    have ih {found : List Successor} := @ih after found (known.mono onward) (given.mono onward)
      (fitted.mono onward) (later.mono onward)
    cases outcome with
    | none => exact ih (before.mono onward)
    | some next =>
      have extended : after.fresh.Clears ((found ++ [next]).flatMap Successor.vars) := by
        rw [List.flatMap_append]
        exact clears_append_iff.mpr ⟨before.mono onward, held⟩
      dsimp only
      split
      · exact safe_pure extended
      · exact ih extended

theorem safe_addFit (known : world.fresh.Clears rule.allVars) (given : world.fresh.Clears state.freeVars)
    (fitted : world.fresh.Clears fit.vars) (before : world.fresh.Clears (found.flatMap Successor.vars)) :
    Safe (addFit rule state fit limit found) context world fun found last =>
      last.Clears (found.flatMap Successor.vars) := by
  refine safe_lift_bind (quiet_lookups _ _) fun bindings after looked same => ?_
  obtain ⟨made, rfl⟩ := gives_lookups.mp looked
  have clears := (clears_append_iff.mp fitted).1
  exact safe_addSuccessors unmarked known given fitted (clears.lookups unmarked known made) before

private theorem safe_addMatches {choices : Enumeration Subst} (known : world.fresh.Clears rule.allVars)
    (given : world.fresh.Clears state.freeVars)
    (clears : world.fresh.Clears (choices.toList.flatMap Subst.vars))
    (before : world.fresh.Clears (found.flatMap Successor.vars)) :
    Safe (addMatches rule state limit choices found) context world fun found last =>
      last.Clears (found.flatMap Successor.vars) := by
  induction choices generalizing world found with
  | nil => exact safe_pure before
  | cons s more ih =>
    obtain ⟨here, later⟩ := clears_append_iff.mp clears
    rw [addMatches]
    have fitted : world.fresh.Clears (Fit.vars { subst := s }) := clears_append_iff.mpr ⟨here, clears_nil⟩
    refine (safe_addFit unmarked known given fitted before).bind fun found after _ onward held => ?_
    split
    · exact safe_pure held
    · exact ih () (known.mono onward) (given.mono onward) (later.mono onward) held

/-- What leads on from the successors under a rule can be drawn no more. -/
theorem safe_applyRule (known : world.fresh.Clears rule.allVars) (given : world.fresh.Clears state.freeVars)
    (mode : Mode) : Safe (applyRule rule state mode limit) context world fun found last =>
      last.Clears (found.flatMap Successor.vars) := by
  have term := (clears_state_iff.mp given).1
  cases mode with
  | matching =>
    have nothing : world.fresh.Clears (Subst.vars .empty) := clears_nil
    exact safe_addMatches unmarked known given (nothing.matches known.lhs term) clears_nil
  | unifying =>
    unfold applyRule
    dsimp only
    split
    · refine (safe_renameFor known given).bind fun renamed w₁ _ onward held => ?_
      have given := given.mono onward
      refine safe_forUnifiers (fun _ _ _ onward clears => clears.mono onward)
        (fun unifier found now behind clears before => ?_) clears_nil held given clears_nil held.lhs
      obtain ⟨binds, unsolved⟩ := clears_append_iff.mp clears
      have fitted : now.fresh.Clears (fitOf state unifier).vars :=
        clears_append_iff.mpr ⟨binds, clears_append_iff.mpr ⟨unsolved, binds.restrict _⟩⟩
      exact safe_addFit unmarked (held.mono behind) (given.mono behind) fitted before
    · exact safe_pure clears_nil

theorem safe_step (given : world.fresh.Clears state.freeVars) (mode : Mode) :
    Safe (step state mode) context world fun successors last =>
      last.Clears (successors.flatMap Successor.vars) := by
  refine safe_lift_bind (quiet_candidates _ _) fun rules w₁ chosen same => ?_
  obtain ⟨rfl, rfl⟩ := gives_candidates.mp chosen
  have each : Safe ((considered context.definition mode state.term).mapM fun rule =>
      applyRule rule state mode none) context w₁ fun results last =>
        ∀ found ∈ results, last.Clears (found.flatMap Successor.vars) := by
    refine safe_mapM (fun rule member now onward => ?_) fun found first last onward clears =>
      clears.mono onward
    refine safe_applyRule unmarked (fun v occurs => ?_) (given.mono onward) mode
    exact avoids_of_unmarked (unmarked.rules rule (mem_rules_of_mem_considered member) v occurs)
  refine each.bind fun results after _ _ held => safe_pure ?_
  refine clears_flatMap_iff.mpr fun next member => ?_
  obtain ⟨found, among, inside⟩ := List.mem_flatten.mp member
  exact clears_flatMap_iff.mp (held found among) next inside

end Successors

section Searching

variable {state : State} {successors : List Successor} {config : SearchConfig} {pattern : Pattern}
  {atLimit : Bool} {f : Frontier}

theorem clears_of_gives_remainder {fresh : Fresh} {rest : State} {after : World}
    (given : fresh.Clears state.freeVars)
    (gives : Gives (remainder state successors) context world (some rest) after) :
    fresh.Clears rest.freeVars := by
  obtain ⟨c, rfl⟩ := of_gives_remainder gives
  exact clears_projected (clears_state_iff.mp given).1 _

private theorem clears_of_gives_finalsOf {fresh : Fresh} {finals : Array State} {after : World}
    (given : fresh.Clears state.freeVars)
    (gives : Gives (finalsOf state successors) context world finals after) :
    fresh.Clears (finals.toList.flatMap State.freeVars) := by
  unfold finalsOf at gives
  split at gives
  · obtain ⟨rfl, _⟩ := gives_pure.mp gives
    exact given.singleton
  · obtain ⟨outcome, _, left, gives⟩ := gives_bind.mp gives
    obtain ⟨rfl, _⟩ := gives_pure.mp gives
    cases outcome with
    | none => exact clears_nil
    | some rest =>
      exact (clears_of_gives_remainder given left).singleton

/-- Filing a successor adds its state, at most. -/
theorem cleared_add {fresh : Fresh} {successor : Successor} (cleared : f.Cleared fresh)
    (here : fresh.Clears successor.state.freeVars) : (f.add atLimit successor).Cleared fresh := by
  have pushed {states : Array State} (clears : fresh.Clears (states.toList.flatMap State.freeVars)) :
      fresh.Clears ((states.push successor.state).toList.flatMap State.freeVars) := by
    rw [Array.toList_push, List.flatMap_append]
    exact clears_append_iff.mpr ⟨clears, here.singleton⟩
  unfold Frontier.add
  dsimp only
  split
  · exact cleared
  · split
    · exact { cleared with next := pushed cleared.next }
    · exact { cleared with layer := pushed cleared.layer }

theorem cleared_file {fresh : Fresh} (cleared : f.Cleared fresh)
    (each : fresh.Clears (successors.flatMap Successor.vars)) :
    (successors.foldl (Frontier.add atLimit) f).Cleared fresh := by
  induction successors generalizing f with
  | nil => exact cleared
  | cons successor rest ih =>
    obtain ⟨here, later⟩ := clears_append_iff.mp each
    exact ih (cleared_add cleared (clears_append_iff.mp here).1) later

/-- A result shows the state that it was found in, or only the substitution. -/
theorem clears_of_gives_filterMapM {fresh : Fresh} {states : List State} {matched : List SearchResult}
    {after : World} (clears : fresh.Clears (states.flatMap State.freeVars))
    (gives : Gives (states.filterMapM (searchResult? config pattern)) context world matched after) :
    fresh.Clears (matched.flatMap SearchResult.vars) := by
  induction states generalizing world matched with
  | nil =>
    rw [List.filterMapM_nil] at gives
    obtain ⟨rfl, rfl⟩ := gives_pure.mp gives
    exact clears_nil
  | cons state rest ih =>
    obtain ⟨here, later⟩ := clears_append_iff.mp clears
    obtain ⟨_, _, others, made, tested, rfl⟩ := gives_filterMapM_cons.mp gives
    obtain ⟨first, _, _, made⟩ := gives_bind.mp made
    obtain ⟨rfl, rfl⟩ := gives_pure.mp made
    cases first with
    | none => exact ih later tested
    | some s =>
      refine clears_append_iff.mpr ⟨?_, ih later tested⟩
      split
      · exact clears_nil
      · exact here

variable (unmarked : context.definition.Unmarked)
include unmarked

private theorem safe_closeLayer (budget position : Nat) (cleared : f.Cleared world.fresh) :
    Safe (closeLayer config atLimit budget position f) context world fun f last => f.Cleared last := by
  induction budget generalizing position f world with
  | zero => exact safe_lift (quiet_throw _) fun _ _ gives => absurd gives gives_throw
  | succ budget ih =>
    rw [closeLayer]
    split
    · exact safe_pure cleared
    · next state found =>
      have listed : state ∈ f.layer.toList := Array.mem_toList_iff.mpr (Array.mem_of_getElem? found)
      have given := clears_flatMap_iff.mp cleared.layer state listed
      refine (safe_step unmarked given .unifying).bind fun successors w₁ _ onward held => ?_
      have extended {finals : Array State} (last : w₁.fresh.Clears (finals.toList.flatMap State.freeVars)) :
          ({ f with finals := f.finals ++ finals } : Frontier).Cleared w₁.fresh := by
        refine ⟨cleared.layer.mono onward, cleared.next.mono onward, ?_⟩
        rw [Array.toList_append, List.flatMap_append]
        exact clears_append_iff.mpr ⟨cleared.finals.mono onward, last⟩
      split
      · refine safe_lift_bind (quiet_finalsOf _ _) fun finals w₂ gave same => ih (position + 1) ?_
        rw [same]
        exact cleared_file (extended (clears_of_gives_finalsOf (given.mono onward) gave)) held
      · rw [pure_bind]
        exact ih (position + 1) (cleared_file (extended clears_nil) held)

omit unmarked in
private theorem clears_resultCandidates {fresh : Fresh} (cleared : f.Cleared fresh) (type : SearchType)
    (depth : Nat) : fresh.Clears ((resultCandidates type depth f).flatMap State.freeVars) := by
  have each := clears_flatMap_iff.mp cleared.layer
  have dropped : fresh.Clears ((if depth = 0 then f.layer.toList.drop 1 else f.layer.toList).flatMap
      State.freeVars) := by
    split
    · exact clears_flatMap_iff.mpr fun state member => each state (List.mem_of_mem_drop member)
    · exact cleared.layer
  cases type with
  | one => exact dropped
  | star => exact cleared.layer
  | plus => exact dropped
  | final => exact cleared.finals

private theorem safe_explore (budget depth : Nat) {layer : Array State} {seen : Std.TreeSet State}
    {results : Array SearchResult} (given : world.fresh.Clears (layer.toList.flatMap State.freeVars))
    (before : world.fresh.Clears (results.toList.flatMap SearchResult.vars)) :
    Safe (explore config pattern budget depth layer seen results) context world fun found last =>
      last.Clears (found.results.flatMap SearchResult.vars) := by
  induction budget generalizing depth layer seen results world with
  | zero => exact safe_lift (quiet_throw _) fun _ _ gives => absurd gives gives_throw
  | succ budget ih =>
    unfold explore
    refine safe_lift_bind quiet_budget fun rounds w₁ _ same₁ => ?_
    rw [← same₁] at given before
    refine (safe_closeLayer unmarked rounds 0 ⟨given, clears_nil, clears_nil⟩).bind
      fun f w₂ _ onward cleared => ?_
    refine safe_lift_bind (quiet_filterMapM fun state => quiet_searchResult? pattern state config)
      fun matched w₃ gave same₃ => ?_
    have shown := clears_flatMap_iff.mp
      (clears_of_gives_filterMapM (clears_resultCandidates cleared config.type depth) gave)
    -- Only some of what matched is kept if there may be no more results.
    have onwards {kept : List SearchResult} (inside : ∀ result ∈ kept, result ∈ matched) :
        Safe (if full config.bound (results ++ kept).size || f.next.isEmpty || config.atLimit depth then
            pure { results := (results ++ kept).toList, depth, states := f.seen.size }
          else explore config pattern budget (depth + 1) f.next f.seen (results ++ kept)) context w₃
          fun found last => last.Clears (found.results.flatMap SearchResult.vars) := by
      have all : w₃.fresh.Clears ((results ++ kept).toList.flatMap SearchResult.vars) := by
        rw [same₃, Array.toList_appendList, List.flatMap_append]
        refine clears_append_iff.mpr ⟨before.mono onward, ?_⟩
        exact clears_flatMap_iff.mpr fun result member => shown result (inside result member)
      split
      · exact safe_pure all
      · exact ih (depth + 1) (same₃ ▸ cleared.next) all
    dsimp only
    split
    · exact onwards fun _ => id
    · exact onwards fun _ => List.mem_of_mem_take

theorem safe_search {initial : State} (given : world.fresh.Clears initial.freeVars) :
    Safe (search initial pattern config) context world fun found last =>
      last.Clears (found.results.flatMap SearchResult.vars) := by
  refine safe_lift_bind quiet_signature fun sig w₁ _ same₁ => ?_
  refine safe_lift_bind quiet_budget fun budget w₂ _ same₂ => ?_
  refine safe_explore unmarked budget 0 ?_ clears_nil
  rw [same₂.trans same₁]
  exact (clears_simplified given sig).singleton

end Searching

section Proving

variable {o : Obligation} {claims : List Rule} {config : ProofConfig} {branch : Branch} {state : State}
  {narrowing : Subst}

private theorem clears_seed {fresh : Fresh} {fixed : List Variable} (listed : fresh.Clears fixed)
    (clears : fresh.Clears narrowing.vars) : fresh.Clears (seed fixed narrowing).vars := by
  refine clears_ofList (List.forall_mem_map.mpr fun v member => ⟨listed v member, clears.apply ?_⟩)
  exact List.forall_mem_singleton.mpr (listed v member)

/-- What is asked of a state draws only names that neither the claim nor the branch has. -/
theorem safe_reachesTarget (known : world.fresh.Clears o.claim.allVars) (fixed : world.fresh.Clears o.fixed)
    (given : world.fresh.Clears state.freeVars) (clears : world.fresh.Clears narrowing.vars) :
    Safe (reachesTarget o state narrowing) context world fun _ _ => True := by
  unfold reachesTarget
  refine safe_lift_bind (quiet_matchesTarget _ _ _) fun answer w₁ _ same₁ => ?_
  rw [← same₁] at known fixed given clears
  split
  · exact safe_pure trivial
  · dsimp only
    split
    · have target := (clears_seed fixed clears).apply known.rhs
      refine safe_forUnifiers (fun _ _ _ _ => id) (fun unifier _ now _ _ _ => ?_) trivial known given clears
        target
      exact safe_lift (quiet_bind (quiet_evaluate _) fun _ => quiet_implies _ _) fun _ _ _ => trivial
    · exact safe_pure trivial

variable (unmarked : context.definition.Unmarked)
include unmarked

private theorem clears_of_gives_applyHypothesis {fresh : Fresh} {rule : Rule} {choices : Enumeration Subst}
    {next : State} {after : World} (known : fresh.Clears rule.allVars)
    (clears : fresh.Clears (choices.toList.flatMap Subst.vars))
    (gives : Gives (applyHypothesis rule state choices) context world (some next) after) :
    fresh.Clears next.freeVars := by
  induction choices generalizing world with
  | nil => cases (gives_pure.mp gives).1
  | cons s more ih =>
    obtain ⟨here, later⟩ := clears_append_iff.mp clears
    rw [applyHypothesis] at gives
    obtain ⟨requires, _, _, gives⟩ := gives_bind.mp gives
    obtain ⟨answer, _, _, gives⟩ := gives_bind.mp gives
    split at gives
    · exact ih () later gives
    · obtain ⟨term, _, evaluated, gives⟩ := gives_bind.mp gives
      obtain ⟨ensures, _, _, gives⟩ := gives_bind.mp gives
      obtain ⟨sig, _, _, gives⟩ := gives_bind.mp gives
      dsimp only at gives
      split at gives
      · exact ih () later gives
      · cases (gives_pure.mp gives).1
        obtain ⟨made, _⟩ := gives_evaluate.mp evaluated
        exact clears_projected ((here.apply known.rhs).evaluate unmarked made) _

private theorem safe_applyClaims (known : world.fresh.Clears (claims.flatMap Rule.allVars))
    (given : world.fresh.Clears state.freeVars) :
    Safe (applyClaims state claims) context world fun outcome last =>
      last.Clears (outcome.toList.flatMap State.freeVars) := by
  induction claims generalizing world with
  | nil => exact safe_pure clears_nil
  | cons claim rest ih =>
    obtain ⟨here, later⟩ := clears_append_iff.mp known
    rw [applyClaims]
    refine (safe_renameFor here given).bind fun hypothesis w₁ _ onward held => ?_
    refine safe_lift_bind (quiet_applyHypothesis _ _ _) fun outcome w₂ gave same => ?_
    cases outcome with
    | none =>
      rw [← same] at onward
      exact ih (later.mono onward) (given.mono onward)
    | some next =>
      have nothing : w₁.fresh.Clears (Subst.vars .empty) := clears_nil
      have matched := nothing.matches held.lhs (clears_state_iff.mp (given.mono onward)).1
      refine safe_pure (Clears.singleton ?_)
      rw [same]
      exact clears_of_gives_applyHypothesis unmarked held matched gave

theorem safe_byClaim (known : world.fresh.Clears (claims.flatMap Rule.allVars))
    (given : world.fresh.Clears branch.state.freeVars) :
    Safe (byClaim claims branch) context world fun outcome last =>
      last.Clears (outcome.toList.flatMap State.freeVars) := by
  unfold byClaim
  split
  · exact safe_pure clears_nil
  · exact safe_applyClaims unmarked known given

omit unmarked in
/-- The branches that go on from the successors of a branch. -/
theorem clears_followed {fresh : Fresh} {successors : List Successor}
    (narrowing : fresh.Clears branch.narrowing.vars) (held : fresh.Clears (successors.flatMap Successor.vars)) :
    fresh.Clears ((successors.map fun successor =>
      ({ state := successor.state
         narrowing := branch.narrowing.compose successor.narrowing
         semanticSteps := branch.semanticSteps + 1
         depth := branch.depth + 1 } : Branch)).flatMap Branch.vars) := by
  refine clears_flatMap_iff.mpr (List.forall_mem_map.mpr fun successor member => ?_)
  obtain ⟨reached, others⟩ := clears_append_iff.mp (clears_flatMap_iff.mp held successor member)
  exact clears_append_iff.mpr ⟨reached, narrowing.compose (clears_append_iff.mp others).1⟩

theorem safe_advance (owned : world.fresh.Clears o.claim.allVars) (fixed : world.fresh.Clears o.fixed)
    (known : world.fresh.Clears (claims.flatMap Rule.allVars)) (given : world.fresh.Clears branch.vars) :
    Safe (advance o claims config branch) context world fun outcome last =>
      last.Clears (outcome.1.flatMap Branch.vars) ∧ last.Clears (outcome.2.flatMap State.freeVars) := by
  obtain ⟨state, narrowing⟩ := clears_append_iff.mp given
  unfold advance
  refine (safe_reachesTarget owned fixed state narrowing).bind fun answer w₁ _ onward₁ _ => ?_
  have stuck {now : World} (onward : world.fresh.position ≤ now.fresh.position) :
      now.fresh.Clears ([branch.state].flatMap State.freeVars) :=
    (state.mono onward).singleton
  split
  · exact safe_pure ⟨clears_nil, clears_nil⟩
  split
  · exact safe_pure ⟨clears_nil, stuck onward₁⟩
  refine (safe_byClaim unmarked (known.mono onward₁) (state.mono onward₁)).bind
    fun outcome w₂ _ onward₂ claimed => ?_
  have forward₂ := onward₁.trans onward₂
  cases outcome with
  | some next =>
    refine safe_pure ⟨Clears.singleton ?_, clears_nil⟩
    have reached := clears_flatMap_iff.mp claimed next List.mem_cons_self
    exact clears_append_iff.mpr ⟨reached, narrowing.mono forward₂⟩
  | none =>
    refine (safe_step unmarked (state.mono forward₂) .unifying).bind
      fun successors w₃ _ onward₃ held => ?_
    have forward₃ := forward₂.trans onward₃
    split
    · exact safe_pure ⟨clears_nil, stuck forward₃⟩
    refine safe_lift_bind (quiet_remainder _ _) fun outcome w₄ gave same₄ => ?_
    rw [← same₄] at forward₃ held
    cases outcome with
    | none =>
      dsimp only
      rw [pure_bind]
      exact safe_pure ⟨clears_followed (narrowing.mono forward₃) held, clears_nil⟩
    | some rest =>
      have remaining : w₄.fresh.Clears rest.freeVars :=
        clears_of_gives_remainder (state.mono forward₃) gave
      refine (safe_reachesTarget (owned.mono forward₃) (fixed.mono forward₃) remaining
        (narrowing.mono forward₃)).bind fun answer w₅ _ onward₅ _ => ?_
      have going := clears_followed (narrowing.mono (forward₃.trans onward₅)) (held.mono onward₅)
      split
      · rw [pure_bind]
        exact safe_pure ⟨going, clears_nil⟩
      · rw [pure_bind]
        exact safe_pure ⟨going, (remaining.mono onward₅).singleton⟩

private theorem safe_followBranches (budget : Nat) {branches : List Branch} {residuals : List State}
    (owned : world.fresh.Clears o.claim.allVars) (fixed : world.fresh.Clears o.fixed)
    (known : world.fresh.Clears (claims.flatMap Rule.allVars))
    (given : world.fresh.Clears (branches.flatMap Branch.vars))
    (before : world.fresh.Clears (residuals.flatMap State.freeVars)) :
    Safe (followBranches o claims config budget branches residuals) context world fun residuals last =>
      last.Clears (residuals.flatMap State.freeVars) := by
  induction budget generalizing branches residuals world with
  | zero =>
    cases branches with
    | nil => exact safe_pure before
    | cons branch rest => exact safe_lift (quiet_throw _) fun _ _ gives => absurd gives gives_throw
  | succ budget ih =>
    cases branches with
    | nil => exact safe_pure before
    | cons branch rest =>
      obtain ⟨here, later⟩ := clears_append_iff.mp given
      rw [followBranches]
      refine (safe_advance unmarked owned fixed known here).bind fun outcome w₁ _ onward held => ?_
      refine ih (owned.mono onward) (fixed.mono onward) (known.mono onward) ?_ ?_
      · rw [List.flatMap_append]
        exact clears_append_iff.mpr ⟨held.1, later.mono onward⟩
      · rw [List.flatMap_append]
        exact clears_append_iff.mpr ⟨before.mono onward, held.2⟩

theorem safe_proveClaim {claim : Rule} (listed : world.fresh.Clears claim.allVars)
    (known : world.fresh.Clears (claims.flatMap Rule.allVars)) :
    Safe (proveClaim claims config claim) context world fun residuals last =>
      last.Clears (residuals.flatMap State.freeVars) := by
  unfold proveClaim
  refine safe_lift_bind quiet_signature fun sig w₁ _ same₁ => ?_
  rw [← same₁] at listed known
  refine (safe_renameApart listed clears_nil).bind fun renamed w₂ _ onward₂ owned => ?_
  refine safe_lift_bind (quiet_evaluate _) fun requires w₃ required same₃ => ?_
  refine safe_lift_bind (quiet_evaluate _) fun term w₄ evaluated same₄ => ?_
  refine safe_lift_bind (quiet_feasible _) fun answer w₅ _ same₅ => ?_
  obtain ⟨condition, _⟩ := gives_evaluate.mp required
  obtain ⟨start, _⟩ := gives_evaluate.mp evaluated
  have initial : w₂.fresh.Clears
      ({ term, constraint := (Constraint.ofTerm requires).simplify sig } : State).freeVars :=
    clears_state_iff.mpr ⟨owned.lhs.evaluate unmarked start, Discipline.allowed_simplify
      (Discipline.allowed_ofTerm (owned.requires.evaluate unmarked condition))⟩
  have same : w₅.fresh = w₂.fresh := same₅.trans (same₄.trans same₃)
  rw [← same] at onward₂ owned initial
  split
  · exact safe_pure clears_nil
  · refine safe_lift_bind quiet_budget fun budget w₆ _ same₆ => ?_
    rw [← same₆] at onward₂ owned initial
    refine safe_followBranches unmarked budget owned initial (known.mono onward₂) ?_ clears_nil
    exact Clears.singleton (clears_append_iff.mpr ⟨initial, clears_nil⟩)

theorem safe_prove (known : world.fresh.Clears (claims.flatMap Rule.allVars)) :
    Safe (prove claims config) context world fun result last =>
      last.Clears (result.residuals.flatMap State.freeVars) := by
  have each : Safe ((claims.filter fun claim => !claim.isTrusted).mapM (proveClaim claims config)) context
      world fun results last => ∀ residuals ∈ results, last.Clears (residuals.flatMap State.freeVars) := by
    refine safe_mapM (fun claim member now onward => ?_) fun residuals first last onward clears =>
      clears.mono onward
    have listed := clears_flatMap_iff.mp known claim (List.mem_of_mem_filter member)
    exact safe_proveClaim unmarked (listed.mono onward) (known.mono onward)
  refine each.bind fun results after _ _ held => safe_pure (clears_flatMap_iff.mpr fun state member => ?_)
  obtain ⟨residuals, among, inside⟩ := List.mem_flatten.mp member
  exact clears_flatMap_iff.mp (held residuals among) state inside

end Proving

end Recording

end Reach
