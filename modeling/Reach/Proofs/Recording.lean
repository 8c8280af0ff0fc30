import Reach.Proofs.Clearance
import Reach.Session

/-!
The names that an operation draws, in the order in which it draws them. The operations are run as they are
written, in a monad that reports every draw and everything that is at hand then. What they do is what they do
in the engine; this is shown of the three ways to draw names, and goes through each operation by its parts.
-/

namespace Reach

/-- What there is to be reported of the names that are drawn. -/
inductive Event
  /-- A variable named after `base` was drawn from this counter; these variables were at hand. -/
  | drawn (fresh : Fresh) (base : Variable) (atHand : List Variable)
  /-- A value was drawn from this counter. -/
  | constant (fresh : Fresh)
  /-- The variables of a copy of the rule were drawn from this counter on, to be applied to the state. -/
  | renamed (fresh : Fresh) (rule : Rule) (state : State)

namespace Event

/-- The variable that was drawn. -/
def result? : Event → Option Variable
  | drawn fresh base _ => some (fresh.variableLike base).1
  | _ => none

/-- Where the counter stood when it was drawn from. -/
def position? : Event → Option Nat
  | drawn fresh _ _ => some fresh.position
  | constant fresh => some fresh.position
  | renamed _ _ _ => none

end Event

/-- An action of the engine with a report of the names that it draws. -/
structure Recording (α : Type) where
  action : Engine α
  journal : Context → World → List Event

namespace Recording

variable {α β : Type}

instance : Monad Recording where
  pure value := ⟨pure value, fun _ _ => []⟩
  bind first next :=
    { action := first.action >>= fun value => (next value).action
      journal := fun context world =>
        first.journal context world ++
          match first.action.run context world with
          | (.ok value, after) => (next value).journal context after
          | (.error _, _) => [] }

/-- An action that draws nothing. -/
instance : MonadLift Engine Recording where
  monadLift action := ⟨action, fun _ _ => []⟩

def drawVariable (base : Variable) (atHand : List Variable) : Recording Variable where
  action := Engine.draw (Fresh.variableLike base)
  journal _ world := [.drawn world.fresh base atHand]

def drawConstant (sort : TermSort) : Recording Term where
  action := Engine.draw (Fresh.constantOf sort)
  journal _ world := [.constant world.fresh]

def report (event : Event) : Recording Unit where
  action := pure ()
  journal _ _ := [event]

/-- Goes on from a counter that was drawn from elsewhere. -/
def resume (events : List Event) (fresh : Fresh) : Recording Unit where
  action := Engine.setFresh fresh
  journal _ _ := events

@[simp]
theorem action_pure (value : α) : (pure value : Recording α).action = pure value :=
  rfl

@[simp]
theorem action_bind (first : Recording α) (next : α → Recording β) :
    (first >>= next).action = first.action >>= fun value => (next value).action :=
  rfl

@[simp]
theorem action_lift (action : Engine α) : (liftM action : Recording α).action = liftM action :=
  rfl

@[simp]
theorem action_report (event : Event) : (report event).action = pure () :=
  rfl

@[ext]
theorem ext {first second : Recording α} (action : first.action = second.action)
    (journal : first.journal = second.journal) : first = second := by
  cases first
  cases second
  cases action
  cases journal
  rfl

theorem journal_bind (first : Recording α) (next : α → Recording β) (context : Context) (world : World) :
    (first >>= next).journal context world =
      first.journal context world ++
        match first.action.run context world with
        | (.ok value, after) => (next value).journal context after
        | (.error _, _) => [] :=
  rfl

instance : LawfulMonad Recording :=
  LawfulMonad.mk' Recording
    (fun recording => ext (id_map recording.action) (funext₂ fun context world => by
      change (recording >>= fun value => pure value).journal context world = _
      rw [journal_bind]
      split <;> exact List.append_nil _))
    (fun value next => ext (pure_bind value fun value => (next value).action) rfl)
    fun first second third => ext (bind_assoc _ _ _) (funext₂ fun context world => by
      simp only [journal_bind, action_bind, Engine.run_bind, List.append_assoc]
      congr 1
      cases first.action.run context world with
      | mk outcome middle => cases outcome <;> simp)

theorem action_foldlM (items : List α) (step : β → α → Recording β) (start : β) :
    (items.foldlM step start).action = items.foldlM (fun value item => (step value item).action) start := by
  induction items generalizing start with
  | nil => rfl
  | cons item rest ih =>
    rw [List.foldlM_cons, List.foldlM_cons, action_bind]
    exact congrArg _ (funext ih)

section Renaming

/-- A renaming of these variables, one after the other. -/
def renameAll (vars atHand : List Variable) : Recording Subst :=
  vars.foldlM (fun s v => do return Assoc.insert s v (.var (← drawVariable v (atHand ++ s.vars)))) .empty

/-- A copy of the rule with fresh variables. -/
def renameApart (rule : Rule) (atHand : List Variable) : Recording Rule := do
  let s ← renameAll rule.allVars (rule.allVars ++ atHand)
  return rule.substitute s

/-- A copy of the rule that is to be applied to the state. -/
def renameFor (rule : Rule) (state : State) : Recording Rule := do
  let world ← get
  let renamed ← renameApart rule state.freeVars
  report (.renamed world.fresh rule state)
  return renamed

private theorem action_renameAll (vars atHand : List Variable) :
    (renameAll vars atHand).action = Engine.draw (Rule.freshRenaming vars) := by
  have drawn (s : Subst) : (vars.foldlM (fun s v => do
      return Assoc.insert s v (.var (← Engine.draw (Fresh.variableLike v)))) s : Engine Subst) =
        Engine.draw fun fresh => Rule.renameOnto vars (s, fresh) := by
    induction vars generalizing s with
    | nil => rfl
    | cons v rest ih =>
      rw [List.foldlM_cons]
      simp only [ih, bind_assoc, pure_bind]
      rfl
  exact (action_foldlM _ _ _).trans (drawn .empty)

theorem action_renameApart (rule : Rule) (atHand : List Variable) :
    (renameApart rule atHand).action = Engine.renameApart rule := by
  rw [renameApart, action_bind, action_renameAll]
  rfl

private theorem action_renameFor (rule : Rule) (state : State) :
    (renameFor rule state).action = Engine.renameApart rule := by
  simp only [renameFor, action_bind, action_renameApart, action_report, action_pure, pure_bind, bind_pure]
  -- What is left only looks at the world, whatever the action is.
  generalize Engine.renameApart rule = action
  rfl

end Renaming

end Recording

/-- Unifiers on demand, each with the report of what was drawn to find it. -/
inductive Survey
  | finished (events : List Event) (fresh : Fresh)
  | found (events : List Event) (unifier : Unifier) (fresh : Fresh) (more : Fresh → Survey)
  | cut (events : List Event) (fresh : Fresh)

namespace Survey

/-- The unifiers without the reports. -/
def unifiers : Survey → Unifiers
  | finished _ fresh => .finished fresh
  | found _ unifier fresh more => .found unifier fresh fun fresh => (more fresh).unifiers
  | cut _ fresh => .cut fresh

/-- The events come before those of the survey. -/
def after (events : List Event) : Survey → Survey
  | finished later fresh => finished (events ++ later) fresh
  | found later unifier fresh more => found (events ++ later) unifier fresh more
  | cut later fresh => cut (events ++ later) fresh

private theorem unifiers_after (events : List Event) (survey : Survey) :
    (survey.after events).unifiers = survey.unifiers := by
  cases survey <;> rfl

end Survey

namespace Unification

/-- The draw of a frame that is shared, if there is one; `around` is at hand beside the choice. -/
def Choice.draws (c : Choice) (around : List Variable) (pairing : List Nat × List Nat) (fresh : Fresh) :
    List Event :=
  if (c.branch pairing fresh).1.isSome && c.leftFrame.isSome && c.rightFrame.isSome then
    [.drawn fresh { name := "Rest", sort := c.kind.sort } (around ++ c.vars)]
  else []

def Choice.survey (c : Choice) (around : List Variable)
    (run : Problem → Fresh → (Fresh → Survey) → Survey) :
    Enumeration (List Nat × List Nat) → Fresh → (Fresh → Survey) → Survey
  | .nil, fresh, later => later fresh
  | .cons pairing tail, fresh, later =>
    let rest := fun fresh => c.survey around run (tail ()) fresh later
    let branch := c.branch pairing fresh
    Survey.after (c.draws around pairing fresh)
      (match branch.1 with
      | none => rest branch.2
      | some problem => run problem branch.2 rest)

def Problem.survey (sig : Signature) (around : List Variable) :
    Nat → Problem → Fresh → (Fresh → Survey) → Survey
  | 0, _, fresh, _ => .cut [] fresh
  | budget + 1, p, fresh, later =>
    match p.advance sig with
    | .solved unifier => .found [] unifier fresh later
    | .failed => later fresh
    | .next problem => problem.survey sig around budget fresh later
    | .choose c => c.survey around (Problem.survey sig around budget) c.pairings fresh later

theorem Choice.unifiers_survey {c : Choice} {around : List Variable}
    {run : Problem → Fresh → (Fresh → Survey) → Survey} {explore : Problem → Explore}
    (same : ∀ p fresh later, (run p fresh later).unifiers =
      explore p fresh fun fresh => (later fresh).unifiers)
    (pairings : Enumeration (List Nat × List Nat)) (fresh : Fresh) (later : Fresh → Survey) :
    (c.survey around run pairings fresh later).unifiers =
      c.explore explore pairings fresh fun fresh => (later fresh).unifiers := by
  induction pairings generalizing fresh with
  | nil => rfl
  | cons pairing tail ih =>
    rw [Choice.survey, Choice.explore, Survey.unifiers_after]
    obtain ⟨problem, fresh⟩ := c.branch pairing fresh
    cases problem with
    | none => exact ih () fresh
    | some problem => exact (same _ _ _).trans (congrArg _ (funext (ih ())))

theorem Problem.unifiers_survey {sig : Signature} {around : List Variable} (budget : Nat) (p : Problem)
    (fresh : Fresh) (later : Fresh → Survey) : (p.survey sig around budget fresh later).unifiers =
      p.explore sig budget fresh fun fresh => (later fresh).unifiers := by
  induction budget generalizing p fresh later with
  | zero => rfl
  | succ budget ih =>
    rw [Problem.survey, Problem.explore]
    cases p.advance sig with
    | solved unifier => rfl
    | failed => rfl
    | next problem => exact ih problem fresh later
    | choose c => exact Choice.unifiers_survey ih c.pairings fresh later

end Unification

namespace Recording

section Drawing

def bindFresh (rule : Rule) (state : State) (s : Subst) : Recording Subst := do
  let withConstants ← rule.freshConstants.foldlM (fun s v => do
    return Assoc.insert s v (← drawConstant v.sort)) s
  rule.freshVariables.foldlM (fun s v => do
    return Assoc.insert s v (.var (← drawVariable v (rule.allVars ++ state.freeVars ++ s.vars))))
    withConstants

/-- A copy of the rule, which is reported if it is made for a state. -/
def copy (rule : Rule) : Option State → Recording Rule
  | none => renameApart rule []
  | some state => renameFor rule state

/-- The unifiers of two terms, with `around` at hand beside the terms. -/
def survey (around : List Variable) (a b : Term) : Recording Survey := do
  let sig ← Engine.signature
  let budget ← Engine.budget
  if a.sort.compatible b.sort then
    return (Unification.start a b).survey sig around budget (← get).fresh (.finished [])
  else (throw (.sort (.mismatch a.sort b.sort "unification")) : Engine _)

/-- Goes through the unifiers of a survey until there are no more, or enough was found. -/
def visit (enough : β → Bool) (next : Unifier → β → Recording β) : Survey → β → Recording β
  | .finished events fresh, value => do
    resume events fresh
    return value
  | .cut events fresh, _ => do
    resume events fresh
    (throw .exhausted : Engine _)
  | .found events unifier fresh more, value => do
    resume events fresh
    let value ← next unifier value
    if enough value then return value else visit enough next (more (← get).fresh) value

instance : MonadFresh Recording where
  bindFresh := bindFresh
  copy := copy
  forUnifiers rule narrowing term state enough next start := do
    let around := rule.allVars ++ state.freeVars ++ narrowing.vars
    visit enough next (← survey around term state.term) start

theorem action_ite (condition : Prop) [Decidable condition] (first second : Recording α) :
    (if condition then first else second).action =
      if condition then first.action else second.action :=
  apply_ite action condition first second

theorem action_mapM (items : List α) (f : α → Recording β) :
    (items.mapM f).action = items.mapM fun item => (f item).action := by
  induction items with
  | nil => rfl
  | cons item rest ih =>
    simp only [List.mapM_cons, action_bind, ih, action_pure]

private theorem action_bindFresh (rule : Rule) (state : State) (s : Subst) :
    (MonadFresh.bindFresh rule state s : Recording Subst).action = MonadFresh.bindFresh rule state s := by
  change (bindFresh rule state s).action = _
  rw [bindFresh, action_bind, action_foldlM]
  exact congrArg _ (funext fun s => action_foldlM _ _ _)

theorem action_copy (rule : Rule) (target : Option State) :
    (MonadFresh.copy rule target : Recording Rule).action = MonadFresh.copy rule target := by
  cases target with
  | none => exact action_renameApart rule []
  | some state => exact action_renameFor rule state

private theorem action_survey (around : List Variable) (a b : Term) :
    Survey.unifiers <$> (survey around a b).action = Engine.unifiers a b := by
  simp only [survey, Engine.unifiers, action_bind, action_ite, action_pure, action_lift, monadLift_self, unify,
    map_bind]
  by_cases compatible : a.sort.compatible b.sort = true
  · simp only [compatible, if_true, map_bind, map_pure, Unification.Problem.unifiers_survey]
    rfl
  · simp only [compatible]
    rfl

private theorem action_visit (enough : β → Bool) (next : Unifier → β → Recording β) (survey : Survey)
    (value : β) : (visit enough next survey value).action =
      Engine.visit enough (fun unifier value => (next unifier value).action) survey.unifiers value := by
  induction survey generalizing value with
  | finished events fresh => rfl
  | cut events fresh => rfl
  | found events unifier fresh more ih =>
    simp only [visit, Survey.unifiers, Engine.visit, action_bind, action_ite, action_pure, ih]
    rfl

theorem action_forUnifiers (rule : Rule) (narrowing : Subst) (term : Term) (state : State) (enough : β → Bool)
    (next : Unifier → β → Recording β) (start : β) :
    (MonadFresh.forUnifiers rule narrowing term state enough next start : Recording β).action =
      MonadFresh.forUnifiers rule narrowing term state enough
        (fun unifier value => (next unifier value).action) start := by
  change (survey _ term state.term >>= fun survey => visit enough next survey start).action = _
  simp only [action_bind, action_visit, Engine.forUnifiers_eq]
  rw [← action_survey, bind_map_left]

end Drawing

open Engine

/-! What an operation does is what its parts do, and its parts draw as they draw in the engine. -/

section Steps

private theorem action_successor? (rule : Rule) (state : State) (fit : Fit) (s : Subst) :
    (successor? rule state fit s : Recording _).action = successor? rule state fit s := by
  unfold successor?
  simp only [action_bind, action_ite, action_bindFresh, action_pure, action_lift]

private theorem action_addSuccessors (rule : Rule) (state : State) (fit : Fit) (limit : Option Nat)
    (bindings : List Subst) (found : List Successor) :
    (addSuccessors rule state fit limit bindings found : Recording _).action =
      addSuccessors rule state fit limit bindings found := by
  induction bindings generalizing found with
  | nil => rfl
  | cons s rest ih =>
    rw [addSuccessors, addSuccessors, action_bind, action_successor?]
    refine congrArg _ (funext fun outcome => ?_)
    cases outcome with
    | none => exact ih found
    | some next => simp only [action_ite, ih, action_pure]

theorem action_addFit (rule : Rule) (state : State) (fit : Fit) (limit : Option Nat)
    (found : List Successor) :
    (addFit rule state fit limit found : Recording _).action = addFit rule state fit limit found := by
  simp only [addFit, action_bind, action_addSuccessors, action_lift]

private theorem action_addMatches (rule : Rule) (state : State) (limit : Option Nat)
    (choices : Enumeration Subst) (found : List Successor) :
    (addMatches rule state limit choices found : Recording _).action =
      addMatches rule state limit choices found := by
  induction choices generalizing found with
  | nil => rfl
  | cons s more ih => simp only [addMatches, action_bind, action_addFit, action_ite, action_pure, ih]

private theorem action_addUnifier (rule : Rule) (state : State) (limit : Option Nat) (unifier : Unifier)
    (found : List Successor) : (addUnifier rule state limit unifier found : Recording _).action =
      addUnifier rule state limit unifier found :=
  action_addFit _ _ _ _ _

theorem action_applyRule (rule : Rule) (state : State) (mode : Mode) (limit : Option Nat) :
    (applyRule rule state mode limit : Recording _).action = applyRule rule state mode limit := by
  cases mode with
  | matching => exact action_addMatches _ _ _ _ _
  | unifying =>
    simp only [applyRule, action_ite, action_bind, action_copy, action_forUnifiers, action_addUnifier,
      action_pure]

theorem action_step (state : State) (mode : Mode) :
    (step state mode : Recording _).action = step state mode := by
  simp only [step, action_bind, action_lift, action_mapM, action_applyRule, action_pure]

end Steps

section Searches

private theorem action_closeLayer (config : SearchConfig) (atLimit : Bool) (budget position : Nat)
    (f : Frontier) : (closeLayer config atLimit budget position f : Recording _).action =
      closeLayer config atLimit budget position f := by
  induction budget generalizing position f with
  | zero => rfl
  | succ budget ih =>
    rw [closeLayer, closeLayer]
    cases f.layer[position]? with
    | none => rfl
    | some state => simp only [action_bind, action_step, action_lift, action_ite, action_pure, ih]

private theorem action_explore (config : SearchConfig) (pattern : Pattern) (budget depth : Nat)
    (layer : Array State) (seen : Std.TreeSet State) (results : Array SearchResult) :
    (explore config pattern budget depth layer seen results : Recording _).action =
      explore config pattern budget depth layer seen results := by
  induction budget generalizing depth layer seen results with
  | zero => rfl
  | succ budget ih =>
    rw [explore, explore]
    cases config.bound <;>
      simp only [action_bind, action_closeLayer, action_lift, action_ite, action_pure, ih]

theorem action_search (initial : State) (pattern : Pattern) (config : SearchConfig) :
    (search initial pattern config : Recording _).action = search initial pattern config := by
  simp only [search, action_bind, action_lift, action_explore]

end Searches

section Proving

theorem action_reachesTarget (o : Obligation) (state : State) (narrowing : Subst) :
    (reachesTarget o state narrowing : Recording _).action = reachesTarget o state narrowing := by
  simp only [reachesTarget, action_bind, action_lift, action_ite, action_pure, action_forUnifiers]

private theorem action_applyClaims (state : State) (claims : List Rule) :
    (applyClaims state claims : Recording _).action = applyClaims state claims := by
  induction claims with
  | nil => rfl
  | cons claim rest ih =>
    simp only [applyClaims, action_bind, action_copy, action_lift]
    refine congrArg _ (funext fun hypothesis => congrArg _ (funext fun outcome => ?_))
    cases outcome with
    | none => exact ih
    | some next => rfl

theorem action_byClaim (claims : List Rule) (branch : Branch) :
    (byClaim claims branch : Recording _).action = byClaim claims branch := by
  simp only [byClaim, action_ite, action_pure, action_applyClaims]

theorem action_advance (o : Obligation) (claims : List Rule) (config : ProofConfig) (branch : Branch) :
    (advance o claims config branch : Recording _).action = advance o claims config branch := by
  simp only [advance, action_bind, action_reachesTarget, action_ite, action_pure]
  refine congrArg _ (funext fun _ => if_congr Iff.rfl rfl (if_congr Iff.rfl rfl ?_))
  rw [action_byClaim]
  refine congrArg _ (funext fun claimed => ?_)
  cases claimed with
  | some state => rfl
  | none =>
    simp only [action_bind, action_step, action_ite, action_pure, action_lift]
    refine congrArg _ (funext fun successors => if_congr Iff.rfl rfl (congrArg _ (funext fun left => ?_)))
    cases left with
    | none => rfl
    | some rest => simp only [action_bind, action_reachesTarget, action_ite, action_pure]

private theorem action_followBranches (o : Obligation) (claims : List Rule) (config : ProofConfig)
    (budget : Nat) (branches : List Branch) (residuals : List State) :
    (followBranches o claims config budget branches residuals : Recording _).action =
      followBranches o claims config budget branches residuals := by
  induction budget generalizing branches residuals with
  | zero => cases branches <;> rfl
  | succ budget ih =>
    cases branches with
    | nil => rfl
    | cons branch rest => simp only [followBranches, action_bind, action_advance, ih]

theorem action_proveClaim (claims : List Rule) (config : ProofConfig) (claim : Rule) :
    (proveClaim claims config claim : Recording _).action = proveClaim claims config claim := by
  simp only [proveClaim, action_bind, action_lift, action_copy, action_ite, action_pure, action_followBranches]

theorem action_prove (claims : List Rule) (config : ProofConfig) :
    (prove claims config : Recording _).action = prove claims config := by
  simp only [prove, action_bind, action_mapM, action_proveClaim, action_pure]

end Proving

end Recording

end Reach
