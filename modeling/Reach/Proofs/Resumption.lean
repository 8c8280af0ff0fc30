import Reach.Proofs.Dispatch
import Reach.Proofs.Exploration
import Reach.Proofs.Resemblance
import Reach.Session

/-!
Execution can be interrupted and resumed. The state that is reached is reported without its constraint, and
a resumed run evaluates and normalizes its term once more. Under closed rules neither makes a difference:
the reported term is a value and a normal form, its constraint says nothing, and a run from it takes the
steps that a run under the constraint would have taken.
-/

namespace Reach

namespace Engine

variable {context : Context}

/-- It was seen that none of these rules applies to the state. -/
def Rests (context : Context) (keep : Rule → Bool) (state : State) : Prop :=
  ∃ world after, world.store.Standard context.definition.signature ∧
    Gives (first? state .matching keep) context world none after

theorem Rests.gives {keep : Rule → Bool} {first second : State} {world : World}
    (rests : Rests context keep first) (definition : context.definition.Closed)
    (resembles : first.Resembles context second)
    (standard : world.store.Standard context.definition.signature) :
    ∃ after, Gives (first? second .matching keep) context world none after ∧
      after.store.Standard context.definition.signature := by
  obtain ⟨other, after, standard', gives⟩ := rests
  obtain ⟨_, outcome, after', given, onward, follow⟩ :=
    simulates_first? definition resembles keep other world standard' standard none after gives
  cases follow
  exact ⟨after', given, onward⟩

section Halting

variable {rule : Rule} {rules : List Rule} {state : State} {world after : World} {keep : Rule → Bool}

/-- No semantic rule matches the state. -/
def Halted (context : Context) (state : State) : Prop :=
  ∀ rule ∈ context.definition.rules, ∀ world : World,
    world.store.Standard context.definition.signature →
      ∃ after, Gives (applyRule rule state .matching none) context world [] after

/-- If there is no first successor, there is none. -/
theorem gives_addMatches_unlimited (bare : rule.Bare) {choices : Enumeration Subst}
    (gives : Gives (addMatches rule state (some 1) choices []) context world [] after) :
    Gives (addMatches rule state none choices []) context world [] after := by
  induction choices generalizing world with
  | nil => exact gives
  | cons s more ih =>
    obtain ⟨found, middle, fitted, gives⟩ := gives_bind.mp gives
    have unlimited : Gives (addFit rule state { subst := s } none []) context world found middle :=
      (gives_addFit bare).mpr ((gives_addFit bare).mp fitted)
    cases found with
    | nil => exact gives_bind.mpr ⟨[], middle, unlimited, ih () gives⟩
    | cons next rest =>
      -- The limit is met, so that the successor is in the result.
      obtain ⟨impossible, _⟩ := gives_pure.mp gives
      cases impossible

/-- Each of the rules was tried, and gave nothing. -/
theorem of_gives_firstOf_none (definition : context.definition.Closed)
    (resembles : state.Resembles context state) (closed : ∀ rule ∈ rules, rule.Closed)
    (standard : world.store.Standard context.definition.signature)
    (gives : Gives (firstOf state .matching rules) context world none after) :
    ∀ rule ∈ rules, ∃ world after, world.store.Standard context.definition.signature ∧
      Gives (applyRule rule state .matching (some 1)) context world [] after := by
  induction rules generalizing world with
  | nil => nofun
  | cons rule rest ih =>
    obtain ⟨here, later⟩ := List.forall_mem_cons.mp closed
    obtain ⟨found, middle, applied, gives⟩ := gives_bind.mp gives
    obtain ⟨onward, _⟩ := (simulates_applyRule definition here resembles (some 1)).self standard applied
    cases last : found.getLast? with
    | some next =>
      rw [last] at gives
      obtain ⟨impossible, _⟩ := gives_pure.mp gives
      cases impossible
    | none =>
      rw [last] at gives
      obtain rfl := List.getLast?_eq_none_iff.mp last
      exact List.forall_mem_cons.mpr ⟨⟨world, middle, standard, applied⟩, ih later onward gives⟩

theorem Rests.tried (rests : Rests context keep state) (definition : context.definition.Closed)
    (resembles : state.Resembles context state)
    (member : rule ∈ considered context.definition .matching state.term) (kept : keep rule = true) :
    ∃ world after, world.store.Standard context.definition.signature ∧
      Gives (applyRule rule state .matching (some 1)) context world [] after := by
  obtain ⟨world, after, standard, gives⟩ := rests
  obtain ⟨rules, middle, selected, chosen⟩ := gives_bind.mp gives
  obtain ⟨rfl, rfl⟩ := gives_candidates.mp selected
  exact of_gives_firstOf_none definition resembles
    (fun rule member => definition.rules rule (mem_rules_of_mem_considered (List.mem_filter.mp member).1))
    standard chosen rule (List.mem_filter.mpr ⟨member, kept⟩)

/-- A state at which neither the rules that are kept nor the others apply is one where no rule does. -/
theorem Rests.halted (rests : Rests context keep state)
    (others : Rests context (fun rule => !keep rule) state) (indexed : context.definition.Indexed)
    (definition : context.definition.Closed) (resembles : state.Resembles context state) :
    Halted context state := by
  intro rule member world standard
  have closed := definition.rules rule member
  cases selected : considers .matching state.term rule with
  | false =>
    obtain ⟨_, label, head, clash⟩ := clash_of_not_considers selected
    exact ⟨world, (gives_applyRule_matching head clash).mpr ⟨rfl, rfl⟩⟩
  | true =>
    have listed : rule ∈ considered context.definition .matching state.term := by
      rw [considered_eq_filter indexed]
      exact List.mem_filter.mpr ⟨member, selected⟩
    obtain ⟨other, _, standard', applied⟩ : ∃ world after,
        world.store.Standard context.definition.signature ∧
          Gives (applyRule rule state .matching (some 1)) context world [] after := by
      cases kept : keep rule with
      | true => exact rests.tried definition resembles listed kept
      | false => exact others.tried definition resembles listed (by simp [kept])
    obtain ⟨_, found, after, gives, _, alike⟩ := simulates_applyRule definition closed resembles none other
      world standard' standard [] _ (gives_addMatches_unlimited closed.toBare applied)
    cases alike
    exact ⟨after, gives⟩

end Halting

end Engine

namespace Session

open Engine

variable {context : Context} {first second : State}

private theorem simulates_normalizeWithin (definition : context.definition.Closed) (tries : Nat)
    (resembles : first.Resembles context second) :
    Simulates context (State.Resembles context) (normalizeWithin tries first)
      (normalizeWithin tries second) := by
  induction tries generalizing first second with
  | zero =>
    refine simulates_bind simulates_read fun _ _ _ => simulates_throw _ _
  | succ tries ih =>
    refine simulates_bind simulates_read fun config config' ⟨same, same'⟩ => ?_
    subst same same'
    refine simulates_bind (simulates_first? definition resembles _) fun outcome outcome' follow => ?_
    cases follow with
    | none => exact simulates_pure resembles
    | some follow => exact ih follow

theorem simulates_normalize (definition : context.definition.Closed)
    (resembles : first.Resembles context second) :
    Simulates context (State.Resembles context) (normalize first) (normalize second) := by
  refine simulates_bind simulates_read fun config config' ⟨same, same'⟩ => ?_
  subst same same'
  exact simulates_normalizeWithin definition _ resembles

/-- Runs with resembling states, of which one may have been interrupted before. -/
structure Parallel (context : Context) (offset : Nat) (run run' : Reached × Bool) : Prop where
  steps : run'.1.steps = offset + run.1.steps
  stuck : run'.2 = run.2
  state : run.1.state.Resembles context run'.1.state

theorem simulates_advance (definition : context.definition.Closed) (rest offset steps : Nat)
    (resembles : first.Resembles context second) :
    Simulates context (Parallel context offset) (advance rest ⟨steps, first⟩)
      (advance rest ⟨offset + steps, second⟩) := by
  induction rest generalizing first second steps with
  | zero => exact simulates_pure ⟨rfl, rfl, resembles⟩
  | succ rest ih =>
    refine simulates_bind simulates_read fun config config' ⟨same, same'⟩ => ?_
    subst same same'
    refine simulates_bind (simulates_first? definition resembles _) fun outcome outcome' follow => ?_
    cases follow with
    | none => exact simulates_pure ⟨rfl, rfl, resembles⟩
    | some follow =>
      exact simulates_bind (simulates_normalize definition follow) fun state state' resembles =>
        ih (steps + 1) resembles

section Runs

variable {state : State} {world after : World} {tries rest steps : Nat} {reached : Reached} {stuck : Bool}

/-- Whether a rule is structural. -/
abbrev structural (context : Context) (rule : Rule) : Bool :=
  !context.config.isTransition rule

theorem gives_normalize : Gives (normalize state) context world first after ↔
    Gives (normalizeWithin context.config.maxStructuralSteps state) context world first after := by
  unfold normalize
  simp only [gives_bind, gives_read]
  exact ⟨fun ⟨_, _, ⟨rfl, rfl⟩, gives⟩ => gives, fun gives => ⟨_, _, ⟨rfl, rfl⟩, gives⟩⟩

theorem not_gives_normalizeWithin_zero : ¬ Gives (normalizeWithin 0 state) context world first after := by
  unfold normalizeWithin
  intro gives
  obtain ⟨_, _, _, gives⟩ := gives_bind.mp gives
  exact gives_throw gives

/-- One more try finds that the state is a normal form, or goes on from the successor. -/
theorem gives_normalizeWithin_succ :
    Gives (normalizeWithin (tries + 1) state) context world first after ↔
      (Gives (first? state .matching (structural context)) context world none after ∧ first = state) ∨
      ∃ next middle, Gives (first? state .matching (structural context)) context world (some next) middle ∧
        Gives (normalizeWithin tries next.state) context middle first after := by
  rw [normalizeWithin]
  simp only [gives_bind, gives_read]
  constructor
  · rintro ⟨_, _, ⟨rfl, rfl⟩, outcome, middle, tried, gives⟩
    cases outcome with
    | none =>
      obtain ⟨rfl, rfl⟩ := gives_pure.mp gives
      exact .inl ⟨tried, rfl⟩
    | some next => exact .inr ⟨next, middle, tried, gives⟩
  · rintro (⟨tried, rfl⟩ | ⟨next, middle, tried, gives⟩)
    · exact ⟨_, _, ⟨rfl, rfl⟩, none, _, tried, gives_pure.mpr ⟨rfl, rfl⟩⟩
    · exact ⟨_, _, ⟨rfl, rfl⟩, some next, middle, tried, gives⟩

/-- One more transition finds that the state is stuck, or goes on from the normal form of the successor. -/
theorem gives_advance_succ {start : Reached} {run : Reached × Bool} :
    Gives (advance (rest + 1) start) context world run after ↔
      (Gives (first? start.state .matching context.config.isTransition) context world none after ∧
        run = (start, true)) ∨
      ∃ next middle normal last,
        Gives (first? start.state .matching context.config.isTransition) context world (some next) middle ∧
        Gives (normalize next.state) context middle normal last ∧
        Gives (advance rest ⟨start.steps + 1, normal⟩) context last run after := by
  rw [advance]
  simp only [gives_bind, gives_read]
  constructor
  · rintro ⟨_, _, ⟨rfl, rfl⟩, outcome, middle, tried, gives⟩
    cases outcome with
    | none =>
      obtain ⟨rfl, rfl⟩ := gives_pure.mp gives
      exact .inl ⟨tried, rfl⟩
    | some next =>
      obtain ⟨normal, last, normalized, gives⟩ := gives_bind.mp gives
      exact .inr ⟨next, middle, normal, last, tried, normalized, gives⟩
  · rintro (⟨tried, rfl⟩ | ⟨next, middle, normal, last, tried, normalized, gives⟩)
    · exact ⟨_, _, ⟨rfl, rfl⟩, none, _, tried, gives_pure.mpr ⟨rfl, rfl⟩⟩
    · exact ⟨_, _, ⟨rfl, rfl⟩, some next, middle, tried, gives_bind.mpr ⟨normal, last, normalized, gives⟩⟩

/-- No structural rule applies to a normal form. -/
theorem rests_of_gives_normalizeWithin (definition : context.definition.Closed)
    (resembles : state.Resembles context state)
    (standard : world.store.Standard context.definition.signature)
    (gives : Gives (normalizeWithin tries state) context world first after) :
    Rests context (structural context) first := by
  induction tries generalizing world state with
  | zero => exact absurd gives not_gives_normalizeWithin_zero
  | succ tries ih =>
    obtain ⟨tried, rfl⟩ | ⟨next, middle, tried, gives⟩ := gives_normalizeWithin_succ.mp gives
    · exact ⟨world, after, standard, tried⟩
    · obtain ⟨onward, follow⟩ := (simulates_first? definition resembles _).self standard tried
      cases follow with
      | some follow => exact ih follow onward gives

/-- A normal form is its own normal form. -/
theorem eq_of_gives_normalize (definition : context.definition.Closed)
    (resembles : first.Resembles context second) (rests : Rests context (structural context) first)
    (standard : world.store.Standard context.definition.signature)
    (gives : Gives (normalize second) context world state after) :
    state = second ∧ after.store.Standard context.definition.signature := by
  rw [gives_normalize] at gives
  obtain ⟨other, nothing, onward⟩ := rests.gives definition resembles standard
  cases tries : context.config.maxStructuralSteps with
  | zero =>
    rw [tries] at gives
    exact absurd gives not_gives_normalizeWithin_zero
  | succ tries' =>
    rw [tries] at gives
    obtain ⟨tried, rfl⟩ | ⟨next, middle, tried, _⟩ := gives_normalizeWithin_succ.mp gives
    · cases tried.symm.trans nothing
      exact ⟨rfl, onward⟩
    · cases tried.symm.trans nothing

/-- What is reached is a normal form. If it was not seen to be stuck, every transition that was asked for
was taken. -/
theorem of_gives_advance (definition : context.definition.Closed)
    (resembles : state.Resembles context state) (rests : Rests context (structural context) state)
    (standard : world.store.Standard context.definition.signature)
    (gives : Gives (advance rest ⟨steps, state⟩) context world (reached, stuck) after) :
    Rests context (structural context) reached.state ∧
      (stuck = false → reached.steps = steps + rest) ∧
      (stuck = true → Rests context context.config.isTransition reached.state) := by
  induction rest generalizing world steps state with
  | zero =>
    obtain ⟨same, rfl⟩ := gives_pure.mp gives
    cases same
    exact ⟨rests, fun _ => rfl, nofun⟩
  | succ rest ih =>
    obtain ⟨tried, same⟩ | ⟨next, middle, normal, last, tried, normalized, gives⟩ :=
      gives_advance_succ.mp gives
    · cases same
      exact ⟨rests, nofun, fun _ => ⟨world, after, standard, tried⟩⟩
    · obtain ⟨onward, follow⟩ := (simulates_first? definition resembles _).self standard tried
      cases follow with
      | some follow =>
        obtain ⟨onward', resembles'⟩ := (simulates_normalize definition follow).self onward normalized
        have rests' := rests_of_gives_normalizeWithin definition follow onward
          (gives_normalize.mp normalized)
        obtain ⟨normal, count, blocked⟩ := ih resembles' rests' onward' gives
        exact ⟨normal, fun running => (count running).trans (Nat.succ_add_eq_add_succ steps rest), blocked⟩

/-- Goes on with a run that was interrupted, unless it is stuck. -/
def proceed (more : Nat) : Reached × Bool → Engine (Reached × Bool)
  | (reached, true) => return (reached, true)
  | (reached, false) => advance more reached

/-- A run is an interrupted one that goes on. -/
theorem advance_add (rest more : Nat) (start : Reached) :
    advance (rest + more) start = advance rest start >>= proceed more := by
  induction rest generalizing start with
  | zero => rw [Nat.zero_add, advance, pure_bind, proceed]
  | succ rest ih =>
    rw [Nat.succ_add, advance, advance, bind_assoc]
    refine congrArg _ (funext fun known => ?_)
    dsimp only
    rw [bind_assoc]
    refine congrArg _ (funext fun outcome => ?_)
    cases outcome with
    | none => rw [pure_bind, proceed]
    | some next =>
      dsimp only
      rw [bind_assoc]
      exact congrArg _ (funext fun normal => ih _)

/-- No transition is taken where none applies. -/
theorem eq_of_gives_advance (definition : context.definition.Closed)
    (resembles : first.Resembles context second) (rests : Rests context context.config.isTransition first)
    (standard : world.store.Standard context.definition.signature)
    (gives : Gives (advance rest ⟨steps, second⟩) context world (reached, stuck) after) :
    reached = ⟨steps, second⟩ := by
  cases rest with
  | zero =>
    obtain ⟨same, _⟩ := gives_pure.mp gives
    exact congrArg Prod.fst same
  | succ rest =>
    obtain ⟨other, nothing, _⟩ := rests.gives definition resembles standard
    obtain ⟨_, same⟩ | ⟨_, _, _, _, tried, _⟩ := gives_advance_succ.mp gives
    · exact congrArg Prod.fst same
    · cases tried.symm.trans nothing

end Runs

section Operations

variable {term : Term} {state : State} {reached : Reached} {world after : World}

theorem gives_initial : Gives (initial term) context world state after ↔
    (∃ sort, context.definition.signature.check term = .ok sort) ∧
      (∃ value, context.definition.evaluate context.config.maxFunctionDepth term = .ok value ∧
        state = { term := value }) ∧ after = world := by
  unfold initial check
  simp only [gives_bind, gives_signature, gives_evaluate, gives_pure]
  cases checked : context.definition.signature.check term with
  | error error =>
    constructor
    · rintro ⟨_, _, ⟨_, _, ⟨rfl, rfl⟩, gives⟩, _⟩
      rw [checked] at gives
      exact absurd gives gives_throw
    · rintro ⟨⟨_, impossible⟩, _⟩
      cases impossible
  | ok sort =>
    constructor
    · rintro ⟨_, _, ⟨_, _, ⟨rfl, rfl⟩, gives⟩, value, _, ⟨evaluated, rfl⟩, rfl, rfl⟩
      rw [checked] at gives
      obtain ⟨_, rfl⟩ := gives_pure.mp gives
      exact ⟨⟨sort, rfl⟩, ⟨value, evaluated, rfl⟩, rfl⟩
    · rintro ⟨_, ⟨value, evaluated, rfl⟩, rfl⟩
      refine ⟨(), after, ⟨_, _, ⟨rfl, rfl⟩, ?_⟩, value, after, ⟨evaluated, rfl⟩, rfl, rfl⟩
      rw [checked]
      exact gives_pure.mpr ⟨rfl, rfl⟩

theorem gives_reach {limit : Nat} : Gives (reach term (some limit)) context world reached after ↔
    ∃ start normal middle stuck, Gives (initial term) context world start world ∧
      Gives (normalize start) context world normal middle ∧
      Gives (advance limit ⟨0, normal⟩) context middle (reached, stuck) after := by
  unfold reach
  simp only [gives_bind, gives_pure]
  constructor
  · rintro ⟨start, _, begun, normal, middle, normalized, ⟨_, stuck⟩, _, advanced, rfl, rfl⟩
    obtain ⟨_, _, rfl⟩ := gives_initial.mp begun
    exact ⟨start, normal, middle, stuck, begun, normalized, advanced⟩
  · rintro ⟨start, normal, middle, stuck, begun, normalized, advanced⟩
    exact ⟨start, world, begun, normal, middle, normalized, (reached, stuck), after, advanced, rfl, rfl⟩

theorem gives_execute {depth : Option Nat} {result : ExecuteResult} :
    Gives (execute term depth) context world result after ↔
      ∃ reached, Gives (reach term depth) context world reached after ∧
        result = ⟨reached.steps, reached.state.term⟩ := by
  unfold execute
  simp only [gives_bind, gives_pure]
  exact ⟨fun ⟨reached, _, gives, same, here⟩ => ⟨reached, here ▸ gives, same⟩,
    fun ⟨reached, gives, same⟩ => ⟨reached, after, gives, same, rfl⟩⟩

/-- The state that a ground term stands for. -/
theorem resembles_of_gives_initial (definition : context.definition.Closed) (ground : term.ground = true)
    (gives : Gives (initial term) context world state after) : state.Resembles context state := by
  obtain ⟨_, ⟨value, evaluated, rfl⟩, _⟩ := gives_initial.mp gives
  exact ⟨rfl, Definition.ground_of_evaluateWithin definition.functions ground evaluated,
    Definition.evaluateWithin_idempotent evaluated, Constraint.idle_top, Constraint.idle_top⟩

/-- What is known of a run of some transitions from a ground term: where it is, and that it is taken in
every world. -/
structure Interrupted (context : Context) (term : Term) (depth : Nat) (run : Reached × Bool) : Prop where
  resembles : run.1.state.Resembles context run.1.state
  normal : Rests context (structural context) run.1.state
  running : run.2 = false → run.1.steps = depth
  blocked : run.2 = true → Rests context context.config.isTransition run.1.state
  again : ∀ world : World, world.store.Standard context.definition.signature → ∃ start normal middle,
    Gives (initial term) context world start world ∧ Gives (normalize start) context world normal middle ∧
    ∃ run' after, Gives (advance depth ⟨0, normal⟩) context middle run' after ∧
      after.store.Standard context.definition.signature ∧ Parallel context 0 run run'

private theorem interrupted_of_gives {depth : Nat} {start normal : State} {middle : World} {run : Reached × Bool}
    (definition : context.definition.Closed) (ground : term.ground = true)
    (standard : world.store.Standard context.definition.signature)
    (begun : Gives (initial term) context world start world)
    (normalized : Gives (normalize start) context world normal middle)
    (advanced : Gives (advance depth ⟨0, normal⟩) context middle run after) :
    Interrupted context term depth run := by
  have here := resembles_of_gives_initial definition ground begun
  obtain ⟨onward, there⟩ := (simulates_normalize definition here).self standard normalized
  have rests := rests_of_gives_normalizeWithin definition here standard (gives_normalize.mp normalized)
  obtain ⟨still, count, blocked⟩ := of_gives_advance definition there rests onward advanced
  obtain ⟨_, same⟩ := (simulates_advance definition depth 0 0 there).self onward advanced
  refine ⟨same.state, still, fun running => (count running).trans (Nat.zero_add depth), blocked,
    fun other standard' => ?_⟩
  obtain ⟨sorted, valued, _⟩ := gives_initial.mp begun
  obtain ⟨_, normal', middle', normalized', onward', there'⟩ :=
    simulates_normalize definition here world other standard standard' normal middle normalized
  obtain ⟨_, run', last, advanced', onward'', parallel⟩ := simulates_advance definition depth 0 0 there'
    middle middle' onward onward' run after advanced
  exact ⟨start, normal', middle', gives_initial.mpr ⟨sorted, valued, rfl⟩, normalized', run', last, advanced',
    onward'', parallel⟩

/-- What a run from the reported term does, the run that was not interrupted does after as many steps. -/
theorem Interrupted.resume {depth more : Nat} {run run' : Reached × Bool}
    (interrupted : Interrupted context term depth run) (definition : context.definition.Closed)
    (standard : world.store.Standard context.definition.signature)
    (gives : Gives (advance more ⟨0, { term := run.1.state.term }⟩) context world run' after)
    (other : World) (standard' : other.store.Standard context.definition.signature) :
    ∃ reached last, Gives (reach term (some (depth + more))) context other reached last ∧
      reached.steps = run.1.steps + run'.1.steps ∧ reached.state.term = run'.1.state.term := by
  obtain ⟨start, normal, middle, begun, normalized, second, last, advanced, onward, parallel⟩ :=
    interrupted.again other standard'
  obtain ⟨reached, stuck⟩ := run
  obtain ⟨second, stuck'⟩ := second
  obtain rfl : stuck' = stuck := parallel.stuck
  have count : second.steps = reached.steps := parallel.steps.trans (Nat.zero_add _)
  have goOn {run : Reached × Bool} {after : World}
      (gives : Gives (proceed more (second, stuck')) context last run after) :
      Gives (reach term (some (depth + more))) context other run.1 after :=
    gives_reach.mpr ⟨start, normal, middle, run.2, begun, normalized,
      advance_add depth more _ ▸ gives_bind.mpr ⟨_, last, advanced, gives⟩⟩
  cases stuck' with
  | true =>
    obtain ⟨_, _⟩ := run'
    obtain rfl := eq_of_gives_advance definition interrupted.resembles.restart (interrupted.blocked rfl)
      standard gives
    exact ⟨second, last, goOn (gives_pure.mpr ⟨rfl, rfl⟩), count, parallel.state.term⟩
  | false =>
    obtain ⟨_, final, after', gives', _, same⟩ := simulates_advance definition more reached.steps 0
      parallel.state.restarted world last standard onward run' after gives
    rw [Nat.add_zero, ← count] at gives'
    exact ⟨final.1, after', goOn gives', same.steps, same.state.term⟩

/-- Execution can be resumed from the term that it reports: under closed rules the two runs together are one
run within the sum of their depths. Where the first run took fewer transitions than it might, no rule, be it
structural or a transition, matches the state that it reached. -/
theorem execute_resume {sig : Signature} {rules : List Rule} {depth more : Nat}
    {first second : ExecuteResult} {world' after' : World}
    (made : Definition.ofRules sig rules = .ok context.definition) (definition : context.definition.Closed)
    (ground : term.ground = true) (standard : world.store.Standard context.definition.signature)
    (standard' : world'.store.Standard context.definition.signature)
    (begun : Gives (execute term (some depth)) context world first after)
    (resumed : Gives (execute first.term (some more)) context world' second after') :
    (∀ world : World, world.store.Standard context.definition.signature → ∃ after,
      Gives (execute term (some (depth + more))) context world
        ⟨first.steps + second.steps, second.term⟩ after) ∧
    ∃ state, Gives (reach term (some depth)) context world ⟨first.steps, state⟩ after ∧
      state.term = first.term ∧ (first.steps < depth → Halted context state) := by
  obtain ⟨reached, ran, rfl⟩ := gives_execute.mp begun
  obtain ⟨start, normal, middle, stuck, initialized, normalized, advanced⟩ := gives_reach.mp ran
  have interrupted := interrupted_of_gives definition ground standard initialized normalized advanced
  obtain ⟨reached', ran', rfl⟩ := gives_execute.mp resumed
  obtain ⟨start', normal', middle', stuck', initialized', normalized', advanced'⟩ := gives_reach.mp ran'
  -- The reported term is its own value and its own normal form.
  obtain ⟨_, ⟨value, evaluated, rfl⟩, _⟩ := gives_initial.mp initialized'
  obtain rfl := Except.ok.inj (evaluated.symm.trans interrupted.resembles.value)
  obtain ⟨rfl, onward⟩ := eq_of_gives_normalize definition interrupted.resembles.restart interrupted.normal
    standard' normalized'
  refine ⟨fun other standard'' => ?_, reached.state, ran, rfl, fun fewer => ?_⟩
  · obtain ⟨final, last, gives, count, same⟩ :=
      interrupted.resume definition onward advanced' other standard''
    exact ⟨last, gives_execute.mpr ⟨final, gives, by rw [count, same]⟩⟩
  · cases stuck with
    | true =>
      exact (interrupted.blocked rfl).halted interrupted.normal (Definition.indexed_of_ofRules made).1
        definition interrupted.resembles
    | false => exact absurd (interrupted.running rfl) (Nat.ne_of_lt fewer)

/-- A run along the path is interrupted at the node in the middle. -/
theorem execute_resume_path : ∃ after after',
    Definition.ofRules nodes path.definition.rules = .ok path.definition ∧
    Gives (execute (node 0).term (some 1)) path {} ⟨1, (node 1).term⟩ after ∧
    Gives (execute (node 1).term (some 5)) path {} ⟨1, (node 2).term⟩ after' ∧
    ∃ last, Gives (execute (node 0).term (some 6)) path {} ⟨2, (node 2).term⟩ last := by
  have definition : path.definition.Closed := by
    refine ⟨?_, fun label rule member => by cases member⟩
    simp only [path, graph, List.forall_mem_cons, List.not_mem_nil, false_implies, implies_true, and_true]
    exact ⟨⟨⟨rfl, rfl, rfl⟩, by decide⟩, ⟨⟨rfl, rfl, rfl⟩, by decide⟩⟩
  have made : Definition.ofRules nodes path.definition.rules = .ok path.definition := rfl
  obtain ⟨after, begun⟩ := exists_gives (show ((execute (node 0).term (some 1)).run path {}).1 =
    .ok ⟨1, (node 1).term⟩ by decide +kernel)
  obtain ⟨after', resumed⟩ := exists_gives (show ((execute (node 1).term (some 5)).run path {}).1 =
    .ok ⟨1, (node 2).term⟩ by decide +kernel)
  have standard : ({} : World).store.Standard path.definition.signature := Store.standard_standard nodes
  obtain ⟨together, _⟩ := execute_resume made definition rfl standard standard begun resumed
  exact ⟨after, after', made, begun, resumed, together {} standard⟩

end Operations

end Session

end Reach
