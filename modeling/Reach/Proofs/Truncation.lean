import Reach.Proofs.Indifference

/-!
The limit of a rule application only cuts off. The three loops of an application, over the unifiers or
matches, over what the lookups of the rule bind, and over the rules, look at their limit each time
something was found: until it is reached they do what they would do without it, and then they stop. So
the first successor under some rules is the first of all successors, rule after rule.
-/

namespace Reach.Engine

variable {context : Context} {world after : World} {rule : Rule} {state : State} {mode : Mode}
  {fit : Fit} {n : Nat} {found all : List Successor}

/-- Two ways to add to what was found. The first adds without a limit. Where less than `n` were found
before, the second gives the first `n` of what the first one gives, and leaves the same world behind
unless it was cut off. -/
def Truncates (context : Context) (n : Nat) (full limited : List Successor → Engine (List Successor)) :
    Prop :=
  ∀ found world all after, Gives (full found) context world all after →
    found <+: all ∧ (found.length < n → ∃ last, Gives (limited found) context world (all.take n) last ∧
      (all.length < n → last = after))

theorem full_some_iff {count : Nat} : full (some n) count = true ↔ n ≤ count := by
  simp [full]

/-- Looking at the limit between two parts makes no difference before it is reached. -/
theorem Truncates.andThen {full limited full' limited' : List Successor → Engine (List Successor)}
    (first : Truncates context n full limited) (second : Truncates context n full' limited') :
    Truncates context n (fun found => full found >>= full') (fun found => do
      let found ← limited found
      if Engine.full (some n) found.length then return found else limited' found) := by
  intro found world all after gives
  obtain ⟨between, middle, here, later⟩ := gives_bind.mp gives
  obtain ⟨before, cut⟩ := first found world between middle here
  obtain ⟨appended, cut'⟩ := second between middle all after later
  refine ⟨before.trans appended, fun room => ?_⟩
  obtain ⟨last, given, same⟩ := cut room
  by_cases filled : n ≤ between.length
  · have size : (between.take n).length = n := by rw [List.length_take, Nat.min_eq_left filled]
    obtain ⟨more, rfl⟩ := appended
    refine ⟨last, gives_bind.mpr ⟨_, _, given, ?_⟩, fun short => ?_⟩
    · rw [size, if_pos (full_some_iff.mpr n.le_refl), gives_pure]
      exact ⟨List.take_append_of_le_length filled, rfl⟩
    · rw [List.length_append] at short
      omega
  · have room' : between.length < n := Nat.lt_of_not_le filled
    rw [List.take_of_length_le room'.le, same room'] at given
    obtain ⟨last', given', same'⟩ := cut' room'
    refine ⟨last', gives_bind.mpr ⟨_, _, given, ?_⟩, same'⟩
    rwa [if_neg (mt full_some_iff.mp filled)]

theorem truncates_pure : Truncates context n pure pure := by
  intro found world all after gives
  obtain ⟨rfl, rfl⟩ := gives_pure.mp gives
  refine ⟨List.prefix_refl _, fun room => ⟨after, ?_, fun _ => rfl⟩⟩
  rw [List.take_of_length_le room.le]
  exact gives_pure.mpr ⟨rfl, rfl⟩

/-- What is done before anything is added does not look at the limit. -/
theorem Truncates.preceded {α : Type} {full limited : α → List Successor → Engine (List Successor)}
    (action : Engine α) (each : ∀ value, Truncates context n (full value) (limited value)) :
    Truncates context n (fun found => action >>= fun value => full value found)
      (fun found => action >>= fun value => limited value found) := by
  intro found world all after gives
  obtain ⟨value, middle, made, gives⟩ := gives_bind.mp gives
  obtain ⟨appended, cut⟩ := each value found middle all after gives
  refine ⟨appended, fun room => ?_⟩
  obtain ⟨last, given, same⟩ := cut room
  exact ⟨last, gives_bind.mpr ⟨value, middle, made, given⟩, same⟩

private theorem truncates_addSuccessors (bindings : List Subst) :
    Truncates context n (addSuccessors rule state fit none bindings)
      (addSuccessors rule state fit (some n) bindings) := by
  induction bindings with
  | nil => exact truncates_pure
  | cons s rest ih =>
    intro found world all after gives
    obtain ⟨outcome, middle, made, gives⟩ := gives_bind.mp gives
    cases outcome with
    | none =>
      obtain ⟨appended, cut⟩ := ih found middle all after gives
      refine ⟨appended, fun room => ?_⟩
      obtain ⟨last, given, same⟩ := cut room
      exact ⟨last, gives_bind.mpr ⟨none, middle, made, given⟩, same⟩
    | some next =>
      obtain ⟨appended, cut⟩ := ih (found ++ [next]) middle all after gives
      refine ⟨(List.prefix_append found [next]).trans appended, fun room => ?_⟩
      by_cases filled : n ≤ (found ++ [next]).length
      · have size : (found ++ [next]).length = n := by
          rw [List.length_append, List.length_singleton] at filled ⊢
          omega
        obtain ⟨more, rfl⟩ := appended
        refine ⟨middle, gives_bind.mpr ⟨some next, middle, made, ?_⟩, fun short => ?_⟩
        · dsimp only
          rw [if_pos (full_some_iff.mpr filled), ← size, List.take_left]
          exact gives_pure.mpr ⟨rfl, rfl⟩
        · rw [List.length_append] at short
          omega
      · obtain ⟨last, given, same⟩ := cut (Nat.lt_of_not_le filled)
        refine ⟨last, gives_bind.mpr ⟨some next, middle, made, ?_⟩, same⟩
        dsimp only
        rwa [if_neg (mt full_some_iff.mp filled)]

theorem truncates_addFit (fit : Fit) :
    Truncates context n (addFit rule state fit none) (addFit rule state fit (some n)) :=
  .preceded (lookups rule fit.subst) truncates_addSuccessors

private theorem truncates_addMatches (choices : Enumeration Subst) :
    Truncates context n (addMatches rule state none choices)
      (addMatches rule state (some n) choices) := by
  induction choices with
  | nil => exact truncates_pure
  | cons s more ih => exact (truncates_addFit { subst := s }).andThen (ih ())

private theorem truncates_throw (failure : Failure) :
    Truncates context n (fun _ => throw failure) (fun _ => throw failure) :=
  fun _ _ _ _ gives => absurd gives gives_throw

private theorem truncates_addUnifiers (unifiers : Unifiers) :
    Truncates context n (addUnifiers rule state none unifiers)
      (addUnifiers rule state (some n) unifiers) := by
  induction unifiers with
  | finished fresh => exact .preceded (setFresh fresh) fun _ => truncates_pure
  | cut fresh => exact .preceded (setFresh fresh) fun _ => truncates_throw .exhausted
  | found unifier fresh more ih =>
    -- The next unifier draws from the counter as the successors of this one leave it.
    exact .preceded (setFresh fresh) fun _ => (truncates_addFit (fitOf state unifier)).andThen
      (.preceded get fun world => ih world.fresh)

/-- With a limit a rule application gives the front of what it gives without one. If it gives fewer, the
limit had no effect. -/
theorem truncates_applyRule (positive : 0 < n)
    (gives : Gives (applyRule rule state mode none) context world all after) :
    ∃ last, Gives (applyRule rule state mode (some n)) context world (all.take n) last ∧
      (all.length < n → last = after) := by
  have cut {full limited : List Successor → Engine (List Successor)} {world : World}
      (truncates : Truncates context n full limited) (gives : Gives (full []) context world all after) :=
    (truncates [] world all after gives).2 positive
  unfold applyRule at gives ⊢
  cases mode with
  | matching => exact cut (truncates_addMatches _) gives
  | unifying =>
    dsimp only at gives ⊢
    split at gives
    · next compatible =>
      rw [if_pos compatible]
      exact cut (.preceded (renameApart rule) fun rule => .preceded (unifiers rule.lhs state.term)
        truncates_addUnifiers) gives
    · next incompatible =>
      rw [if_neg incompatible]
      exact cut truncates_pure gives

section First

/-- The first rule that applies gives the first of all successors. -/
theorem exists_gives_firstOf {rules : List Rule} {results : List (List Successor)}
    (gives : Gives (rules.mapM fun rule => applyRule rule state mode none) context world results after) :
    ∃ last, Gives (firstOf state mode rules) context world results.flatten.head? last := by
  induction rules generalizing world results with
  | nil =>
    obtain ⟨rfl, rfl⟩ := gives_pure.mp gives
    exact ⟨after, gives_pure.mpr ⟨rfl, rfl⟩⟩
  | cons rule rest ih =>
    rw [List.mapM_cons] at gives
    simp only [gives_bind, gives_pure] at gives
    obtain ⟨found, middle, made, others, _, later, rfl, rfl⟩ := gives
    obtain ⟨last, given, same⟩ := truncates_applyRule Nat.one_pos made
    cases found with
    | nil =>
      obtain rfl := same Nat.one_pos
      obtain ⟨last', given'⟩ := ih later
      exact ⟨last', gives_bind.mpr ⟨[], last, given, given'⟩⟩
    | cons first more =>
      exact ⟨last, gives_bind.mpr ⟨[first], last, given, gives_pure.mpr ⟨rfl, rfl⟩⟩⟩

variable {config : StoreConfig} {reply : Constraint → Answer}

/-- Nothing is bound, and no name is drawn, for a rule that declares nothing fresh. -/
theorem indifferent_bindFresh_of_undeclared {same : World → World → Prop}
    (noConstants : rule.freshConstants = []) (noVariables : rule.freshVariables = []) (s : Subst) :
    Indifferent context same (bindFresh rule s) := by
  unfold bindFresh
  rw [noConstants, noVariables]
  exact indifferent_bind (indifferent_pure s) indifferent_pure

/-- Actions that can tell nothing but the replies of the store may be run one after the other instead
of each by itself. -/
theorem exists_gives_mapM_of_each {α β : Type} {action : α → Engine β} {items : List α}
    {values : List β} (replies : world.store.Replies context.definition.signature config reply)
    (indifferent : ∀ item ∈ items,
      Indifferent context (World.Answering context.definition.signature config reply) (action item))
    (each : List.Forall₂ (fun item value => ∃ start after,
      start.store.Replies context.definition.signature config reply ∧
        Gives (action item) context start value after) items values) :
    ∃ after, Gives (items.mapM action) context world values after := by
  induction each generalizing world with
  | nil => exact ⟨world, gives_pure.mpr ⟨rfl, rfl⟩⟩
  | cons head tail ih =>
    obtain ⟨start, after, replies', made⟩ := head
    obtain ⟨here, later⟩ := List.forall_mem_cons.mp indifferent
    obtain ⟨middle, given, onward⟩ := here.gives ⟨replies', replies⟩ made
    obtain ⟨last, rest⟩ := ih onward.2 later
    rw [List.mapM_cons]
    exact ⟨last, gives_bind.mpr ⟨_, middle, given, gives_bind.mpr ⟨_, last, rest,
      gives_pure.mpr ⟨rfl, rfl⟩⟩⟩⟩

/-- A limit cuts off, and the first successor is the first of all. A rule application with a limit gives
the front of what the application without one gives. If no rule declares anything fresh, the first
successor under a selection of rules is the first in the list of all their successors, whether the rules
were applied one after the other or each by itself, with any counter and any answers remembered. -/
theorem applyRule_limited (state : State)
    (computes : ∃ answer, world.store.solver.procedure.Computes answer) :
    (∀ rule mode n all after, 1 ≤ n → Gives (applyRule rule state mode none) context world all after →
      ∃ last, Gives (applyRule rule state mode (some n)) context world (all.take n) last) ∧
    ∀ keep : Rule → Bool, (∀ rule ∈ context.definition.rules,
        rule.freshConstants = [] ∧ rule.freshVariables = []) →
      let chosen := (context.definition.candidates state.term).filter keep
      let sig := context.definition.signature
      (∀ results after, Gives (chosen.mapM fun rule => applyRule rule state .matching none) context world
          results after →
        ∃ last, Gives (first? state .matching keep) context world results.flatten.head? last) ∧
      ∀ results, List.Forall₂ (fun rule found => ∃ start after,
          start.store.Replies sig world.store.config (fun c => (Store.query sig c world.store).1) ∧
            Gives (applyRule rule state .matching none) context start found after) chosen results →
        ∃ last, Gives (first? state .matching keep) context world results.flatten.head? last := by
  refine ⟨fun rule mode n all after positive gives => ?_, fun keep undeclared => ?_⟩
  · obtain ⟨last, given, _⟩ := truncates_applyRule positive gives
    exact ⟨last, given⟩
  intro chosen sig
  have ordered (results : List (List Successor)) (after : World)
      (gives : Gives (chosen.mapM fun rule => applyRule rule state .matching none) context world results
        after) :
      ∃ last, Gives (first? state .matching keep) context world results.flatten.head? last := by
    obtain ⟨last, given⟩ := exists_gives_firstOf gives
    refine ⟨last, gives_bind.mpr ⟨_, world, gives_candidates.mpr ⟨rfl, rfl⟩, given⟩⟩
  refine ⟨ordered, fun results each => ?_⟩
  have indifferent : ∀ rule ∈ chosen, Indifferent context (World.Answering sig world.store.config
      fun c => (Store.query sig c world.store).1) (applyRule rule state .matching none) := by
    intro rule member
    obtain ⟨noConstants, noVariables⟩ :=
      undeclared rule (mem_rules_of_mem_candidates (List.mem_filter.mp member).1)
    exact indifferent_addMatches indifferent_feasible
      (indifferent_bindFresh_of_undeclared noConstants noVariables) none _ _
  obtain ⟨after, gives⟩ :=
    exists_gives_mapM_of_each (Store.replies_self sig computes) indifferent each
  exact ordered results after gives

/-- A bag of numbers, and perhaps more. -/
def numbers (items : List Term) (frame : Option Term) : Term :=
  .collection .bag (items.map .element) frame

/-- Some number of a bag becomes zero. -/
def reset : Rule where
  label := "reset"
  lhs := numbers [.var ⟨"X", .int⟩] (some (.var ⟨"R", .bag⟩))
  rhs := numbers [.ofInt 0] (some (.var ⟨"R", .bag⟩))

def resetting : Context where
  definition := (Definition.empty .builtin).add reset

/-- What comes of resetting one of the numbers 1 and 2: the other is left. -/
def others (number : Int) : Successor where
  state := { term := numbers [.ofInt 0, .ofInt number] none }
  rule := "reset"
  transition := false
  narrowing := .empty
  condition := .top

/-- Of the two numbers either can be reset. The first successor is the one that resets the first. -/
theorem applyRule_limited_reset :
    let state : State := { term := numbers [.ofInt 1, .ofInt 2] none }
    (∃ after, Gives (applyRule reset state .matching none) resetting {} [others 2, others 1] after) ∧
      (∃ last, Gives (applyRule reset state .matching (some 1)) resetting {} [others 2] last) ∧
      ∃ last, Gives (first? state .matching fun _ => true) resetting {} (some (others 2)) last := by
  intro state
  obtain ⟨after, gives⟩ := exists_gives (show ((applyRule reset state .matching none : Engine _).run resetting
    {}).1 = .ok [others 2, others 1] by decide +kernel)
  obtain ⟨cut, chosen⟩ := @applyRule_limited resetting {} state ⟨_, Procedure.computes_steady _⟩
  have undeclared : ∀ rule ∈ resetting.definition.rules,
      rule.freshConstants = [] ∧ rule.freshVariables = [] := by
    intro rule member
    obtain rfl := List.mem_singleton.mp member
    exact ⟨rfl, rfl⟩
  obtain ⟨_, each⟩ := chosen (fun _ => true) undeclared
  refine ⟨⟨after, gives⟩, cut _ _ 1 _ _ (Nat.le_refl 1) gives, ?_⟩
  exact each [[others 2, others 1]] (.cons ⟨{}, after, Store.replies_self _ ⟨_, Procedure.computes_steady _⟩,
    gives⟩ .nil)

end First

end Reach.Engine
