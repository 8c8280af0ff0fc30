import Reach.Proofs.Circularity
import Reach.Proofs.Novelty

/-!
One round of a proof, on the ground terms that its branch stands for. If the round leaves nothing open, either
the term is an instance of the target, or one of the branches that go on from here stands for a later term of
its trace. Only a step brings the trace closer to its end; a claim may stay where it is, and is not used
before there was a step.
-/

namespace Reach

/-- A branch stands for a ground term, with values under which the variables of the start are what the branch
says that they have become. -/
structure Branch.Denotes (sig : Signature) (o : Obligation) (start : Variable → Term) (branch : Branch)
    (assign : Variable → Term) (a : Term) : Prop extends branch.state.Denotes sig assign a where
  narrowed : branch.narrowing.Computed sig Hook.isScalar
  absorbs : (sig.assigned assign).Absorbs branch.narrowing
  same : ∀ v ∈ o.claim.lhs.vars, assign v = start v

/-- The world in which a round begins: its store is a standard one, and no name of the proof is still to be
drawn. -/
structure World.Hosts (sig : Signature) (o : Obligation) (claims : List Rule) (world : World)
    (branch : Branch) : Prop where
  standard : world.store.Standard sig
  owned : world.fresh.Clears o.claim.allVars
  fixed : world.fresh.Clears o.fixed
  known : world.fresh.Clears (claims.flatMap Rule.allVars)
  given : world.fresh.Clears branch.vars

theorem Rule.Attains.congr {sig : Signature} {claim : Rule} {assign start : Variable → Term} {a : Term}
    (attains : claim.Attains sig assign a) (same : ∀ v ∈ claim.lhs.vars, assign v = start v) :
    claim.Attains sig start a := by
  obtain ⟨other, supplies, kept, reached⟩ := attains
  exact ⟨other, supplies, fun v occurs => (kept v occurs).trans (same v occurs), reached⟩

/-- Bindings stay true if their variables keep their values. -/
theorem Subst.absorbs_congr {sig : Signature} {s : Subst} {assign merged : Variable → Term}
    (absorbs : (sig.assigned assign).Absorbs s) (same : ∀ v ∈ s.vars, merged v = assign v) :
    (sig.assigned merged).Absorbs s := by
  intro v
  cases found : s.get? v with
  | none =>
    rw [image_of_get?_none found]
    rfl
  | some term =>
    have listed := Assoc.get?_eq_some_iff.mp found
    have inside {w : Variable} (among : w ∈ v :: term.vars) : w ∈ s.vars :=
      List.mem_flatMap.mpr ⟨(v, term), listed, among⟩
    have value := absorbs v
    rw [image_of_get? found] at value ⊢
    rw [Signature.fold_assigned_congr fun w occurs => same w (inside (List.mem_cons_of_mem _ occurs)), value]
    exact (same v (inside List.mem_cons_self)).symm

theorem World.Hosts.mono {sig : Signature} {o : Obligation} {claims : List Rule} {world after : World}
    {branch : Branch} (hosts : world.Hosts sig o claims branch)
    (onward : world.fresh.position ≤ after.fresh.position) (standard : after.store.Standard sig) :
    after.Hosts sig o claims branch :=
  ⟨standard, hosts.owned.mono onward, hosts.fixed.mono onward, hosts.known.mono onward,
    hosts.given.mono onward⟩

/-- The trace is within the limit, and has got below it once there was a step. -/
def Branch.Guards (limit : Nat) (branch : Branch) (path : List Term) : Prop :=
  path.length ≤ limit ∧ (branch.semanticSteps ≠ 0 → path.length < limit)

/-- A branch after a step. -/
def Branch.follow (branch : Branch) (successor : Successor) : Branch :=
  { state := successor.state
    narrowing := branch.narrowing.compose successor.narrowing
    semanticSteps := branch.semanticSteps + 1
    depth := branch.depth + 1 }

/-- What a step leads to, the branch after it stands for. -/
theorem Branch.Denotes.follow {sig : Signature} {o : Obligation} {start assign merged : Variable → Term}
    {branch : Branch} {a b : Term} {next : Successor} {fresh : Fresh}
    (denotes : branch.Denotes sig o start assign a) (owned : fresh.Clears o.claim.allVars)
    (given : fresh.Clears branch.vars)
    (agree : ∀ v, fresh.Avoids v → merged v = assign v) (later : next.state.Denotes sig merged b)
    (narrowed : next.narrowing.Computed sig Hook.isScalar)
    (absorbs : (sig.assigned merged).Absorbs next.narrowing) :
    (branch.follow next).Denotes sig o start merged b where
  toDenotes := later
  narrowed := denotes.narrowed.compose narrowed
  absorbs v := by
    have before := Subst.absorbs_congr denotes.absorbs fun v occurs =>
      agree v (given v (List.mem_append_right _ occurs))
    have composed : (branch.follow next).narrowing.image v =
        next.narrowing.apply (branch.narrowing.image v) := Subst.image_compose _ _ v
    rw [composed, absorbs.fold_apply later.supplies.respects.normalizing]
    exact before v
  same v occurs := (agree v (owned v (Rule.mem_allVars_of_lhs occurs))).trans (denotes.same v occurs)

namespace Engine

variable {sig : Signature} {rules claims : List Rule} {context : Context} {world after : World}
  {o : Obligation} {config : ProofConfig} {branch : Branch} {branches : List Branch} {state : State}
  {narrowing : Subst}
  {start assign : Variable → Term} {a : Term} {path : List Term} {limit : Nat}

section Rounds

variable (collects : context.definition.Collects sig rules)
include collects

theorem hosts_of_reachesTarget {value : Bool} (hosts : world.Hosts sig o claims { branch with state })
    (gives : Gives (reachesTarget o state branch.narrowing) context world value after) :
    world.fresh.position ≤ after.fresh.position ∧ after.Hosts sig o claims { branch with state } := by
  obtain ⟨given, clears⟩ := Fresh.clears_append_iff.mp hosts.given
  have standard := Upholds.standard (indifferent_reachesTarget upholds_draw upholds_get upholds_implies state o
    branch.narrowing) collects hosts.standard gives
  rw [← Recording.action_reachesTarget] at gives
  have onward := (Recording.safe_reachesTarget hosts.owned hosts.fixed given clears).onward gives
  exact ⟨onward, hosts.mono onward standard⟩

variable (hosts : world.Hosts sig o claims branch)
include hosts

theorem hosts_of_remainder {successors : List Successor} {rest : State}
    (gives : Gives (remainder branch.state successors) context world (some rest) after) :
    after.fresh = world.fresh ∧ after.Hosts sig o claims { branch with state := rest } := by
  have quiet := (quiet_remainder branch.state successors).of_gives gives
  have standard := Upholds.standard (indifferent_remainder upholds_feasible branch.state successors) collects
    hosts.standard gives
  have hosts := hosts.mono (congrArg Fresh.position quiet).ge standard
  obtain ⟨given, narrowed⟩ := Fresh.clears_append_iff.mp hosts.given
  exact ⟨quiet, standard, hosts.owned, hosts.fixed, hosts.known,
    Fresh.clears_append_iff.mpr ⟨Recording.clears_of_gives_remainder given gives, narrowed⟩⟩

variable (unmarked : context.definition.Unmarked)
include unmarked

private theorem hosts_of_byClaim {value : Option State}
    (gives : Gives (byClaim claims branch) context world value after) : after.Hosts sig o claims branch := by
  have upholds : Upholds context (byClaim claims branch) :=
    indifferent_ite (indifferent_pure none) (indifferent_applyClaims upholds_draw upholds_implies _ claims)
  have standard := upholds.standard collects hosts.standard gives
  rw [← Recording.action_byClaim] at gives
  exact hosts.mono ((Recording.safe_byClaim unmarked hosts.known
    (Fresh.clears_append_iff.mp hosts.given).1).onward gives) standard

private theorem hosts_of_step {successors : List Successor}
    (gives : Gives (step branch.state .unifying) context world successors after) :
    after.Hosts sig o claims branch := by
  have standard := (upholds_step branch.state .unifying).standard collects hosts.standard gives
  rw [← Recording.action_step] at gives
  exact hosts.mono ((Recording.safe_step unmarked (Fresh.clears_append_iff.mp hosts.given).1
    .unifying).onward gives) standard

/-- The world after a round hosts the branches that go on from it. -/
theorem hosts_of_advance {left : List State}
    (gives : Gives (advance o claims config branch) context world (branches, left) after) :
    world.fresh.position ≤ after.fresh.position ∧ after.store.Standard sig ∧
      ∀ next ∈ branches, after.Hosts sig o claims next := by
  have standard := Upholds.standard (indifferent_advance upholds_feasible upholds_draw upholds_get
    upholds_implies o claims config branch) collects hosts.standard gives
  rw [← Recording.action_advance] at gives
  have safe : Recording.Safe (advance o claims config branch) context world _ :=
    Recording.safe_advance unmarked hosts.owned hosts.fixed hosts.known hosts.given
  have onward := safe.onward gives
  obtain ⟨reached, _⟩ := safe.result _ _ gives
  exact ⟨onward, standard, fun next member => ⟨standard, hosts.owned.mono onward, hosts.fixed.mono onward,
    hosts.known.mono onward, Fresh.clears_flatMap_iff.mp reached next member⟩⟩

end Rounds

section Turns

/-- A round that leaves nothing open. -/
inductive Round (o : Obligation) (claims : List Rule) (branch : Branch) (context : Context)
    (world after : World) : List Branch → Prop
  | reached (reaches : Gives (reachesTarget o branch.state branch.narrowing) context world true after) :
    Round o claims branch context world after []
  | claimed {state : State} {missed : World}
      (misses : Gives (reachesTarget o branch.state branch.narrowing) context world false missed)
      (applies : Gives (byClaim claims branch) context missed (some state) after) :
    Round o claims branch context world after [{ branch with state, depth := branch.depth + 1 }]
  | stepped {successors : List Successor} {outcome : Option State} {missed unclaimed stepped covered : World}
      (misses : Gives (reachesTarget o branch.state branch.narrowing) context world false missed)
      (unclaims : Gives (byClaim claims branch) context missed none unclaimed)
      (steps : Gives (step branch.state .unifying) context unclaimed successors stepped)
      (covers : Gives (remainder branch.state successors) context stepped outcome covered)
      (closes : match outcome with
        | some rest => Gives (reachesTarget o rest branch.narrowing) context covered true after
        | none => after = covered) :
    Round o claims branch context world after (successors.map branch.follow)

theorem round_of_gives_advance
    (gives : Gives (advance o claims config branch) context world (branches, []) after) :
    Round o claims branch context world after branches := by
  rw [advance] at gives
  obtain ⟨reached, missed, misses, gives⟩ := gives_bind.mp gives
  cases reached with
  | true =>
    obtain ⟨same, rfl⟩ := gives_pure.mp gives
    cases same
    exact .reached misses
  | false =>
    simp only [Bool.false_eq_true, ↓reduceIte] at gives
    split at gives
    · cases (gives_pure.mp gives).1
    · obtain ⟨found, unclaimed, unclaims, gives⟩ := gives_bind.mp gives
      cases found with
      | some state =>
        obtain ⟨same, rfl⟩ := gives_pure.mp gives
        cases same
        exact .claimed misses unclaims
      | none =>
        obtain ⟨successors, stepped, steps, gives⟩ := gives_bind.mp gives
        split at gives
        · cases (gives_pure.mp gives).1
        · obtain ⟨outcome, covered, covers, gives⟩ := gives_bind.mp gives
          cases outcome with
          | none =>
            obtain ⟨_, _, settled, gives⟩ := gives_bind.mp gives
            obtain ⟨rfl, rfl⟩ := gives_pure.mp settled
            obtain ⟨same, rfl⟩ := gives_pure.mp gives
            cases same
            exact .stepped misses unclaims steps covers rfl
          | some rest =>
            obtain ⟨closed, last, closes, gives⟩ := gives_bind.mp gives
            cases closed with
            | false =>
              obtain ⟨_, _, settled, ends⟩ := gives_bind.mp gives
              obtain ⟨rfl, rfl⟩ := gives_pure.mp settled
              cases (gives_pure.mp ends).1
            | true =>
              obtain ⟨_, _, settled, ends⟩ := gives_bind.mp gives
              obtain ⟨rfl, rfl⟩ := gives_pure.mp settled
              obtain ⟨same, rfl⟩ := gives_pure.mp ends
              cases same
              exact .stepped misses unclaims steps covers closes

variable (elementary : sig.Elementary) (collects : context.definition.Collects sig rules)
  (owed : o.Elementary sig) (denotes : branch.Denotes sig o start assign a)
  (tracks : o.Tracks branch.narrowing branch.state)
include elementary collects owed denotes tracks

/-- What the state of a branch stands for attains the target if the state, or what is left of it, does. -/
theorem attains_of_closed {rest : State} (standard : world.store.Standard sig)
    (term : rest.term = branch.state.term) (here : rest.Denotes sig assign a)
    (reaches : Gives (reachesTarget o rest branch.narrowing) context world true after) :
    o.claim.Attains sig start a := by
  have tracks : o.Tracks branch.narrowing rest := fun v start w become mentioned =>
    term ▸ tracks v start w become mentioned
  exact (attains_of_reachesTarget elementary collects owed here denotes.narrowed denotes.absorbs standard
    tracks reaches).congr denotes.same

variable (determined : ∀ rule ∈ rules, rule.Determined sig) (unmarked : context.definition.Unmarked)
  (known : ∀ claim ∈ claims, claim.Elementary sig ∧ claim.HoldsBelow sig rules limit)
  (hosts : world.Hosts sig o claims branch) (unwrapped : after.fresh.position ≤ 2 ^ 64)
  (trace : Trace sig rules a path) (guards : branch.Guards limit path)
include determined unmarked known hosts unwrapped trace guards

/-- A round that leaves nothing open gets to the target, or hands a later term of the trace on to a branch. -/
theorem attains_or_exists_denotes_of_round (round : Round o claims branch context world after branches) :
    (∃ b ∈ path, o.claim.Attains sig start b) ∨
      ∃ next ∈ branches, ∃ merged b later, next.Denotes sig o start merged b ∧ Trace sig rules b later ∧
        later <:+ path ∧ next.Guards limit later := by
  cases round with
  | reached reaches =>
    exact .inl ⟨a, trace.head_mem, attains_of_closed elementary collects owed denotes tracks hosts.standard
      rfl denotes.toDenotes reaches⟩
  | @claimed state missed misses applies =>
    obtain ⟨_, hosts⟩ := hosts_of_reachesTarget collects hosts misses
    obtain ⟨given, narrowed⟩ := Fresh.clears_append_iff.mp hosts.given
    rw [byClaim] at applies
    split at applies
    · cases (gives_pure.mp applies).1
    · next stepped =>
      -- There was a step, so that the claims are known of the whole trace.
      have short := guards.2 stepped
      obtain ⟨b, member, merged, agree, here⟩ := exists_denotes_of_applyClaims elementary collects
        denotes.toDenotes trace short known hosts.standard given unwrapped applies
      obtain ⟨later, suffix, trace⟩ := trace.exists_suffix member
      have shorter : later.length ≤ path.length := suffix.length_le
      refine .inr ⟨_, List.mem_singleton_self _, merged, b, later, ⟨here, denotes.narrowed, ?_, ?_⟩, trace,
        suffix, by omega, fun _ => by omega⟩
      · exact Subst.absorbs_congr denotes.absorbs fun v occurs => agree v (narrowed v occurs)
      · exact fun v occurs => (agree v (hosts.owned v (Rule.mem_allVars_of_lhs occurs))).trans
          (denotes.same v occurs)
  | @stepped successors outcome missed unclaimed stepped covered misses unclaims steps covers closes =>
    obtain ⟨_, hosts⟩ := hosts_of_reachesTarget collects hosts misses
    have hosts := hosts_of_byClaim collects hosts unmarked unclaims
    have beyond := hosts_of_step collects hosts unmarked steps
    have forward : stepped.fresh.position ≤ after.fresh.position := by
      cases outcome with
      | none => rw [closes, (quiet_remainder _ _).of_gives covers]
      | some rest =>
        obtain ⟨quiet, rested⟩ := hosts_of_remainder collects beyond covers
        exact quiet ▸ (hosts_of_reachesTarget collects rested closes).1
    have bounded : stepped.fresh.position ≤ 2 ^ 64 := forward.trans unwrapped
    cases trace with
    | stuck stuck =>
      obtain ⟨rest, rfl, term, here⟩ := exists_remainder_of_stuck elementary collects determined bounded
        denotes.toDenotes steps beyond.standard stuck covers
      have settled := (hosts_of_remainder collects beyond covers).2.standard
      exact .inl ⟨a, List.mem_singleton_self _,
        attains_of_closed elementary collects owed denotes tracks settled term here closes⟩
    | @step _ b later rewrites trace =>
      obtain ⟨next, member, merged, agree, absorbs, here⟩ := exists_denotes_of_step elementary collects
        determined bounded denotes.toDenotes steps hosts.standard
        (Fresh.clears_append_iff.mp hosts.given).1 rewrites
      obtain ⟨rule, _, fresh, unifier, arises⟩ := exists_arises_of_step collects determined bounded steps
        denotes.computed member
      refine .inr ⟨branch.follow next, List.mem_map_of_mem member, merged, b, later,
        denotes.follow hosts.owned hosts.given agree here arises.computedNarrowing absorbs, trace,
        List.suffix_cons _ _, ?_⟩
      have within : later.length < limit := Nat.lt_of_succ_le guards.1
      exact ⟨within.le, fun _ => within⟩

end Turns

end Engine

end Reach
