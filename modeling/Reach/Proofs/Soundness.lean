import Reach.Proofs.Branches
import Reach.Proofs.Sessions

/-!
Soundness of reachability proofs. If the proof of a claim leaves nothing open, then each trace that starts in
an instance of the claim passes through its target, provided that the claims hold of the shorter traces; by
induction on the length, a proof that leaves nothing open shows all of its claims. What this takes is that no
branch loses a variable that its target still mentions.
-/

namespace Reach

namespace Engine

/-- The branches that are followed from here on. -/
inductive Follows (o : Obligation) (claims : List Rule) (config : ProofConfig) (context : Context) :
    World → List Branch → Branch → Prop
  | here {world : World} {branch : Branch} {rest : List Branch} :
    Follows o claims config context world (branch :: rest) branch
  | later {world middle : World} {branch found : Branch} {branches rest : List Branch} {left : List State}
      (gives : Gives (advance o claims config branch) context world (branches, left) middle)
      (follows : Follows o claims config context middle (branches ++ rest) found) :
    Follows o claims config context world (branch :: rest) found

/-- How the proof of a claim begins, if its precondition is feasible. -/
inductive Begins (context : Context) (claim : Rule) (world : World) : Obligation → Branch → World → Prop
  | intro {requires term : Term} {middle : World}
      (condition : context.definition.evaluate context.config.maxFunctionDepth
        (claim.renameApart world.fresh).1.requires = .ok requires)
      (start : context.definition.evaluate context.config.maxFunctionDepth
        (claim.renameApart world.fresh).1.lhs = .ok term)
      (asked : Gives (feasible (initial context.definition.signature term requires).constraint) context
        { world with fresh := (claim.renameApart world.fresh).2 } true middle) :
    Begins context claim world
      { claim := (claim.renameApart world.fresh).1
        fixed := (initial context.definition.signature term requires).freeVars }
      { state := initial context.definition.signature term requires, narrowing := .empty
        semanticSteps := 0, depth := 0 } middle

/-- The branches that are followed while some of the claims are proved, with what is to be shown of them. -/
inductive Examines (claims : List Rule) (config : ProofConfig) (context : Context) :
    World → List Rule → Obligation → Branch → Prop
  | here {world middle : World} {claim : Rule} {rest : List Rule} {o : Obligation} {start branch : Branch}
      (begins : Begins context claim world o start middle)
      (follows : Follows o claims config context middle [start] branch) :
    Examines claims config context world (claim :: rest) o branch
  | later {world after : World} {claim : Rule} {rest : List Rule} {residuals : List State} {o : Obligation}
      {branch : Branch} (gives : Gives (proveClaim claims config claim) context world residuals after)
      (examines : Examines claims config context after rest o branch) :
    Examines claims config context world (claim :: rest) o branch

/-- Each round of this branch, and of those that come of it, leaves nothing open. -/
inductive Closes (sig : Signature) (o : Obligation) (claims : List Rule) (context : Context) : Branch → Prop
  | round {branch : Branch} {branches : List Branch} {world after : World}
      (hosts : world.Hosts sig o claims branch) (unwrapped : after.fresh.position ≤ 2 ^ 64)
      (tracks : o.Tracks branch.narrowing branch.state)
      (round : Round o claims branch context world after branches)
      (later : ∀ next ∈ branches, Closes sig o claims context next) : Closes sig o claims context branch

variable {sig : Signature} {rules claims : List Rule} {context : Context} {world middle after : World}
  {o : Obligation} {config : ProofConfig} {branch : Branch} {branches : List Branch} {claim : Rule}
  {start assign : Variable → Term} {a : Term} {path : List Term} {limit : Nat}

section Branches

/-- A closed branch takes each trace of what it stands for through the target. -/
theorem exists_attains_of_closes (elementary : sig.Elementary)
    (collects : context.definition.Collects sig rules) (determined : ∀ rule ∈ rules, rule.Determined sig)
    (unmarked : context.definition.Unmarked) (owed : o.Elementary sig)
    (known : ∀ claim ∈ claims, claim.Elementary sig ∧ claim.HoldsBelow sig rules limit)
    (closes : Closes sig o claims context branch) (denotes : branch.Denotes sig o start assign a)
    (trace : Trace sig rules a path) (guards : branch.Guards limit path) :
    ∃ b ∈ path, o.claim.Attains sig start b := by
  induction closes generalizing assign a path with
  | round hosts unwrapped tracks round later ih =>
    have turned := attains_or_exists_denotes_of_round elementary collects owed denotes tracks determined unmarked
      known hosts unwrapped trace guards round
    rcases turned with attained | ⟨next, member, merged, b, rest, here, trace, suffix, guards⟩
    · exact attained
    · obtain ⟨c, among, attains⟩ := ih next member here trace guards
      exact ⟨c, suffix.subset among, attains⟩

/-- If following some branches leaves nothing open, they are closed. -/
theorem closes_of_gives_followBranches (collects : context.definition.Collects sig rules)
    (unmarked : context.definition.Unmarked) {budget : Nat} {residuals : List State}
    (hosts : ∀ branch ∈ branches, world.Hosts sig o claims branch) (unwrapped : after.fresh.position ≤ 2 ^ 64)
    (tracks : ∀ branch, Follows o claims config context world branches branch →
      o.Tracks branch.narrowing branch.state)
    (gives : Gives (followBranches o claims config budget branches residuals) context world [] after) :
    residuals = [] ∧ world.fresh.position ≤ after.fresh.position ∧
      ∀ branch ∈ branches, Closes sig o claims context branch := by
  induction budget generalizing branches residuals world with
  | zero =>
    cases branches with
    | nil =>
      obtain ⟨same, rfl⟩ := gives_pure.mp gives
      exact ⟨same.symm, Nat.le_refl _, nofun⟩
    | cons branch rest => exact absurd gives gives_throw
  | succ budget ih =>
    cases branches with
    | nil =>
      obtain ⟨same, rfl⟩ := gives_pure.mp gives
      exact ⟨same.symm, Nat.le_refl _, nofun⟩
    | cons branch rest =>
      obtain ⟨⟨next, left⟩, middle, advanced, gives⟩ := gives_bind.mp gives
      obtain ⟨here, others⟩ := List.forall_mem_cons.mp hosts
      obtain ⟨onward, standard, follow⟩ := hosts_of_advance collects here unmarked advanced
      obtain ⟨empty, forward, closes⟩ := ih
        (List.forall_mem_append.mpr ⟨follow, fun other member => (others other member).mono onward standard⟩)
        (fun found follows => tracks found (.later advanced follows)) gives
      obtain ⟨rfl, rfl⟩ := List.append_eq_nil_iff.mp empty
      obtain ⟨closes, rest⟩ := List.forall_mem_append.mp closes
      refine ⟨rfl, onward.trans forward, List.forall_mem_cons.mpr ⟨?_, rest⟩⟩
      exact .round here (forward.trans unwrapped) (tracks branch .here) (round_of_gives_advance advanced)
        closes

end Branches

section Starts

variable {begun : Branch}

section Worlds

variable (collects : context.definition.Collects sig rules) (unmarked : context.definition.Unmarked)
  (standard : world.store.Standard sig) (listed : world.fresh.Clears claim.allVars)
  (known : world.fresh.Clears (claims.flatMap Rule.allVars))
include collects unmarked standard listed known

/-- The world in which the first branch is followed hosts it. -/
theorem hosts_of_begins (begins : Begins context claim world o begun middle) :
    middle.Hosts sig o claims begun ∧ middle.fresh = (claim.renameApart world.fresh).2 := by
  obtain rfl := collects.signature
  obtain @⟨requires, term, _, condition, start, asked⟩ := begins
  have quiet := (quiet_feasible _).of_gives asked
  have onward := position_renameApart claim world.fresh
  have copied : Gives (Recording.renameApart claim []).action context world (claim.renameApart world.fresh).1
      { world with fresh := (claim.renameApart world.fresh).2 } := by
    rw [Recording.action_renameApart]
    exact gives_renameApart.mpr ⟨rfl, rfl⟩
  have owned := (Recording.safe_renameApart listed Fresh.clears_nil).result _ _ copied
  have here : (claim.renameApart world.fresh).2.Clears
      (initial context.definition.signature term requires).freeVars :=
    Fresh.clears_state_iff.mpr ⟨owned.lhs.evaluate unmarked start, Discipline.allowed_simplify
      (Discipline.allowed_ofTerm (owned.requires.evaluate unmarked condition))⟩
  have drawn : Store.Standard context.definition.signature
      { world with fresh := (claim.renameApart world.fresh).2 }.store := standard
  refine ⟨⟨(upholds_feasible _).standard collects drawn asked, ?_, ?_, ?_, ?_⟩, quiet⟩
  all_goals rw [quiet]
  · exact owned
  · exact here
  · exact known.mono onward
  · exact Fresh.clears_append_iff.mpr ⟨here, Fresh.clears_nil⟩

end Worlds

section Values

variable (elementary : sig.Elementary) (collects : context.definition.Collects sig rules)
  (claimed : claim.Elementary sig) (unwrapped : (claim.renameApart world.fresh).2.position ≤ 2 ^ 64)
include elementary collects claimed unwrapped

/-- The start of a claim is the left-hand side of its copy. -/
theorem evaluate_start {limit : Nat} {term : Term} (start : context.definition.evaluate limit
    (claim.renameApart world.fresh).1.lhs = .ok term) : term = (claim.renameApart world.fresh).1.lhs := by
  rw [collects.evaluate] at start
  exact (Except.ok.inj start).symm.trans
    ((computed_copy unwrapped claimed.computedLhs).fold_eq elementary fun _ _ => rfl)

private theorem elementary_of_begins (begins : Begins context claim world o begun middle) : o.Elementary sig := by
  obtain ⟨condition, start, asked⟩ := begins
  refine ⟨computed_copy unwrapped claimed.computedRhs, computed_copy unwrapped claimed.computedEnsures,
    fun v occurs => State.mem_freeVars.mpr (.inl ?_)⟩
  rw [← evaluate_start elementary collects claimed unwrapped start] at occurs
  exact occurs

/-- The first state stands for each instance of the claim with a true precondition. -/
theorem exists_denotes_initial (supplies : sig.Supplies assign)
    (holds : claim.requires.fold (sig.assigned assign) = .truth) {requires term : Term}
    (condition : context.definition.evaluate context.config.maxFunctionDepth
      (claim.renameApart world.fresh).1.requires = .ok requires)
    (start : context.definition.evaluate context.config.maxFunctionDepth
      (claim.renameApart world.fresh).1.lhs = .ok term) :
    ∃ merged, (∀ v ∈ claim.allVars,
        (Rule.freshRenaming claim.allVars world.fresh).1.through sig merged v = assign v) ∧
      (initial sig term requires).Denotes sig merged (claim.lhs.fold (sig.assigned assign)) := by
  obtain ⟨merged, merges, _, values⟩ :=
    (claim.renames_renameApart world.fresh unwrapped).exists_supplies supplies supplies
  have value {part : Term} (inside : ∀ v ∈ part.vars, v ∈ claim.allVars) :
      ((Rule.freshRenaming claim.allVars world.fresh).1.apply part).fold (sig.assigned merged) =
        part.fold (sig.assigned assign) :=
    merges.fold_apply_congr fun v occurs => values v (inside v occurs)
  have asked := computed_copy unwrapped claimed.computedRequires
  obtain rfl := evaluate_start elementary collects claimed unwrapped start
  rw [collects.evaluate] at condition
  obtain rfl := Except.ok.inj condition
  refine ⟨merged, values, (computed_copy unwrapped claimed.computedLhs).mono (by simp), merges, ?_,
    value fun v => Rule.mem_allVars_of_lhs⟩
  refine Constraint.Fulfilled.simplify elementary.toHasBuiltins merges.respects
    (Constraint.fulfilled_top.conjoin elementary.toHasBuiltins merges.respects ?_ ?_)
  · exact (merges.fold_evalBuiltins elementary (fun _ => id) asked).trans
      ((value fun v => Rule.mem_allVars_of_part (by simp)).trans holds)
  · exact (asked.evalBuiltins elementary).1.stable elementary fun _ => id

omit collects claimed in
/-- What attains the target of the copy attains that of the claim. -/
theorem attains_of_copy {merged : Variable → Term} (values : ∀ v ∈ claim.allVars,
      (Rule.freshRenaming claim.allVars world.fresh).1.through sig merged v = assign v)
    (attains : (claim.renameApart world.fresh).1.Attains sig merged a) : claim.Attains sig assign a := by
  obtain ⟨other, supplies, kept, rhs, ensures⟩ := attains
  have renames := claim.renames_renameApart world.fresh unwrapped
  refine ⟨_, supplies.through elementary (fun _ => Hook.isTotal_of_isScalar) (renames.computed sig _),
    fun v occurs => ?_, ?_, ?_⟩
  · have known := Rule.mem_allVars_of_lhs occurs
    obtain ⟨w, renamed, _⟩ := renames.bound v known
    have inside : w ∈ (claim.renameApart world.fresh).1.lhs.vars :=
      (Subst.mem_vars_apply _ _).mpr ⟨v, occurs, Subst.image_of_get? renamed ▸ List.mem_singleton_self w⟩
    rw [← values v known, Subst.through, Subst.through, Subst.image_of_get? renamed]
    exact kept w inside
  · rw [← supplies.fold_apply]
    exact rhs
  · rw [← supplies.fold_apply]
    exact ensures

end Values

section Claims

variable (elementary : sig.Elementary) (collects : context.definition.Collects sig rules)
  (determined : ∀ rule ∈ rules, rule.Determined sig) (unmarked : context.definition.Unmarked)
  (standard : world.store.Standard sig) (unwrapped : after.fresh.position ≤ 2 ^ 64)
include elementary collects determined unmarked standard unwrapped

/-- A claim without an open branch holds of the traces up to some length if all claims do below it. -/
theorem holdsBelow_succ_of_gives_proveClaim (claimed : claim.Elementary sig)
    (listed : world.fresh.Clears claim.allVars) (given : world.fresh.Clears (claims.flatMap Rule.allVars))
    (tracks : ∀ o begun middle branch, Begins context claim world o begun middle →
      Follows o claims config context middle [begun] branch → o.Tracks branch.narrowing branch.state)
    (gives : Gives (proveClaim claims config claim) context world [] after)
    (known : ∀ claim ∈ claims, claim.Elementary sig ∧ claim.HoldsBelow sig rules limit) :
    claim.HoldsBelow sig rules (limit + 1) := by
  intro assign path supplies holds trace short
  obtain rfl := collects.signature
  obtain ⟨requires, term, answer, middle, condition, start, asked, rest⟩ := of_gives_proveClaim gives
  cases answer with
  | false =>
    obtain ⟨_, rfl⟩ := rest
    rw [(quiet_feasible _).of_gives asked] at unwrapped
    obtain ⟨merged, _, denotes⟩ := exists_denotes_initial elementary collects claimed unwrapped supplies holds
      condition start
    have valued (v : Variable) : context.definition.signature.Stable (fun _ => False) (merged v) :=
      ((denotes.supplies.datum v).toComputed.stable elementary (by simp)).here
    have feasible := Store.Standard.feasible_of_fulfilled standard elementary.toHasBuiltins
      denotes.supplies.respects valued denotes.fulfilled
    cases feasible.symm.trans (gives_feasible.mp asked).1
  | true =>
    have begins := Begins.intro condition start asked
    obtain ⟨hosts, same⟩ := hosts_of_begins collects unmarked standard listed given begins
    obtain ⟨_, forward, closes⟩ := closes_of_gives_followBranches collects unmarked
      (List.forall_mem_singleton.mpr hosts) unwrapped
      (fun branch follows => tracks _ _ _ branch begins follows) rest
    have unwrapped := (same ▸ forward).trans unwrapped
    obtain ⟨merged, values, denotes⟩ := exists_denotes_initial elementary collects claimed unwrapped supplies
      holds condition start
    obtain ⟨b, among, attains⟩ := exists_attains_of_closes elementary collects determined unmarked
      (elementary_of_begins elementary collects claimed unwrapped begins) known
      (List.forall_mem_singleton.mp closes) ⟨denotes, .empty _ _, fun v => rfl, fun _ _ => rfl⟩ trace
      -- At the start there was no step, so that the trace may be as long as the limit.
      ⟨Nat.le_of_lt_succ short, fun stepped => absurd rfl stepped⟩
    exact ⟨b, among, attains_of_copy elementary unwrapped values attains⟩

/-- The same of each claim of a list whose proofs leave nothing open. -/
theorem holdsBelow_succ_of_gives_mapM {todo : List Rule} {results : List (List State)}
    (claimed : ∀ claim ∈ todo, claim.Elementary sig ∧ claim.Unmarked)
    (given : ∀ claim ∈ claims, claim.Unmarked)
    (tracks : ∀ o branch, Examines claims config context world todo o branch →
      o.Tracks branch.narrowing branch.state)
    (gives : Gives (todo.mapM (proveClaim claims config)) context world results after)
    (proved : ∀ residuals ∈ results, residuals = [])
    (known : ∀ claim ∈ claims, claim.Elementary sig ∧ claim.HoldsBelow sig rules limit) :
    world.fresh.position ≤ after.fresh.position ∧
      ∀ claim ∈ todo, claim.HoldsBelow sig rules (limit + 1) := by
  induction todo generalizing world results with
  | nil =>
    rw [List.mapM_nil, gives_pure] at gives
    obtain ⟨_, rfl⟩ := gives
    exact ⟨Nat.le_refl _, nofun⟩
  | cons claim rest ih =>
    rw [List.mapM_cons] at gives
    obtain ⟨residuals, middle, proving, gives⟩ := gives_bind.mp gives
    obtain ⟨more, last, others, gives⟩ := gives_bind.mp gives
    obtain ⟨rfl, rfl⟩ := gives_pure.mp gives
    obtain ⟨rfl, closed⟩ := List.forall_mem_cons.mp proved
    obtain ⟨⟨here, listed⟩, claimed⟩ := List.forall_mem_cons.mp claimed
    have cleared : world.fresh.Clears claim.allVars := fun v member =>
      Fresh.avoids_of_unmarked (listed v member)
    have given' : world.fresh.Clears (claims.flatMap Rule.allVars) := Fresh.clears_flatMap_iff.mpr
      fun claim member v occurs => Fresh.avoids_of_unmarked (given claim member v occurs)
    have standard' := Upholds.standard (indifferent_proveClaim upholds_feasible upholds_draw upholds_get
      upholds_implies claims config claim) collects standard proving
    have onward : world.fresh.position ≤ middle.fresh.position := by
      rw [← Recording.action_proveClaim] at proving
      exact (Recording.safe_proveClaim unmarked cleared given').onward proving
    obtain ⟨forward, held⟩ := ih standard' claimed
      (fun o branch examines => tracks o branch (.later proving examines)) others closed
    refine ⟨onward.trans forward, List.forall_mem_cons.mpr ⟨?_, held⟩⟩
    exact holdsBelow_succ_of_gives_proveClaim elementary collects determined unmarked standard
      (forward.trans unwrapped) here cleared given'
      (fun o begun middle branch begins follows => tracks o branch (.here begins follows)) proving known

/-- A proof that leaves nothing open shows its claims of all traces. -/
theorem holdsBelow_of_isProved {result : ProofResult}
    (claimed : ∀ claim ∈ claims, claim.Elementary sig ∧ claim.Unmarked ∧ claim.isTrusted = false)
    (tracks : ∀ o branch, Examines claims config context world claims o branch →
      o.Tracks branch.narrowing branch.state)
    (gives : Gives (prove claims config) context world result after) (proved : result.isProved = true) :
    ∀ limit, ∀ claim ∈ claims, claim.HoldsBelow sig rules limit := by
  have every : (claims.filter fun claim => !claim.isTrusted) = claims :=
    List.filter_eq_self.mpr fun claim member => by simp [(claimed claim member).2.2]
  rw [prove, every] at gives
  obtain ⟨results, _, made, gives⟩ := gives_bind.mp gives
  obtain ⟨rfl, rfl⟩ := gives_pure.mp gives
  have empty : ∀ residuals ∈ results, residuals = [] := by
    simpa [ProofResult.isProved, List.isEmpty_iff] using proved
  -- The proofs were made once; the claims that they use hold of one length of traces after the other.
  intro limit
  induction limit with
  | zero => exact fun claim member assign path supplies holds trace short => absurd short (Nat.not_lt_zero _)
  | succ limit ih =>
    exact (holdsBelow_succ_of_gives_mapM elementary collects determined unmarked standard unwrapped
      (fun claim member => ⟨(claimed claim member).1, (claimed claim member).2.1⟩)
      (fun claim member => (claimed claim member).2.1) tracks made empty
      fun claim member => ⟨(claimed claim member).1, ih claim member⟩).2

end Claims

end Starts

section Instances

variable {s : Subst} {b : Term} (elementary : sig.Elementary) (computed : s.Computed sig Hook.isTotal)
  (ground : ∀ v ∈ claim.lhs.vars, (s.image v).ground = true) (supplies : sig.Supplies assign)
include elementary computed ground supplies

/-- What attains the target is an instance of it, under a substitution that extends the one of the start. -/
theorem exists_instance_of_attains (attains : claim.Attains sig (s.through sig assign) b) :
    ∃ s' : Subst, s'.Computed sig Hook.isTotal ∧ (∀ v ∈ claim.lhs.vars, s'.image v = s.image v) ∧
      (∀ v ∈ claim.allVars, (s'.image v).ground = true) ∧ sig.evalBuiltins (s'.apply claim.rhs) = b ∧
      sig.evalBuiltins (s'.apply claim.ensures) = .truth := by
  obtain ⟨other, supplies', kept, rhs, ensures⟩ := attains
  let value (v : Variable) : Term := if v ∈ claim.lhs.vars then s.image v else other v
  let s' := Subst.ofValues value claim.allVars
  have found (v : Variable) : s'.get? v = if v ∈ claim.allVars then some (value v) else none :=
    Subst.get?_ofValues value claim.allVars v
  have image {v : Variable} (member : v ∈ claim.allVars) : s'.image v = value v :=
    Subst.image_of_get? ((found v).trans (if_pos member))
  have valued (v : Variable) : (value v).Computed sig Hook.isTotal ∧ v.sort.accepts (value v).sort = true ∧
      (value v).ground = true ∧ (value v).fold (sig.assigned assign) = other v := by
    by_cases occurs : v ∈ claim.lhs.vars
    · simp only [value, if_pos occurs]
      exact ⟨computed.image v, computed.sorted.image v, ground v occurs, (kept v occurs).symm⟩
    · simp only [value, if_neg occurs]
      have datum := supplies'.datum v
      exact ⟨datum.toComputed.mono (by simp), supplies'.sorted v, datum.ground, datum.fold_eq elementary _⟩
  have grounds : ∀ v ∈ claim.allVars, (s'.image v).ground = true := fun v member =>
    image member ▸ (valued v).2.2.1
  have evaluates {part : Term} (inside : ∀ v ∈ part.vars, v ∈ claim.allVars) :
      sig.evalBuiltins (s'.apply part) = part.fold (sig.assigned other) := by
    rw [supplies.evalBuiltins_of_ground fun v occurs => grounds v (inside v occurs)]
    refine Signature.fold_assigned_congr fun v occurs => ?_
    rw [Subst.through, image (inside v occurs)]
    exact (valued v).2.2.2
  refine ⟨s', .of_get? fun v term bound => ?_, fun v occurs => ?_, grounds, ?_, ?_⟩
  · rw [found] at bound
    split at bound
    · obtain rfl := Option.some.inj bound
      exact ⟨(valued v).1, (valued v).2.1⟩
    · cases bound
  · exact (image (Rule.mem_allVars_of_lhs occurs)).trans (if_pos occurs)
  · exact (evaluates fun v => Rule.mem_allVars_of_part (by simp)).trans rhs
  · exact (evaluates fun v => Rule.mem_allVars_of_part (by simp)).trans ensures

end Instances

/-- What is to be shown is to be shown of a copy of one of the claims. -/
theorem exists_copy_of_examines {todo : List Rule}
    (examines : Examines claims config context world todo o branch) :
    ∃ claim ∈ todo, ∃ fresh, o.claim = (claim.renameApart fresh).1 := by
  induction examines with
  | here begins follows =>
    cases begins
    exact ⟨_, List.mem_cons_self, _, rfl⟩
  | later gives examines ih => exact ih.imp fun _ => And.imp_left (List.mem_cons_of_mem _)

/-- There is nothing to be lost if the targets have no variables. -/
theorem tracks_of_ground {todo : List Rule} {narrowing : Subst} {state : State}
    (grounds : ∀ claim ∈ todo, claim.rhs.ground = true)
    (examines : Examines claims config context world todo o branch) : o.Tracks narrowing state := by
  intro v _ w _ mentioned
  obtain ⟨claim, member, fresh, copied⟩ := exists_copy_of_examines examines
  obtain ⟨u, among, _⟩ := (Subst.mem_vars_apply _ _).mp mentioned
  rw [copied] at among
  obtain ⟨u', original, _⟩ := (Subst.mem_vars_apply _ _).mp among
  rw [(Term.ground_iff_vars_eq_nil _).mp (grounds claim member)] at original
  cases original

/-- A claim that is proved holds of every execution that ends, if no branch lost a variable that its target
mentions: from a ground instance with a true precondition on, it passes through an instance of the target with
a true postcondition, which agrees with the first one on the variables of the start. -/
theorem passes_target_of_isProved {decls : List Declaration} {result : ProofResult} {s : Subst} {first : Term}
    {states : List State}
    (constructors : ∀ decl ∈ decls, decl.function = false ∧ decl.hook = none ∧ decl.sort.isScalar = false)
    (declared : Signature.builtin.declareAll decls = .ok sig)
    (defined : Definition.ofRules sig rules = .ok context.definition)
    (ruled : ∀ rule ∈ rules, rule.Determined sig ∧ rule.Unmarked)
    (claimed : ∀ claim ∈ claims, claim.Elementary sig ∧ claim.Unmarked ∧ claim.isTrusted = false)
    (standard : world.store.Standard sig) (unwrapped : after.fresh.position ≤ 2 ^ 64)
    (gives : Gives (prove claims config) context world result after) (proved : result.isProved = true)
    (tracks : ∀ o branch, Examines claims config context world claims o branch →
      o.Tracks branch.narrowing branch.state)
    (member : claim ∈ claims) (computed : s.Computed sig Hook.isTotal)
    (ground : ∀ v ∈ claim.lhs.vars ++ claim.requires.vars, (s.image v).ground = true)
    (requires : context.definition.evaluate context.config.maxFunctionDepth (s.apply claim.requires) =
      .ok .truth)
    (start : context.definition.evaluate context.config.maxFunctionDepth (s.apply claim.lhs) = .ok first)
    (execution : Execution context { term := first } states) :
    ∃ state ∈ states, ∃ s' : Subst, s'.Computed sig Hook.isTotal ∧
      (∀ v ∈ claim.lhs.vars, s'.image v = s.image v) ∧ (∀ v ∈ claim.allVars, (s'.image v).ground = true) ∧
      context.definition.evaluate context.config.maxFunctionDepth (s'.apply claim.rhs) = .ok state.term ∧
      context.definition.evaluate context.config.maxFunctionDepth (s'.apply claim.ensures) = .ok .truth := by
  have elementary := Signature.Elementary.of_declareAll constructors declared
  have determined : ∀ rule ∈ rules, rule.Determined sig := fun rule member => (ruled rule member).1
  obtain ⟨collects, _⟩ := Definition.collects_of_ofRules
    (fun rule member _ => (determined rule member).semantic) defined
  have unmarked := Definition.unmarked_of_ofRules defined fun rule member => (ruled rule member).2
  have supplies := sig.supplies_sample
  have values := supplies.through elementary (fun _ => id) computed
  obtain ⟨left, condition⟩ := List.forall_mem_append.mp ground
  rw [collects.evaluate, supplies.evalBuiltins_of_ground condition] at requires
  rw [collects.evaluate, supplies.evalBuiltins_of_ground left] at start
  obtain rfl := Except.ok.inj start
  have datum := ((claimed claim member).1.computedLhs.datum elementary values (by simp)).1
  have trace := execution.trace elementary collects determined datum rfl
  have holds := holdsBelow_of_isProved elementary collects determined unmarked standard unwrapped claimed tracks
    gives proved (states.length + 1) claim member
  obtain ⟨b, among, attains⟩ := holds _ _ values (Except.ok.inj requires) trace (by simp)
  obtain ⟨state, listed, rfl⟩ := List.mem_map.mp among
  obtain ⟨s', computed', same, grounds, rhs, ensures⟩ :=
    exists_instance_of_attains elementary computed left supplies attains
  refine ⟨state, listed, s', computed', same, grounds, ?_, ?_⟩ <;> rw [collects.evaluate]
  · rw [rhs]
  · rw [ensures]

end Engine

section Letters

open Engine

/-- Two configurations, each of which holds a number. -/
def lettered : Signature :=
  ⟨(Signature.builtin.labels.insert "a" (.constructor "a" [.int] (.named "S"))).insert "b"
    (.constructor "b" [.int] (.named "S"))⟩

def letter (head : String) (number : Term) : Term :=
  .app head (.named "S") [number]

def numberX : Term :=
  .var ⟨"X", .int⟩

/-- The definition with this one rule. -/
def following (rule : Rule) : Context where
  definition :=
    { signature := lettered, rules := [rule], index := Assoc.empty.insert "a" [0], unindexed := []
      functions := .empty }

private theorem lettered_declared : Signature.builtin.declareAll
    [.constructor "a" [.int] (.named "S"), .constructor "b" [.int] (.named "S")] = .ok lettered :=
  rfl

/-- The number goes up by one, as long as it is below ten. -/
def up : Rule where
  label := "up"
  lhs := letter "a" numberX
  rhs := letter "a" (.app Label.intAdd .int [numberX, .ofInt 1])
  requires := below 10

/-- From each number up to ten, it gets to ten. -/
def ten : Rule where
  label := "ten"
  lhs := letter "a" numberX
  rhs := letter "a" (.ofInt 10)
  requires := .app Label.intLe .bool [numberX, .ofInt 10]

theorem within_letter {hooks : Hook → Bool} {head : String} {number : Term}
    (among : lettered.isFunction head = false) (inner : number.Within (lettered.computed hooks)) :
    (letter head number).Within (lettered.computed hooks) :=
  Term.Everywhere.app_iff.mpr ⟨.inl among, by simpa using inner⟩

theorem within_number {hooks : Hook → Bool} (number : Int) :
    (Term.ofInt number).Within (lettered.computed hooks) :=
  Term.Everywhere.token_iff.mpr ⟨number, rfl⟩

private theorem determined_up : up.Determined lettered where
  lookups := rfl
  freshConstants := rfl
  freshVariables := rfl
  checked := by decide
  lhs := within_letter rfl (within_var trivial)
  rhs := within_letter rfl (Term.Everywhere.app_iff.mpr ⟨.inr ⟨_, .intAdd, rfl, rfl, rfl⟩, by
    simpa [numberX] using ⟨within_var trivial, within_number 1⟩⟩)
  requires := Term.Everywhere.app_iff.mpr ⟨.inr ⟨_, .intCompare .lt, rfl, rfl, rfl⟩, by
    simpa using ⟨within_var trivial, within_number 10⟩⟩
  ensures := Term.Everywhere.token_iff.mpr (.inl rfl)
  bound := by decide
  promised _ _ _ := rfl

private theorem elementary_ten : ten.Elementary lettered where
  lookups := rfl
  freshConstants := rfl
  freshVariables := rfl
  checked := by decide
  lhs := within_letter rfl (within_var trivial)
  rhs := within_letter rfl (within_number 10)
  requires := Term.Everywhere.app_iff.mpr ⟨.inr ⟨_, .intCompare .le, rfl, rfl, rfl⟩, by
    simpa [numberX] using ⟨within_var trivial, within_number 10⟩⟩
  ensures := Term.Everywhere.token_iff.mpr (.inl rfl)

/-- From eight on, the execution gets to ten by nine. -/
theorem passes_target_of_isProved_up :
    ∃ result after states, Gives (prove [ten] {}) (following up) {} result after ∧ result.isProved = true ∧
      Execution (following up) { term := letter "a" (.ofInt 8) } states ∧ states.length = 3 ∧
      ∃ state ∈ states, ∃ s' : Subst, s'.Computed lettered Hook.isTotal ∧
        (∀ v ∈ ten.lhs.vars, s'.image v = (Subst.single ⟨"X", .int⟩ (.ofInt 8)).image v) ∧
        (∀ v ∈ ten.allVars, (s'.image v).ground = true) ∧
        (following up).definition.evaluate (following up).config.maxFunctionDepth (s'.apply ten.rhs) =
          .ok state.term ∧
        (following up).definition.evaluate (following up).config.maxFunctionDepth (s'.apply ten.ensures) =
          .ok .truth := by
  obtain ⟨after, gives⟩ : ∃ after, Gives (prove [ten] {}) (following up) {} ⟨[]⟩ after :=
    exists_gives (by decide +kernel)
  have last : after = ((prove [ten] {} : Engine _).run (following up) {}).2 := (congrArg Prod.snd gives).symm
  obtain ⟨_, first⟩ : ∃ now, Gives (step { term := letter "a" (.ofInt 8) } .matching) (following up) {}
    [become (following up) up (letter "a" (.ofInt 9))] now := exists_gives (by decide +kernel)
  obtain ⟨_, second⟩ : ∃ now, Gives (step { term := letter "a" (.ofInt 9) } .matching) (following up) {}
    [become (following up) up (letter "a" (.ofInt 10))] now := exists_gives (by decide +kernel)
  obtain ⟨_, third⟩ : ∃ now, Gives (step { term := letter "a" (.ofInt 10) } .matching) (following up) {}
    [] now := exists_gives (by decide +kernel)
  have execution : Execution (following up) { term := letter "a" (.ofInt 8) } _ :=
    .step first (List.mem_singleton_self _) (.step second (List.mem_singleton_self _) (.ends third))
  have computed : (Subst.single ⟨"X", .int⟩ (.ofInt 8)).Computed lettered Hook.isTotal := by
    refine .of_get? fun v term found => ?_
    obtain ⟨rfl, rfl⟩ := Subst.eq_of_get?_single found
    exact ⟨Term.Computed.token_iff.mpr ⟨8, rfl⟩, rfl⟩
  refine ⟨_, after, _, gives, rfl, execution, rfl, ?_⟩
  have defined : Definition.ofRules lettered [up] = .ok (following up).definition := rfl
  exact passes_target_of_isProved (by decide) lettered_declared defined
    (List.forall_mem_singleton.mpr ⟨determined_up, by decide⟩)
    (List.forall_mem_singleton.mpr ⟨elementary_ten, by decide, by decide⟩)
    (Store.standard_standard lettered) (by rw [last]; decide +kernel) gives rfl
    (fun o branch examines => tracks_of_ground (by decide) examines) (List.mem_singleton_self _) computed
    (by decide) (by decide +kernel) (by decide +kernel) execution

/-- The number is lost. -/
def losing : Rule where
  label := "losing"
  lhs := letter "a" numberX
  rhs := letter "b" (.ofInt 0)

/-- The number is kept. -/
def retaining : Rule where
  label := "retaining"
  lhs := letter "a" numberX
  rhs := letter "b" numberX

/-- A claim is proved that does not hold. When its target is unified with what the rule makes of its start,
the variable of the start is not one of the state any more, and so nothing is asked of it. -/
theorem passes_target_of_isProved_losing :
    (losing.Determined lettered ∧ retaining.Elementary lettered) ∧
      ∃ result after states, Gives (prove [retaining] {}) (following losing) {} result after ∧
        result.isProved = true ∧
        Execution (following losing) { term := letter "a" (.ofInt 1) } states ∧
        ∀ state ∈ states, ¬∃ s' : Subst, s'.image ⟨"X", .int⟩ = .ofInt 1 ∧
          (following losing).definition.evaluate (following losing).config.maxFunctionDepth
            (s'.apply retaining.rhs) = .ok state.term := by
  have var {hooks : Hook → Bool} : numberX.Within (lettered.computed hooks) := within_var trivial
  have condition : Term.truth.Within (lettered.computed Hook.isTotal) :=
    Term.Everywhere.token_iff.mpr (.inl rfl)
  have determined : losing.Determined lettered :=
    ⟨⟨⟨rfl, rfl, rfl⟩, by decide, within_letter rfl var, within_letter rfl (within_number 0), condition,
      condition⟩, by decide, fun _ _ _ => rfl⟩
  have elementary : retaining.Elementary lettered :=
    ⟨⟨rfl, rfl, rfl⟩, by decide, within_letter rfl var, within_letter rfl var, condition, condition⟩
  refine ⟨⟨determined, elementary⟩, ?_⟩
  obtain ⟨after, gives⟩ : ∃ after, Gives (prove [retaining] {}) (following losing) {} ⟨[]⟩ after :=
    exists_gives (by decide +kernel)
  obtain ⟨_, first⟩ : ∃ now, Gives (step { term := letter "a" (.ofInt 1) } .matching) (following losing) {}
    [become (following losing) losing (letter "b" (.ofInt 0))] now := exists_gives (by decide +kernel)
  obtain ⟨_, second⟩ : ∃ now, Gives (step { term := letter "b" (.ofInt 0) } .matching) (following losing) {}
    [] now := exists_gives (by decide +kernel)
  have execution : Execution (following losing) { term := letter "a" (.ofInt 1) } _ :=
    .step first (List.mem_singleton_self _) (.ends second)
  refine ⟨_, after, _, gives, rfl, execution, ?_⟩
  rintro state member ⟨s', one, evaluated⟩
  have canonical : retaining.rhs.Canonical := .app _ _ (List.forall_mem_singleton.mpr (.var _))
  have target : s'.apply retaining.rhs = letter "b" (.ofInt 1) :=
    (Subst.apply_eq_fold_algebra s' canonical).trans (congrArg (letter "b") one)
  have value : (following losing).definition.evaluate (following losing).config.maxFunctionDepth
      (letter "b" (.ofInt 1)) = .ok (letter "b" (.ofInt 1)) := by decide +kernel
  rw [target, value] at evaluated
  have reached := Except.ok.inj evaluated
  rcases List.mem_cons.mp member with rfl | member
  · exact absurd reached (by decide)
  · obtain rfl := List.mem_singleton.mp member
    exact absurd reached (by decide)

end Letters

end Reach
