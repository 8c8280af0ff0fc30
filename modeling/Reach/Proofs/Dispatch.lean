import Reach.Proofs.Functions
import Reach.Proofs.Modes
import Reach.Proofs.Semantics

/-!
Finding rules through the head of the term. The index finds the rules that a scan of all rules would
select: those whose left-hand side has the head of the term, and those whose left-hand side has none. A
rule that is not found does not match, and its left-hand side does not unify either, since two different
constructors clash. A function application is no constructor: unification leaves its equation with any
left-hand side to the store, so that rules that are not found would give successors too.
-/

namespace Reach

namespace Definition

variable {sig : Signature} {rules : List Rule} {d : Definition} {rule : Rule}

/-- The rules with this head, or those without a head, each with its position. -/
def headed (rules : List Rule) (head : Option String) : List (Rule × Nat) :=
  rules.zipIdx.filter fun (rule, _) => rule.lhs.label? = head

/-- The index lists the positions of the semantic rules by their heads, and no function is among them. -/
structure Indexed (d : Definition) : Prop where
  labelled : ∀ label, (d.index.get? label).getD [] = (headed d.rules (some label)).map Prod.snd
  unlabelled : d.unindexed = (headed d.rules none).map Prod.snd
  semantic : ∀ rule ∈ d.rules, ∀ label, rule.lhs.label? = some label →
    d.signature.isFunction label = false

theorem headed_append (rules : List Rule) (rule : Rule) (head : Option String) :
    headed (rules ++ [rule]) head =
      headed rules head ++ if rule.lhs.label? = head then [(rule, rules.length)] else [] := by
  rw [headed, List.zipIdx_append, List.filter_append, headed]
  congr 1
  by_cases same : rule.lhs.label? = head <;> simp [same]

theorem Indexed.add (indexed : d.Indexed) (rule : Rule) : (d.add rule).Indexed := by
  obtain ⟨labelled, unlabelled, semantic⟩ := indexed
  unfold Definition.add
  cases head : rule.lhs.label? with
  | some label =>
    dsimp only
    split
    · exact ⟨labelled, unlabelled, semantic⟩
    · next constructor =>
      refine ⟨fun other => ?_, ?_, fun found member other named => ?_⟩
      · dsimp only
        rw [Assoc.get?_insert, headed_append, head, List.map_append, ← labelled]
        by_cases same : other = label
        · simp [same]
        · have differ : label ≠ other := fun eq => same eq.symm
          simp [same, differ]
      · simp [headed_append, head, unlabelled]
      · rcases List.mem_append.mp member with old | new
        · exact semantic found old other named
        · obtain rfl := List.mem_singleton.mp new
          cases head.symm.trans named
          simpa using constructor
  | none =>
    refine ⟨fun other => ?_, ?_, fun found member other named => ?_⟩
    · simp [headed_append, head, labelled]
    · simp [headed_append, head, unlabelled]
    · rcases List.mem_append.mp member with old | new
      · exact semantic found old other named
      · obtain rfl := List.mem_singleton.mp new
        cases head.symm.trans named

theorem indexed_of_ofRules (made : ofRules sig rules = .ok d) : d.Indexed ∧ d.signature = sig := by
  refine (holds_of_ofRules (fun d _ => d.Indexed ∧ d.signature = sig) ?_ ?_ made).1
  · exact ⟨⟨fun _ => rfl, rfl, nofun⟩, rfl⟩
  · exact fun d _ rule _ ⟨indexed, same⟩ => ⟨indexed.add rule, (d.signature_add rule).trans same⟩

private theorem mem_zipIdx_getElem? {position : Nat} (member : (rule, position) ∈ rules.zipIdx) :
    rules[position]? = some rule := by
  obtain ⟨_, below, found⟩ := List.mem_zipIdx member
  simpa using (List.getElem?_eq_some_iff.mpr ⟨by simpa using below, found.symm⟩)

/-- A rule is a candidate for a term if it has the head of the term or none. -/
def applicable (term : Term) (rule : Rule) : Bool :=
  rule.lhs.label? = none ∨ rule.lhs.label? = term.label?

/-- A scan meets the positions in ascending order. -/
theorem pairwise_scanned (rules : List Rule) (keep : Rule × Nat → Bool) :
    ((rules.zipIdx.filter keep).map Prod.snd).Pairwise (· ≤ ·) := by
  have positions : (rules.zipIdx.map Prod.snd).Pairwise (· < ·) := by
    rw [List.zipIdx_map_snd]
    exact List.pairwise_lt_range'
  exact (positions.sublist (List.filter_sublist.map Prod.snd)).imp Nat.le_of_lt

/-- At the positions that a scan selects stand the rules that it selects. -/
theorem map_getElem?_scanned (rules : List Rule) (keep : Rule → Bool) :
    ((rules.zipIdx.filter fun pair => keep pair.1).map Prod.snd).map (rules[·]?) =
      (rules.filter keep).map some := by
  have found : ∀ pair ∈ rules.zipIdx.filter fun pair => keep pair.1,
      rules[pair.2]? = some pair.1 :=
    fun pair member => mem_zipIdx_getElem? (List.mem_filter.mp member).1
  have scanned : (rules.zipIdx.filter (keep ∘ Prod.fst)).map Prod.fst = rules.filter keep := by
    rw [← List.filter_map, List.zipIdx_map_fst]
  rw [List.map_map, ← scanned, List.map_map]
  exact List.map_congr_left found

/-- The positions in the index, put in order, are those of a scan. -/
theorem Indexed.sort_positions (indexed : d.Indexed) (term : Term) :
    Ordered.sort ((term.label?.bind d.index.get?).getD [] ++ d.unindexed) =
      (d.rules.zipIdx.filter fun pair => applicable term pair.1).map Prod.snd := by
  let scanned := d.rules.zipIdx.filter fun pair => applicable term pair.1
  have filed : (term.label?.bind d.index.get?).getD [] =
      (scanned.filter fun pair => pair.1.lhs.label?.isSome).map Prod.snd := by
    rw [List.filter_filter]
    cases head : term.label? with
    | none =>
      refine (List.map_eq_nil_iff.mpr (List.filter_eq_nil_iff.mpr fun pair _ => ?_)).symm
      cases named : pair.1.lhs.label? <;> simp [applicable, head, named]
    | some label =>
      refine (indexed.labelled label).trans (congrArg (List.map Prod.snd) ?_)
      refine List.filter_congr fun pair _ => ?_
      cases named : pair.1.lhs.label? <;> simp [applicable, head, named]
  have others : d.unindexed = (scanned.filter fun pair => !pair.1.lhs.label?.isSome).map Prod.snd := by
    rw [List.filter_filter, indexed.unlabelled]
    refine congrArg (List.map Prod.snd) (List.filter_congr fun pair _ => ?_)
    cases named : pair.1.lhs.label? <;> simp [applicable, named]
  have ascending : (scanned.map Prod.snd).Pairwise fun a b => (compare a b).isLE :=
    (pairwise_scanned d.rules _).imp fun below => Nat.isLE_compare.mpr below
  refine List.Perm.eq_of_pairwise (fun a b _ _ below above => ?_) (Ordered.sort_pairwise _) ascending ?_
  · exact Std.LawfulEqOrd.eq_of_compare (Std.OrientedCmp.isLE_antisymm below above)
  · rw [filed, others, ← List.map_append]
    exact (Ordered.sort_perm _).trans ((List.filter_append_perm _ scanned).map Prod.snd)

/-- The candidates are what a scan of all rules selects. -/
theorem Indexed.candidates_eq (indexed : d.Indexed) (term : Term) :
    d.candidates term = d.rules.filter (applicable term) := by
  have found := map_getElem?_scanned d.rules (applicable term)
  rw [candidates, indexed.sort_positions]
  generalize (d.rules.zipIdx.filter fun pair => applicable term pair.1).map Prod.snd = positions
    at found ⊢
  calc positions.filterMap (d.rules[·]?)
    _ = (positions.map (d.rules[·]?)).filterMap id := by rw [List.filterMap_map, Function.id_comp]
    _ = ((d.rules.filter (applicable term)).map some).filterMap id := by rw [found]
    _ = d.rules.filter (applicable term) := by
      rw [List.filterMap_map]
      exact List.filterMap_some

end Definition

section Clash

variable {sig : Signature} {label : String} {sort : TermSort} {args : List Term} {term : Term}

/-- A pattern with another head than the subject has no match. -/
theorem Matching.enumerate_of_clash (clash : term.label? ≠ some label) :
    Matching.enumerate (.app label sort args) term = .nil := by
  have stuck (p : Matching.Problem) : p.step (.app label sort args) term = none := by
    have differ : Term.app label sort args ≠ term := fun same => clash (same ▸ rfl)
    simp only [Matching.Problem.step, if_neg differ]
    split
    · rfl
    · cases term with
      | app other sort' args' =>
        have heads : label ≠ other := fun same => clash (congrArg some same.symm)
        simp [heads]
      | _ => rfl
  have failed (p : Matching.Problem) (goals : p.goals = [(.app label sort args, term)]) :
      p.advance = .branches .nil := by
    simp only [Matching.Problem.advance, goals]
    rw [stuck]
    rfl
  unfold Matching.enumerate Matching.enumerateFrom
  dsimp only
  generalize Matching.Problem.weight _ = steps
  cases steps with
  | zero => rw [Matching.Problem.solve, failed _ rfl]
  | succ steps =>
    rw [Matching.Problem.solve, failed _ rfl]
    rfl

/-- A constructor does not unify with a term of another head that is neither a variable nor a function
application. -/
theorem Unification.explore_of_clash (constructor : sig.isFunction label = false)
    (rigid : term.var? = none) (evaluated : sig.isCall term = false) (clash : term.label? ≠ some label)
    (budget : Nat) (fresh : Fresh) (later : Fresh → Unifiers) :
    (start (.app label sort args) term).explore sig budget fresh later =
      if budget = 0 then .cut fresh else later fresh := by
  cases budget with
  | zero => rfl
  | succ budget =>
    have stuck (p : Problem) (unbound : p.subst = .empty) :
        p.step sig (.app label sort args, term) = none := by
      have differ : Term.app label sort args ≠ term := fun same => clash (same ▸ rfl)
      have still (other : Term) : p.subst.apply other = other := by
        rw [unbound]
        rfl
      have call : sig.isCall (.app label sort args) = false := constructor
      simp only [Problem.step, still, if_neg differ]
      cases term with
      | var v => cases rigid
      | app other sort' args' =>
        have heads : label ≠ other := fun same => clash (congrArg some same.symm)
        simp [call, evaluated, heads]
      | token sort' value => simp [call, evaluated]
      | collection kind entries frame => simp [call, evaluated]
    have failed : (start (.app label sort args) term).advance sig = .failed := by
      simp only [start, Problem.advance]
      rw [stuck _ rfl]
      rfl
    rw [Problem.explore, failed, if_neg (Nat.succ_ne_zero budget)]

end Clash

namespace Engine

variable {context : Context} {world after : World} {rule : Rule} {state : State} {mode : Mode}
  {limit : Option Nat} {result : List Successor}

section Unmatched

variable {label : String} (head : rule.lhs.label? = some label) (clash : state.term.label? ≠ some label)
include head clash

/-- A rule of another head is not matched, and nothing is drawn or asked. -/
theorem gives_applyRule_matching : Gives (applyRule rule state .matching limit) context world result after ↔
    result = [] ∧ after = world := by
  cases shape : rule.lhs with
  | app other sort args =>
    rw [shape] at head
    cases head
    rw [applyRule, shape, Matching.enumerate_of_clash clash, addMatches]
    exact gives_pure
  | _ =>
    rw [shape] at head
    cases head

/-- A rule of another head does not unify with the state, and nothing is asked. -/
theorem of_gives_applyRule_unifying (constructor : context.definition.signature.isFunction label = false)
    (rigid : state.term.var? = none) (evaluated : context.definition.signature.isCall state.term = false)
    (gives : Gives (applyRule rule state .unifying none) context world result after) :
    result = [] ∧ after.store = world.store := by
  rcases of_gives_applyRule gives with ⟨_, rfl, rfl⟩ | ⟨explore, started, gives⟩
  · exact ⟨rfl, rfl⟩
  · have renamed : ∃ sort args, (rule.renameApart world.fresh).1.lhs = .app label sort args := by
      cases shape : rule.lhs with
      | app other sort args =>
        rw [shape] at head
        cases head
        refine ⟨sort, args.map (Rule.freshRenaming rule.allVars world.fresh).1.apply, ?_⟩
        change (Rule.freshRenaming rule.allVars world.fresh).1.apply rule.lhs = _
        rw [shape, Subst.apply_app_eq]
      | _ =>
        rw [shape] at head
        cases head
    obtain ⟨sort, args, renamed⟩ := renamed
    rw [Unification.explore_eq_of_unify started] at gives
    dsimp only at gives
    rw [renamed, Unification.explore_of_clash constructor rigid evaluated clash] at gives
    split at gives
    · simp only [addUnifiers, visit, gives_bind] at gives
      obtain ⟨_, _, _, gives⟩ := gives
      exact absurd gives gives_throw
    · simp only [addUnifiers, visit, gives_bind, gives_setFresh, gives_pure] at gives
      obtain ⟨_, _, rfl, rfl, rfl⟩ := gives
      exact ⟨rfl, rfl⟩

end Unmatched

section Runs

variable {α β : Type} {action : α → Engine (List β)} {keep : α → Bool} {items : List α}
  {results : List (List β)}

/-- Actions that give nothing may be left out: the others give all there is. -/
theorem of_gives_mapM_skipping
    (skipped : ∀ item ∈ items, keep item = false → ∀ world value after,
      Gives (action item) context world value after → value = [])
    (gives : Gives (items.mapM action) context world results after) :
    ∃ kept : List (List β), results.flatten = kept.flatten ∧
      List.Forall₂ (fun item value => ∃ first second, Gives (action item) context first value second)
        (items.filter keep) kept := by
  induction items generalizing world results with
  | nil =>
    rw [List.mapM_nil] at gives
    obtain ⟨rfl, rfl⟩ := gives_pure.mp gives
    exact ⟨[], rfl, .nil⟩
  | cons item rest ih =>
    obtain ⟨here, later⟩ := List.forall_mem_cons.mp skipped
    rw [List.mapM_cons] at gives
    simp only [gives_bind] at gives
    obtain ⟨value, middle, made, values, last, others, gives⟩ := gives
    obtain ⟨rfl, rfl⟩ := gives_pure.mp gives
    obtain ⟨kept, same, each⟩ := ih later others
    cases selected : keep item with
    | true =>
      rw [List.filter_cons_of_pos selected]
      exact ⟨value :: kept, by simp [same], .cons ⟨world, middle, made⟩ each⟩
    | false =>
      rw [List.filter_cons_of_neg (by simp [selected]), here selected world value middle made]
      exact ⟨kept, by simp [same], each⟩

/-- Actions that do nothing and give nothing may be left out of a run. -/
theorem gives_mapM_skipping {found : List β}
    (skipped : ∀ item ∈ items, keep item = false → ∀ world value after,
      Gives (action item) context world value after ↔ value = [] ∧ after = world) :
    (∃ results, Gives ((items.filter keep).mapM action) context world results after ∧
        found = results.flatten) ↔
      ∃ results, Gives (items.mapM action) context world results after ∧ found = results.flatten := by
  induction items generalizing world found with
  | nil => rfl
  | cons item rest ih =>
    obtain ⟨here, later⟩ := List.forall_mem_cons.mp skipped
    have unfolded (others : List α) (found : List β) :
        (∃ results, Gives ((item :: others).mapM action) context world results after ∧
            found = results.flatten) ↔
          ∃ value middle, Gives (action item) context world value middle ∧
            ∃ more, (∃ results, Gives (others.mapM action) context middle results after ∧
              more = results.flatten) ∧ found = value ++ more := by
      rw [List.mapM_cons]
      simp only [gives_bind, gives_pure]
      constructor
      · rintro ⟨_, ⟨value, middle, made, results, _, gives, rfl, rfl⟩, rfl⟩
        exact ⟨value, middle, made, _, ⟨results, gives, rfl⟩, rfl⟩
      · rintro ⟨value, middle, made, _, ⟨results, gives, rfl⟩, rfl⟩
        exact ⟨_, ⟨value, middle, made, results, after, gives, rfl, rfl⟩, rfl⟩
    cases selected : keep item with
    | true =>
      rw [List.filter_cons_of_pos selected, unfolded, unfolded]
      simp only [ih later]
    | false =>
      rw [List.filter_cons_of_neg (by simp [selected]), unfolded, ih later]
      simp [here selected]

end Runs

section Selection

variable {d : Definition} {term : Term}

/-- Whether a step on the term considers the rule. -/
def considers (mode : Mode) (term : Term) (rule : Rule) : Bool :=
  (mode = .unifying ∧ term.var?.isSome) ∨ Definition.applicable term rule

theorem considered_eq_filter (indexed : d.Indexed) (mode : Mode) (term : Term) :
    considered d mode term = d.rules.filter (considers mode term) := by
  have labelled (closed : ¬(mode = .unifying ∧ term.var?.isSome = true)) :
      d.candidates term = d.rules.filter (considers mode term) := by
    rw [indexed.candidates_eq]
    refine List.filter_congr fun rule _ => ?_
    simp [considers, closed]
  cases mode with
  | matching => exact labelled (by simp)
  | unifying =>
    cases term with
    | var v => exact (List.filter_eq_self.mpr fun rule _ => by simp [considers, Term.var?]).symm
    | _ => exact labelled (by simp [Term.var?])

/-- A rule that is not considered has a head that the term has not. -/
theorem clash_of_not_considers (skipped : considers mode term rule = false) :
    (mode = .unifying → term.var? = none) ∧
      ∃ label, rule.lhs.label? = some label ∧ term.label? ≠ some label := by
  simp only [considers, Definition.applicable, Bool.decide_or, Bool.or_eq_false_iff,
    decide_eq_false_iff_not, Bool.decide_eq_true] at skipped
  obtain ⟨closed, headless, clash⟩ := skipped
  refine ⟨fun unifying => ?_, ?_⟩
  · simpa using fun narrowed => closed ⟨unifying, narrowed⟩
  · obtain ⟨label, head⟩ := Option.ne_none_iff_exists'.mp headless
    exact ⟨label, head, fun same => clash (head.trans same.symm)⟩

end Selection

end Engine

open Engine in
/-- Dispatch by the head of the term loses no successor, unless rules are to be unified with a function
application: a rule that a step does not consider gives nothing, so that trying every rule finds what
the rules that are considered give, one after the other. In matching the two runs are the same. -/
theorem dispatch_complete {sig : Signature} {rules considered : List Rule} {context : Context}
    {state : State} {mode : Mode} {start chosen : World}
    (defined : Definition.ofRules sig rules = .ok context.definition)
    (evaluated : mode = .unifying → sig.isCall state.term = false)
    (selected : Gives (candidates state.term mode) context start considered chosen) :
    (∀ rule ∈ context.definition.rules, rule ∉ considered → ∀ world result after,
        Gives (applyRule rule state mode none) context world result after →
          result = [] ∧ after.store = world.store) ∧
      (∀ world results after,
        Gives (context.definition.rules.mapM fun rule => applyRule rule state mode none) context world
            results after →
          ∃ kept : List (List Successor), results.flatten = kept.flatten ∧
            List.Forall₂ (fun rule result => ∃ first second,
              Gives (applyRule rule state mode none) context first result second) considered kept) ∧
      (mode = .matching → ∀ world result after,
        Gives (step state mode) context world result after ↔
          ∃ results, Gives (context.definition.rules.mapM fun rule => applyRule rule state mode none)
            context world results after ∧ result = results.flatten) := by
  obtain ⟨indexed, rfl⟩ := Definition.indexed_of_ofRules defined
  obtain ⟨rfl, rfl⟩ := gives_candidates.mp selected
  have skips (rule : Rule) (member : rule ∈ context.definition.rules)
      (skipped : considers mode state.term rule = false) (world : World) (result : List Successor)
      (after : World) (gives : Gives (applyRule rule state mode none) context world result after) :
      result = [] ∧ after.store = world.store := by
    obtain ⟨closed, label, head, clash⟩ := clash_of_not_considers skipped
    cases mode with
    | matching =>
      obtain ⟨rfl, rfl⟩ := (gives_applyRule_matching head clash).mp gives
      exact ⟨rfl, rfl⟩
    | unifying =>
      exact of_gives_applyRule_unifying head clash (indexed.semantic rule member label head)
        (closed rfl) (evaluated rfl) gives
  rw [considered_eq_filter indexed]
  refine ⟨fun rule member absent => skips rule member ?_, fun world results after gives => ?_, ?_⟩
  · simpa [List.mem_filter, member] using absent
  · exact of_gives_mapM_skipping (fun rule member skipped world result after gives =>
      (skips rule member skipped world result after gives).1) gives
  · rintro rfl world result after
    rw [gives_step, considered_eq_filter indexed]
    refine gives_mapM_skipping fun rule _ skipped _ _ _ => ?_
    obtain ⟨_, label, head, clash⟩ := clash_of_not_considers skipped
    exact gives_applyRule_matching head clash

/-- A function and two constructors of a number. -/
def headings : Signature :=
  ⟨((Signature.builtin.labels.insert "a" (.constructor "a" [.int] (.named "S"))).insert "b"
    (.constructor "b" [.int] (.named "S"))).insert "f" (.functional "f" [.int] (.named "S"))⟩

/-- The head applied to the variable. -/
def heading (head name : String) : Term :=
  .app head (.named "S") [.var ⟨name, .int⟩]

/-- A rule from `a` to `b` and one back. -/
def turns : List Rule :=
  [{ label := "there", lhs := heading "a" "X", rhs := heading "b" "X" },
    { label := "back", lhs := heading "b" "X", rhs := heading "a" "X" }]

def turning : Context where
  definition :=
    { signature := headings
      rules := turns
      index := (Assoc.empty.insert "a" [0]).insert "b" [1]
      unindexed := []
      functions := .empty }

/-- Under the constructor `a` the rule for `b` may be skipped. -/
theorem dispatch_complete_constructor :
    ∃ considered chosen, Engine.Gives (Engine.candidates (heading "a" "Y") .unifying) turning {}
        considered chosen ∧ considered.length = 1 ∧
      ∃ results after, Engine.Gives (turns.mapM fun rule =>
          Engine.applyRule rule { term := heading "a" "Y" } .unifying none) turning {} results after ∧
        results.map List.length = [1, 0] ∧
        ∃ kept : List (List Successor), results.flatten = kept.flatten ∧ kept.length = 1 := by
  let state : State := { term := heading "a" "Y" }
  obtain ⟨considered, gives, one⟩ := @Engine.gives_of_length _
    (Engine.candidates state.term .unifying) turning {} (by decide +kernel)
  have made : Definition.ofRules headings turns = .ok turning.definition := rfl
  have constructor : headings.isCall state.term = false := by decide +kernel
  have complete := dispatch_complete made (fun _ => constructor) gives
  refine ⟨considered, _, gives, one, ?_⟩
  have counts : ((turns.mapM fun rule => Engine.applyRule rule { term := heading "a" "Y" } .unifying
      none : Engine _).run turning {}).1.toOption.map (List.map List.length) = some [1, 0] := by
    decide +kernel
  cases ran : ((turns.mapM fun rule => Engine.applyRule rule { term := heading "a" "Y" } .unifying
      none : Engine _).run turning {}).1 with
  | error failure =>
    rw [ran] at counts
    cases counts
  | ok results =>
    rw [ran] at counts
    obtain ⟨after, gives⟩ := Engine.exists_gives ran
    obtain ⟨kept, same, each⟩ := complete.2.1 {} results after gives
    exact ⟨results, after, gives, Option.some.inj counts, kept, same, each.length_eq.symm.trans one⟩

/-- Under the function `f` every rule would give a successor, but none is considered. -/
theorem dispatch_complete_function :
    let state : State := { term := heading "f" "Y" }
    Definition.ofRules headings turns = .ok turning.definition ∧
      (∃ after, Engine.Gives (Engine.candidates state.term .unifying) turning {} [] after) ∧
      ∀ rule ∈ turning.definition.rules, ∃ successors after,
        Engine.Gives (Engine.applyRule rule state .unifying none) turning {} successors after ∧
          successors.length = 1 := by
  intro state
  refine ⟨rfl, Engine.exists_gives (by decide +kernel), ?_⟩
  simp only [turning, turns, List.forall_mem_cons, List.not_mem_nil, false_implies, implies_true,
    and_true]
  have applied (rule : Rule)
      (one : ((Engine.applyRule rule state .unifying none : Engine _).run turning {}).1.toOption.map
        List.length = some 1) : ∃ successors after,
        Engine.Gives (Engine.applyRule rule state .unifying none) turning {} successors after ∧
          successors.length = 1 := by
    obtain ⟨successors, gives, one⟩ := Engine.gives_of_length one
    exact ⟨successors, _, gives, one⟩
  exact ⟨applied _ (by decide +kernel), applied _ (by decide +kernel)⟩

end Reach
