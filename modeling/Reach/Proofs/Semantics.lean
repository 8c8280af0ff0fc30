import Reach.Evaluation
import Reach.Proofs.Evaluation
import Reach.Proofs.WellSorted

/-!
Definitions all of whose rules are semantic rules. Every rule can be found through the head of its
left-hand side, and the evaluation of a term is the evaluation of its builtins.
-/

namespace Reach

namespace Definition

variable {sig : Signature} {rules : List Rule} {d : Definition} {rule : Rule} {term : Term}

/-- Each rule is filed under the head of its left-hand side. -/
def Filed (d : Definition) : Prop :=
  ∀ (position : Nat) (rule : Rule), d.rules[position]? = some rule →
    match rule.lhs.label? with
    | some label => position ∈ (d.index.get? label).getD []
    | none => position ∈ d.unindexed

/-- A definition without function rules, made of these rules. -/
structure Collects (d : Definition) (sig : Signature) (rules : List Rule) : Prop where
  signature : d.signature = sig
  rules : d.rules = rules
  functions : d.functions = .empty
  filed : d.Filed

theorem collects_empty (sig : Signature) : (empty sig).Collects sig [] :=
  ⟨rfl, rfl, rfl, nofun⟩

theorem Collects.add (collects : d.Collects sig rules)
    (semantic : ∀ label, rule.lhs.label? = some label → sig.isFunction label = false) :
    (d.add rule).Collects sig (rules ++ [rule]) := by
  obtain ⟨rfl, listed, functions, filed⟩ := collects
  have position {index : Nat} {other : Rule} (found : (d.rules ++ [rule])[index]? = some other) :
      d.rules[index]? = some other ∨ index = d.rules.length ∧ other = rule := by
    rcases Nat.lt_trichotomy index d.rules.length with below | rfl | above
    · exact .inl (by rwa [List.getElem?_append_left below] at found)
    · exact .inr ⟨rfl, by simpa using found.symm⟩
    · rw [List.getElem?_append_right (Nat.le_of_lt above), List.getElem?_singleton, if_neg (by omega)]
        at found
      cases found
  unfold Definition.add
  cases head : rule.lhs.label? with
  | some label =>
    simp only [semantic label head, Bool.false_eq_true, ↓reduceIte]
    refine ⟨rfl, congrArg (· ++ [rule]) listed, functions, fun index other found => ?_⟩
    dsimp only at found ⊢
    rcases position found with earlier | ⟨rfl, rfl⟩
    · have kept := filed index other earlier
      split at kept
      · rw [Assoc.get?_insert]
        split
        · next same =>
          subst same
          exact List.mem_append_left _ kept
        · exact kept
      · exact kept
    · rw [head]
      simp [Assoc.get?_insert]
  | none =>
    refine ⟨rfl, congrArg (· ++ [rule]) listed, functions, fun index other found => ?_⟩
    dsimp only at found ⊢
    rcases position found with earlier | ⟨rfl, rfl⟩
    · have kept := filed index other earlier
      split at kept
      · exact kept
      · exact List.mem_append_left _ kept
    · rw [head]
      simp

private theorem holds_of_foldlM {holds : Definition → List Rule → Prop} {before : List Rule}
    {final : Definition} (here : holds d before)
    (add : ∀ d before, ∀ rule ∈ rules, holds d before → holds (d.add rule) (before ++ [rule]))
    (made : rules.foldlM (fun d rule => do
      rule.check sig
      return d.add rule) d = .ok final) :
    holds final (before ++ rules) ∧ ∀ rule ∈ rules, rule.check sig = .ok () := by
  induction rules generalizing d before with
  | nil =>
    cases made
    exact ⟨by rwa [List.append_nil], nofun⟩
  | cons rule rest ih =>
    rw [List.foldlM_cons] at made
    obtain ⟨next, added, made⟩ := bind_eq_ok_iff.mp made
    obtain ⟨checked, added⟩ := seq_eq_ok_iff.mp added
    cases added
    obtain ⟨whole, passed⟩ := ih (add d before rule List.mem_cons_self here)
      (fun d before later member => add d before later (List.mem_cons_of_mem _ member)) made
    rw [List.append_assoc] at whole
    exact ⟨whole, List.forall_mem_cons.mpr ⟨checked, passed⟩⟩

/-- What holds of the empty definition and is kept when a rule is added holds of every definition. -/
theorem holds_of_ofRules (holds : Definition → List Rule → Prop) (start : holds (empty sig) [])
    (add : ∀ d before, ∀ rule ∈ rules, holds d before → holds (d.add rule) (before ++ [rule]))
    (made : ofRules sig rules = .ok d) :
    holds d rules ∧ ∀ rule ∈ rules, rule.check sig = .ok () :=
  holds_of_foldlM start add made

/-- Rules with no function at the head make a definition without function rules. -/
theorem collects_of_ofRules
    (semantic : ∀ rule ∈ rules, ∀ label, rule.lhs.label? = some label → sig.isFunction label = false)
    (made : ofRules sig rules = .ok d) :
    d.Collects sig rules ∧ ∀ rule ∈ rules, rule.check sig = .ok () := by
  refine holds_of_ofRules (fun d before => d.Collects sig before) (collects_empty sig)
    (fun d before rule member collects => ?_) made
  exact collects.add (semantic rule member)

/-- A rule is found for every term that has its head, or if it has none. -/
theorem Filed.mem_candidates (filed : d.Filed) (member : rule ∈ d.rules)
    (head : rule.lhs.label? = none ∨ rule.lhs.label? = term.label?) : rule ∈ d.candidates term := by
  obtain ⟨position, found⟩ := List.mem_iff_getElem?.mp member
  have kept := filed position rule found
  refine List.mem_filterMap.mpr ⟨position, Ordered.mem_sort.mpr (List.mem_append.mpr ?_), found⟩
  split at kept
  · next label named =>
    rcases head with none | same
    · cases named.symm.trans none
    · left
      rw [← same, named]
      exact kept
  · exact .inr kept

section Evaluation

theorem mapM_eq_ok {ε α β : Type} {items : List α} {action : α → Except ε β} {result : α → β}
    (each : ∀ item ∈ items, action item = .ok (result item)) :
    items.mapM action = .ok (items.map result) := by
  induction items with
  | nil => rfl
  | cons item rest ih =>
    obtain ⟨here, later⟩ := List.forall_mem_cons.mp each
    rw [List.mapM_cons, here, ih later]
    rfl

theorem forall_of_mapM_eq_ok {ε α β : Type} {holds : β → Prop} {items : List α}
    {action : α → Except ε β} {values : List β}
    (each : ∀ item ∈ items, ∀ value, action item = .ok value → holds value)
    (made : items.mapM action = .ok values) : ∀ value ∈ values, holds value := by
  induction items generalizing values with
  | nil =>
    cases made
    exact nofun
  | cons item rest ih =>
    obtain ⟨here, later⟩ := List.forall_mem_cons.mp each
    rw [List.mapM_cons] at made
    obtain ⟨value, first, made⟩ := bind_eq_ok_iff.mp made
    obtain ⟨others, remaining, made⟩ := bind_eq_ok_iff.mp made
    cases made
    exact List.forall_mem_cons.mpr ⟨here value first, ih later remaining⟩

/-- Rebuilding a term with steps that do not fail is a fold. -/
theorem traverse_eq_fold {ε : Type} {r : Term.Rebuilder ε} {algebra : Term.Algebra Term}
    (var : algebra.var = .var) (token : algebra.token = .token)
    (app : ∀ label sort args, r.app label sort args = .ok (algebra.app label sort args))
    (collection : ∀ kind entries frame,
      r.collection kind entries frame = .ok (algebra.collection kind entries frame)) (term : Term) :
    Term.traverse r term = .ok (term.fold algebra) := by
  induction term using Term.induct with
  | var v =>
    rw [Term.fold_var, var]
    rfl
  | token sort value =>
    rw [Term.fold_token, token]
    rfl
  | app label sort args ih =>
    rw [Term.traverse_app, mapM_eq_ok ih, Term.fold_app]
    exact app label sort _
  | collection kind entries frame ihEntries ihFrame =>
    have each : ∀ entry ∈ entries,
        Term.traverseEntry r entry = .ok (entry.map (Term.fold algebra)) := by
      intro entry member
      cases entry with
      | element item =>
        rw [Term.traverseEntry, ihEntries _ member item (by simp [Entry.parts])]
        rfl
      | binding key value =>
        rw [Term.traverseEntry, ihEntries _ member key (by simp [Entry.parts]),
          ihEntries _ member value (by simp [Entry.parts])]
        rfl
    rw [Term.traverse_collection, mapM_eq_ok each, Term.fold_collection]
    cases frame with
    | none => exact collection kind _ _
    | some rest =>
      have last := ihFrame rest rfl
      rw [Option.mapM_some, last]
      exact collection kind _ _

/-- Where the applications that no hook determines are left alone, only builtins are evaluated. -/
theorem reduce_eq {onCall : String → Term → Except Failure Term}
    (leaves : ∀ label call, onCall label call = .ok call) (term : Term) :
    Evaluation.reduce sig onCall term = .ok (sig.evalBuiltins term) := by
  refine traverse_eq_fold rfl rfl (fun label sort args => ?_) (fun _ _ _ => rfl) term
  dsimp only [Signature.builtinAlgebra]
  cases sig.callHook label args with
  | some value => rfl
  | none =>
    dsimp only
    split
    · exact leaves label _
    · rfl

/-- Without function rules the evaluation of a term is the evaluation of its builtins. -/
theorem Collects.evaluate (collects : d.Collects sig rules) (limit : Nat) (term : Term) :
    d.evaluate limit term = .ok (sig.evalBuiltins term) := by
  have none (label : String) : d.functionRules label = [] := by
    rw [functionRules, collects.functions]
    rfl
  unfold Definition.evaluate
  cases limit with
  | zero =>
    rw [evaluateWithin, collects.signature]
    exact reduce_eq (fun label call => by simp [none label]) term
  | succ depth =>
    rw [evaluateWithin, collects.signature]
    exact reduce_eq (fun label call => by rw [none label]; rfl) term

end Evaluation

end Definition

end Reach
