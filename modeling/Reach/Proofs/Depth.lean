import Reach.Proofs.Functions

/-!
Function rules may nest to a given depth. A greater depth gives values to more terms and changes no
value, and a value is final: evaluating it again gives it back.
-/

namespace Reach

namespace Evaluation

variable {eval eval' : Eval} {rule : Rule} {rules : List Rule} {call value : Term}

/-- One evaluator gives every value that another gives. -/
def Extends (eval eval' : Eval) : Prop :=
  ∀ term value, eval term = .ok value → eval' term = .ok value

private theorem mapM_mono {ε α β : Type} {items : List α} {action action' : α → Except ε β} {values : List β}
    (each : ∀ item value, action item = .ok value → action' item = .ok value)
    (made : items.mapM action = .ok values) : items.mapM action' = .ok values := by
  induction items generalizing values with
  | nil => exact made
  | cons item rest ih =>
    rw [List.mapM_cons] at made ⊢
    obtain ⟨value, first, made⟩ := bind_eq_ok_iff.mp made
    obtain ⟨others, remaining, made⟩ := bind_eq_ok_iff.mp made
    rw [each item value first, ih remaining]
    exact made

private theorem lookups_mono (wider : Extends eval eval') {patterns : List Lookup}
    {bindings found : List Subst} (made : lookups eval patterns bindings = .ok found) :
    lookups eval' patterns bindings = .ok found := by
  induction patterns generalizing bindings with
  | nil => exact made
  | cons lookup rest ih =>
    obtain ⟨extended, first, made⟩ := bind_eq_ok_iff.mp made
    refine bind_eq_ok_iff.mpr ⟨extended, mapM_mono (fun s found looked => ?_) first, ih made⟩
    obtain ⟨value, evaluated, looked⟩ := bind_eq_ok_iff.mp looked
    exact bind_eq_ok_iff.mpr ⟨value, wider _ _ evaluated, looked⟩

private theorem tryBindings_mono (wider : Extends eval eval') {bindings : List Subst}
    {outcome : Option Term} (made : tryBindings eval rule call bindings = .ok outcome) :
    tryBindings eval' rule call bindings = .ok outcome := by
  induction bindings with
  | nil => exact made
  | cons s rest ih =>
    obtain ⟨requires, known, made⟩ := bind_eq_ok_iff.mp made
    refine bind_eq_ok_iff.mpr ⟨requires, wider _ _ known, ?_⟩
    split at made
    · next holds =>
      rw [if_pos holds]
      obtain ⟨result, evaluated, made⟩ := bind_eq_ok_iff.mp made
      exact bind_eq_ok_iff.mpr ⟨result, wider _ _ evaluated, made⟩
    · next unknown =>
      rw [if_neg unknown]
      split at made
      · next fails =>
        rw [if_pos fails]
        exact ih made
      · next undecided =>
        rw [if_neg undecided]
        exact made

private theorem tryMatches_mono (wider : Extends eval eval') {choices : Enumeration Subst}
    {outcome : Option Term} (made : tryMatches eval rule call choices = .ok outcome) :
    tryMatches eval' rule call choices = .ok outcome := by
  induction choices with
  | nil => exact made
  | cons s more ih =>
    obtain ⟨bindings, looked, made⟩ := bind_eq_ok_iff.mp made
    obtain ⟨first, tried, made⟩ := bind_eq_ok_iff.mp made
    refine bind_eq_ok_iff.mpr ⟨bindings, lookups_mono wider looked, ?_⟩
    refine bind_eq_ok_iff.mpr ⟨first, tryBindings_mono wider tried, ?_⟩
    cases first with
    | some result => exact made
    | none => exact ih () made

theorem tryRules_mono (wider : Extends eval eval') (made : tryRules eval call rules = .ok value) :
    tryRules eval' call rules = .ok value := by
  induction rules with
  | nil => exact made
  | cons rule rest ih =>
    obtain ⟨outcome, tried, made⟩ := bind_eq_ok_iff.mp made
    refine bind_eq_ok_iff.mpr ⟨outcome, tryMatches_mono wider tried, ?_⟩
    cases outcome with
    | some result => exact made
    | none => exact ih made

end Evaluation

namespace Definition

variable {d : Definition} {limit limit' depth more : Nat} {term value : Term} {label : String}

theorem extends_of_call (calls : ∀ label call value, d.call limit depth label call = .ok value →
      d.call limit' more label call = .ok value) :
    Evaluation.Extends (d.evaluateWithin limit depth) (d.evaluateWithin limit' more) := by
  intro term value made
  obtain ⟨succeeds, folded⟩ := evaluateWithin_eq_ok_iff.mp made
  obtain ⟨succeeds, same⟩ := Evaluation.Runs.transfer calls (fun _ _ known => ⟨known, rfl⟩) succeeds
  exact evaluateWithin_eq_ok_iff.mpr ⟨succeeds, same.trans folded⟩

private theorem call_succ (made : d.call limit depth label term = .ok value) :
    d.call limit (depth + 1) label term = .ok value := by
  induction depth generalizing label term value with
  | zero =>
    rw [Definition.call] at made
    split at made
    · next bare =>
      cases made
      exact call_of_functionRules_eq_nil (List.isEmpty_iff.mp bare) term
    · cases made
  | succ depth ih =>
    exact Evaluation.tryRules_mono (extends_of_call fun _ _ _ => ih) made

theorem call_mono (enough : depth ≤ more) (made : d.call limit depth label term = .ok value) :
    d.call limit more label term = .ok value := by
  induction enough with
  | refl => exact made
  | step _ ih => exact call_succ ih

/-- A greater depth changes no value. -/
theorem evaluateWithin_mono (enough : depth ≤ more)
    (made : d.evaluateWithin limit depth term = .ok value) :
    d.evaluateWithin limit more term = .ok value :=
  extends_of_call (fun _ _ _ => call_mono enough) term value made

/-- Only a failure tells what the limit was. -/
theorem call_of_limit (made : d.call limit depth label term = .ok value) (limit' : Nat) :
    d.call limit' depth label term = .ok value := by
  induction depth generalizing label term value with
  | zero =>
    rw [Definition.call] at made ⊢
    split at made
    · next bare =>
      rw [if_pos bare]
      exact made
    · cases made
  | succ depth ih =>
    exact Evaluation.tryRules_mono (extends_of_call fun _ _ _ => ih) made

private theorem evaluateWithin_of_limit (made : d.evaluateWithin limit depth term = .ok value) (limit' : Nat) :
    d.evaluateWithin limit' depth term = .ok value := by
  have calls (label : String) (call value : Term) (known : d.call limit depth label call = .ok value) :
      d.call limit' depth label call = .ok value :=
    call_of_limit known limit'
  exact extends_of_call calls term value made

/-- An application at the root is its own value. -/
def Final (d : Definition) (limit depth : Nat) : Term → Prop
  | .app label sort args =>
    Evaluation.node d.signature (d.call limit depth) label sort args = .ok (.app label sort args)
  | _ => True

theorem Final.mono (enough : depth ≤ more) (final : d.Final limit depth term) :
    d.Final limit more term := by
  cases term with
  | app label sort args => exact Evaluation.node_mono (fun _ _ _ => call_mono enough) final
  | _ => trivial

/-- What an application of final terms evaluates to is final, if what the rules give is. -/
theorem final_of_node {sort : TermSort} {args : List Term}
    (results : ∀ call, d.call limit depth label call = .ok value →
      value = call ∨ value.Everywhere (d.Final limit depth))
    (parts : ∀ arg ∈ args, arg.Everywhere (d.Final limit depth))
    (made : Evaluation.node d.signature (d.call limit depth) label sort args = .ok value) :
    value.Everywhere (d.Final limit depth) := by
  have stays (same : value = .app label sort args) : value.Everywhere (d.Final limit depth) := by
    subst same
    exact Term.Everywhere.app_iff.mpr ⟨made, parts⟩
  have decided := made
  unfold Evaluation.node at decided
  split at decided
  · next called =>
    cases decided
    exact (Signature.result_of_callHook called).everywhere parts (fun _ => trivial)
      (fun _ => trivial) (fun _ => trivial) fun _ _ _ _ _ _ => trivial
  · dsimp only at decided
    split at decided
    · exact (results _ decided).elim stays id
    · exact stays (Except.ok.inj decided).symm

section Runs

variable {values : Variable → Term} {known : Variable → Prop}

theorem final_fold (results : ∀ label call value, d.call limit depth label call = .ok value →
      value = call ∨ value.Everywhere (d.Final limit depth))
    (var : ∀ v, known v → (values v).Everywhere (d.Final limit depth))
    (runs : term.Everywhere (d.Runs limit depth values known)) :
    (term.fold (d.under limit depth values)).Everywhere (d.Final limit depth) := by
  induction term using Term.induct with
  | var v => exact var v runs.here
  | token sort value => exact Term.Everywhere.token_iff.mpr trivial
  | app label sort args ih =>
    obtain ⟨⟨value, made⟩, inner⟩ := Term.Everywhere.app_iff.mp runs
    have folded : (Term.app label sort args).fold (d.under limit depth values) = value :=
      (Term.fold_app _ _ _ _).trans (Evaluation.algebra_app made)
    rw [folded]
    refine final_of_node (fun call => results label call value) (fun image member => ?_) made
    obtain ⟨arg, inside, rfl⟩ := List.mem_map.mp member
    exact ih arg inside (inner arg inside)
  | collection kind entries frame ihEntries ihFrame =>
    obtain ⟨_, inner, last⟩ := Term.Everywhere.collection_iff.mp runs
    rw [Term.fold_collection]
    refine .normalized (fun entry member part inside => ?_) (fun rest member => ?_) fun _ _ => trivial
    · obtain ⟨source, present, piece, within, rfl⟩ := Entry.mem_parts_map member inside
      exact ihEntries source present piece within (inner source present piece within)
    · obtain ⟨source, present, rfl⟩ := Option.map_eq_some_iff.mp member
      exact ihFrame source present (last source present)

/-- What the rules make of a call is the call itself or final. -/
theorem final_of_call {call : Term} (made : d.call limit depth label call = .ok value) :
    value = call ∨ value.Everywhere (d.Final limit depth) := by
  induction depth generalizing label call value with
  | zero =>
    rw [Definition.call] at made
    split at made
    · exact .inl (Except.ok.inj made).symm
    · cases made
  | succ depth ih =>
    refine (Evaluation.of_tryRules made).imp_right fun fired => ?_
    obtain ⟨_, _, _, _, _, _, _, _, evaluated⟩ := fired
    obtain ⟨succeeds, rfl⟩ := evaluateWithin_eq_ok_iff.mp evaluated
    have final := final_fold (fun _ _ _ => ih) (fun v _ => Term.Everywhere.var_iff.mpr trivial) succeeds
    exact final.mono fun _ => Final.mono (Nat.le_succ depth)

/-- Where final values are assigned to the variables, values are final. -/
theorem final_of_runs (var : ∀ v, known v → (values v).Everywhere (d.Final limit depth))
    (runs : term.Everywhere (d.Runs limit depth values known)) :
    (term.fold (d.under limit depth values)).Everywhere (d.Final limit depth) :=
  final_fold (fun _ _ _ => final_of_call) var runs

theorem final_of_evaluateWithin (made : d.evaluateWithin limit depth term = .ok value) :
    value.Everywhere (d.Final limit depth) := by
  obtain ⟨succeeds, rfl⟩ := evaluateWithin_eq_ok_iff.mp made
  exact final_of_runs (fun v _ => Term.Everywhere.var_iff.mpr trivial) succeeds

end Runs

/-- A final application is left alone at any depth, also where it has no value. -/
theorem Final.leaves (final : d.Final limit depth term) (more : Nat) :
    (d.evaluation limit more).Leaves term := by
  cases term with
  | app label sort args =>
    cases made : Evaluation.node d.signature (d.call limit more) label sort args with
    | error failure => simp [Term.Algebra.Leaves, evaluation, Evaluation.algebra, made, Except.toOption]
    | ok value =>
      have here := Final.mono (Nat.le_max_left depth more) final
      have there := Evaluation.node_mono (fun _ _ _ => @call_mono d limit _ _ _ _ _
        (Nat.le_max_right depth more)) made
      refine (Evaluation.algebra_app made).trans ?_
      exact Except.ok.inj (there.symm.trans here)
  | _ => trivial

/-- A canonical term whose applications are all final is its own value. -/
theorem evaluateWithin_of_final (canonical : term.Canonical)
    (final : term.Everywhere (d.Final limit depth)) : d.evaluateWithin limit depth term = .ok term := by
  have fixed {part : Term} (canonical : part.Canonical)
      (final : part.Everywhere (d.Final limit depth)) : part.fold (d.evaluation limit depth) = part :=
    Term.fold_eq_self canonical rfl rfl (fun _ _ => rfl) (final.mono fun _ final => final.leaves depth)
  refine evaluateWithin_eq_ok_iff.mpr ⟨?_, fixed canonical final⟩
  induction canonical with
  | var v => exact Term.Everywhere.var_iff.mpr trivial
  | token sort value => exact Term.Everywhere.token_iff.mpr trivial
  | app label sort parts ih =>
    rename_i args
    obtain ⟨here, inner⟩ := Term.Everywhere.app_iff.mp final
    have same : args.map (Term.fold (d.evaluation limit depth)) = args :=
      (List.map_congr_left fun arg member => fixed (parts arg member) (inner arg member)).trans
        (List.map_id args)
    refine Term.Everywhere.app_iff.mpr ⟨⟨.app label sort args, ?_⟩, fun arg member =>
      ih arg member (inner arg member)⟩
    exact (congrArg _ same).trans here
  | collection parts rest arranged ihEntries ihFrame =>
    obtain ⟨_, inner, last⟩ := Term.Everywhere.collection_iff.mp final
    exact Term.Everywhere.collection_iff.mpr ⟨trivial, fun entry member part inside =>
      ihEntries entry member part inside (inner entry member part inside), fun rest member =>
      ihFrame rest member (last rest member)⟩

/-- Evaluating a value again gives it back. -/
theorem evaluateWithin_idempotent (made : d.evaluateWithin limit depth term = .ok value) :
    d.evaluateWithin limit depth value = .ok value := by
  refine evaluateWithin_of_final ?_ (final_of_evaluateWithin made)
  rw [← fold_of_evaluateWithin made]
  exact (d.normalizing_evaluation limit depth).canonical term

/-- A final term without variables stays as it is under every assignment and at every depth. -/
theorem fold_of_final (canonical : term.Canonical) (ground : term.ground = true)
    (final : term.Everywhere (d.Final limit depth)) (more : Nat) (values : Variable → Term) :
    term.fold (d.under limit more values) = term := by
  refine Term.fold_eq_self canonical rfl rfl (fun v occurs => ?_) (final.mono fun node final => ?_)
  · rw [(Term.ground_iff_vars_eq_nil term).mp ground] at occurs
    cases occurs
  · have left := final.leaves more
    cases node with
    | app label sort args => exact left
    | _ => trivial

/-- A value that is found within a limit is found within every greater one, and it is its own
value. -/
theorem evaluate_settles (enough : limit ≤ more) (made : d.evaluate limit term = .ok value) :
    d.evaluate more term = .ok value ∧ d.evaluate limit value = .ok value := by
  have deeper : d.evaluateWithin limit more term = .ok value := evaluateWithin_mono enough made
  exact ⟨evaluateWithin_of_limit deeper more, evaluateWithin_idempotent made⟩

end Definition

/-- The sum of the numbers up to a number. -/
def sumTo (number : Term) : Term :=
  .app "sum" .int [number]

def sumToZero : Rule :=
  { label := "zero", lhs := sumTo (.ofInt 0), rhs := .ofInt 0 }

/-- The sum up to a positive number adds it to the sum up to the number before. -/
def sumToNext : Rule :=
  let x : Term := .var ⟨"X", .int⟩
  { label := "next"
    lhs := sumTo x
    rhs := .app Label.intAdd .int [x, sumTo (.app Label.intSub .int [x, .ofInt 1])]
    requires := .app Label.intLt .bool [.ofInt 0, x] }

def summing : Definition :=
  { signature := ⟨Signature.builtin.labels.insert "sum" (.functional "sum" [.int] .int)⟩
    rules := []
    index := .empty
    unindexed := []
    functions := Assoc.empty.insert "sum" [sumToZero, sumToNext] }

/-- A sum up to two nests three rules. A sum up to an unknown number is blocked by the condition, and
the map is sorted anew by the values of its keys. -/
theorem evaluate_settles_sums :
    let unknown := sumTo (.var ⟨"N", .int⟩)
    let sums : Term := .collection .map
      [.binding (sumTo (.ofInt 1)) unknown, .binding (.ofInt 0) (sumTo (.ofInt 2))] none
    let values : Term := .collection .map
      [.binding (.ofInt 0) (.ofInt 3), .binding (.ofInt 1) unknown] none
    Definition.ofRules summing.signature [sumToZero, sumToNext] = .ok summing ∧
      summing.evaluate 3 sums = .ok values ∧ summing.evaluate 2 sums ≠ .ok values ∧
      summing.evaluate 256 sums = .ok values ∧ summing.evaluate 3 values = .ok values := by
  intro unknown sums values
  have made : summing.evaluate 3 sums = .ok values := by
    decide +kernel
  refine ⟨rfl, made, ?_, Definition.evaluate_settles (by decide) made⟩
  decide +kernel

end Reach
