import Reach.Proofs.Semantics

/-!
Evaluation by function rules as a fold. The fold leaves an application alone where evaluation fails,
so it has a value for every term, and where evaluation succeeds it is that value. The rules of a function
are those of the list with its label at their head, in the order of the list.
-/

namespace Reach

section Traversal

variable {α β ε : Type}

theorem mapM_eq_ok_iff {items : List α} {action : α → Except ε β} {succeeds : α → Prop}
    {result : α → β} {values : List β} (each : ∀ item ∈ items, ∀ value,
      action item = .ok value ↔ succeeds item ∧ result item = value) :
    items.mapM action = .ok values ↔ (∀ item ∈ items, succeeds item) ∧ items.map result = values := by
  constructor
  · intro made
    induction items generalizing values with
    | nil =>
      cases made
      exact ⟨nofun, rfl⟩
    | cons item rest ih =>
      obtain ⟨here, later⟩ := List.forall_mem_cons.mp each
      rw [List.mapM_cons] at made
      obtain ⟨value, first, made⟩ := bind_eq_ok_iff.mp made
      obtain ⟨others, remaining, made⟩ := bind_eq_ok_iff.mp made
      cases made
      obtain ⟨good, rfl⟩ := (here value).mp first
      obtain ⟨all, rfl⟩ := ih later remaining
      exact ⟨List.forall_mem_cons.mpr ⟨good, all⟩, rfl⟩
  · intro ⟨good, same⟩
    rw [← same]
    exact Definition.mapM_eq_ok fun item member => (each item member _).mpr ⟨good item member, rfl⟩

private theorem mapM_frame_eq_ok_iff {frame : Option α} {action : α → Except ε β} {succeeds : α → Prop}
    {result : α → β} {image : Option β} (each : ∀ item ∈ frame, ∀ value,
      action item = .ok value ↔ succeeds item ∧ result item = value) :
    frame.mapM action = .ok image ↔ (∀ item ∈ frame, succeeds item) ∧ frame.map result = image := by
  cases frame with
  | none => exact ⟨fun made => ⟨nofun, Except.ok.inj made⟩, fun made => congrArg Except.ok made.2⟩
  | some item =>
    have here := each item rfl
    rw [Option.mapM_some]
    constructor
    · intro made
      obtain ⟨value, first, made⟩ := bind_eq_ok_iff.mp made
      cases made
      obtain ⟨good, rfl⟩ := (here value).mp first
      exact ⟨fun other same => by cases same; exact good, rfl⟩
    · intro ⟨good, same⟩
      rw [(here _).mpr ⟨good item rfl, rfl⟩, ← same]
      rfl

private theorem traverseEntry_eq_ok_iff {r : Term.Rebuilder ε} {succeeds : Term → Prop}
    {result : Term → Term} {entry image : Entry Term} (each : ∀ part ∈ entry.parts, ∀ value,
      Term.traverse r part = .ok value ↔ succeeds part ∧ result part = value) :
    Term.traverseEntry r entry = .ok image ↔
      (∀ part ∈ entry.parts, succeeds part) ∧ entry.map result = image := by
  cases entry with
  | element item =>
    have here := each item (by simp [Entry.parts])
    rw [Term.traverseEntry, Entry.parts, List.forall_mem_singleton]
    constructor
    · intro made
      obtain ⟨value, first, made⟩ := bind_eq_ok_iff.mp made
      cases made
      obtain ⟨good, rfl⟩ := (here value).mp first
      exact ⟨good, rfl⟩
    · rintro ⟨good, rfl⟩
      rw [(here _).mpr ⟨good, rfl⟩]
      rfl
  | binding key item =>
    have first := each key (by simp [Entry.parts])
    have second := each item (by simp [Entry.parts])
    rw [Term.traverseEntry, Entry.parts, List.forall_mem_cons, List.forall_mem_singleton]
    constructor
    · intro made
      obtain ⟨left, madeKey, made⟩ := bind_eq_ok_iff.mp made
      obtain ⟨right, madeItem, made⟩ := bind_eq_ok_iff.mp made
      cases made
      obtain ⟨goodKey, rfl⟩ := (first left).mp madeKey
      obtain ⟨goodItem, rfl⟩ := (second right).mp madeItem
      exact ⟨⟨goodKey, goodItem⟩, rfl⟩
    · rintro ⟨⟨goodKey, goodItem⟩, rfl⟩
      rw [(first _).mpr ⟨goodKey, rfl⟩, (second _).mpr ⟨goodItem, rfl⟩]
      rfl

end Traversal

namespace Evaluation

variable {sig : Signature} {onCall onCall' : String → Term → Except Failure Term} {eval : Eval}
  {rule : Rule} {rules : List Rule} {call value term : Term}

/-- What becomes of an application whose arguments are evaluated. -/
def node (sig : Signature) (onCall : String → Term → Except Failure Term) (label : String)
    (sort : TermSort) (args : List Term) : Except Failure Term :=
  match sig.callHook label args with
  | some value => .ok value
  | none =>
    let call := Term.app label sort args
    if sig.isFunction label then onCall label call else .ok call

/-- Evaluation as a traversal. -/
def rebuilder (sig : Signature) (onCall : String → Term → Except Failure Term) :
    Term.Rebuilder Failure where
  app := node sig onCall
  collection kind entries frame := .ok (.normalized kind entries frame)

private theorem reduce_eq_traverse (sig : Signature) (onCall : String → Term → Except Failure Term) :
    reduce sig onCall = Term.traverse (rebuilder sig onCall) :=
  rfl

/-- Evaluation that leaves an application alone where it fails. -/
def algebra (sig : Signature) (onCall : String → Term → Except Failure Term) :
    Term.Algebra Term where
  var := .var
  app label sort args := (node sig onCall label sort args).toOption.getD (.app label sort args)
  token := .token
  collection := .normalized

/-- Evaluation under an assignment of values to the variables. -/
def under (sig : Signature) (onCall : String → Term → Except Failure Term)
    (values : Variable → Term) : Term.Algebra Term :=
  { algebra sig onCall with var := values }

/-- Under the assignment, nothing fails at this node; it is said of a variable that it is known. -/
def Runs (sig : Signature) (onCall : String → Term → Except Failure Term)
    (values : Variable → Term) (known : Variable → Prop) : Term → Prop
  | .var v => known v
  | .app label sort args =>
    ∃ value, node sig onCall label sort (args.map (Term.fold (under sig onCall values))) = .ok value
  | _ => True

/-- Nothing fails at this node, whatever the variables are. -/
abbrev Succeeds (sig : Signature) (onCall : String → Term → Except Failure Term) : Term → Prop :=
  Runs sig onCall .var fun _ => True

theorem algebra_app {label : String} {sort : TermSort} {args : List Term}
    (made : node sig onCall label sort args = .ok value) :
    (algebra sig onCall).app label sort args = value := by
  simp [algebra, made, Except.toOption]

/-- Evaluation gives a value exactly if nothing fails, and the value is that of the fold. -/
theorem reduce_eq_ok_iff : reduce sig onCall term = .ok value ↔
    term.Everywhere (Succeeds sig onCall) ∧ term.fold (algebra sig onCall) = value := by
  rw [reduce_eq_traverse]
  induction term using Term.induct generalizing value with
  | var v =>
    rw [Term.Everywhere.var_iff]
    exact ⟨fun made => ⟨trivial, Except.ok.inj made⟩, fun made => congrArg Except.ok made.2⟩
  | token sort text =>
    rw [Term.Everywhere.token_iff]
    exact ⟨fun made => ⟨trivial, Except.ok.inj made⟩, fun made => congrArg Except.ok made.2⟩
  | app label sort args ih =>
    rw [Term.traverse_app, bind_eq_ok_iff, Term.Everywhere.app_iff, Term.fold_app]
    constructor
    · intro ⟨values, parts, made⟩
      obtain ⟨good, rfl⟩ := (mapM_eq_ok_iff fun arg member _ => ih arg member).mp parts
      exact ⟨⟨⟨value, made⟩, good⟩, algebra_app made⟩
    · intro ⟨⟨⟨result, made⟩, good⟩, same⟩
      refine ⟨_, (mapM_eq_ok_iff fun arg member _ => ih arg member).mpr ⟨good, rfl⟩, ?_⟩
      exact made.trans (congrArg Except.ok ((algebra_app made).symm.trans same))
  | collection kind entries frame ihEntries ihFrame =>
    have each : ∀ entry ∈ entries, ∀ image,
        Term.traverseEntry (rebuilder sig onCall) entry = .ok image ↔
          (∀ part ∈ entry.parts, part.Everywhere (Succeeds sig onCall)) ∧
            entry.map (Term.fold (algebra sig onCall)) = image :=
      fun entry member _ => traverseEntry_eq_ok_iff fun part inside _ =>
        ihEntries entry member part inside
    have last (rest : Option Term) : frame.mapM (Term.traverse (rebuilder sig onCall)) = .ok rest ↔
        (∀ inner ∈ frame, inner.Everywhere (Succeeds sig onCall)) ∧
          frame.map (Term.fold (algebra sig onCall)) = rest :=
      mapM_frame_eq_ok_iff fun inner member _ => ihFrame inner member
    rw [Term.traverse_collection, Term.Everywhere.collection_iff, Term.fold_collection]
    simp only [bind_eq_ok_iff, mapM_eq_ok_iff each, last]
    constructor
    · intro ⟨_, ⟨good, rfl⟩, _, ⟨goodLast, rfl⟩, made⟩
      exact ⟨⟨trivial, good, goodLast⟩, Except.ok.inj made⟩
    · intro ⟨⟨_, good, goodLast⟩, same⟩
      exact ⟨_, ⟨good, rfl⟩, _, ⟨goodLast, rfl⟩, congrArg Except.ok same⟩

section Assignment

variable {values values' : Variable → Term} {known known' : Variable → Prop}

theorem node_mono (more : ∀ label call value, onCall label call = .ok value →
    onCall' label call = .ok value) {label : String} {sort : TermSort} {args : List Term}
    (made : node sig onCall label sort args = .ok value) :
    node sig onCall' label sort args = .ok value := by
  unfold node at made ⊢
  split
  · next called =>
    rw [called] at made
    exact made
  · next called =>
    rw [called] at made
    dsimp only at made ⊢
    split
    · next function =>
      rw [if_pos function] at made
      exact more label _ value made
    · next free =>
      rw [if_neg free] at made
      exact made

/-- What runs still runs to the same value where more calls have values and the variables that are
known have theirs. -/
theorem Runs.transfer (more : ∀ label call value, onCall label call = .ok value →
      onCall' label call = .ok value)
    (same : ∀ v ∈ term.vars, known v → known' v ∧ values' v = values v)
    (runs : term.Everywhere (Runs sig onCall values known)) :
    term.Everywhere (Runs sig onCall' values' known') ∧
      term.fold (under sig onCall' values') = term.fold (under sig onCall values) := by
  induction term using Term.induct with
  | var v =>
    obtain ⟨known, agree⟩ := same v (by simp) runs.here
    exact ⟨Term.Everywhere.var_iff.mpr known, agree⟩
  | token sort value => exact ⟨Term.Everywhere.token_iff.mpr trivial, rfl⟩
  | app label sort args ih =>
    obtain ⟨⟨value, made⟩, inner⟩ := Term.Everywhere.app_iff.mp runs
    have parts (arg : Term) (member : arg ∈ args) := ih arg member (fun v occurs =>
      same v (Term.mem_vars_app.mpr ⟨arg, member, occurs⟩)) (inner arg member)
    have images := List.map_congr_left fun arg member => (parts arg member).2
    have after := node_mono more made
    refine ⟨Term.Everywhere.app_iff.mpr ⟨⟨value, ?_⟩, fun arg member => (parts arg member).1⟩, ?_⟩
    · rw [images]
      exact after
    · rw [Term.fold_app, Term.fold_app, images]
      exact (algebra_app after).trans (algebra_app made).symm
  | collection kind entries frame ihEntries ihFrame =>
    obtain ⟨_, inner, last⟩ := Term.Everywhere.collection_iff.mp runs
    have parts (entry : Entry Term) (member : entry ∈ entries) (part : Term)
        (inside : part ∈ entry.parts) := ihEntries entry member part inside (fun v occurs =>
      same v (Term.mem_vars_collection.mpr (.inl ⟨entry, member, part, inside, occurs⟩)))
        (inner entry member part inside)
    have rests (rest : Term) (member : rest ∈ frame) := ihFrame rest member (fun v occurs =>
      same v (Term.mem_vars_collection.mpr (.inr ⟨rest, member, occurs⟩))) (last rest member)
    refine ⟨Term.Everywhere.collection_iff.mpr ⟨trivial, fun entry member part inside =>
      (parts entry member part inside).1, fun rest member => (rests rest member).1⟩, ?_⟩
    rw [Term.fold_collection, Term.fold_collection]
    show Term.normalized _ _ _ = Term.normalized _ _ _
    congr 1
    · exact List.map_congr_left fun entry member => Entry.map_congr fun part inside =>
        (parts entry member part inside).2
    · exact Option.map_congr fun rest member => (rests rest member).2

/-- An instance runs if the term runs under what the images run to. -/
theorem runs_apply_iff (normalizing : (under sig onCall values).Normalizing) (s : Subst) :
    (s.apply term).Everywhere (Runs sig onCall values known) ↔
      term.Everywhere (Runs sig onCall (fun v => (s.image v).fold (under sig onCall values))
        fun v => (s.image v).Everywhere (Runs sig onCall values known)) := by
  by_cases empty : s.isEmpty = true
  · simp only [Subst.image_of_isEmpty empty, Term.Everywhere.var_iff]
    rw [Subst.apply, if_pos empty]
    rfl
  have apply : s.apply = Term.fold s.algebra := funext (Subst.apply_eq_fold (by simpa using empty))
  have folds := normalizing.fold_apply s
  rw [apply] at folds ⊢
  induction term using Term.induct with
  | var v =>
    rw [Term.Everywhere.var_iff]
    rfl
  | token sort value =>
    exact iff_of_true (Term.Everywhere.token_iff.mpr trivial) (Term.Everywhere.token_iff.mpr trivial)
  | app label sort args ih =>
    have images : (args.map (Term.fold s.algebra)).map (Term.fold (under sig onCall values)) =
        args.map (Term.fold ((under sig onCall values).after s)) := by
      rw [List.map_map]
      exact List.map_congr_left fun arg _ => folds arg
    rw [Term.fold_app, Term.Everywhere.app_iff]
    refine Iff.trans Term.Everywhere.app_iff (and_congr ?_ ?_)
    · rw [Runs, images]
      rfl
    · rw [List.forall_mem_map]
      exact forall_congr' fun arg => imp_congr_right fun member => ih arg member
  | collection kind entries frame ihEntries ihFrame =>
    rw [Term.fold_collection, Term.Everywhere.collection_iff]
    refine (Term.Everywhere.normalized_iff fun _ _ _ => trivial).trans ?_
    rw [List.forall_mem_map]
    simp only [Entry.parts_map, List.forall_mem_map, Option.mem_map, forall_exists_index, and_imp,
      forall_apply_eq_imp_iff₂]
    refine Iff.trans (and_congr ?_ ?_) (and_iff_right trivial).symm
    · exact forall_congr' fun entry => imp_congr_right fun member => forall_congr' fun part =>
        imp_congr_right fun inside => ihEntries entry member part inside
    · exact forall_congr' fun rest => imp_congr_right fun member => ihFrame rest member

end Assignment

/-- What decides a call is a rule's right-hand side, or the call itself. -/
theorem of_tryBindings {bindings : List Subst}
    (made : tryBindings eval rule call bindings = .ok (some value)) :
    value = call ∨ ∃ s ∈ bindings, eval (s.apply rule.rhs) = .ok value := by
  induction bindings with
  | nil => cases made
  | cons s rest ih =>
    obtain ⟨requires, _, made⟩ := bind_eq_ok_iff.mp made
    split at made
    · obtain ⟨result, evaluated, made⟩ := bind_eq_ok_iff.mp made
      cases made
      exact .inr ⟨s, List.mem_cons_self, evaluated⟩
    · split at made
      · refine (ih made).imp_right fun ⟨other, member, evaluated⟩ => ?_
        exact ⟨other, List.mem_cons_of_mem _ member, evaluated⟩
      · cases made
        exact .inl rfl

private theorem of_tryMatches {choices : Enumeration Subst}
    (made : tryMatches eval rule call choices = .ok (some value)) :
    value = call ∨ ∃ s ∈ choices.toList, ∃ bindings, lookups eval rule.lookups [s] = .ok bindings ∧
      ∃ binding ∈ bindings, eval (binding.apply rule.rhs) = .ok value := by
  induction choices with
  | nil => cases made
  | cons s more ih =>
    obtain ⟨bindings, looked, made⟩ := bind_eq_ok_iff.mp made
    obtain ⟨outcome, tried, made⟩ := bind_eq_ok_iff.mp made
    cases outcome with
    | some result =>
      cases made
      refine (of_tryBindings tried).imp_right fun applied => ?_
      exact ⟨s, List.mem_cons_self, bindings, looked, applied⟩
    | none =>
      refine (ih () made).imp_right fun ⟨other, member, applied⟩ => ?_
      exact ⟨other, List.mem_cons_of_mem _ member, applied⟩

theorem of_tryRules (made : tryRules eval call rules = .ok value) :
    value = call ∨ ∃ rule ∈ rules, ∃ s ∈ (Matching.enumerate rule.lhs call).toList,
      ∃ bindings, lookups eval rule.lookups [s] = .ok bindings ∧
        ∃ binding ∈ bindings, eval (binding.apply rule.rhs) = .ok value := by
  induction rules with
  | nil =>
    cases made
    exact .inl rfl
  | cons rule rest ih =>
    obtain ⟨outcome, tried, made⟩ := bind_eq_ok_iff.mp made
    cases outcome with
    | some result =>
      cases made
      exact (of_tryMatches tried).imp_right fun applied => ⟨rule, List.mem_cons_self, applied⟩
    | none =>
      refine (ih made).imp_right fun ⟨other, member, applied⟩ => ?_
      exact ⟨other, List.mem_cons_of_mem _ member, applied⟩

theorem normalizing_algebra (canonical : ∀ label call value, call.Canonical →
    onCall label call = .ok value → value.Canonical) : (algebra sig onCall).Normalizing where
  var := .var
  app label sort args parts := by
    have whole := Term.Canonical.app label sort parts
    cases made : node sig onCall label sort args with
    | error failure => simpa [algebra, made, Except.toOption] using whole
    | ok value =>
      rw [algebra_app made]
      unfold node at made
      split at made
      · next called =>
        cases made
        exact (Signature.result_of_callHook called).canonical parts
      · dsimp only at made
        split at made
        · exact canonical label _ value whole made
        · cases made
          exact whole
  token := .token
  collection := rfl

end Evaluation

namespace Definition

variable {d : Definition} {limit depth : Nat} {term value : Term}

section Rules

variable {sig : Signature} {rules : List Rule} {rule : Rule}

theorem signature_add (d : Definition) (rule : Rule) : (d.add rule).signature = d.signature := by
  unfold Definition.add
  split
  · split <;> rfl
  · rfl

/-- A rule is added to the semantic rules unless a function is at its head. -/
theorem rules_add (d : Definition) (rule : Rule) :
    (d.add rule).rules = d.rules ++ [rule].filter fun rule => !d.signature.isCall rule.lhs := by
  unfold Definition.add
  cases head : rule.lhs.label? with
  | some label =>
    dsimp only
    split
    · next function => simp [Signature.isCall, head, function]
    · next constructor => simp [Signature.isCall, head, constructor]
  | none => simp [Signature.isCall, head]

/-- The rules of a function, by a scan of the list; a label that is no function has none. -/
def scanFunction (sig : Signature) (rules : List Rule) (label : String) : List Rule :=
  if sig.isFunction label then rules.filter fun rule => rule.lhs.label? = some label else []

private theorem scanFunction_append (first second : List Rule) (label : String) :
    scanFunction sig (first ++ second) label =
      scanFunction sig first label ++ scanFunction sig second label := by
  unfold scanFunction
  split
  · exact List.filter_append first second
  · rfl

/-- A rule is added to the rules of the function at its head, and to no others. -/
theorem functionRules_add (d : Definition) (rule : Rule) (label : String) :
    (d.add rule).functionRules label =
      d.functionRules label ++ scanFunction d.signature [rule] label := by
  have elsewhere (away : d.signature.isFunction label = true → rule.lhs.label? ≠ some label) :
      d.functionRules label = d.functionRules label ++ scanFunction d.signature [rule] label := by
    unfold scanFunction
    split
    · next function => simp [away function]
    · simp
  unfold Definition.add
  cases head : rule.lhs.label? with
  | some other =>
    dsimp only
    split
    · next function =>
      dsimp only [functionRules]
      rw [Assoc.get?_insert]
      by_cases same : label = other
      · simp [same, scanFunction, function, head]
      · rw [if_neg same]
        exact elsewhere fun _ => by simp [head, Ne.symm same]
    · next constructor =>
      refine elsewhere fun function => ?_
      rw [head]
      rintro ⟨⟩
      exact constructor function
  | none => exact elsewhere fun _ => by simp [head]

/-- The semantic rules are kept apart from those of each function, both in the order of the list. -/
structure Parted (d : Definition) (sig : Signature) (rules : List Rule) : Prop where
  signature : d.signature = sig
  semantic : d.rules = rules.filter fun rule => !sig.isCall rule.lhs
  functions : ∀ label, d.functionRules label = scanFunction sig rules label

private theorem parted_empty (sig : Signature) : (empty sig).Parted sig [] :=
  ⟨rfl, rfl, fun _ => (ite_self []).symm⟩

theorem Parted.add (parted : d.Parted sig rules) (rule : Rule) :
    (d.add rule).Parted sig (rules ++ [rule]) := by
  obtain ⟨rfl, semantic, functions⟩ := parted
  refine ⟨signature_add d rule, ?_, fun label => ?_⟩
  · rw [rules_add, semantic, List.filter_append]
  · rw [functionRules_add, functions, scanFunction_append]

theorem parted_of_ofRules (made : ofRules sig rules = .ok d) :
    d.Parted sig rules ∧ ∀ rule ∈ rules, rule.check sig = .ok () :=
  holds_of_ofRules (fun d before => d.Parted sig before) (parted_empty sig)
    (fun _ _ rule _ parted => parted.add rule) made

/-- A function has rules of the list that have its label at their head. -/
theorem Parted.mem_functionRules (parted : d.Parted sig rules) {label : String} {rule : Rule}
    (member : rule ∈ d.functionRules label) :
    rule ∈ rules ∧ rule.lhs.label? = some label ∧ sig.isFunction label = true := by
  rw [parted.functions, scanFunction] at member
  split at member
  · next function =>
    obtain ⟨listed, head⟩ := List.mem_filter.mp member
    exact ⟨listed, of_decide_eq_true head, function⟩
  · cases member

end Rules

/-- What the rules of a function make of a call, with `depth` more levels to nest. -/
def call (d : Definition) (limit : Nat) : Nat → String → Term → Except Failure Term
  | 0, label, call =>
    if (d.functionRules label).isEmpty then .ok call else .error (.depthExceeded label limit)
  | depth + 1, label, call =>
    Evaluation.tryRules (d.evaluateWithin limit depth) call (d.functionRules label)

private theorem evaluateWithin_eq (d : Definition) (limit depth : Nat) :
    d.evaluateWithin limit depth = Evaluation.reduce d.signature (d.call limit depth) := by
  cases depth <;> rfl

/-- Evaluation as a fold. -/
def evaluation (d : Definition) (limit depth : Nat) : Term.Algebra Term :=
  Evaluation.algebra d.signature (d.call limit depth)

/-- Evaluation under an assignment of values to the variables. -/
abbrev under (d : Definition) (limit depth : Nat) (values : Variable → Term) : Term.Algebra Term :=
  Evaluation.under d.signature (d.call limit depth) values

/-- Under the assignment nothing fails at this node. -/
abbrev Runs (d : Definition) (limit depth : Nat) (values : Variable → Term)
    (known : Variable → Prop) : Term → Prop :=
  Evaluation.Runs d.signature (d.call limit depth) values known

/-- Nothing fails at this node, whatever the variables are. -/
abbrev Succeeds (d : Definition) (limit depth : Nat) : Term → Prop :=
  Evaluation.Succeeds d.signature (d.call limit depth)

theorem evaluateWithin_eq_ok_iff : d.evaluateWithin limit depth term = .ok value ↔
    term.Everywhere (d.Succeeds limit depth) ∧ term.fold (d.evaluation limit depth) = value := by
  rw [evaluateWithin_eq]
  exact Evaluation.reduce_eq_ok_iff

theorem fold_of_evaluateWithin (made : d.evaluateWithin limit depth term = .ok value) :
    term.fold (d.evaluation limit depth) = value :=
  (evaluateWithin_eq_ok_iff.mp made).2

theorem call_of_functionRules_eq_nil {label : String} (none : d.functionRules label = [])
    (term : Term) : d.call limit depth label term = .ok term := by
  cases depth <;> simp [call, none, Evaluation.tryRules]

theorem normalizing_evaluation (d : Definition) (limit depth : Nat) :
    (d.evaluation limit depth).Normalizing := by
  induction depth with
  | zero =>
    refine Evaluation.normalizing_algebra fun label term value whole made => ?_
    rw [call] at made
    split at made
    · cases made
      exact whole
    · cases made
  | succ depth ih =>
    refine Evaluation.normalizing_algebra fun label term value whole made => ?_
    rcases Evaluation.of_tryRules made with rfl | ⟨_, _, _, _, _, _, _, _, evaluated⟩
    · exact whole
    · rw [← fold_of_evaluateWithin evaluated]
      exact ih.canonical _

end Definition

end Reach
