import Reach.Proofs.Feasibility
import Reach.Proofs.Preservation

/-!
Evaluation is stable under instantiation: a term may be evaluated before its variables are replaced.
Rules are tried in order, and one that does not match a symbolic call is passed over although it may
match an instance of the call. So of two rules that take a call in common the first one has to be as
general as the later one.
-/

namespace Reach

namespace Rule

/-- The left-hand side matches the call. -/
def Takes (rule : Rule) (call : Term) : Prop :=
  Matching.enumerate rule.lhs call ≠ .nil

/-- If the rules take a call in common, the first one takes every call that the later one takes. -/
def Precedes (first later : Rule) : Prop :=
  (∃ call, first.Takes call ∧ later.Takes call) → ∀ call, later.Takes call → first.Takes call

end Rule

namespace Evaluation

variable {eval : Eval} {rule : Rule} {rest : List Rule} {call value : Term} {s : Subst}

theorem tryRules_of_nil (none : Matching.enumerate rule.lhs call = .nil) :
    tryRules eval call (rule :: rest) = tryRules eval call rest := by
  rw [tryRules, none]
  rfl

/-- A rule without lookups that matches in one way. -/
theorem tryRules_of_single (plain : rule.lookups = [])
    (one : Matching.enumerate rule.lhs call = .single s) :
    tryRules eval call (rule :: rest) = .ok value ↔
      ∃ requires, eval (s.apply rule.requires) = .ok requires ∧
        (if requires.isTrue then eval (s.apply rule.rhs)
          else if requires.isFalse then tryRules eval call rest else .ok call) = .ok value := by
  have unfolded : tryRules eval call (rule :: rest) = (do
      let requires ← eval (s.apply rule.requires)
      if requires.isTrue then eval (s.apply rule.rhs)
      else if requires.isFalse then tryRules eval call rest else .ok call) := by
    rw [tryRules, one, Enumeration.single, tryMatches, plain, lookups]
    simp only [Except.bind, bind, tryBindings, pure, Except.pure, tryMatches]
    cases eval (s.apply rule.requires) with
    | error failure => rfl
    | ok requires =>
      by_cases holds : requires.isTrue = true
      · simp only [holds, if_true]
        cases eval (s.apply rule.rhs) <;> rfl
      · by_cases fails : requires.isFalse = true
        · simp only [holds, fails, if_true, Bool.false_eq_true, if_false]
        · simp only [holds, fails, Bool.false_eq_true, if_false]
  rw [unfolded, bind_eq_ok_iff]
end Evaluation

namespace Definition

variable {d : Definition} {limit depth more : Nat} {values : Variable → Term}
  {known : Variable → Prop} {label : String} {sort : TermSort} {args : List Term}
  {term value result : Term} {rule : Rule} {rules : List Rule} {s : Subst}

/-- Variables have orderly values of sorts that theirs accept, which are final where they are known. -/
structure Valued (d : Definition) (limit depth : Nat) (values : Variable → Term)
    (known : Variable → Prop) : Prop where
  canonical : ∀ v, (values v).Canonical
  has : ∀ v, d.signature.Has v.sort (values v)
  final : ∀ v, known v → (values v).Everywhere (d.Final limit depth)

/-- A term that may be matched: it has a value under the assignment. -/
structure Subject (d : Definition) (limit depth : Nat) (values : Variable → Term)
    (known : Variable → Prop) (term : Term) : Prop where
  canonical : term.Canonical
  orderly : term.Everywhere d.signature.Orderly
  runs : term.Everywhere (d.Runs limit depth values known)

theorem Subject.of_app (subject : d.Subject limit depth values known (.app label sort args)) :
    ∀ arg ∈ args, d.Subject limit depth values known arg :=
  fun arg member => ⟨subject.canonical.of_app arg member,
    (Term.Everywhere.app_iff.mp subject.orderly).2 arg member,
    (Term.Everywhere.app_iff.mp subject.runs).2 arg member⟩

namespace Equational

variable (equational : d.Equational)
include equational

/-- Constructors have no rules and no hooks, so evaluation keeps them. -/
theorem keeps_under (limit depth : Nat) (values : Variable → Term) :
    d.signature.Keeps (Term.fold (d.under limit depth values)) where
  token _ _ := rfl
  app label sort args constructor := by
    rw [Term.fold_app]
    refine Evaluation.algebra_app ?_
    have unhooked : d.signature.callHook label (args.map (Term.fold (d.under limit depth values))) =
        none := by
      rw [Signature.callHook, equational.hooks label constructor]
      rfl
    rw [Evaluation.node, unhooked]
    dsimp only
    rw [constructor]
    rfl

/-- The match of a symbolic call becomes a match of its instance. -/
theorem carried_under (valued : d.Valued limit depth values known)
    (member : rule ∈ d.functionRules label)
    (given : ∀ arg ∈ args, d.Subject limit depth values known arg) :
    Matching.Problem.Carried (d.Subject limit depth values known)
      (Term.fold (d.under limit depth values)) (· ∈ rule.lhs.vars)
      (Matching.enumerate rule.lhs (.app label sort args))
      (Matching.enumerate rule.lhs
        (.app label sort (args.map (Term.fold (d.under limit depth values))))) :=
  equational.carried member given (fun _ _ _ => Subject.of_app)
    (equational.keeps_under limit depth values) fun _ subject =>
      (equational.has_under limit depth valued.canonical (fun v _ => valued.has v) subject.orderly).2

end Equational

/-- A term whose variables are bound to values has the value that it has where they are bound to what
has these values. -/
theorem Valued.of_instance (valued : d.Valued limit depth values known) (enough : more ≤ depth)
    {s' : Subst} (subjects : ∀ v ∈ term.vars, d.Subject limit depth values known (s.image v))
    (images : ∀ v ∈ term.vars, s'.image v = (s.image v).fold (d.under limit depth values))
    (made : d.evaluateWithin limit more (s'.apply term) = .ok value) :
    (s.apply term).Everywhere (d.Runs limit depth values known) ∧
      (s.apply term).fold (d.under limit depth values) = value := by
  have normalizing := d.normalizing_under limit depth valued.canonical
  obtain ⟨succeeds, rfl⟩ := evaluateWithin_eq_ok_iff.mp made
  have agree : ∀ v ∈ term.vars, (s'.image v).Everywhere (d.Succeeds limit more) →
      (s.image v).Everywhere (d.Runs limit depth values known) ∧
        (s.image v).fold (d.under limit depth values) =
          (s'.image v).fold (d.evaluation limit more) := by
    intro v occurs known
    have subject := subjects v occurs
    have here := evaluateWithin_mono enough (evaluateWithin_eq_ok_iff.mpr ⟨known, rfl⟩)
    have final : d.evaluateWithin limit depth (s'.image v) = .ok (s'.image v) := by
      rw [images v occurs]
      exact evaluateWithin_of_final (normalizing.canonical _) (final_of_runs valued.final subject.runs)
    rw [← images v occurs]
    exact ⟨subject.runs, Except.ok.inj (final.symm.trans here)⟩
  have runs := (Evaluation.runs_apply_iff (d.normalizing_evaluation limit more) s').mp succeeds
  obtain ⟨runs, same⟩ := Evaluation.Runs.transfer (fun _ _ _ => call_mono enough) agree runs
  refine ⟨(Evaluation.runs_apply_iff normalizing s).mpr runs, ?_⟩
  rw [normalizing.fold_apply, (d.normalizing_evaluation limit more).fold_apply]
  exact same

/-- Replacing a term by its value at a depth changes neither whether it runs under the assignment nor
its value under the assignment. -/
def Transparent (d : Definition) (limit depth : Nat) (values : Variable → Term)
    (known : Variable → Prop) (inner : Nat) : Prop :=
  ∀ term value, term.Everywhere d.signature.Orderly →
    term.Everywhere (d.Runs limit depth values known) →
    d.evaluateWithin limit inner term = .ok value →
      value.Everywhere (d.Runs limit depth values known) ∧
        value.fold (d.under limit depth values) = term.fold (d.under limit depth values)

/-- What a rule mentions is evaluated under a match of a symbolic call and under the match of its
instance alike. -/
theorem Valued.of_match (valued : d.Valued limit depth values known) (enough : more ≤ depth)
    (bindings : ∀ v term, s.get? v = some term → d.Subject limit depth values known term ∧
      v.sort.accepts term.sort = true)
    (binds : ∀ v, v ∈ rule.lhs.vars → (s.get? v).isSome = true)
    (mentions : rule.Mentions d.signature term) (checked : d.signature.check term = .ok ())
    (made : d.evaluateWithin limit more
      (Subst.apply (s.mapValues (Term.fold (d.under limit depth values))) term) = .ok value) :
    (s.apply term).Everywhere d.signature.Orderly ∧
      (s.apply term).Everywhere (d.Runs limit depth values known) ∧
        (s.apply term).fold (d.under limit depth values) = value := by
  have bound (v : Variable) (occurs : v ∈ term.vars) : s.get? v = some (s.image v) := by
    obtain ⟨image, found⟩ := Option.isSome_iff_exists.mp (binds v (mentions.vars v occurs))
    rw [Subst.image, found]
    rfl
  have canonical : s.Canonical := fun v term found => (bindings v term found).1.canonical
  refine ⟨?_, valued.of_instance enough (fun v occurs => (bindings v _ (bound v occurs)).1)
    (fun v occurs => ?_) made⟩
  · refine (Signature.has_apply canonical (fun v occurs => ?_) mentions.canonical
      (Signature.orderly_of_check checked mentions.unmapped)).1
    obtain ⟨subject, accepted⟩ := bindings v _ (bound v occurs)
    exact ⟨subject.orderly, accepted⟩
  · rw [Subst.image, Assoc.get?_mapValues, bound v occurs]
    rfl

namespace Equational

variable (equational : d.Equational)
include equational

/-- If the instance of a call is taken by a rule, then so is the call, or no later rule takes it. -/
theorem passes_of_precedes (valued : d.Valued limit depth values known) {later : Rule}
    (member : later ∈ d.functionRules label) (precedes : rule.Precedes later)
    (given : ∀ arg ∈ args, d.Subject limit depth values known arg)
    (none : Matching.enumerate rule.lhs (.app label sort args) = .nil)
    (taken : later.Takes (.app label sort args)) :
    Matching.enumerate rule.lhs
      (.app label sort (args.map (Term.fold (d.under limit depth values)))) = .nil := by
  by_contra both
  rcases equational.carried_under valued member given with refused | ⟨s, _, other, _⟩
  · exact taken refused
  · refine precedes ⟨_, both, ?_⟩ _ taken none
    rw [Rule.Takes, other]
    nofun

theorem of_tryRules {inner : Nat} (valued : d.Valued limit (more + 1) values known)
    (transparent : d.Transparent limit (more + 1) values known inner)
    (listed : ∀ rule ∈ rules, rule ∈ d.functionRules label) (ordered : rules.Pairwise Rule.Precedes)
    (given : ∀ arg ∈ args, d.Subject limit (more + 1) values known arg)
    (symbolic : Evaluation.tryRules (d.evaluateWithin limit inner) (.app label sort args) rules =
      .ok value)
    (concrete : Evaluation.tryRules (d.evaluateWithin limit more)
      (.app label sort (args.map (Term.fold (d.under limit (more + 1) values)))) rules = .ok result) :
    value = .app label sort args ∨ ∃ term : Term, term.Everywhere d.signature.Orderly ∧
      term.Everywhere (d.Runs limit (more + 1) values known) ∧
      d.evaluateWithin limit inner term = .ok value ∧
      term.fold (d.under limit (more + 1) values) = result := by
  induction rules with
  | nil => exact .inl (Except.ok.inj symbolic).symm
  | cons rule rest ih =>
    obtain ⟨member, listed⟩ := List.forall_mem_cons.mp listed
    obtain ⟨precedes, ordered⟩ := List.pairwise_cons.mp ordered
    have equation := equational.rules label rule member
    obtain ⟨terms, _⟩ := Rule.check_terms (equational.checked label rule member)
    rcases @equational.carried_under _ _ _ _ _ label sort args rule valued member given with
      none | ⟨s, one, other, bindings, binds⟩
    · rw [Evaluation.tryRules_of_nil none] at symbolic
      rcases Evaluation.of_tryRules symbolic with rfl | ⟨later, among, s, matched, _⟩
      · exact .inl rfl
      · -- The later rule takes the instance too, so this one would have taken the call.
        have taken : later.Takes (.app label sort args) := by
          intro refused
          rw [refused] at matched
          cases matched
        have passes := equational.passes_of_precedes valued (listed later among)
          (precedes later among) given none taken
        rw [Evaluation.tryRules_of_nil passes] at concrete
        exact ih listed ordered symbolic concrete
    · obtain ⟨condition, asked, symbolic⟩ :=
        (Evaluation.tryRules_of_single equation.lookups one).mp symbolic
      obtain ⟨answer, answered, concrete⟩ :=
        (Evaluation.tryRules_of_single equation.lookups other).mp concrete
      obtain ⟨orderly, runs, same⟩ := valued.of_match (Nat.le_succ more) bindings binds
        equation.requires (terms rule.requires (by simp)) answered
      obtain ⟨_, agree⟩ := transparent _ _ orderly runs asked
      rw [same] at agree
      have literal (sort : TermSort) (value : String) :
          (Term.token sort value).fold (d.under limit (more + 1) values) = .token sort value := rfl
      by_cases holds : condition.isTrue = true
      · rw [if_pos holds] at symbolic
        obtain rfl := (Hook.fold_of_bool? literal (beq_iff_eq.mp holds)).symm.trans agree
        rw [if_pos holds] at concrete
        obtain ⟨orderly, runs, same⟩ := valued.of_match (Nat.le_succ more) bindings
          binds equation.rhs (terms rule.rhs (by simp)) concrete
        exact .inr ⟨_, orderly, runs, symbolic, same⟩
      · rw [if_neg holds] at symbolic
        by_cases fails : condition.isFalse = true
        · rw [if_pos fails] at symbolic
          obtain rfl := (Hook.fold_of_bool? literal (beq_iff_eq.mp fails)).symm.trans agree
          rw [if_neg holds, if_pos fails] at concrete
          exact ih listed ordered symbolic concrete
        · rw [if_neg fails] at symbolic
          exact .inl (Except.ok.inj symbolic).symm

/-- What the rules make of a symbolic call they make of its instance, or the call is left alone. -/
theorem of_call {inner : Nat} (valued : d.Valued limit depth values known)
    (ordered : ∀ label, (d.functionRules label).Pairwise Rule.Precedes)
    (transparent : ∀ below < inner, d.Transparent limit depth values known below)
    (given : ∀ arg ∈ args, d.Subject limit depth values known arg)
    (symbolic : d.call limit inner label (.app label sort args) = .ok value)
    (concrete : d.call limit depth label
      (.app label sort (args.map (Term.fold (d.under limit depth values)))) = .ok result) :
    value = .app label sort args ∨ value.Everywhere (d.Runs limit depth values known) ∧
      value.fold (d.under limit depth values) = result := by
  cases inner with
  | zero =>
    rw [Definition.call] at symbolic
    split at symbolic
    · exact .inl (Except.ok.inj symbolic).symm
    · cases symbolic
  | succ inner =>
    cases depth with
    | zero =>
      rw [Definition.call] at concrete
      split at concrete
      · next bare =>
        rw [call_of_functionRules_eq_nil (List.isEmpty_iff.mp bare)] at symbolic
        exact .inl (Except.ok.inj symbolic).symm
      · cases concrete
    | succ more =>
      have below := transparent inner (Nat.lt_succ_self inner)
      refine (equational.of_tryRules valued below (fun _ => id) (ordered label) given symbolic
        concrete).imp_right fun fired => ?_
      obtain ⟨term, orderly, runs, evaluated, same⟩ := fired
      obtain ⟨runs, agree⟩ := below term value orderly runs evaluated
      exact ⟨runs, agree.trans same⟩

/-- What an application of final terms is evaluated to has the value of its instance. -/
theorem of_node {inner : Nat} (valued : d.Valued limit depth values known)
    (ordered : ∀ label, (d.functionRules label).Pairwise Rule.Precedes)
    (transparent : ∀ below < inner, d.Transparent limit depth values known below)
    (orderly : d.signature.Orderly (.app label sort args))
    (given : ∀ arg ∈ args, d.Subject limit depth values known arg)
    (final : ∀ arg ∈ args, arg.Everywhere (d.Final limit inner))
    (symbolic : Evaluation.node d.signature (d.call limit inner) label sort args = .ok value)
    (concrete : Evaluation.node d.signature (d.call limit depth) label sort
      (args.map (Term.fold (d.under limit depth values))) = .ok result) :
    value.Everywhere (d.Runs limit depth values known) ∧
      value.fold (d.under limit depth values) = result := by
  have stays (same : value = .app label sort args) :
      value.Everywhere (d.Runs limit depth values known) ∧
        value.fold (d.under limit depth values) = result := by
    subst same
    refine ⟨Term.Everywhere.app_iff.mpr ⟨⟨result, concrete⟩, fun arg member => (given arg member).runs⟩, ?_⟩
    rw [Term.fold_app]
    exact Evaluation.algebra_app concrete
  unfold Evaluation.node at symbolic
  split at symbolic
  · next called =>
    cases symbolic
    have fixed {part : Term} (canonical : part.Canonical)
        (final : part.Everywhere (d.Final limit inner)) (ground : part.ground = true) :
        part.fold (d.under limit depth values) = part :=
      fold_of_final canonical ground final depth values
    have after := Signature.callHook_fold (d.normalizing_under limit depth valued.canonical)
      (fun _ _ => rfl) orderly.2 (fun name hook hooked named compares =>
        ⟨fun arg member => fixed (given arg member).canonical (final arg member),
          fun kind entries frame member entry inside => fixed
            ((given _ member).canonical.of_entry entry inside _ entry.key_mem_parts)
            ((Term.Everywhere.collection_iff.mp (final _ member)).2.1 entry inside _
              entry.key_mem_parts)⟩) called
    rw [Evaluation.node, after] at concrete
    refine ⟨?_, Except.ok.inj concrete⟩
    exact (Signature.result_of_callHook called).everywhere (fun arg member => (given arg member).runs)
      (fun _ => trivial) (fun _ => trivial) (fun _ => trivial) fun _ _ _ _ _ _ => trivial
  · next free =>
    dsimp only at symbolic
    split at symbolic
    · next function =>
      by_cases ruled : d.functionRules label = []
      · rw [call_of_functionRules_eq_nil ruled] at symbolic
        exact stays (Except.ok.inj symbolic).symm
      · have unhooked : d.signature.callHook label
            (args.map (Term.fold (d.under limit depth values))) = none := by
          rw [Signature.callHook, equational.unhooked label ruled]
          rfl
        rw [Evaluation.node, unhooked] at concrete
        dsimp only at concrete
        rw [if_pos function] at concrete
        exact (equational.of_call valued ordered transparent given symbolic concrete).elim stays id
    · exact stays (Except.ok.inj symbolic).symm

theorem transparent (valued : d.Valued limit depth values known)
    (ordered : ∀ label, (d.functionRules label).Pairwise Rule.Precedes) (inner : Nat) :
    d.Transparent limit depth values known inner := by
  induction inner using Nat.strongRecOn with
  | ind inner below =>
  intro term value orderly runs evaluated
  obtain ⟨succeeds, rfl⟩ := evaluateWithin_eq_ok_iff.mp evaluated
  clear evaluated
  have normalizing := d.normalizing_under limit depth valued.canonical
  have canonical (part : Term) : (part.fold (d.evaluation limit inner)).Canonical :=
    (d.normalizing_evaluation limit inner).canonical part
  induction term using Term.induct with
  | var v => exact ⟨runs, rfl⟩
  | token sort value => exact ⟨runs, rfl⟩
  | app label sort args ih =>
    obtain ⟨orderlyHere, orderlyInner⟩ := Term.Everywhere.app_iff.mp orderly
    obtain ⟨⟨result, concrete⟩, runsInner⟩ := Term.Everywhere.app_iff.mp runs
    obtain ⟨⟨value, symbolic⟩, succeedsInner⟩ := Term.Everywhere.app_iff.mp succeeds
    have each (arg : Term) (member : arg ∈ args) := ih arg member (orderlyInner arg member)
      (runsInner arg member) (succeedsInner arg member)
    have has (arg : Term) (member : arg ∈ args) := equational.has_under limit inner Term.Canonical.var
      (fun v _ => d.signature.has_var v) (orderlyInner arg member)
    have images : (args.map (Term.fold (d.evaluation limit inner))).map
        (Term.fold (d.under limit depth values)) = args.map (Term.fold (d.under limit depth values)) := by
      rw [List.map_map]
      exact List.map_congr_left fun arg member => (each arg member).2
    have folded : (Term.app label sort args).fold (d.evaluation limit inner) = value :=
      (Term.fold_app _ _ _ _).trans (Evaluation.algebra_app symbolic)
    have foldedInstance : (Term.app label sort args).fold (d.under limit depth values) = result :=
      (Term.fold_app _ _ _ _).trans (Evaluation.algebra_app concrete)
    rw [folded, foldedInstance]
    refine equational.of_node valued ordered below (orderlyHere.map fun arg member => (has arg member).2)
      (List.forall_mem_map.mpr fun arg member => ?_) (List.forall_mem_map.mpr fun arg member => ?_)
      symbolic (images ▸ concrete)
    · exact ⟨canonical arg, (has arg member).1, (each arg member).1⟩
    · exact final_of_runs (fun v _ => Term.Everywhere.var_iff.mpr trivial) (succeedsInner arg member)
  | collection kind entries frame ihEntries ihFrame =>
    obtain ⟨_, orderlyInner, orderlyLast⟩ := Term.Everywhere.collection_iff.mp orderly
    obtain ⟨_, runsInner, runsLast⟩ := Term.Everywhere.collection_iff.mp runs
    obtain ⟨_, succeedsInner, succeedsLast⟩ := Term.Everywhere.collection_iff.mp succeeds
    have each (entry : Entry Term) (member : entry ∈ entries) (part : Term)
        (inside : part ∈ entry.parts) := ihEntries entry member part inside
      (orderlyInner entry member part inside) (runsInner entry member part inside)
      (succeedsInner entry member part inside)
    have frames (rest : Term) (member : rest ∈ frame) := ihFrame rest member
      (orderlyLast rest member) (runsLast rest member) (succeedsLast rest member)
    rw [(d.normalizing_evaluation limit inner).fold_collection_eq]
    constructor
    · refine .normalized (fun entry member part inside => ?_) (fun rest member => ?_) fun _ _ => trivial
      · obtain ⟨source, present, piece, within, rfl⟩ := Entry.mem_parts_map member inside
        exact (each source present piece within).1
      · obtain ⟨source, present, rfl⟩ := Option.map_eq_some_iff.mp member
        exact (frames source present).1
    · rw [normalizing.fold_normalized, normalizing.fold_collection_eq, List.map_map, Option.map_map]
      congr 1
      · refine List.map_congr_left fun entry member => ?_
        rw [Function.comp_apply, Entry.map_map]
        exact Entry.map_congr fun part inside => (each entry member part inside).2
      · exact Option.map_congr fun rest member => (frames rest member).2

/-- The images of a substitution, evaluated. -/
theorem valued_image (limit depth : Nat) (sorted : s.Sorted)
    (images : ∀ v image, s.get? v = some image → d.signature.check image = .ok () ∧
      image.Within d.signature.unmapped) :
    d.Valued limit depth (fun v => (s.image v).fold (d.evaluation limit depth))
      fun v => (s.image v).Everywhere (d.Succeeds limit depth) where
  canonical v := (d.normalizing_evaluation limit depth).canonical (s.image v)
  has v := by
    have orderly : (s.image v).Everywhere d.signature.Orderly := by
      cases bound : s.get? v with
      | none =>
        rw [Subst.image_of_get?_none bound]
        exact (d.signature.has_var v).1
      | some image =>
        rw [show s.image v = image by simp [Subst.image, bound]]
        exact Signature.orderly_of_check (images v image bound).1 (images v image bound).2
    obtain ⟨kept, accepted⟩ := equational.has_under limit depth Term.Canonical.var
      (fun w _ => d.signature.has_var w) orderly
    exact ⟨kept, TermSort.accepts_trans (sorted.image v) accepted⟩
  final v known := final_of_runs (fun w _ => Term.Everywhere.var_iff.mpr trivial) known

end Equational

end Definition

/-- Over the builtin labels and unhooked ones, let every rule of a function be an equation, and let no
rule that takes a call in common with a later one be less general. Then a term whose builtins are not
on maps may be evaluated before its variables are replaced. -/
theorem evaluate_apply_evaluate {decls : List Declaration} {sig : Signature} {rules : List Rule}
    {d : Definition} {limit : Nat} {s : Subst} {term value result : Term}
    (declared : Signature.builtin.declareAll decls = .ok sig)
    (plain : ∀ decl ∈ decls, decl.hook = none) (made : Definition.ofRules sig rules = .ok d)
    (equational : ∀ label, ∀ rule ∈ d.functionRules label, rule.Equational sig)
    (unhooked : ∀ label, d.functionRules label ≠ [] → sig.hook? label = none)
    (ordered : ∀ label, (d.functionRules label).Pairwise Rule.Precedes)
    (checked : sig.check term = .ok ()) (unmapped : term.Within sig.unmapped)
    (sorted : s.Sorted) (images : ∀ v image, s.get? v = some image → sig.check image = .ok () ∧
      image.Within sig.unmapped)
    (evaluated : d.evaluate limit term = .ok value)
    (instantiated : d.evaluate limit (s.apply term) = .ok result) :
    d.evaluate limit (s.apply value) = .ok result := by
  have equations := Definition.equational_of_ofRules declared plain made equational unhooked
  obtain rfl := (Definition.parted_of_ofRules made).1.signature
  have normalizing := d.normalizing_evaluation limit limit
  have valued := equations.valued_image limit limit sorted images
  obtain ⟨succeeds, rfl⟩ := Definition.evaluateWithin_eq_ok_iff.mp instantiated
  obtain ⟨runs, agree⟩ := equations.transparent valued ordered limit term value
    (Signature.orderly_of_check checked unmapped)
    ((Evaluation.runs_apply_iff normalizing s).mp succeeds) evaluated
  refine Definition.evaluateWithin_eq_ok_iff.mpr ⟨(Evaluation.runs_apply_iff normalizing s).mpr runs, ?_⟩
  rw [normalizing.fold_apply, normalizing.fold_apply]
  exact agree

/-- The function is 1 at zero; the condition says so. -/
def guardedOne : Rule :=
  { label := "one"
    lhs := call (.var ⟨"X", .int⟩)
    rhs := .ofInt 1
    requires := .app Label.intEq .bool [.var ⟨"X", .int⟩, .ofInt 0] }

/-- The function is 1 at zero; the left-hand side says so. -/
def matchedOne : Rule :=
  { label := "one", lhs := call (.ofInt 0), rhs := .ofInt 1 }

/-- The function is 2 where the first rule does not apply. -/
def elsewhereTwo (first : Rule) : Definition :=
  { constantTwo with functions := Assoc.empty.insert "f" [first, alwaysTwo] }

private theorem elsewhereTwo_guarded :
    Definition.ofRules oneFunction [guardedOne, alwaysTwo] = .ok (elsewhereTwo guardedOne) := by
  rfl

theorem functionRules_elsewhereTwo (first : Rule) (label : String) :
    (elsewhereTwo first).functionRules label = if label = "f" then [first, alwaysTwo] else [] := by
  have stored : (elsewhereTwo first).functions.get? label =
      if label = "f" then some [first, alwaysTwo] else none :=
    Assoc.get?_insert _ _ _ _
  rw [Definition.functionRules, stored]
  split <;> rfl

theorem mem_functionRules_elsewhereTwo {first rule : Rule} {label : String}
    (member : rule ∈ (elsewhereTwo first).functionRules label) :
    label = "f" ∧ (rule = first ∨ rule = alwaysTwo) := by
  rw [functionRules_elsewhereTwo] at member
  split at member
  · next same => exact ⟨same, by simpa using member⟩
  · cases member

theorem mentions_token (rule : Rule) (sort : TermSort) (value : String) :
    rule.Mentions oneFunction (.token sort value) :=
  ⟨.token sort value, Term.Everywhere.token_iff.mpr trivial, nofun⟩

private theorem equational_guardedOne : guardedOne.Equational oneFunction where
  patterns arg member := by
    obtain rfl := List.mem_singleton.mp member
    exact Term.Everywhere.var_iff.mpr trivial
  lookups := rfl
  requires := by
    refine ⟨.app _ _ ?_, Term.Everywhere.app_iff.mpr ⟨fun name hook hooked named => ?_, ?_⟩, ?_⟩
    · simpa using ⟨Term.Canonical.var _, Term.Canonical.token _ _⟩
    · rw [show oneFunction.hook? Label.intEq = some "INT.eq" from rfl] at hooked
      cases hooked
      cases named
      rfl
    · simpa using ⟨Term.Everywhere.var_iff.mpr trivial, Term.Everywhere.token_iff.mpr trivial⟩
    · decide
  rhs := mentions_token _ _ _

private theorem equational_alwaysTwo : alwaysTwo.Equational oneFunction where
  patterns arg member := by
    obtain rfl := List.mem_singleton.mp member
    exact Term.Everywhere.var_iff.mpr trivial
  lookups := rfl
  requires := mentions_token _ _ _
  rhs := mentions_token _ _ _

/-- An undecided condition blocks the second rule, so the call stays until the variable is known. -/
theorem evaluate_apply_evaluate_guarded :
    (elsewhereTwo guardedOne).evaluate 256
      ((Subst.single ⟨"Y", .int⟩ (.ofInt 0)).apply (call (.var ⟨"Y", .int⟩))) = .ok (.ofInt 1) := by
  have ordered (label : String) :
      ((elsewhereTwo guardedOne).functionRules label).Pairwise Rule.Precedes := by
    rw [functionRules_elsewhereTwo]
    split
    · exact List.pairwise_pair.mpr fun _ _ taken => taken
    · exact .nil
  have unhooked (label : String) (ruled : (elsewhereTwo guardedOne).functionRules label ≠ []) :
      oneFunction.hook? label = none := by
    obtain ⟨rule, member⟩ := List.exists_mem_of_ne_nil _ ruled
    obtain ⟨rfl, _⟩ := mem_functionRules_elsewhereTwo member
    rfl
  have symbolic : (elsewhereTwo guardedOne).evaluate 256 (call (.var ⟨"Y", .int⟩)) =
      .ok (call (.var ⟨"Y", .int⟩)) := by
    decide +kernel
  refine evaluate_apply_evaluate oneFunction_declared (by decide) elsewhereTwo_guarded
    (fun label rule member => ?_) unhooked ordered (by decide) ?_ (Subst.Sorted.single rfl)
    (fun v image bound => ?_) symbolic (by decide +kernel)
  · rcases (mem_functionRules_elsewhereTwo member).2 with rfl | rfl
    · exact equational_guardedOne
    · exact equational_alwaysTwo
  · refine Term.Everywhere.app_iff.mpr ⟨fun name hook hooked => ?_, ?_⟩
    · rw [show oneFunction.hook? "f" = none from rfl] at hooked
      cases hooked
    · simpa using Term.Everywhere.var_iff.mpr trivial
  · obtain ⟨rfl, rfl⟩ := Subst.eq_of_get?_single bound
    exact ⟨rfl, Term.Everywhere.token_iff.mpr trivial⟩

/-- A rule that does not match the symbolic call is passed over, although it matches an instance. -/
theorem evaluate_apply_evaluate_matched :
    Definition.ofRules oneFunction [matchedOne, alwaysTwo] = .ok (elsewhereTwo matchedOne) ∧
      (elsewhereTwo matchedOne).evaluate 256 (call (.var ⟨"Y", .int⟩)) = .ok (.ofInt 2) ∧
      (elsewhereTwo matchedOne).evaluate 256
        ((Subst.single ⟨"Y", .int⟩ (.ofInt 0)).apply (call (.var ⟨"Y", .int⟩))) = .ok (.ofInt 1) ∧
      (elsewhereTwo matchedOne).evaluate 256
        ((Subst.single ⟨"Y", .int⟩ (.ofInt 0)).apply (.ofInt 2)) ≠ .ok (.ofInt 1) := by
  refine ⟨rfl, ?_, ?_, ?_⟩
  · decide +kernel
  · decide +kernel
  · decide +kernel

end Reach
